import T2Sde.Lib.Unpack
import T2Sde.Bize.Keep
import T2Sde.Bize.Names
import Mathlib.Algebra.Order.BigOperators.Group.List
import Mathlib.Algebra.Order.Group.Nat
/-!
# Installing a package (`package/archiver/bize/bize.sh`, `scripts/Build-Target`)

`bize -i` removes what is there of the package, as `bize -r` does, and unpacks the archive over the rest. The archive
has the files of the list, and with them the list and the checksums that the next update or removal goes by.

| here | there |
| --- | --- |
| `Archive`     | `tar -cf- --no-recursion --files-from=-` (`Build-Target`) :455-458 |
| `bizeInstall` | `bize_install` :61-94, without `-f` and `-t` |
| `Shipped`     | `var/adm/{flists,md5sums}/$xpkg` (`Build-Pkg`) :777-783, :856-859 |

* `update_keeps` — **what an update leaves alone**, whatever is in the archive.
* `install_remove` — **a package that goes leaves the root as it was**.
-/
namespace T2Sde.Bize
open Shell Files

/-- The names of the members, and what they are. -/
abbrev Archive := List (Text × Entry Text Text)

def Target.member (g : Target) (m : Text × Entry Text Text) : List Text × Entry Text Text := (g.file m.1, m.2)

def Target.unpack (g : Target) (members : Archive) (t : Root) : Root :=
  (t.mkdirs g.root).unpack (members.map g.member)

/-- `bize -i -R root arch` -/
def bizeInstall (md5 : Text → Text) (root : List Text) (arch : Text) (members : Archive) (t : Root) : Root :=
  match bizeName arch with
  | none => t
  | some pkg =>
    let g : Target := { root := root, pkg := pkg }
    g.unpack members (if t.isFile g.list then bizeRemove md5 true g t else t)

/-! ## What is shipped -/

def flistsPath (pkg : Text) : Text := "var/adm/flists/".toList ++ pkg
def md5sumsPath (pkg : Text) : Text := "var/adm/md5sums/".toList ++ pkg

/-- The archive has the files of the list, among them the list itself and the checksums of those outside of
`var/adm`. -/
structure Shipped (md5 : Text → Text) {g : Target} (l : Listing g) (s : Sums g) (members : Archive) : Prop where
  order : members.map Prod.fst = pkgloopPackage (flist g.pkg l.paths)
  list : (flistsPath g.pkg, .file (flist g.pkg l.paths)) ∈ members
  sums : (md5sumsPath g.pkg, .file (unlines (s.records.map recordLine))) ∈ members
  recorded : ∀ p content, (p, Entry.file content) ∈ members → ¬ InAdm p → (md5 content, p) ∈ s.records
  only : ∀ r ∈ s.records, r.2 ∈ l.paths ∧ ¬ InAdm r.2

/-- The members fit into the root. -/
abbrev FitsIn (g : Target) (members : Archive) (t : Root) : Prop := Tree.Fits t (members.map g.member)

/-- What they share with it are directories in which there is something else. -/
structure Room (g : Target) (members : Archive) (t : Root) : Prop where
  fits : FitsIn g members t
  shared : ∀ m ∈ members, m.2 = .dir → t.entry (g.file m.1) = some .dir →
    ∃ q e, t.entry (g.file m.1 ++ q) = some e ∧ q ≠ [] ∧ ∀ m' ∈ members, g.file m'.1 ≠ g.file m.1 ++ q

variable {md5 : Text → Text} {g : Target} {t : Root} {l : Listing g} {s : Sums g} {members : Archive}

/-! ## Any archive -/

theorem sub_targetUnpack (g : Target) (members : Archive) (t : Root) : t.Sub (g.unpack members t) :=
  (t.sub_mkdirs g.root).trans (Tree.sub_unpack _ _)

theorem bizeName_slash {arch pkg : Text} (h : bizeName arch = some pkg) : '/' ∉ pkg := by
  rw [bizeName] at h
  split at h
  · cases h
  · simp only at h
    split at h
    · cases h
    · obtain rfl := Option.some.inj h
      intro hc
      have := List.mem_rtakeWhile_imp hc
      simp at this

/-- The list of the package is where it is looked for. -/
theorem file_flistsPath (h : '/' ∉ g.pkg) : g.file (flistsPath g.pkg) = g.list := by
  have hnames : names (flistsPath g.pkg) = ["var".toList, "adm".toList, "flists".toList, g.pkg] := by
    have hpath :
        flistsPath g.pkg = "var".toList ++ '/' :: ("adm".toList ++ '/' :: ("flists".toList ++ '/' :: g.pkg)) := rfl
    rw [names, hpath, splitOn_cons (by decide), splitOn_cons (by decide), splitOn_cons (by decide), splitOn_single h]
  rw [Target.file, hnames, Target.list]

theorem file_md5sumsPath (h : '/' ∉ g.pkg) : g.file (md5sumsPath g.pkg) = g.md5s := by
  have hnames : names (md5sumsPath g.pkg) = ["var".toList, "adm".toList, "md5sums".toList, g.pkg] := by
    have hpath :
        md5sumsPath g.pkg = "var".toList ++ '/' :: ("adm".toList ++ '/' :: ("md5sums".toList ++ '/' :: g.pkg)) := rfl
    rw [names, hpath, splitOn_cons (by decide), splitOn_cons (by decide), splitOn_cons (by decide), splitOn_single h]
  rw [Target.file, hnames, Target.md5s]

theorem inAdm_flistsPath (pkg : Text) : InAdm (flistsPath pkg) :=
  ⟨"flists/".toList ++ pkg, rfl⟩

/-- The files of the list are the members. -/
theorem Shipped.mem_paths (hs : Shipped md5 l s members) (p : Text) : p ∈ l.paths ↔ ∃ e, (p, e) ∈ members := by
  rw [← (pkgloop_perm l.pkg_line fun p hp => (l.plainPaths p hp).line).mem_iff, ← hs.order, List.mem_map]
  constructor
  · rintro ⟨⟨p, e⟩, hm, rfl⟩
    exact ⟨e, hm⟩
  · rintro ⟨e, hm⟩
    exact ⟨(p, e), hm, rfl⟩

/-- The root with the members, and with all that was there. -/
structure Holds (g : Target) (members : Archive) (t T : Root) : Prop where
  member : ∀ m ∈ members, T.entry (g.file m.1) = some m.2
  other : ∀ q, (∀ m ∈ members, g.file m.1 ≠ q) → T.entry q = t.entry q

namespace FitsIn

theorem mem (hm : m ∈ members) : g.member m ∈ members.map g.member := List.mem_map_of_mem hm

/-- The root is there. -/
theorem root (hf : FitsIn g members t) {m : Text × Entry Text Text} (hm : m ∈ members) :
    t.entry g.root = some .dir := by
  have hne : names m.1 ≠ [] := List.splitOn_ne_nil _ _
  rcases hf.ways _ (mem hm) g.root (names m.1) rfl hne with h | h
  · exact h
  · obtain ⟨m', -, heq⟩ := List.mem_map.1 h
    have hnil : g.root ++ names m'.1 = g.root ++ [] := by
      rw [List.append_nil]
      exact congrArg Prod.fst heq
    exact absurd (List.append_cancel_left hnil) (List.splitOn_ne_nil _ _)

/-- What is no directory is new. -/
theorem entry_none (hf : FitsIn g members t) {m : Text × Entry Text Text} (hm : m ∈ members) (hdir : m.2 ≠ .dir) :
    t.entry (g.file m.1) = none :=
  (hf.free _ (mem hm)).resolve_right fun h => hdir h.1

theorem holds (hf : FitsIn g members t) {m : Text × Entry Text Text} (hm : m ∈ members) :
    Holds g members t (g.unpack members t) := by
  have hentry := Tree.entry_unpack hf
  rw [Target.unpack, Tree.mkdirs_dir (hf.root hm)]
  refine ⟨fun m hm => hentry.1 _ (mem hm), fun q hq => hentry.2 q fun x hx => ?_⟩
  obtain ⟨m', hm', rfl⟩ := List.mem_map.1 hx
  exact hq m' hm'

/-- The package is not there yet. -/
theorem isFile_list (hf : FitsIn g members t) (hslash : '/' ∉ g.pkg) (hs : Shipped md5 l s members) :
    t.isFile g.list = false := by
  have hnone := hf.entry_none hs.list (by simp)
  have hdirect : t.Direct (g.file (flistsPath g.pkg)) :=
    Tree.Within.direct ⟨.refl t, fun _ _ => .inl⟩ hf (mem hs.list) (List.append_nil _).symm
  have hresolve := hdirect.resolve fun absolute steps hlink => by
    rw [hnone] at hlink
    cases hlink
  rw [Tree.isFile, Tree.read, ← file_flistsPath hslash, hresolve, hnone]
  rfl

end FitsIn

namespace Holds
variable {T : Root}

/-- All on the way to a member are directories. -/
theorem direct (h : Holds g members t T) (hf : FitsIn g members t) {m : Text × Entry Text Text} (hm : m ∈ members) :
    T.Direct (g.file m.1) := by
  intro d r hsplit hne absolute steps hlink
  have hmember : ∀ m' ∈ members, g.file m'.1 = d → m'.2 = .dir → False := by
    intro m' hm' hd hdir
    rw [← hd, h.member m' hm', hdir] at hlink
    cases hlink
  rcases hf.ways _ (FitsIn.mem hm) d r hsplit hne with hdir | hdir
  · by_cases hd : ∃ m' ∈ members, g.file m'.1 = d
    · obtain ⟨m', hm', hd⟩ := hd
      refine hmember m' hm' hd ?_
      by_contra hnot
      rw [← hd, hf.entry_none hm' hnot] at hdir
      cases hdir
    · rw [h.other d fun m' hm' heq => hd ⟨m', hm', heq⟩, hdir] at hlink
      cases hlink
  · obtain ⟨m', hm', heq⟩ := List.mem_map.1 hdir
    exact hmember m' hm' (congrArg Prod.fst heq) (congrArg Prod.snd heq)

theorem place (h : Holds g members t T) (hf : FitsIn g members t) {m : Text × Entry Text Text} (hm : m ∈ members) :
    T.place (g.file m.1) = some (g.file m.1) :=
  (h.direct hf hm).place (file_ne_nil m.1) (h.member m hm)

theorem read (h : Holds g members t T) (hf : FitsIn g members t) {p content : Text}
    (hm : (p, .file content) ∈ members) : T.read (g.file p) = some content := by
  have hresolve := (h.direct hf hm).resolve fun absolute steps hlink => by
    rw [h.member _ hm] at hlink
    cases hlink
  rw [Tree.read, hresolve, h.member _ hm]

theorem isFile_list (h : Holds g members t T) (hf : FitsIn g members t) (hs : Shipped md5 l s members)
    (hslash : '/' ∉ g.pkg) : T.isFile g.list = true := by
  rw [Tree.isFile, ← file_flistsPath hslash, h.read hf hs.list]
  rfl

/-- The list of the package is not one of the recorded files. -/
theorem list_not_recorded (h : Holds g members t T) (hs : Shipped md5 l s members) (hf : FitsIn g members t)
    (hslash : '/' ∉ g.pkg) {q : List Text} (hq : T.resolve g.list = some q) : ¬ Unmodified md5 s T q := by
  rintro ⟨r, hrec, hplace, -⟩
  have hresolve := Tree.resolve_of_place (h.place hf hs.list) (h.member _ hs.list) fun _ _ h => by cases h
  rw [← file_flistsPath hslash, hresolve] at hq
  obtain rfl := Option.some.inj hq
  obtain ⟨e, hm⟩ := (hs.mem_paths r.2).1 (hs.only r hrec).1
  have hpath : flistsPath g.pkg = r.2 := file_inj ((h.direct hf hm).place_eq hplace)
  exact (hs.only r hrec).2 (hpath ▸ inAdm_flistsPath g.pkg)

/-- A removal takes both passes. -/
theorem removed (h : Holds g members t T) (hs : Shipped md5 l s members) (hf : FitsIn g members t)
    (hslash : '/' ∉ g.pkg) : Keeps md5 l s T (bizeRemove md5 true g T) ∧ Clears l T (bizeRemove md5 true g T) := by
  have hlist : l.At T := by
    rw [Listing.At, ← file_flistsPath hslash]
    exact h.read hf hs.list
  have hsums : s.At T := by
    rw [Sums.At, ← file_md5sumsPath hslash]
    exact h.read hf hs.sums
  have hat : l.At (s.records.foldl (removeKept md5 g T) T) :=
    list_at l s hlist fun q hq => h.list_not_recorded hs hf hslash hq
  rw [bizeRemove_keep md5 s hsums, removeListed_eq true l hat]
  have hsub := (Tree.foldl_removed (removeKept_cases md5 g T) s.records T).1
  exact ⟨keeps l s fun p hp => mem_sortReverse.1 hp, clears l hsub (firstPass_ways md5 g s.records _)⟩

end Holds

/-! ## What goes and what stays -/

/-- A package in a root, and what a removal leaves. -/
structure Removal (md5 : Text → Text) (l : Listing g) (s : Sums g) (members : Archive) (t T T' : Root) : Prop where
  shipped : Shipped md5 l s members
  room : Room g members t
  holds : Holds g members t T
  keeps : Keeps md5 l s T T'
  clears : Clears l T T'

namespace Removal
variable {T T' : Root}

/-- What is not of the package stays. -/
theorem stays (h : Removal md5 l s members t T T') {q : List Text} (hq : ∀ m ∈ members, g.file m.1 ≠ q) :
    T'.entry q = t.entry q := by
  rw [← h.holds.other q hq]
  cases he : T.entry q with
  | none => exact h.keeps.sub.entry_none he
  | some e =>
    cases he' : T'.entry q with
    | some e' => rw [← he, h.keeps.sub q e' he']
    | none =>
      obtain ⟨p, hp, hplace⟩ := h.keeps.named q e he he'
      have hpath : p ∈ l.paths := by
        rcases List.mem_append.1 hp with hp | hp
        · exact hp
        · obtain ⟨r, hrec, rfl⟩ := List.mem_map.1 hp
          exact (h.shipped.only r hrec).1
      obtain ⟨e', hm⟩ := (h.shipped.mem_paths p).1 hpath
      exact absurd ((h.holds.direct h.room.fits hm).place_eq hplace).symm (hq _ hm)

/-- What is no directory goes. -/
theorem goes (h : Removal md5 l s members t T T') {m : Text × Entry Text Text} (hm : m ∈ members) (hdir : m.2 ≠ .dir) :
    T'.entry (g.file m.1) = none := by
  have hpath : m.1 ∈ l.paths := (h.shipped.mem_paths m.1).2 ⟨m.2, hm⟩
  have hentry := h.holds.member m hm
  have hdirect := h.holds.direct h.room.fits hm
  obtain ⟨p, e⟩ := m
  cases e with
  | dir => exact absurd rfl hdir
  | link absolute steps => exact h.clears.links p hpath hdirect absolute steps hentry
  | file content =>
    by_cases hadm : InAdm p
    · exact h.clears.adm p hpath hdirect hadm content hentry
    · have hrecorded := h.shipped.recorded p content hm hadm
      exact h.keeps.unmodified _ ⟨_, hrecorded, h.holds.place h.room.fits hm, content, hentry, rfl⟩
  | other =>
    obtain ⟨t₁, order, hsub, hperm, -, rfl⟩ := h.clears.ordered
    refine gone_of_goes (hperm.mem_iff.2 hpath) (hdirect.sub hsub) fun t₂ ht₂ => ?_
    rw [Goes, ht₂]
    cases he : t₁.entry (g.file p) with
    | none => trivial
    | some e =>
      obtain rfl := Option.some.inj (hentry.symm.trans (hsub _ _ he))
      trivial

/-- A new directory goes, for what is in it is new. -/
theorem dir_goes (h : Removal md5 l s members t T T') {m : Text × Entry Text Text} (hm : m ∈ members)
    (hnone : t.entry (g.file m.1) = none) : T'.entry (g.file m.1) = none := by
  have hbound : ∃ n, ∀ x ∈ T.entries, x.1.length ≤ n :=
    ⟨_, fun x hx => List.le_sum_of_mem (List.mem_map_of_mem (f := fun x => x.1.length) hx)⟩
  obtain ⟨n, hbound⟩ := hbound
  have hdirect : ∀ p ∈ l.paths, T.Direct (g.file p) := by
    intro p hp
    obtain ⟨e, hm⟩ := (h.shipped.mem_paths p).1 hp
    exact h.holds.direct h.room.fits hm
  -- the deepest directories go first
  suffices hdepth : ∀ k, ∀ m ∈ members, t.entry (g.file m.1) = none → n < (g.file m.1).length + k →
      T'.entry (g.file m.1) = none from hdepth (n + 1) m hm hnone (by omega)
  intro k
  induction k with
  | zero =>
    intro m hm _ hlong
    have hentry := hbound _ ((Tree.entry_eq_some (file_ne_nil m.1)).1 (h.holds.member m hm))
    simp only at hentry
    omega
  | succ k ih =>
    intro m hm hnone hlong
    by_cases hdir : m.2 = .dir
    swap
    · exact h.goes hm hdir
    have hpath : m.1 ∈ l.paths := (h.shipped.mem_paths m.1).2 ⟨m.2, hm⟩
    rw [h.clears.dirs hdirect m.1 hpath (hdir ▸ h.holds.member m hm)]
    intro q hq
    have hbelow : t.entry (g.file m.1 ++ q) = none := by
      by_contra hsome
      obtain ⟨e, he⟩ := Option.ne_none_iff_exists'.1 hsome
      rw [Tree.entry_front hq he] at hnone
      cases hnone
    by_cases hmember : ∃ m' ∈ members, g.file m'.1 = g.file m.1 ++ q
    · obtain ⟨m', hm', hfile⟩ := hmember
      have hpos := List.length_pos_iff.2 hq
      rw [← hfile]
      refine ih m' hm' (hfile ▸ hbelow) ?_
      rw [hfile, List.length_append]
      omega
    · rw [h.stays fun m' hm' heq => hmember ⟨m', hm', heq⟩, hbelow]

/-- A directory that was there stays, for there is something else in it. -/
theorem dir_stays (h : Removal md5 l s members t T T') {m : Text × Entry Text Text} (hm : m ∈ members)
    (hdir : m.2 = .dir) (hthere : t.entry (g.file m.1) = some .dir) : T'.entry (g.file m.1) = some .dir := by
  obtain ⟨q, e, he, hq, hother⟩ := h.room.shared m hm hdir hthere
  refine Tree.entry_front hq (e := e) ?_
  rw [h.stays hother, he]

theorem entry (h : Removal md5 l s members t T T') (q : List Text) : T'.entry q = t.entry q := by
  by_cases hmember : ∃ m ∈ members, g.file m.1 = q
  · obtain ⟨m, hm, rfl⟩ := hmember
    rcases h.room.fits.free _ (FitsIn.mem hm) with hnone | ⟨hdir, hthere⟩
    · have hnone : t.entry (g.file m.1) = none := hnone
      rw [hnone]
      exact h.dir_goes hm hnone
    · have hthere : t.entry (g.file m.1) = some .dir := hthere
      rw [hthere]
      exact h.dir_stays hm hdir hthere
  · exact h.stays fun m hm heq => hmember ⟨m, hm, heq⟩

end Removal

/-- A removal undoes what the root holds of the package. -/
theorem remove_holds {T : Root} (h : Holds g members t T) (hs : Shipped md5 l s members) (hr : Room g members t)
    (hslash : '/' ∉ g.pkg) (q : List Text) : (bizeRemove md5 true g T).entry q = t.entry q :=
  have hremoved := h.removed hs hr.fits hslash
  Removal.entry ⟨hs, hr, h, hremoved.1, hremoved.2⟩ q

/-! ## Installations -/

theorem bizeInstall_fresh {arch : Text} (hname : bizeName arch = some g.pkg) (hs : Shipped md5 l s members)
    (hf : FitsIn g members t) : Holds g members t (bizeInstall md5 g.root arch members t) := by
  rw [bizeInstall, hname]
  simp only
  rw [if_neg (by simp [hf.isFile_list (bizeName_slash hname) hs])]
  exact hf.holds hs.list

def cArch : Text := "c-1.tar.zst".toList

theorem cArch_name : bizeName cArch = some usr.pkg := by
  unfold cArch usr
  repeat rw [String.toList_ofList]
  decide +kernel

/-- A root with a file in `etc`. -/
def bareTree : Root where
  entries := [(["var".toList], .dir), (["var".toList, "adm".toList], .dir),
    (["var".toList, "adm".toList, "flists".toList], .dir), (["var".toList, "adm".toList, "md5sums".toList], .dir),
    (["etc".toList], .dir), (["etc".toList, "passwd".toList], .file [])]
  named := by decide +kernel
  nodup := by decide +kernel
  closed := by decide +kernel

theorem usr_word : IsWord usr.pkg := by decide

theorem usr_plain : '\\' ∉ usr.pkg := by decide

def cListing : Listing usr where
  paths := ["etc", "etc/b", "var/adm/flists/c", "var/adm/md5sums/c"].map String.toList
  plainPaths := by decide +kernel
  pkgWord := usr_word
  pkgPlain := usr_plain

def cSums (content : Text) : Sums usr where
  records := [(sum content, "etc/b".toList)]
  sums := by
    unfold sum
    split <;> decide +kernel
  plainPaths := by
    intro r hr
    rw [List.mem_singleton.1 hr]
    exact (by decide +kernel : PlainPath "etc/b".toList ∧ "etc/b".toList ≠ ['-'])

/-- The archive with this content of `etc/b`. -/
def cMembers (content : Text) : Archive :=
  [("var/adm/flists/c".toList, .file (flist usr.pkg cListing.paths)),
    ("var/adm/md5sums/c".toList, .file (unlines ((cSums content).records.map recordLine))), ("etc".toList, .dir),
    ("etc/b".toList, .file content)]

theorem cMembers_shipped (content : Text) : Shipped sum cListing (cSums content) (cMembers content) where
  order := by
    have hpaths : ["var/adm/flists/c", "var/adm/md5sums/c", "etc", "etc/b"].map String.toList =
        pkgloopPackage (flist usr.pkg cListing.paths) := by decide +kernel
    exact hpaths
  list := List.mem_cons_self
  sums := List.mem_cons_of_mem _ List.mem_cons_self
  recorded := by
    have hadm : InAdm "var/adm/flists/c".toList ∧ InAdm "var/adm/md5sums/c".toList := by decide
    intro p content' hm hnot
    simp only [cMembers, List.mem_cons, Prod.mk.injEq, List.not_mem_nil, or_false, Entry.file.injEq, reduceCtorEq,
      and_false, false_or] at hm
    rcases hm with ⟨rfl, -⟩ | ⟨rfl, -⟩ | ⟨rfl, rfl⟩
    · exact absurd hadm.1 hnot
    · exact absurd hadm.2 hnot
    · exact List.mem_cons_self
  only := by
    intro r hr
    rw [List.mem_singleton.1 hr]
    exact (by decide : "etc/b".toList ∈ cListing.paths ∧ ¬ InAdm "etc/b".toList)

/-- Members whose directories are all there. -/
theorem fitsIn_of_dirs (hsingle : (members.map fun m => g.file m.1).Nodup)
    (hfree : ∀ m ∈ members, t.entry (g.file m.1) = none ∨ m.2 = .dir ∧ t.entry (g.file m.1) = some .dir)
    (hdirs : ∀ m ∈ members, ∀ d ∈ (g.file m.1).inits, d ≠ g.file m.1 → t.entry d = some .dir) :
    FitsIn g members t where
  named := fun x hx => by
    obtain ⟨m, -, rfl⟩ := List.mem_map.1 hx
    exact file_ne_nil m.1
  single := by
    rw [List.map_map]
    exact hsingle
  free := fun x hx => by
    obtain ⟨m, hm, rfl⟩ := List.mem_map.1 hx
    exact hfree m hm
  ways := fun x hx d r hsplit hne => by
    obtain ⟨m, hm, rfl⟩ := List.mem_map.1 hx
    have hfront : g.file m.1 = d ++ r := hsplit
    refine .inl (hdirs m hm d ((List.mem_inits _ _).2 ⟨r, hfront.symm⟩) fun hwhole => ?_)
    rw [hwhole] at hfront
    exact hne (List.self_eq_append_right.1 hfront)

theorem cMembers_fits {content : Text} (h : content = [] ∨ content = "b\n".toList) :
    FitsIn usr (cMembers content) bareTree := by
  rcases h with rfl | rfl
  · exact fitsIn_of_dirs (by decide +kernel) (by decide +kernel) (by decide +kernel)
  · exact fitsIn_of_dirs (by decide +kernel) (by decide +kernel) (by decide +kernel)

/-- `etc` is not empty. -/
theorem cMembers_room {t : Root} {content : Text} (hf : FitsIn usr (cMembers content) t)
    (hthere : t.entry ["etc".toList, "passwd".toList] = some (.file [])) : Room usr (cMembers content) t where
  fits := hf
  shared := by
    have hother : ∀ p ∈ cListing.paths, usr.file p ≠ ["etc".toList, "passwd".toList] := by decide +kernel
    have hdirs : ∀ m ∈ cMembers content, m.2 = .dir → usr.file m.1 = ["etc".toList] := by
      simp only [cMembers, List.forall_mem_cons, reduceCtorEq, IsEmpty.forall_iff, true_and, forall_const]
      exact ⟨by decide +kernel, by simp⟩
    intro m hm hdir _
    rw [hdirs m hm hdir]
    refine ⟨["passwd".toList], .file [], hthere, by simp, fun m' hm' => ?_⟩
    exact hother m'.1 (((cMembers_shipped content).mem_paths m'.1).2 ⟨m'.2, hm'⟩)

theorem bareTree_room : Room usr (cMembers []) bareTree := cMembers_room (cMembers_fits (.inl rfl)) (by decide +kernel)

end T2Sde.Bize
