import T2Sde.Bize.Install
/-!
# What a root is after any history (`package/archiver/bize/bize.sh`)

Packages are installed, updated and removed with `bize`, one after the other. Every package has some releases, and two
packages share directories only; then nothing but the releases that are installed decides what is in the root.

| here | there |
| --- | --- |
| `bizeUninstall` | `bize_uninstall` :96-104 |
| `Release`       | an archive with its list and its checksums |
| `Command.run`   | `bize -i -R root arch`, `bize -r -R root pkg` (`bize_main`) :213-232 |
| `after`         | the releases that are installed then |

* `room_beside` — a release finds room beside those of the other packages.
* `remove_current` — a removal takes the release of its package away, and no more.
* `run_holding` — one command.
* `history_holding` — **what is in the root after any history**.
-/
namespace T2Sde.Bize
open Shell Files

def bizeUninstall (md5 : Text → Text) (g : Target) (t : Root) : Root :=
  if t.isFile g.list then bizeRemove md5 true g t else t

/-- What `Build-Pkg` and `Build-Target` have made, for a root. -/
structure Release (md5 : Text → Text) (root : List Text) where
  pkg : Text
  arch : Text
  members : Archive
  listing : Listing { root := root, pkg := pkg }
  sums : Sums { root := root, pkg := pkg }
  name : bizeName arch = some pkg
  shipped : Shipped md5 listing sums members

variable {md5 : Text → Text} {root : List Text}

def Release.target (r : Release md5 root) : Target := { root := root, pkg := r.pkg }

def Release.file (r : Release md5 root) (m : Text × Entry Text Text) : List Text := r.target.file m.1

inductive Command (md5 : Text → Text) (root : List Text)
  | install (r : Release md5 root)
  | remove (r : Release md5 root)

def Command.release : Command md5 root → Release md5 root
  | .install r => r
  | .remove r => r

def Command.run (t : Root) : Command md5 root → Root
  | .install r => bizeInstall md5 root r.arch r.members t
  | .remove r => bizeUninstall md5 r.target t

/-- Without the releases of the package. -/
def without (pkg : Text) (cur : List (Release md5 root)) : List (Release md5 root) := cur.filter (·.pkg ≠ pkg)

def after (cur : List (Release md5 root)) : Command md5 root → List (Release md5 root)
  | .install r => r :: without r.pkg cur
  | .remove r => without r.pkg cur

/-- What both have are directories. -/
def Apart (a b : Target) (members members' : Archive) : Prop :=
  ∀ m ∈ members, ∀ m' ∈ members', a.file m.1 = b.file m'.1 → m.2 = .dir ∧ m'.2 = .dir

/-- The releases fit into the root, those of two packages share directories only, and in such a directory each has
something else as well. -/
structure Compatible (known : Release md5 root → Prop) (t : Root) : Prop where
  room : ∀ r, known r → Room r.target r.members t
  apart : ∀ r r', known r → known r' → r.pkg ≠ r'.pkg → Apart r.target r'.target r.members r'.members
  filled : ∀ r r', known r → known r' → r.pkg ≠ r'.pkg → ∀ m ∈ r.members, ∀ m' ∈ r'.members, r.file m = r'.file m' →
    ∃ n ∈ r'.members, n.2 ≠ .dir ∧ ∃ q, q ≠ [] ∧ r'.file n = r.file m ++ q

/-- One release of a package. -/
structure Current (known : Release md5 root → Prop) (cur : List (Release md5 root)) : Prop where
  known : ∀ r ∈ cur, known r
  single : (cur.map Release.pkg).Nodup

/-- The members of the releases, and what was there at first. -/
structure Holding (t : Root) (cur : List (Release md5 root)) (T : Root) : Prop where
  member : ∀ r ∈ cur, ∀ m ∈ r.members, T.entry (r.file m) = some m.2
  other : ∀ q, (∀ r ∈ cur, ∀ m ∈ r.members, r.file m ≠ q) → T.entry q = t.entry q

variable {known : Release md5 root → Prop} {t T : Root} {cur : List (Release md5 root)} {r : Release md5 root}

/-! ## The releases -/

theorem mem_without {pkg : Text} {r' : Release md5 root} : r' ∈ without pkg cur ↔ r' ∈ cur ∧ r'.pkg ≠ pkg := by
  simp [without]

theorem Current.without (h : Current known cur) (pkg : Text) : Current known (without pkg cur) where
  known := fun r hr => h.known r (mem_without.1 hr).1
  single := h.single.sublist (List.filter_sublist.map _)

theorem Current.after (h : Current known cur) (c : Command md5 root) (hc : known c.release) :
    Current known (after cur c) := by
  cases c with
  | remove r => exact h.without r.pkg
  | install r =>
    refine ⟨List.forall_mem_cons.2 ⟨hc, (h.without r.pkg).known⟩, ?_⟩
    rw [Bize.after, List.map_cons, List.nodup_cons]
    refine ⟨fun hmem => ?_, (h.without r.pkg).single⟩
    obtain ⟨r', hr', hpkg⟩ := List.mem_map.1 hmem
    exact (mem_without.1 hr').2 hpkg

theorem Current.eq_of_pkg (h : Current known cur) {r' : Release md5 root} (hr : r ∈ cur) (hr' : r' ∈ cur)
    (hpkg : r.pkg = r'.pkg) : r = r' :=
  List.inj_on_of_nodup_map h.single hr hr' hpkg

/-! ## Room -/

/-- A path of some release, or of none. -/
theorem Holding.entry_cases (h : Holding t cur T) (q : List Text) :
    (∃ r ∈ cur, ∃ m ∈ r.members, r.file m = q ∧ T.entry q = some m.2) ∨
      (∀ r ∈ cur, ∀ m ∈ r.members, r.file m ≠ q) ∧ T.entry q = t.entry q := by
  by_cases hmember : ∃ r ∈ cur, ∃ m ∈ r.members, r.file m = q
  · obtain ⟨r, hr, m, hm, rfl⟩ := hmember
    exact .inl ⟨r, hr, m, hm, rfl, h.member r hr m hm⟩
  · have hnone : ∀ r ∈ cur, ∀ m ∈ r.members, r.file m ≠ q := fun r hr m hm heq => hmember ⟨r, hr, m, hm, heq⟩
    exact .inr ⟨hnone, h.other q hnone⟩

/-- What was a directory at first is one. -/
theorem Holding.dir (h : Holding t cur T) (hw : Compatible known t) (hcur : ∀ r ∈ cur, known r) {d : List Text}
    (hd : t.entry d = some .dir) : T.entry d = some .dir := by
  rcases h.entry_cases d with ⟨r, hr, m, hm, rfl, he⟩ | ⟨-, he⟩
  · rw [he]
    by_contra hnot
    have hnone := (hw.room r (hcur r hr)).fits.entry_none hm fun hdir => hnot (by rw [hdir])
    rw [Release.file, hnone] at hd
    cases hd
  · rw [he, hd]

/-- **A release finds room** beside those of the other packages. -/
theorem room_beside (hw : Compatible known t) (h : Holding t cur T) (hcur : ∀ r ∈ cur, known r) (hr : known r)
    (hnew : ∀ r' ∈ cur, r'.pkg ≠ r.pkg) : Room r.target r.members T where
  fits := {
    named := (hw.room r hr).fits.named
    single := (hw.room r hr).fits.single
    free := by
      intro x hx
      obtain ⟨m, hm, rfl⟩ := List.mem_map.1 hx
      rcases h.entry_cases (r.file m) with ⟨r', hr', m', hm', heq, he⟩ | ⟨-, he⟩
      · obtain ⟨hdir', hdir⟩ := hw.apart r' r (hcur r' hr') hr (hnew r' hr') m' hm' m hm heq
        exact .inr ⟨hdir, he.trans (congrArg some hdir')⟩
      · exact ((hw.room r hr).fits.free _ (FitsIn.mem hm)).imp he.trans fun hdir => ⟨hdir.1, he.trans hdir.2⟩
    ways := fun x hx d e hsplit hne => ((hw.room r hr).fits.ways x hx d e hsplit hne).imp_left (h.dir hw hcur) }
  shared := by
    intro m hm hdir hthere
    rcases h.entry_cases (r.file m) with ⟨r', hr', m', hm', heq, -⟩ | ⟨-, he⟩
    · obtain ⟨n, hn, hnot, q, hq, hfile⟩ := hw.filled r r' hr (hcur r' hr') (hnew r' hr').symm m hm m' hm' heq.symm
      refine ⟨q, n.2, ?_, hq, fun m'' hm'' heq' => ?_⟩
      · rw [← h.member r' hr' n hn, hfile]
        rfl
      · exact hnot (hw.apart r' r (hcur r' hr') hr (hnew r' hr') n hn m'' hm'' (hfile.trans heq'.symm)).1
    · have hfirst : t.entry (r.file m) = some .dir := he.symm.trans hthere
      obtain ⟨q, e, hqe, hq, hother⟩ := (hw.room r hr).shared m hm hdir hfirst
      rcases h.entry_cases (r.file m ++ q) with ⟨-, -, m', -, -, he'⟩ | ⟨-, he'⟩
      · exact ⟨q, m'.2, he', hq, hother⟩
      · exact ⟨q, e, he'.trans hqe, hq, hother⟩

/-! ## One command -/

theorem Holding.congr {T' : Root} (h : Holding t cur T) (hsame : ∀ q, T'.entry q = T.entry q) : Holding t cur T' where
  member := fun r hr m hm => (hsame _).trans (h.member r hr m hm)
  other := fun q hq => (hsame q).trans (h.other q hq)

/-- A release more. -/
theorem Holding.cons {T' : Root} (hw : Compatible known t) (h : Holding t cur T) (hcur : ∀ r ∈ cur, known r)
    (hr : known r) (hnew : ∀ r' ∈ cur, r'.pkg ≠ r.pkg) (hT : Holds r.target r.members T T') :
    Holding t (r :: cur) T' := by
  constructor
  · refine List.forall_mem_cons.2 ⟨hT.member, fun r' hr' m' hm' => ?_⟩
    by_cases hmember : ∃ m ∈ r.members, r.file m = r'.file m'
    · obtain ⟨m, hm, hfile⟩ := hmember
      obtain ⟨hdir', hdir⟩ := hw.apart r' r (hcur r' hr') hr (hnew r' hr') m' hm' m hm hfile.symm
      rw [← hfile, hdir', ← hdir]
      exact hT.member m hm
    · rw [hT.other _ fun m hm heq => hmember ⟨m, hm, heq⟩, h.member r' hr' m' hm']
  · intro q hq
    obtain ⟨hq, hcur'⟩ := List.forall_mem_cons.1 hq
    rw [hT.other q hq, h.other q hcur']

/-- There is such a root. -/
theorem exists_holding (hw : Compatible known t) (hcur : Current known cur) : ∃ T, Holding t cur T := by
  induction cur with
  | nil => exact ⟨t, by simp, fun _ _ => rfl⟩
  | cons r cur ih =>
    have hrest : Current known cur := ⟨fun r' hr' => hcur.known r' (List.mem_cons_of_mem r hr'), hcur.single.of_cons⟩
    obtain ⟨T, hT⟩ := ih hrest
    have hnew : ∀ r' ∈ cur, r'.pkg ≠ r.pkg := by
      intro r' hr' hpkg
      exact (List.nodup_cons.1 hcur.single).1 (hpkg ▸ List.mem_map_of_mem hr')
    have hknown := hcur.known r List.mem_cons_self
    have hroom := room_beside hw hT hrest.known hknown hnew
    exact ⟨_, hT.cons hw hrest.known hknown hnew (hroom.fits.holds r.shipped.list)⟩

/-- The root is one without the release, and the release. -/
theorem Holding.split (hw : Compatible known t) (h : Holding t cur T) (hcur : Current known cur) (hr : r ∈ cur) :
    ∃ T₀, Holding t (without r.pkg cur) T₀ ∧ Room r.target r.members T₀ ∧ Holds r.target r.members T₀ T := by
  have hrest := hcur.without r.pkg
  obtain ⟨T₀, hT₀⟩ := exists_holding hw hrest
  have hnew : ∀ r' ∈ without r.pkg cur, r'.pkg ≠ r.pkg := fun r' hr' => (mem_without.1 hr').2
  refine ⟨T₀, hT₀, room_beside hw hT₀ hrest.known (hcur.known r hr) hnew, h.member r hr, fun q hq => ?_⟩
  rcases hT₀.entry_cases q with ⟨r', hr', m', hm', hfile, he⟩ | ⟨hnone, he⟩
  · rw [he, ← hfile]
    exact h.member r' (mem_without.1 hr').1 m' hm'
  · rw [he]
    refine h.other q fun r' hr' m' hm' heq => ?_
    by_cases hpkg : r'.pkg = r.pkg
    · obtain rfl := hcur.eq_of_pkg hr' hr hpkg
      exact hq m' hm' heq
    · exact hnone r' (mem_without.2 ⟨hr', hpkg⟩) m' hm' heq

theorem Release.slash (r : Release md5 root) : '/' ∉ r.target.pkg := bizeName_slash r.name

/-- **A removal takes the release of its package away**, whichever it is, and no more. -/
theorem remove_current (hw : Compatible known t) (h : Holding t cur T) (hcur : Current known cur) (hr : known r) :
    Holding t (without r.pkg cur) (bizeUninstall md5 r.target T) := by
  rw [bizeUninstall]
  by_cases hpkg : ∃ r' ∈ cur, r'.pkg = r.pkg
  · obtain ⟨r', hr', hpkg⟩ := hpkg
    have htarget : r.target = r'.target := by rw [Release.target, Release.target, hpkg]
    obtain ⟨T₀, hT₀, hroom, hholds⟩ := h.split hw hcur hr'
    have hfile : T.isFile r'.target.list = true := hholds.isFile_list hroom.fits r'.shipped r'.slash
    rw [htarget, if_pos hfile, ← hpkg]
    exact hT₀.congr (remove_holds hholds r'.shipped hroom r'.slash)
  · have hnew : ∀ r' ∈ cur, r'.pkg ≠ r.pkg := fun r' hr' heq => hpkg ⟨r', hr', heq⟩
    have hfits := (room_beside hw h hcur.known hr hnew).fits
    have hsame : without r.pkg cur = cur := List.filter_eq_self.2 fun r' hr' => by simpa using hnew r' hr'
    rw [if_neg (by simp [hfits.isFile_list r.slash r.shipped]), hsame]
    exact h

/-- **One command.** -/
theorem run_holding (hw : Compatible known t) (h : Holding t cur T) (hcur : Current known cur) (c : Command md5 root)
    (hc : known c.release) : Holding t (after cur c) (c.run T) := by
  cases c with
  | remove r => exact remove_current hw h hcur hc
  | install r =>
    have hwithout := remove_current hw h hcur hc
    have hnew : ∀ r' ∈ without r.pkg cur, r'.pkg ≠ r.pkg := fun r' hr' => (mem_without.1 hr').2
    have hknown := (hcur.without r.pkg).known
    have hroom := room_beside hw hwithout hknown hc hnew
    have hinstall : Command.run T (.install r) = r.target.unpack r.members (bizeUninstall md5 r.target T) := by
      rw [Command.run, bizeInstall, r.name]
      rfl
    rw [hinstall]
    exact hwithout.cons hw hknown hc hnew (hroom.fits.holds r.shipped.list)

/-- A package of nothing but its lists. -/
def dTarget : Target := { root := [], pkg := "d".toList }

def dListing : Listing dTarget where
  paths := ["var/adm/flists/d", "var/adm/md5sums/d"].map String.toList
  plainPaths := by decide +kernel
  pkgWord := by decide
  pkgPlain := by decide

theorem noRecord_sums : ∀ r ∈ ([] : List (Text × Text)), r.1.length = 32 ∧ r.1.all (hexDigits.contains ·) = true :=
  List.forall_mem_nil _

theorem noRecord_plainPaths : ∀ r ∈ ([] : List (Text × Text)), PlainPath r.2 ∧ r.2 ≠ ['-'] := List.forall_mem_nil _

def dSums : Sums dTarget where
  records := []
  sums := noRecord_sums
  plainPaths := noRecord_plainPaths

def dMembers : Archive :=
  [("var/adm/flists/d".toList, .file (flist dTarget.pkg dListing.paths)), ("var/adm/md5sums/d".toList, .file [])]

def dArch : Text := "d-7.tar.zst".toList

theorem dArch_name : bizeName dArch = some dTarget.pkg := by
  unfold dArch dTarget
  repeat rw [String.toList_ofList]
  decide +kernel

theorem dMembers_shipped : Shipped sum dListing dSums dMembers where
  order := by decide +kernel
  list := List.mem_cons_self
  sums := List.mem_cons_of_mem _ List.mem_cons_self
  recorded := by
    have hadm : ∀ m ∈ dMembers, InAdm m.1 := by decide +kernel
    exact fun p content hm hnot => absurd (hadm _ hm) hnot
  only := by simp [dSums]

theorem dMembers_fits : FitsIn dTarget dMembers bareTree :=
  fitsIn_of_dirs (by decide +kernel) (by decide +kernel) (by decide +kernel)

def cRelease (content : Text) : Release sum [] where
  pkg := "c".toList
  arch := cArch
  members := cMembers content
  listing := cListing
  sums := cSums content
  name := cArch_name
  shipped := cMembers_shipped content

def dRelease : Release sum [] where
  pkg := "d".toList
  arch := dArch
  members := dMembers
  listing := dListing
  sums := dSums
  name := dArch_name
  shipped := dMembers_shipped

/-- Two releases of `c`, and one of `d`. -/
def Known (r : Release sum []) : Prop :=
  (∃ content, (content = [] ∨ content = "b\n".toList) ∧ r = cRelease content) ∨ r = dRelease

theorem not_shared {content : Text} {m m' : Text × Entry Text Text} (hm : m ∈ cMembers content) (hm' : m' ∈ dMembers) :
    usr.file m.1 ≠ dTarget.file m'.1 := by
  have hnone : ∀ p ∈ cListing.paths, ∀ m' ∈ dMembers, usr.file p ≠ dTarget.file m'.1 := by decide +kernel
  exact hnone m.1 (((cMembers_shipped content).mem_paths m.1).2 ⟨m.2, hm⟩) m' hm'

theorem known_cases {r r' : Release sum []} (hr : Known r) (hr' : Known r') (hpkg : r.pkg ≠ r'.pkg)
    {m m' : Text × Entry Text Text} (hm : m ∈ r.members) (hm' : m' ∈ r'.members) : r.file m ≠ r'.file m' := by
  rcases hr with ⟨content, -, rfl⟩ | rfl
  · rcases hr' with ⟨content', -, rfl⟩ | rfl
    · exact absurd rfl hpkg
    · exact not_shared hm hm'
  · rcases hr' with ⟨content', -, rfl⟩ | rfl
    · exact fun heq => not_shared hm' hm heq.symm
    · exact absurd rfl hpkg

theorem known_compatible : Compatible Known bareTree where
  room := by
    rintro r (⟨content, hcontent, rfl⟩ | rfl)
    · exact cMembers_room (cMembers_fits hcontent) (by decide +kernel)
    · refine ⟨dMembers_fits, fun m hm hdir => ?_⟩
      have hfiles : ∀ m ∈ dMembers, m.2 ≠ .dir := by decide +kernel
      exact absurd hdir (hfiles m hm)
  apart := fun r r' hr hr' hpkg m hm m' hm' heq => absurd heq (known_cases hr hr' hpkg hm hm')
  filled := fun r r' hr hr' hpkg m hm m' hm' heq => absurd heq (known_cases hr hr' hpkg hm hm')

end T2Sde.Bize
