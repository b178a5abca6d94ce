import T2Sde.Wrapper.Log
import T2Sde.Wrapper.Confined
import T2Sde.Build.Depend
import T2Sde.Lib.Read
/-!
# The list of the files of a package (`scripts/Build-Pkg`)

The log of the accesses goes through `fl_wrparse`, which keeps what is below the root of the new system, through the
names that are allowed there, and, with the files that the build has listed itself, through `fl_wrparse` again. The
build is aborted if it has made files that are outside; on the first stages also if they are not below the root.

| here | there |
| --- | --- |
| `Access.record`    | one access in `fl_wrapper.wlog` |
| `flWrparseLog`     | `fl_wrparse -D -s -r … < fl_wrapper.wlog` |
| `valid`, `outside` | `egrep -v "\t($flistvalid)/" … \| cut -f2- \| sort -u` :705-721 |
| `FileList.tmp`     | `flist.txt.tmp` :726 |
| `inRoots`          | `egrep "^(${flistroot// /\|})(/\|$)"` |
| `allowed`          | the same with `root TOOLCHAIN proc/[0-9]*/fd dev/tty` :733-739 |
| `FileList.flist`   | `flist.txt.new` :704-762 |
| `Named`            | a file below the root, and its name from there |

* `outside_caught` — on the first stages a file of `/` aborts the build.
* `printed_named` — a second pass leaves a name as it is.
* `flist_exact` — **the files that are listed**.
-/
namespace T2Sde.Build
open Shell Wrapper

/-! ## The pipeline -/

/-- A write that is logged. -/
structure Access where
  chain : List Process
  func : Func
  path : Text

def Access.line (a : Access) : Text := Wrapper.line (cmdname a.chain) a.func.function a.path

def Access.record (a : Access) : Text := Wrapper.record (cmdname a.chain) a.func.function a.path

/-- With `-s`; a buffer without a blank or a tab is passed over. -/
def flWrparseLog (fs : FileSystem) (start : Place) (optarg log : Text) : List Text :=
  let x := getRealname fs start optarg
  wrLoop fs x.1 (fs.cd x.2 x.1) (((lines log).flatMap reads).filterMap (behindFirst sep))

/-- `\t($names)/` is somewhere in the line. -/
def valid (names : List Text) (l : Text) : Bool :=
  l.tails.any fun s => names.any fun v => ('\t' :: (v ++ ['/'])).isPrefixOf s

/-- `(/|$)` -/
def atEnd (s : Text) : Bool := s.head?.all (· == '/')

def inRoots (names : List Text) (t : Text) : Bool := names.any fun r => r.isPrefixOf t && atEnd (t.drop r.length)

/-- `proc/[0-9]*/fd` -/
def procFd (t : Text) : Bool :=
  let s := (t.drop 5).dropWhile Char.isDigit
  "proc/".toList.isPrefixOf t && "/fd".toList.isPrefixOf s && atEnd (s.drop 3)

def allowed (flistroot : List Text) (t : Text) : Bool :=
  inRoots (flistroot ++ ["root".toList, "TOOLCHAIN".toList, "dev/tty".toList]) t || procFd t

/-- After `cd $xroot/`; `own` are the lines of `flist.txt` so far, and `exists_` is `[ -e ]`, which goes through a
link. -/
structure FileList where
  fs : FileSystem
  exists_ : Text → Bool
  cwd : Place
  xroot : Text
  stagelevel : Nat
  flistvalid : List Text
  flistroot : List Text
  flistdel : Text → Bool
  xpkg : Text
  own : List Text
  accesses : List Access

namespace FileList

def wlog (F : FileList) : Text := F.accesses.flatMap Access.record

/-- `$xbase` is in front of `$flistvalid`. -/
def outside (F : FileList) : List Text :=
  sortUnique (((lines F.wlog).filter fun l => !valid (F.cwd.text :: F.flistvalid) l).map (cutRest '\t'))

def tmp (F : FileList) : List Text := lines (unlines (flWrparseLog F.fs F.cwd (F.xroot ++ ['/']) F.wlog))

/-- The loops are `while read file`. -/
def aborts (F : FileList) : Bool :=
  (F.stagelevel ≤ 2 && (logical F.outside).any fun m => F.exists_ (lastField m)) ||
    (0 < F.stagelevel && !(logical (F.tmp.filter (!allowed F.flistroot ·))).isEmpty)

/-- `flist.txt` without what `flistdel` names. -/
def files (F : FileList) : List Text := (F.own ++ F.tmp.filter (inRoots F.flistroot)).filter (!F.flistdel ·)

def entry (F : FileList) (t : Text) : Text := F.xpkg ++ ": ".toList ++ t

def flist (F : FileList) : Option (List Text) :=
  if F.aborts then none
  else some (sortUnique (lines (unlines
    ((flWrparse F.fs F.cwd (F.xroot ++ ['/']) F.files).map F.entry))))

end FileList

/-! ## What is meant -/

/-- A file that is there, in `root` or below, and its name from `root` on, without a link on the way. -/
def Named (fs : FileSystem) (root : Place) (p t : Text) : Prop :=
  Inside fs root p ∧
    ∃ rel, parent fs root p = some (root ++ rel) ∧ t = rel.flatMap (· ++ ['/']) ++ (dirAndFile p).2

/-- Two names of one place are both there, or neither is. -/
def Steady (fs : FileSystem) (root : Place) : Prop :=
  ∀ p q d, p ≠ [] → q ≠ [] → p.length < filenameMax → q.length < filenameMax →
    location fs root p = some d → location fs root q = some d → fs.lstat root p = fs.lstat root q

/-- A name that leads to another directory. -/
def Dots (n : Text) : Prop := n = [] ∨ n = ['.'] ∨ n = ['.', '.']

/-- A line that can be read back, of a path that does not end with `..`. -/
structure Access.Regular (a : Access) : Prop where
  names : ∀ p ∈ a.chain, ' ' ∉ getpname p ∧ '\t' ∉ getpname p ∧ '\n' ∉ getpname p
  func : a.func ∈ wrappers
  absolute : absolute a.path = true
  newline : '\n' ∉ a.path
  fits : LineFits (cmdname a.chain) a.func.function a.path
  up : (dirAndFile a.path).2 ≠ ['.', '.']

/-- A name from the root on. -/
structure Own (p : Text) : Prop where
  relative : p.head? ≠ some '/'
  newline : '\n' ∉ p
  short : p.length < filenameMax
  name : ¬ Dots (dirAndFile p).2

/-- No directory has a newline in its name, and no name is too long for a buffer. A file of `/` is only met on the
first stages, where no path has a backslash, or if `/` is the root itself; and it is no link to nowhere. -/
structure FileList.Regular (F : FileList) : Prop where
  root : rootOf F.fs F.cwd F.xroot = some F.cwd
  steady : Steady F.fs F.cwd
  dirs : ∀ d, IsDir F.fs.chdir d → ∀ n ∈ d, '\n' ∉ n
  accesses : ∀ a ∈ F.accesses, a.Regular
  short : ∀ a ∈ F.accesses, ∀ t, Named F.fs F.cwd a.path t → t.length < filenameMax
  own : ∀ p ∈ F.own, Own p
  xpkg : '\n' ∉ F.xpkg
  flistroot : ∀ r ∈ F.flistroot, ¬ Dots r
  flistvalid : ∀ v ∈ F.flistvalid, v ≠ []
  top : F.cwd = [] ∨ F.stagelevel ≤ 2 ∧ (∀ a ∈ F.accesses, '\\' ∉ a.path) ∧
    ∀ a ∈ F.accesses, TopLevel a.path → F.fs.lstat F.cwd a.path = true → Trimmed a.path ∧ F.exists_ a.path = true

/-! ## The log -/

section
variable {a : Access} {accesses : List Access} {fs : FileSystem} {root : Place}

theorem Access.Regular.sep_func (h : a.Regular) : ∀ c ∈ a.func.function, sep c = false := by
  intro c hc
  rw [sep, Bool.or_eq_false_iff, beq_eq_false_iff_ne, beq_eq_false_iff_ne]
  exact ⟨fun he => function_plain a.func h.func '\t' (by simp) (he ▸ hc),
    fun he => function_plain a.func h.func ' ' (by simp) (he ▸ hc)⟩

theorem Access.Regular.sep_chain (h : a.Regular) : ∀ c ∈ cmdname a.chain, sep c = false :=
  (sep_cmdname a.chain).2 fun p hp => ⟨(h.names p hp).1, (h.names p hp).2.1⟩

theorem Access.Regular.newline_line (h : a.Regular) : '\n' ∉ a.line := by
  have hcmd : '\n' ∉ cmdname a.chain := by
    rw [mem_cmdname a.chain (by decide)]
    rintro ⟨p, hp, hc⟩
    exact (h.names p hp).2.2 hc
  have hfunc := function_plain a.func h.func '\n' (by simp)
  simp [Access.line, Wrapper.line, hcmd, hfunc, h.newline]

/-- What is in front of the path, without a blank or a tab. -/
def Access.front (a : Access) : Text := cmdname a.chain ++ '.' :: a.func.function ++ [':']

theorem Access.line_front (a : Access) : a.line = a.front ++ '\t' :: a.path := line_eq _ _ _

theorem Access.Regular.sep_front (h : a.Regular) : ∀ c ∈ a.front, sep c = false := by
  intro c hc
  simp only [Access.front, List.mem_append, List.mem_cons, List.not_mem_nil, or_false] at hc
  rcases hc with (hc | rfl | hc) | rfl
  · exact h.sep_chain c hc
  · rfl
  · exact h.sep_func c hc
  · rfl

theorem Access.Regular.tab_front (h : a.Regular) : '\t' ∉ a.front := fun hc => by simpa [sep] using h.sep_front '\t' hc

theorem Access.Regular.short_line (h : a.Regular) : a.line.length + 1 < filenameMax := by
  have hfits := h.fits
  rw [LineFits, List.length_append] at hfits
  exact hfits

theorem Access.Regular.short_path (h : a.Regular) : a.path.length < filenameMax := by
  have hline := h.short_line
  rw [Access.line_front, List.length_append, List.length_cons] at hline
  omega

/-- The log has a line for each access. -/
theorem lines_wlog (h : ∀ a ∈ accesses, a.Regular) :
    lines (accesses.flatMap Access.record) = accesses.map Access.line := by
  have hrecords : accesses.flatMap Access.record = unlines (accesses.map Access.line) := by
    rw [unlines, List.flatMap_map]
    refine List.flatMap_congr fun a ha => ?_
    rw [Access.record, record_of_fits (h a ha).fits, unlines, List.flatMap_singleton]
    rfl
  rw [hrecords, lines_unlines]
  simpa using fun a ha => (h a ha).newline_line

/-- What is behind the first tab of a line, with its newline. -/
theorem buffers_wlog (h : ∀ a ∈ accesses, a.Regular) :
    ((accesses.map Access.line).flatMap reads).filterMap (behindFirst sep) =
      accesses.map fun a => a.path ++ ['\n'] := by
  induction accesses with
  | nil => rfl
  | cons a accesses ih =>
    obtain ⟨ha, h⟩ := List.forall_mem_cons.1 h
    have hreads : reads a.line = [a.line ++ ['\n']] := by
      rw [reads, readsUpTo_short (by simp) (by simpa using ha.short_line)]
    have hbehind : behindFirst sep (a.line ++ ['\n']) = some (a.path ++ ['\n']) := by
      rw [Access.line_front, List.append_assoc, List.cons_append, behindFirst_append ha.sep_front, behindFirst_cons rfl]
    rw [List.map_cons, List.flatMap_cons, hreads, List.singleton_append, List.filterMap_cons, hbehind, ih h,
      List.map_cons]

/-- **The first pass**, access by access. -/
theorem flWrparseLog_eq (hroot : IsDir fs.chdir root) {r : Text} (hr : rootOf fs root r = some root)
    (h : ∀ a ∈ accesses, a.Regular) :
    flWrparseLog fs root (r ++ ['/']) (accesses.flatMap Access.record) =
      accesses.flatMap fun a => Wrapper.printed fs root a.path := by
  rw [flWrparseLog, getRealname_root hroot, hr, Option.getD_some]
  simp only [FileSystem.cd]
  rw [fs.slash _ _ hroot, Option.getD_some, wrLoop_eq hroot, lines_wlog h, buffers_wlog h, List.flatMap_map]
  refine List.flatMap_congr fun a ha => ?_
  rw [cut_clean (h a ha).newline]

end

/-! ## Names below the root -/

section
variable {fs : FileSystem} {root : Place} {p t : Text}

theorem isDir_of_rootOf {r : Text} (h : rootOf fs root r = some root) : IsDir fs.chdir root := by
  rw [rootOf] at h
  split at h
  · exact .inl (Option.some.inj h).symm
  · exact .inr ⟨root, r, h⟩

/-- What is printed, if the directory is the one where the file is. -/
theorem mem_printed (hroot : IsDir fs.chdir root) (htop : TopLevel p → root = []) :
    t ∈ Wrapper.printed fs root p ↔ fs.lstat root p = true ∧
      ∃ rel, parent fs root p = some (root ++ rel) ∧ t = rel.flatMap (· ++ ['/']) ++ (dirAndFile p).2 := by
  by_cases hl : fs.lstat root p = true
  swap
  · rw [printed_of_not_lstat hl]
    simp [hl]
  have hparent : parent fs root p = some (dirOf fs root p) := by
    by_cases h : TopLevel p
    · obtain ⟨hpar, hdir⟩ := @parent_topLevel fs _ root h
      rw [hpar, hdir, htop h]
    · exact parent_eq hroot hl h
  rw [Wrapper.printed, hparent]
  simp only [hl, true_and, Option.some.injEq]
  by_cases hin : root <+: dirOf fs root p
  · obtain ⟨rel, hrel⟩ := hin
    rw [if_pos ⟨rel, hrel⟩, List.mem_singleton, ← hrel, List.drop_left]
    simp
  · rw [if_neg hin]
    refine iff_of_false List.not_mem_nil ?_
    rintro ⟨rel, hrel, -⟩
    exact hin ⟨rel, hrel.symm⟩

/-- With a name behind the last slash the file is below. -/
theorem named_iff (hroot : IsDir fs.chdir root) (htop : TopLevel p → root = []) (hname : ¬ Dots (dirAndFile p).2) :
    Named fs root p t ↔ t ∈ Wrapper.printed fs root p := by
  rw [mem_printed hroot htop, Named]
  constructor
  · rintro ⟨hin, h⟩
    exact ⟨hin.1, h⟩
  · rintro ⟨hl, rel, hparent, ht⟩
    rw [Dots, not_or, not_or] at hname
    refine ⟨(inside_iff hl hparent).2 ⟨rel, rfl, ?_, ?_⟩, rel, hparent, ht⟩
    · rintro (h | h)
      · exact absurd h hname.1
      · exact absurd h hname.2.1
    · exact fun h => absurd h hname.2.2

/-- A name with a slash, or alone. -/
theorem dirAndFile_below (rel : List Text) {n : Text} (hn : '/' ∉ n) :
    dirAndFile (rel.flatMap (· ++ ['/']) ++ n) = (if rel = [] then ['.'] else ['/'].intercalate rel, n) := by
  rcases List.eq_nil_or_concat' rel with rfl | ⟨rel, c, rfl⟩
  · exact dirAndFile_none hn
  · have hjoin : (rel ++ [c]).flatMap (· ++ ['/']) ++ n = ['/'].intercalate (rel ++ [c]) ++ '/' :: n := by
      rw [← flatMap_slash rel c, List.flatMap_append, List.flatMap_singleton]
      simp only [List.append_assoc, List.singleton_append]
    rw [hjoin, dirAndFile_append hn, if_neg (by simp)]

/-- The directory of a name is the one it was made of. -/
theorem dirOf_below {rel : Place} (hroot : IsDir fs.chdir root) (hbelow : IsDir fs.chdir (root ++ rel)) {n : Text}
    (hn : '/' ∉ n) : dirOf fs root (rel.flatMap (· ++ ['/']) ++ n) = root ++ rel := by
  have hhead := (location_below hroot hbelow hn).1
  have hne : rel.flatMap (· ++ ['/']) ++ n ≠ ['/'] := by
    intro h
    simp [h] at hhead
  rw [dirOf, if_neg hne, dirAndFile_below rel hn, FileSystem.cd]
  by_cases hrel : rel = []
  · rw [if_pos hrel, fs.here root hroot, hrel, List.append_nil]
    rfl
  · rw [if_neg hrel, fs.down root rel hroot hbelow hrel]
    rfl

theorem isDir_parent {d : Place} (h : parent fs root p = some d) : IsDir fs.chdir d :=
  .inr ⟨root, _, h⟩

/-- **A second pass** leaves a name as it is. -/
theorem printed_named (hroot : IsDir fs.chdir root) (hsteady : Steady fs root) (hp : p.length < filenameMax)
    (ht : t.length < filenameMax) (h : Named fs root p t) : Wrapper.printed fs root t = [t] := by
  obtain ⟨hin, rel, hparent, rfl⟩ := h
  have hbelow := isDir_parent hparent
  have hn := dirAndFile_spec p
  have hloc : location fs root p = some (nameAt (root ++ rel) (dirAndFile p).2) := by
    rw [location, hparent]
    rfl
  have hne : p ≠ [] := by
    rintro rfl
    simp [Inside, fs.nothing] at hin
  have hbelow' : rel.flatMap (· ++ ['/']) ++ (dirAndFile p).2 ≠ [] := by
    obtain ⟨rel', hrel', hdots, -⟩ := (inside_iff hin.1 hparent).1 hin
    obtain rfl := List.append_cancel_left hrel'
    intro hnil
    obtain ⟨hrel, hname⟩ := List.append_eq_nil_iff.1 hnil
    exact hdots (.inl hname) (List.eq_nil_iff_forall_not_mem.2 (by simpa using hrel))
  have hl : fs.lstat root (rel.flatMap (· ++ ['/']) ++ (dirAndFile p).2) = true := by
    rw [← hsteady _ _ _ hne hbelow' hp ht hloc (location_below hroot hbelow hn).2]
    exact hin.1
  rw [Wrapper.printed, dirOf_below hroot hbelow hn, if_pos ⟨hl, List.prefix_append root rel⟩, List.drop_left,
    dirAndFile_below rel hn]

theorem newline_dirAndFile (hp : '\n' ∉ p) : '\n' ∉ (dirAndFile p).2 := by
  rcases path_cases p with h | ⟨q, n, rfl, hn⟩
  · rwa [dirAndFile_none h]
  · rw [dirAndFile_append hn]
    exact fun h => hp (by simp [h])

theorem newline_printed (hroot : IsDir fs.chdir root) (hdirs : ∀ d, IsDir fs.chdir d → ∀ n ∈ d, '\n' ∉ n)
    (hp : '\n' ∉ p) (ht : t ∈ Wrapper.printed fs root p) : '\n' ∉ t := by
  rw [Wrapper.printed] at ht
  split at ht
  · rw [List.mem_singleton.1 ht, List.mem_append, List.mem_flatMap]
    rintro (⟨n, hn, hc⟩ | hc)
    · have hmem := List.mem_of_mem_drop hn
      have hne := hdirs _ (isDir_dirOf hroot p) n hmem
      simp [hne] at hc
    · exact newline_dirAndFile hp hc
  · cases ht

end

/-! ## The lists -/

theorem inRoots_dots {names : List Text} (h : ∀ r ∈ names, ¬ Dots r) {t : Text} (ht : Dots t) :
    inRoots names t = false := by
  rw [inRoots, List.any_eq_false]
  intro r hr hmatch
  rw [Bool.and_eq_true, List.isPrefixOf_iff_prefix] at hmatch
  have hfront : r ∈ t.inits := (List.mem_inits _ _).2 hmatch.1
  apply h r hr
  rcases ht with rfl | rfl | rfl
  · exact .inl (by simpa using hfront)
  · rcases (by simpa using hfront : r = [] ∨ r = ['.']) with hr | hr
    · exact .inl hr
    · exact .inr (.inl hr)
  · simpa [Dots] using hfront

/-- A file of `/` is in none of the directories. -/
theorem not_valid_topLevel {names : List Text} (h : ∀ v ∈ names, v ≠ []) {front p : Text} (hfront : '\t' ∉ front)
    (hp : TopLevel p) : valid names (front ++ '\t' :: p) = false := by
  obtain ⟨n, -, hn, rfl⟩ := hp
  rw [valid, List.any_eq_false]
  intro s hs hmatch
  obtain ⟨v, hv, hmatch⟩ := List.any_eq_true.1 hmatch
  obtain ⟨u, rfl⟩ := List.isPrefixOf_iff_prefix.1 hmatch
  obtain ⟨w, hw⟩ := (List.mem_tails _ _).1 hs
  obtain ⟨c, v, rfl⟩ := List.exists_cons_of_ne_nil (h v hv)
  -- the slash of the pattern is behind the first character that follows a tab of the path, or of its front
  have hbehind : ∃ w', front ++ '\t' :: '/' :: n = w' ++ '\t' :: c :: (v ++ '/' :: u) := ⟨w, by simpa using hw.symm⟩
  obtain ⟨w', hw'⟩ := hbehind
  rcases List.append_eq_append_iff.1 hw' with ⟨x, rfl, hx⟩ | ⟨x, rfl, hx⟩
  · rcases x with - | ⟨d, x⟩
    · have hnv := (List.cons.inj (List.cons.inj hx).2).2
      exact hn (hnv ▸ by simp)
    · have hx := (List.cons.inj hx).2
      rcases x with - | ⟨e, x⟩
      · exact absurd (List.cons.inj hx).1 (by decide)
      · have hnv := (List.cons.inj hx).2
        exact hn (hnv ▸ by simp)
  · rcases x with - | ⟨d, x⟩
    · have hnv := (List.cons.inj (List.cons.inj hx).2).2
      exact hn (hnv ▸ by simp)
    · have hd := (List.cons.inj hx).1
      exact hfront (by simp [← hd])

/-- A file below one of the directories is not reported. -/
theorem valid_below {names : List Text} {v : Text} (hv : v ∈ names) (front u : Text) :
    valid names (front ++ '\t' :: (v ++ '/' :: u)) = true := by
  rw [valid, List.any_eq_true]
  refine ⟨'\t' :: (v ++ '/' :: u), (List.mem_tails _ _).2 (List.suffix_append _ _), ?_⟩
  rw [List.any_eq_true]
  exact ⟨v, hv, List.isPrefixOf_iff_prefix.2 ⟨u, by simp⟩⟩

namespace FileList
variable {F : FileList}

theorem Regular.isDir (h : F.Regular) : IsDir F.fs.chdir F.cwd := isDir_of_rootOf h.root

theorem mem_outside (h : F.Regular) (l : Text) :
    l ∈ F.outside ↔ ∃ a ∈ F.accesses, valid (F.cwd.text :: F.flistvalid) a.line = false ∧ l = a.path := by
  have hcut : ∀ a ∈ F.accesses, cutRest '\t' a.line = a.path := by
    intro a ha
    rw [Access.line_front, cutRest_append (h.accesses a ha).tab_front]
  rw [outside, wlog, lines_wlog h.accesses, mem_sortUnique]
  simp only [List.mem_map, List.mem_filter, Bool.not_eq_true']
  constructor
  · rintro ⟨l', ⟨⟨a, ha, rfl⟩, hvalid⟩, rfl⟩
    exact ⟨a, ha, hvalid, hcut a ha⟩
  · rintro ⟨a, ha, hvalid, rfl⟩
    exact ⟨a.line, ⟨⟨a, ha, rfl⟩, hvalid⟩, hcut a ha⟩

/-- **A file of `/`** that is there aborts the build, unless `/` is the root. -/
theorem outside_caught (h : F.Regular) (hgoes : F.aborts = false) {a : Access} (ha : a ∈ F.accesses)
    (hl : F.fs.lstat F.cwd a.path = true) (htop : TopLevel a.path) : F.cwd = [] := by
  rcases h.top with hroot | ⟨hstage, hplain, hthere⟩
  · exact hroot
  obtain ⟨htrim, hexists⟩ := hthere a ha htop hl
  have hvalid : ∀ v ∈ F.cwd.text :: F.flistvalid, v ≠ [] := by
    rw [List.forall_mem_cons]
    exact ⟨by simp [Place.text], h.flistvalid⟩
  have hmem : a.path ∈ F.outside := by
    rw [mem_outside h]
    refine ⟨a, ha, ?_, rfl⟩
    rw [Access.line_front]
    exact not_valid_topLevel hvalid (h.accesses a ha).tab_front htop
  have hback : ∀ l ∈ F.outside, '\\' ∉ l := by
    intro l hl
    obtain ⟨b, hb, -, rfl⟩ := (mem_outside h l).1 hl
    exact hplain b hb
  have hlogical : logical F.outside = F.outside.map fun l => (unescape l).1 :=
    logical_alone fun l hl => by rw [runsOn, unescape_plain (hback l hl)]
  have hread : ((logical F.outside).any fun m => F.exists_ (lastField m)) = true := by
    rw [hlogical, List.any_map, List.any_eq_true]
    refine ⟨a.path, hmem, ?_⟩
    rw [Function.comp_apply, unescape_plain (hback _ hmem), lastField_trimmed htrim]
    exact hexists
  rw [aborts, hread, Bool.or_eq_false_iff] at hgoes
  simp [hstage] at hgoes

theorem tmp_eq (h : F.Regular) : F.tmp = F.accesses.flatMap fun a => Wrapper.printed F.fs F.cwd a.path := by
  rw [tmp, wlog, flWrparseLog_eq h.isDir h.root h.accesses, lines_unlines]
  intro t ht
  obtain ⟨a, ha, ht⟩ := List.mem_flatMap.1 ht
  exact newline_printed h.isDir h.dirs (h.accesses a ha).newline ht

/-- What the first pass prints below the allowed directories is a name. -/
theorem mem_tmp (h : F.Regular) (hgoes : F.aborts = false) {t : Text} (ht : inRoots F.flistroot t = true) :
    t ∈ F.tmp ↔ ∃ a ∈ F.accesses, Named F.fs F.cwd a.path t := by
  rw [tmp_eq h, List.mem_flatMap]
  refine exists_congr fun a => and_congr_right fun ha => ?_
  by_cases hl : F.fs.lstat F.cwd a.path = true
  swap
  · rw [printed_of_not_lstat hl]
    exact iff_of_false List.not_mem_nil fun hnamed => hl hnamed.1.1
  rw [mem_printed h.isDir fun htop => outside_caught h hgoes ha hl htop, Named]
  constructor
  · rintro ⟨-, rel, hparent, rfl⟩
    have hrel : (dirAndFile a.path).2 = [] ∨ (dirAndFile a.path).2 = ['.'] → rel ≠ [] := by
      rintro hdots rfl
      have hout := inRoots_dots h.flistroot (t := (dirAndFile a.path).2) (by
        rcases hdots with hdots | hdots
        · exact .inl hdots
        · exact .inr (.inl hdots))
      simp [hout] at ht
    exact ⟨(inside_iff hl hparent).2 ⟨rel, rfl, hrel, fun hup => absurd hup (h.accesses a ha).up⟩, rel, hparent, rfl⟩
  · rintro ⟨-, hnamed⟩
    exact ⟨hl, hnamed⟩

theorem mem_files (h : F.Regular) (hgoes : F.aborts = false) (p : Text) :
    p ∈ F.files ↔ F.flistdel p = false ∧
      (p ∈ F.own ∨ inRoots F.flistroot p = true ∧ ∃ a ∈ F.accesses, Named F.fs F.cwd a.path p) := by
  rw [files, List.mem_filter, List.mem_append, List.mem_filter, Bool.not_eq_true', and_comm]
  refine and_congr_right fun _ => or_congr_right ?_
  rw [and_comm]
  exact and_congr_right fun ht => mem_tmp h hgoes ht

/-- A line of `flist.txt` fits into the buffer. -/
theorem files_short (h : F.Regular) (hgoes : F.aborts = false) {p : Text} (hp : p ∈ F.files) :
    p.length < filenameMax ∧ '\n' ∉ p := by
  obtain ⟨-, hown | ⟨hin, a, ha, hnamed⟩⟩ := (mem_files h hgoes p).1 hp
  · exact ⟨(h.own p hown).short, (h.own p hown).newline⟩
  · refine ⟨h.short a ha p hnamed, ?_⟩
    have hmem := (mem_tmp h hgoes hin).2 ⟨a, ha, hnamed⟩
    rw [tmp_eq h] at hmem
    obtain ⟨b, hb, hmem⟩ := List.mem_flatMap.1 hmem
    exact newline_printed h.isDir h.dirs (h.accesses b hb).newline hmem

theorem mem_second (h : F.Regular) (hgoes : F.aborts = false) (t : Text) :
    t ∈ flWrparse F.fs F.cwd (F.xroot ++ ['/']) F.files ↔ ∃ p ∈ F.files, t ∈ Wrapper.printed F.fs F.cwd p := by
  rw [flWrparse_eq h.isDir, h.root, Option.getD_some, List.mem_flatMap]
  refine exists_congr fun p => and_congr_right fun hp => ?_
  rw [reads_short (files_short h hgoes hp).1 (files_short h hgoes hp).2]

theorem Regular.not_topLevel (h : F.Regular) {p : Text} (hp : p ∈ F.own) : ¬ TopLevel p := by
  rintro ⟨n, -, -, rfl⟩
  exact (h.own _ hp).relative rfl

end FileList

/-! ## A link in the root -/

/-- What is there is found by every name. -/
def linkTree (places : List Place) : FileSystem where
  __ := smallTree
  lstat d p := p ≠ [] && decide (p.length < filenameMax) &&
    ((smallChdir d (if (dirAndFile p).1 = [] then ['/'] else (dirAndFile p).1)).map fun e =>
      nameAt e (dirAndFile p).2).any fun x => places.contains x
  parent d p n hp hn h := by
    rw [dirAndFile_append hn, if_neg hp] at h
    change ∃ e, smallChdir d p = some e
    cases hd : smallChdir d p with
    | none => simp [hd] at h
    | some e => exact ⟨e, rfl⟩
  nothing d := by simp
  tooLong d p hp := by simp [Nat.not_lt.2 hp]

theorem steady_linkTree (places : List Place) (root : Place) : Steady (linkTree places) root := by
  intro p q d hp hq hpl hql hdp hdq
  have hlstat : ∀ p : Text, p ≠ [] → p.length < filenameMax →
      (linkTree places).lstat root p = (location (linkTree places) root p).any fun x => places.contains x := by
    intro p hp hpl
    change (p ≠ [] && decide (p.length < filenameMax) && _) = _
    simp only [hp, hpl, ne_eq, not_false_eq_true, decide_true, Bool.true_and]
    rfl
  rw [hlstat p hp hpl, hlstat q hq hql, hdp, hdq]

def symlink : Func := addWrapper "int,   symlink, const char* s, const char* f".toList

theorem symlink_mem : symlink ∈ wrappers := by
  rw [wrappers, symlink]
  simp only [List.map_cons, List.map_nil]
  repeat rw [String.toList_ofList]
  decide +kernel

/-- `/r/bin` is made by a script, and the build has listed `share`. -/
def linked : FileList where
  fs := linkTree [["r".toList, "bin".toList], ["r".toList, "share".toList]]
  exists_ := fun _ => false
  cwd := ["r".toList]
  xroot := "/r".toList
  stagelevel := 1
  flistvalid := ["/tmp".toList]
  flistroot := ["bin".toList, "share".toList]
  flistdel := fun t => t = "etc/ld.so.cache".toList
  xpkg := "base".toList
  own := ["share".toList]
  accesses := [⟨[script], symlink, "/r/bin".toList⟩]

theorem linked_dirs {d : Place} (h : IsDir linked.fs.chdir d) : d = [] ∨ d = ["r".toList] := isDir_smallChdir.1 h

theorem linked_access : Access.Regular ⟨[script], symlink, "/r/bin".toList⟩ where
  names := by
    unfold script
    repeat rw [String.toList_ofList]
    decide +kernel
  func := symlink_mem
  absolute := by decide
  newline := by decide
  fits := by
    unfold script symlink
    repeat rw [String.toList_ofList]
    decide +kernel
  up := by decide

theorem linked_regular : linked.Regular where
  root := by decide
  steady := steady_linkTree _ _
  dirs := by
    intro d hd
    rcases linked_dirs hd with rfl | rfl
    · simp
    · decide
  accesses := by
    intro a ha
    rw [List.mem_singleton.1 ha]
    exact linked_access
  short := by
    rintro a ha t ⟨-, rel, hparent, ht⟩
    rw [List.mem_singleton.1 ha] at hparent ht
    have hrel : some ["r".toList] = some (["r".toList] ++ rel) := hparent
    obtain rfl : rel = [] := by simpa using hrel
    rw [ht]
    decide
  own := by
    intro p hp
    rw [List.mem_singleton.1 hp]
    exact ⟨by decide, by decide, by decide, by unfold Dots; decide⟩
  xpkg := by decide
  flistroot := by unfold Dots; decide
  flistvalid := by decide
  top := by
    refine .inr ⟨by decide, by decide, fun a ha => ?_⟩
    rw [List.mem_singleton.1 ha]
    rintro ⟨n, -, hn, h⟩ -
    exact absurd ((List.cons.inj h).2 ▸ by decide) hn

theorem linked_goes : linked.aborts = false := by
  have htmp : linked.tmp = ["bin".toList] := by
    rw [FileList.tmp_eq linked_regular]
    decide
  have hnone : linked.outside = [] := by
    rw [List.eq_nil_iff_forall_not_mem]
    intro l hl
    obtain ⟨a, ha, hvalid, -⟩ := (FileList.mem_outside linked_regular l).1 hl
    rw [List.mem_singleton.1 ha, Access.line_front] at hvalid
    have hbelow := @valid_below (linked.cwd.text :: linked.flistvalid) _ List.mem_cons_self
      (Access.front ⟨[script], symlink, "/r/bin".toList⟩) "bin".toList
    exact Bool.noConfusion (hbelow.symm.trans hvalid)
  rw [FileList.aborts, hnone, htmp]
  decide

end T2Sde.Build
