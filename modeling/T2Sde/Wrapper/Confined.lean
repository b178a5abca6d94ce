import T2Sde.Wrapper.RealPath
import Mathlib.Data.List.DropRight
/-!
# The files below a directory (`misc/tools-source/fl_wrparse.c`)

`fl_wrparse -D -r rootdir` prints the names of the files that are below `rootdir`, relative to it. It finds out where
the directory of a file is by going there, and goes back for the next line. The directory of `/name` is the empty text,
to which it cannot go: it stays in `rootdir`. What stands behind the last slash is not looked at.

| here | there |
| --- | --- |
| `FileSystem`          | `chdir`, `getcwd`, `lstat` |
| `lastSlash`           | `strrchr(buf,'/')` :25-32 |
| `getRealname`         | `get_realname` :18-50 |
| `reads`               | `fgets(buf, FILENAME_MAX, stdin)` :102 |
| `wrLine`, `wrLoop`    | the loop :102-138, without `-s` and `-p` |
| `flWrparse`           | `main` |
| `location`, `Inside`   | where the file is |

* `wrLoop_eq` — a line leaves the directory as it was.
* `location_below` — what is printed leads to the file.
* `confined_iff` — **when the files below the directory are printed, and no others**.
-/
namespace T2Sde.Wrapper
open Shell

/-! ## Directories -/

/-- A directory, by the names on the way to it from `/`. -/
abbrev Place := List Text

/-- What `getcwd` says. -/
def Place.text (d : Place) : Text := '/' :: ['/'].intercalate d

/-- The same with a slash behind it. -/
def Place.front (d : Place) : Text := '/' :: d.flatMap (· ++ ['/'])

/-- A directory to which one can go. -/
def IsDir (chdir : Place → Text → Option Place) (d : Place) : Prop := d = [] ∨ ∃ e p, chdir e p = some d

/-- `FILENAME_MAX` -/
def filenameMax : Nat := 4096

/-- From the directory in which the process is. The name that `getcwd` gives to a directory leads to it again: no name
is too long for the buffers. -/
structure FileSystem where
  chdir : Place → Text → Option Place
  lstat : Place → Text → Bool
  names : ∀ d e p, chdir d p = some e → ∀ n ∈ e, Clean n
  empty : ∀ d, chdir d [] = none
  here : ∀ d, IsDir chdir d → chdir d ['.'] = some d
  back : ∀ d e, IsDir chdir d → chdir e d.text = some d
  slash : ∀ d e, IsDir chdir d → chdir e d.front = some d
  down : ∀ d ns, IsDir chdir d → IsDir chdir (d ++ ns) → ns ≠ [] → chdir d (['/'].intercalate ns) = some (d ++ ns)
  /-- Who can see a file can go where it is. -/
  parent : ∀ d p n, p ≠ [] → '/' ∉ n → lstat d (p ++ '/' :: n) = true → ∃ e, chdir d p = some e
  nothing : ∀ d, lstat d [] = false
  tooLong : ∀ d p, filenameMax ≤ p.length → lstat d p = false

/-- A `chdir` that fails leaves the directory as it is. -/
def FileSystem.cd (fs : FileSystem) (cwd : Place) (p : Text) : Place := (fs.chdir cwd p).getD cwd

/-! ## The program -/

/-- What is in front of the last slash, and behind it. -/
def lastSlash (s : Text) : Option (Text × Text) :=
  if '/' ∈ s then some ((s.rdropWhile (· != '/')).dropLast, s.rtakeWhile (· != '/')) else none

/-- The directory and the name of a file. -/
def dirAndFile (origname : Text) : Text × Text := (lastSlash origname).getD (['.'], origname)

def getRealname (fs : FileSystem) (cwd : Place) (origname : Text) : Text × Place :=
  if origname = ['/'] then (['/'], cwd)
  else
    let odir := cwd.text
    let there := fs.cd cwd (dirAndFile origname).1
    let buf := there.text
    ((if buf ≠ ['/'] then buf ++ ['/'] else buf) ++ (dirAndFile origname).2, fs.cd there odir)

/-- The buffers that the first `n` calls of `fgets` fill from a text. -/
def readsUpTo : Nat → Text → List Text
  | 0, _ => []
  | n + 1, s => if s = [] then [] else s.take (filenameMax - 1) :: readsUpTo n (s.drop (filenameMax - 1))

/-- The buffers of one line of the input. -/
def reads (line : Text) : List Text := readsUpTo (line.length + 1) (line ++ ['\n'])

def cut (buf : Text) : Text := buf.takeWhile (· != '\n')

/-- What is printed for a buffer, and the directory behind it. -/
def wrLine (fs : FileSystem) (rootdir : Text) (cwd : Place) (buf : Text) : List Text × Place :=
  let fn := cut buf
  if fn = [] ∨ fs.lstat cwd fn = false then ([], cwd)
  else
    let x := getRealname fs cwd fn
    (if rootdir.isPrefixOf x.1 then [x.1.drop rootdir.length] else [], x.2)

def wrLoop (fs : FileSystem) (rootdir : Text) : Place → List Text → List Text
  | _, [] => []
  | cwd, buf :: bufs =>
    let x := wrLine fs rootdir cwd buf
    x.1 ++ wrLoop fs rootdir x.2 bufs

/-- `fl_wrparse -D -r optarg` -/
def flWrparse (fs : FileSystem) (start : Place) (optarg : Text) (lines : List Text) : List Text :=
  let x := getRealname fs start optarg
  wrLoop fs x.1 (fs.cd x.2 x.1) (lines.flatMap reads)

/-! ## The property -/

/-- The directory in which a path has its last component. -/
def parent (fs : FileSystem) (cwd : Place) (p : Text) : Option Place :=
  fs.chdir cwd (if (dirAndFile p).1 = [] then ['/'] else (dirAndFile p).1)

/-- The place that the last component names. -/
def nameAt (d : Place) (n : Text) : Place :=
  if n = [] ∨ n = ['.'] then d else if n = ['.', '.'] then d.dropLast else d ++ [n]

def location (fs : FileSystem) (cwd : Place) (p : Text) : Option Place :=
  (parent fs cwd p).map fun d => nameAt d (dirAndFile p).2

/-- The file is there, in `root` or below. -/
def Inside (fs : FileSystem) (root : Place) (p : Text) : Prop :=
  fs.lstat root p = true ∧ ∃ rel, rel ≠ [] ∧ location fs root p = some (root ++ rel)

/-- A line for a file below `root`, with a path to it, and none for another one. -/
def Confined (fs : FileSystem) (root : Place) (p : Text) (out : List Text) : Prop :=
  (out = [] ∧ ¬ Inside fs root p) ∨
    ∃ t, out = [t] ∧ Inside fs root p ∧ t.head? ≠ some '/' ∧ location fs root t = location fs root p

/-- The only slash is the one in front. -/
def TopLevel (p : Text) : Prop := ∃ n, n ≠ [] ∧ '/' ∉ n ∧ p = '/' :: n

/-- The file is there, and its directory is `root` or below, or taken for it. -/
def Taken (fs : FileSystem) (root : Place) (p : Text) : Prop :=
  fs.lstat root p = true ∧ (TopLevel p ∨ ∃ d, parent fs root p = some d ∧ root <+: d)

/-- No file of `/` while `root` is another directory, and neither `root` itself nor the directory over it by a last
component that is no name; of a line that is too long, nothing. -/
def Fair (fs : FileSystem) (root : Place) (p : Text) : Prop :=
  if p.length < filenameMax then
    fs.lstat root p = true → (TopLevel p → root = []) ∧
      ∀ rel, parent fs root p = some (root ++ rel) →
        ((dirAndFile p).2 = [] ∨ (dirAndFile p).2 = ['.'] → rel ≠ []) ∧ ((dirAndFile p).2 = ['.', '.'] → 1 < rel.length)
  else ∀ c ∈ reads p, ¬ Taken fs root (cut c)

/-- The directory that is meant by `r/`. -/
def rootOf (fs : FileSystem) (start : Place) (r : Text) : Option Place :=
  if r = [] then some [] else fs.chdir start r

/-- Below a directory that is not there is nothing. -/
def ConfinedTo (fs : FileSystem) (start : Place) (r p : Text) (out : List Text) : Prop :=
  match rootOf fs start r with
  | some root => Confined fs root p out
  | none => out = []

/-- If it is not there, the directory is the one in which the program was started. -/
def FairTo (fs : FileSystem) (start : Place) (r p : Text) : Prop :=
  match rootOf fs start r with
  | some root => Fair fs root p
  | none => ∀ c ∈ reads p, ¬ Taken fs start (cut c)

/-! ## Paths -/

section
variable {p q n : Text}

/-- A path has no slash, or a last one. -/
theorem path_cases (p : Text) : '/' ∉ p ∨ ∃ q n, p = q ++ '/' :: n ∧ '/' ∉ n := by
  by_cases h : '/' ∈ p
  · have hrev : '/' ∈ p.reverse := List.mem_reverse.2 h
    obtain ⟨n, q, hq, hn⟩ := List.eq_append_cons_of_mem hrev
    refine .inr ⟨q.reverse, n.reverse, ?_, by simpa using hn⟩
    rw [← List.reverse_reverse p, hq]
    simp
  · exact .inl h

theorem lastSlash_append (hn : '/' ∉ n) (p : Text) : lastSlash (p ++ '/' :: n) = some (p, n) := by
  have htake : (p ++ '/' :: n).rtakeWhile (· != '/') = n := by
    rw [List.rtakeWhile, List.reverse_append, List.reverse_cons, List.append_assoc, List.singleton_append,
      List.takeWhile_append_of_pos]
    · simp
    · intro c hc
      simpa using fun h : c = '/' => hn (h ▸ List.mem_reverse.1 hc)
  have hdrop : (p ++ '/' :: n).rdropWhile (· != '/') = p ++ ['/'] := by
    rw [List.rdropWhile, List.reverse_append, List.reverse_cons, List.append_assoc, List.singleton_append,
      List.dropWhile_append_of_pos]
    · simp
    · intro c hc
      simpa using fun h : c = '/' => hn (h ▸ List.mem_reverse.1 hc)
  rw [lastSlash, if_pos (by simp), htake, hdrop, List.dropLast_concat]

theorem dirAndFile_append (hn : '/' ∉ n) (p : Text) : dirAndFile (p ++ '/' :: n) = (p, n) := by
  rw [dirAndFile, lastSlash_append hn]
  rfl

theorem dirAndFile_none (hn : '/' ∉ n) : dirAndFile n = (['.'], n) := by
  rw [dirAndFile, lastSlash, if_neg hn]
  rfl

theorem dirAndFile_spec (p : Text) : '/' ∉ (dirAndFile p).2 := by
  rcases path_cases p with hp | ⟨q, n, rfl, hn⟩
  · rwa [dirAndFile_none hp]
  · rwa [dirAndFile_append hn]

/-- Nothing is in front of the slash of a path with one in front only, and of `/`. -/
theorem dir_eq_nil (h : (dirAndFile p).1 = []) : TopLevel p ∨ p = ['/'] := by
  rcases path_cases p with hp | ⟨q, n, rfl, hn⟩
  · simp [dirAndFile_none hp] at h
  · rw [dirAndFile_append hn] at h
    subst h
    by_cases hnil : n = []
    · exact .inr (by rw [hnil]; rfl)
    · exact .inl ⟨n, hnil, hn, rfl⟩

theorem topLevel_dir (h : TopLevel p) : (dirAndFile p).1 = [] ∧ (dirAndFile p).2 ≠ [] ∧ p ≠ ['/'] := by
  obtain ⟨n, hne, hn, rfl⟩ := h
  have hdir := dirAndFile_append hn []
  rw [List.nil_append] at hdir
  rw [hdir]
  exact ⟨rfl, hne, by simpa using hne⟩

end

/-! ## Places -/

section
variable {d e : Place} {n : Text}

theorem front_eq (hd : ∀ n ∈ d, Clean n) : (if d.text ≠ ['/'] then d.text ++ ['/'] else d.text) = d.front := by
  rcases List.eq_nil_or_concat' d with rfl | ⟨d, c, rfl⟩
  · rfl
  · have hc := hd c (by simp)
    have htext : Place.text (d ++ [c]) = '/' :: (d.flatMap (· ++ ['/']) ++ c) := by rw [Place.text, flatMap_slash]
    have hne : Place.text (d ++ [c]) ≠ ['/'] := by
      rw [htext]
      simpa using fun _ => hc.1
    rw [if_pos hne, htext, Place.front]
    simp

theorem flatMap_prefix_iff (hd : ∀ n ∈ d, '/' ∉ n) (he : ∀ n ∈ e, '/' ∉ n) (hn : '/' ∉ n) :
    d.flatMap (· ++ ['/']) <+: e.flatMap (· ++ ['/']) ++ n ↔ d <+: e := by
  induction d generalizing e with
  | nil => simp
  | cons a d ih =>
    obtain ⟨ha, hd⟩ := List.forall_mem_cons.1 hd
    cases e with
    | nil =>
      refine iff_of_false (fun h => hn (h.subset ?_)) fun h => by simp at h
      simp
    | cons b e =>
      obtain ⟨hb, he⟩ := List.forall_mem_cons.1 he
      simp only [List.flatMap_cons, List.append_assoc, List.cons_append, List.nil_append]
      rw [List.cons_prefix_cons, ← ih hd he]
      constructor
      · rintro ⟨t, ht⟩
        rw [List.append_assoc, List.cons_append] at ht
        have hsplit := congrArg (List.splitOn '/') ht
        rw [splitOn_cons ha, splitOn_cons hb] at hsplit
        obtain ⟨rfl, -⟩ := List.cons.inj hsplit
        exact ⟨rfl, t, (List.cons.inj (List.append_cancel_left ht)).2⟩
      · rintro ⟨rfl, t, ht⟩
        exact ⟨t, by rw [List.append_assoc, List.cons_append, ht]⟩

/-- What stands in front of a name is a directory, or one over it. -/
theorem front_prefix_iff (hd : ∀ n ∈ d, Clean n) (he : ∀ n ∈ e, Clean n) (hn : '/' ∉ n) :
    d.front <+: e.front ++ n ↔ d <+: e := by
  rw [Place.front, Place.front, List.cons_append, List.cons_prefix_cons,
    flatMap_prefix_iff (fun n h => (hd n h).2) (fun n h => (he n h).2) hn]
  exact and_iff_right rfl

theorem front_append (d : Place) (rel : List Text) : Place.front (d ++ rel) = d.front ++ rel.flatMap (· ++ ['/']) := by
  simp [Place.front]

end

/-! ## The loop -/

section
variable {fs : FileSystem} {root : Place} {p : Text}

theorem FileSystem.clean (fs : FileSystem) {d : Place} (hd : IsDir fs.chdir d) : ∀ n ∈ d, Clean n := by
  rcases hd with rfl | ⟨e, p, h⟩
  · simp
  · exact fs.names e d p h

theorem FileSystem.isDir_cd (fs : FileSystem) (hroot : IsDir fs.chdir root) (p : Text) :
    IsDir fs.chdir (fs.cd root p) := by
  rw [FileSystem.cd]
  cases h : fs.chdir root p with
  | none => exact hroot
  | some d => exact .inr ⟨root, p, h⟩

/-- The directory in which the program looks for the file. -/
def dirOf (fs : FileSystem) (cwd : Place) (p : Text) : Place :=
  if p = ['/'] then [] else fs.cd cwd (dirAndFile p).1

theorem isDir_dirOf (hroot : IsDir fs.chdir root) (p : Text) : IsDir fs.chdir (dirOf fs root p) := by
  rw [dirOf]
  split
  · exact .inl rfl
  · exact fs.isDir_cd hroot _

theorem getRealname_eq (hroot : IsDir fs.chdir root) (p : Text) :
    getRealname fs root p = ((dirOf fs root p).front ++ (dirAndFile p).2, root) := by
  rw [getRealname, dirOf]
  by_cases h : p = ['/']
  · rw [if_pos h, if_pos h, h]
    rfl
  · have hback : fs.cd (fs.cd root (dirAndFile p).1) root.text = root := by
      rw [FileSystem.cd, fs.back root _ hroot]
      rfl
    rw [if_neg h, if_neg h]
    simp only
    rw [front_eq (fs.clean (fs.isDir_cd hroot _)), hback]

/-- The lines for a path. -/
def printed (fs : FileSystem) (root : Place) (p : Text) : List Text :=
  if fs.lstat root p = true ∧ root <+: dirOf fs root p then
    [((dirOf fs root p).drop root.length).flatMap (· ++ ['/']) ++ (dirAndFile p).2]
  else []

/-- **A line** leaves the directory as it was. -/
theorem wrLine_eq (hroot : IsDir fs.chdir root) (buf : Text) :
    wrLine fs root.front root buf = (printed fs root (cut buf), root) := by
  rw [wrLine, printed]
  generalize cut buf = p
  simp only
  by_cases hl : fs.lstat root p = true
  · have hne : p ≠ [] := by
      rintro rfl
      simp [fs.nothing] at hl
    have hfront := front_prefix_iff (fs.clean hroot) (fs.clean (isDir_dirOf hroot p)) (dirAndFile_spec p)
    rw [if_neg (by simp [hne, hl]), getRealname_eq hroot]
    simp only [List.isPrefixOf_iff_prefix]
    by_cases hin : root <+: dirOf fs root p
    · rw [if_pos (hfront.2 hin), if_pos ⟨hl, hin⟩]
      obtain ⟨rel, hrel⟩ := hin
      rw [← hrel, front_append, List.append_assoc, List.drop_left, List.drop_left]
    · rw [if_neg (mt hfront.1 hin), if_neg (fun h => hin h.2)]
  · rw [if_pos (.inr (by simpa using hl)), if_neg (fun h => hl h.1)]

theorem wrLoop_eq (hroot : IsDir fs.chdir root) (bufs : List Text) :
    wrLoop fs root.front root bufs = bufs.flatMap fun buf => printed fs root (cut buf) := by
  induction bufs with
  | nil => rfl
  | cons buf bufs ih =>
    rw [wrLoop, wrLine_eq hroot, List.flatMap_cons]
    exact congrArg _ ih

/-! ## A path -/

theorem parent_eq (hroot : IsDir fs.chdir root) (hl : fs.lstat root p = true) (htop : ¬ TopLevel p) :
    parent fs root p = some (dirOf fs root p) := by
  rw [parent, dirOf]
  by_cases h : p = ['/']
  · have hback := fs.back [] root (.inl rfl)
    rw [if_pos h, h]
    exact hback
  have hdir : (dirAndFile p).1 ≠ [] := fun hnil => (dir_eq_nil hnil).elim htop h
  rw [if_neg hdir, if_neg h, FileSystem.cd]
  rcases path_cases p with hp | ⟨q, n, rfl, hn⟩
  · rw [dirAndFile_none hp, fs.here root hroot]
    rfl
  · rw [dirAndFile_append hn] at hdir ⊢
    obtain ⟨e, he⟩ := fs.parent root q n hdir hn hl
    rw [he]
    rfl

theorem parent_topLevel (root : Place) (htop : TopLevel p) : parent fs root p = some [] ∧ dirOf fs root p = root := by
  obtain ⟨hdir, -, hne⟩ := topLevel_dir htop
  refine ⟨?_, ?_⟩
  · rw [parent, if_pos hdir]
    exact fs.back [] root (.inl rfl)
  · rw [dirOf, if_neg hne, hdir, FileSystem.cd, fs.empty]
    rfl

theorem printed_of_not_lstat (h : ¬ fs.lstat root p = true) : printed fs root p = [] := if_neg fun hp => h hp.1

/-- The names below `root` lead to the file. -/
theorem location_below {rel : Place} (hroot : IsDir fs.chdir root) (hbelow : IsDir fs.chdir (root ++ rel)) {n : Text}
    (hn : '/' ∉ n) :
    (rel.flatMap (· ++ ['/']) ++ n).head? ≠ some '/' ∧
      location fs root (rel.flatMap (· ++ ['/']) ++ n) = some (nameAt (root ++ rel) n) := by
  have hclean : ∀ c ∈ rel, Clean c := fun c hc => fs.clean hbelow c (List.mem_append_right _ hc)
  rcases List.eq_nil_or_concat' rel with rfl | ⟨rel, c, rfl⟩
  · refine ⟨fun h => hn (List.mem_of_head? h), ?_⟩
    rw [location, parent, List.flatMap_nil, List.nil_append, dirAndFile_none hn, if_neg (by simp), fs.here root hroot,
      List.append_nil]
    rfl
  · have hjoin : (rel ++ [c]).flatMap (· ++ ['/']) ++ n = ['/'].intercalate (rel ++ [c]) ++ '/' :: n := by
      rw [← flatMap_slash rel c, List.flatMap_append, List.flatMap_singleton]
      simp only [List.append_assoc, List.singleton_append]
    have hfirst : (['/'].intercalate (rel ++ [c])).head? ≠ some '/' ∧ ['/'].intercalate (rel ++ [c]) ≠ [] := by
      cases rel with
      | nil =>
        have hc := hclean c (by simp)
        rw [List.nil_append, List.intercalate_singleton]
        exact ⟨fun h => hc.2 (List.mem_of_head? h), hc.1⟩
      | cons a rel =>
        obtain ⟨x, a, rfl⟩ := List.exists_cons_of_ne_nil (hclean a (by simp)).1
        have hx : x ≠ '/' := fun h => (hclean (x :: a) (by simp)).2 (h ▸ List.mem_cons_self)
        rw [← flatMap_slash]
        simpa using hx
    rw [hjoin]
    refine ⟨?_, ?_⟩
    · rw [List.head?_append_of_ne_nil _ hfirst.2]
      exact hfirst.1
    · rw [location, parent, dirAndFile_append hn, if_neg hfirst.2, fs.down root _ hroot hbelow (by simp)]
      rfl

/-- The place of a file is below `root` if its directory is, and is not left by a last component that is no name. -/
theorem nameAt_below {d : Place} {n : Text} :
    (∃ rel, rel ≠ [] ∧ nameAt d n = root ++ rel) ↔
      ∃ rel, d = root ++ rel ∧ (n = [] ∨ n = ['.'] → rel ≠ []) ∧ (n = ['.', '.'] → 1 < rel.length) := by
  rw [nameAt]
  by_cases hstay : n = [] ∨ n = ['.']
  · have hup : n ≠ ['.', '.'] := by
      rintro rfl
      simp at hstay
    rw [if_pos hstay]
    simp only [hstay, hup, forall_const, IsEmpty.forall_iff, and_true]
    exact exists_congr fun rel => and_comm
  · rw [if_neg hstay]
    by_cases hup : n = ['.', '.']
    · rw [if_pos hup]
      simp only [hup, forall_const]
      constructor
      · rintro ⟨rel, hne, h⟩
        rcases List.eq_nil_or_concat' d with rfl | ⟨d, c, rfl⟩
        · simp [hne] at h
        · rw [List.dropLast_concat] at h
          have hpos := List.length_pos_iff.2 hne
          refine ⟨rel ++ [c], by rw [h, List.append_assoc], by simp, ?_⟩
          rw [List.length_append, List.length_singleton]
          omega
      · rintro ⟨rel, rfl, -, h⟩
        have hne : rel ≠ [] := by
          rintro rfl
          simp at h
        refine ⟨rel.dropLast, ?_, List.dropLast_append_of_ne_nil hne⟩
        rw [← List.length_pos_iff, List.length_dropLast]
        omega
    · rw [if_neg hup]
      simp only [hstay, hup, IsEmpty.forall_iff, and_true]
      constructor
      · rintro ⟨rel, hne, h⟩
        rcases List.eq_nil_or_concat' rel with rfl | ⟨rel, c, rfl⟩
        · exact absurd rfl hne
        · rw [← List.append_assoc] at h
          exact ⟨rel, (List.append_inj' h rfl).1⟩
      · rintro ⟨rel, rfl⟩
        exact ⟨rel ++ [n], by simp, List.append_assoc _ _ _⟩

/-- A file that is there, below `root` by its directory. -/
theorem inside_iff {d : Place} (hl : fs.lstat root p = true) (hd : parent fs root p = some d) :
    Inside fs root p ↔ ∃ rel, d = root ++ rel ∧ ((dirAndFile p).2 = [] ∨ (dirAndFile p).2 = ['.'] → rel ≠ []) ∧
      ((dirAndFile p).2 = ['.', '.'] → 1 < rel.length) := by
  rw [← nameAt_below, Inside, location, hd, Option.map_some]
  simp only [hl, true_and, Option.some.injEq]

theorem fair_of_parent {d : Place} (hp : p.length < filenameMax) (hl : fs.lstat root p = true)
    (hd : parent fs root p = some d) :
    Fair fs root p ↔ (TopLevel p → root = []) ∧ (root <+: d → Inside fs root p) := by
  rw [Fair, if_pos hp, inside_iff hl hd, hd]
  simp only [hl, forall_const, Option.some.injEq]
  refine and_congr_right fun _ => ⟨?_, ?_⟩
  · rintro h ⟨rel, rfl⟩
    exact ⟨rel, rfl, h rel rfl⟩
  · rintro h rel rfl
    obtain ⟨rel', hrel, h'⟩ := h ⟨rel, rfl⟩
    rwa [List.append_cancel_left hrel]

/-- **A path that is read at once.** -/
theorem confined_short (hroot : IsDir fs.chdir root) (hp : p.length < filenameMax) :
    Confined fs root p (printed fs root p) ↔ Fair fs root p := by
  by_cases hl : fs.lstat root p = true
  swap
  · rw [printed_of_not_lstat hl, Fair, if_pos hp]
    exact iff_of_true (.inl ⟨rfl, fun h => hl h.1⟩) fun h => absurd h hl
  by_cases htop : TopLevel p ∧ root ≠ []
  · obtain ⟨hpar, hdir⟩ := @parent_topLevel fs _ root htop.1
    have hout : ¬ Inside fs root p := by
      rw [inside_iff hl hpar]
      rintro ⟨rel, hrel, -⟩
      exact htop.2 (List.append_eq_nil_iff.1 hrel.symm).1
    rw [fair_of_parent hp hl hpar, printed, if_pos ⟨hl, by rw [hdir]⟩]
    refine iff_of_false ?_ fun h => htop.2 (h.1 htop.1)
    rintro (⟨h, -⟩ | ⟨t, -, h, -⟩)
    · simp at h
    · exact hout h
  · have hpar : parent fs root p = some (dirOf fs root p) := by
      by_cases h : TopLevel p
      · obtain ⟨hpar, hdir⟩ := @parent_topLevel fs _ root h
        rw [hpar, hdir, not_not.1 fun hne => htop ⟨h, hne⟩]
      · exact parent_eq hroot hl h
    have hroot' : TopLevel p → root = [] := fun h => not_not.1 fun hne => htop ⟨h, hne⟩
    rw [fair_of_parent hp hl hpar, printed, and_iff_right hroot']
    by_cases hin : root <+: dirOf fs root p
    · rw [if_pos ⟨hl, hin⟩]
      have hbelow := @isDir_dirOf fs _ hroot p
      obtain ⟨rel, hrel⟩ := hin
      rw [← hrel] at hpar hbelow ⊢
      obtain ⟨hhead, hloc⟩ := location_below hroot hbelow (dirAndFile_spec p)
      rw [List.drop_left, Confined]
      constructor
      · rintro (⟨h, -⟩ | ⟨t, -, h, -⟩) -
        · simp at h
        · exact h
      · intro h
        exact .inr ⟨_, rfl, h (List.prefix_append root rel), hhead, by rw [hloc, location, hpar]; rfl⟩
    · rw [if_neg fun h => hin h.2]
      refine iff_of_true (.inl ⟨rfl, ?_⟩) fun h => absurd h hin
      rw [inside_iff hl hpar]
      rintro ⟨rel, hrel, -⟩
      exact hin ⟨rel, hrel.symm⟩

/-! ## What is read -/

theorem cut_clean {c : Text} (hc : '\n' ∉ c) (rest : Text) : cut (c ++ '\n' :: rest) = c := by
  rw [cut, List.takeWhile_append_of_pos fun x hx => by simpa using fun h : x = '\n' => hc (h ▸ hx)]
  simp

theorem readsUpTo_short {n : Nat} {s : Text} (hne : s ≠ []) (hs : s.length < filenameMax) :
    readsUpTo (n + 1) s = [s] := by
  rw [readsUpTo, if_neg hne, List.take_of_length_le (by omega), List.drop_of_length_le (by omega)]
  cases n <;> simp [readsUpTo]

theorem printed_nil : printed fs root [] = [] := printed_of_not_lstat (by simp [fs.nothing])

/-- A line that fits into the buffer, with its end or without it. -/
theorem reads_short (hp : p.length < filenameMax) (hnl : '\n' ∉ p) :
    ((reads p).flatMap fun buf => printed fs root (cut buf)) = printed fs root p := by
  rw [reads]
  by_cases hend : p.length + 1 < filenameMax
  · rw [readsUpTo_short (by simp) (by simpa using hend), List.flatMap_singleton, cut_clean hnl]
  · have hfull : p.length = filenameMax - 1 := by omega
    have hlong : p.length = (p.length - 1) + 1 := by rw [hfull]; rfl
    rw [readsUpTo, if_neg (by simp), ← hfull, List.take_left, List.drop_left, hlong,
      readsUpTo_short (by simp) (by simp [filenameMax]), List.flatMap_cons, List.flatMap_singleton]
    have hcut : cut p = p := List.takeWhile_eq_self_iff.2 fun x hx => by simpa using fun h : x = '\n' => hnl (h ▸ hx)
    rw [hcut, ← List.nil_append ['\n'], cut_clean (by simp), printed_nil, List.append_nil]

theorem printed_ne_nil (hroot : IsDir fs.chdir root) : printed fs root p ≠ [] ↔ Taken fs root p := by
  rw [printed, Taken]
  by_cases hl : fs.lstat root p = true
  · simp only [hl, true_and, ne_eq, ite_eq_right_iff, List.cons_ne_self, imp_false, not_not]
    by_cases htop : TopLevel p
    · exact iff_of_true (by rw [(parent_topLevel root htop).2]) (.inl htop)
    · rw [parent_eq hroot hl htop]
      simp [htop]
  · simp [hl]

theorem reads_eq_nil (hroot : IsDir fs.chdir root) (p : Text) :
    ((reads p).flatMap fun buf => printed fs root (cut buf)) = [] ↔ ∀ c ∈ reads p, ¬ Taken fs root (cut c) := by
  rw [List.flatMap_eq_nil_iff]
  exact forall₂_congr fun c _ => by rw [← printed_ne_nil hroot, not_not]

/-- A path with its newline, however it is read. -/
theorem confined_reads (hroot : IsDir fs.chdir root) (hnl : '\n' ∉ p) :
    Confined fs root p ((reads p).flatMap fun buf => printed fs root (cut buf)) ↔ Fair fs root p := by
  by_cases hp : p.length < filenameMax
  · rw [reads_short hp hnl]
    exact confined_short hroot hp
  · have hout : ¬ Inside fs root p := fun h => by simpa [fs.tooLong root p (not_lt.1 hp)] using h.1
    rw [Fair, if_neg hp, ← reads_eq_nil hroot, Confined]
    simp only [hout, not_false_eq_true, and_true, false_and, and_false, exists_false, or_false]

end

/-! ## The run -/

section
variable {fs : FileSystem} {start : Place}

theorem isDir_rootOf (hstart : IsDir fs.chdir start) (r : Text) : IsDir fs.chdir ((rootOf fs start r).getD start) := by
  rw [rootOf]
  split
  · exact .inl rfl
  · exact fs.isDir_cd hstart r

theorem getRealname_root (hstart : IsDir fs.chdir start) (r : Text) :
    getRealname fs start (r ++ ['/']) = (((rootOf fs start r).getD start).front, start) := by
  by_cases hr : r = []
  · subst hr
    rfl
  · rw [getRealname_eq hstart, dirOf, if_neg (by simpa using hr), dirAndFile_append (by simp), rootOf, if_neg hr,
      List.append_nil]
    rfl

/-- **The run**, line by line. -/
theorem flWrparse_eq (hstart : IsDir fs.chdir start) (r : Text) (lines : List Text) :
    flWrparse fs start (r ++ ['/']) lines =
      lines.flatMap fun p => (reads p).flatMap fun buf => printed fs ((rootOf fs start r).getD start) (cut buf) := by
  have hroot := isDir_rootOf hstart r
  rw [flWrparse, getRealname_root hstart]
  simp only [FileSystem.cd]
  rw [fs.slash _ start hroot, Option.getD_some, wrLoop_eq hroot, List.flatMap_assoc]

/-- **The files below the directory**: of the lines, each is for itself, and one is printed as it should be if and only
if its path is a fair one. -/
theorem confined_iff (hstart : IsDir fs.chdir start) (r : Text) {lines : List Text} (hlines : ∀ p ∈ lines, '\n' ∉ p) :
    flWrparse fs start (r ++ ['/']) lines = (lines.flatMap fun p => flWrparse fs start (r ++ ['/']) [p]) ∧
      ∀ p ∈ lines, ConfinedTo fs start r p (flWrparse fs start (r ++ ['/']) [p]) ↔ FairTo fs start r p := by
  have hroot := isDir_rootOf hstart r
  simp only [flWrparse_eq hstart, List.flatMap_singleton]
  refine ⟨trivial, fun p hp => ?_⟩
  rw [ConfinedTo, FairTo]
  cases hr : rootOf fs start r with
  | none =>
    rw [hr] at hroot
    exact reads_eq_nil hroot p
  | some root =>
    rw [hr] at hroot
    exact confined_reads hroot (hlines p hp)

end

/-! ## A directory with a file -/

/-- Some ways to `/` and `/r`. -/
def smallChdir (d : Place) (p : Text) : Option Place :=
  if p = ['/'] then some []
  else if p = "/r".toList ∨ p = "/r/".toList then some ["r".toList]
  else if p = ['.'] ∧ (d = [] ∨ d = ["r".toList]) then some d
  else if p = ['r'] ∧ d = [] then some ["r".toList]
  else none

theorem isDir_smallChdir {d : Place} : IsDir smallChdir d ↔ d = [] ∨ d = ["r".toList] := by
  constructor
  · rintro (rfl | ⟨e, p, h⟩)
    · exact .inl rfl
    · rw [smallChdir] at h
      split_ifs at h with h1 h2 h3
      · exact .inl (Option.some.inj h).symm
      · exact .inr (Option.some.inj h).symm
      · exact Option.some.inj h ▸ h3.2
      · exact .inr (Option.some.inj h).symm
  · rintro (rfl | rfl)
    · exact .inl rfl
    · exact .inr ⟨[], "/r".toList, by decide⟩

/-- `/name` and `/r/file` -/
def smallTree : FileSystem where
  chdir := smallChdir
  lstat d p := p = "/name".toList ∨ p = "/r/file".toList ∨ (p = "file".toList ∧ d = ["r".toList])
  names d e p h := by
    rcases isDir_smallChdir.1 (.inr ⟨d, p, h⟩) with rfl | rfl
    · simp
    · simp [Clean]
  empty d := rfl
  here d hd := by
    rcases isDir_smallChdir.1 hd with rfl | rfl <;> rfl
  back d e hd := by
    rcases isDir_smallChdir.1 hd with rfl | rfl <;> rfl
  slash d e hd := by
    rcases isDir_smallChdir.1 hd with rfl | rfl <;> rfl
  down d ns hd hdown hns := by
    rcases isDir_smallChdir.1 hdown with h | h
    · exact absurd (List.append_eq_nil_iff.1 h).2 hns
    · rcases isDir_smallChdir.1 hd with rfl | rfl
      · rw [List.nil_append] at h
        subst h
        rfl
      · exact absurd (by simpa using h) hns
  parent d p n hp hn h := by
    have hsplit := dirAndFile_append hn p
    rcases of_decide_eq_true h with h | h | ⟨h, -⟩
    · rw [h] at hsplit
      exact absurd (congrArg Prod.fst hsplit).symm hp
    · rw [h] at hsplit
      obtain rfl := congrArg Prod.fst hsplit
      exact ⟨["r".toList], rfl⟩
    · have hslash : '/' ∈ "file".toList := h ▸ List.mem_append_right p List.mem_cons_self
      exact absurd hslash (by decide)
  nothing d := by simp
  tooLong d p hp := by
    have hlong : ∀ q : Text, q.length < filenameMax → p ≠ q := by
      rintro q hq rfl
      omega
    apply decide_eq_false
    rintro (h | h | ⟨h, -⟩)
    · exact hlong _ (by decide) h
    · exact hlong _ (by decide) h
    · exact hlong _ (by decide) h

theorem rootOf_r : rootOf smallTree [] "r".toList = some ["r".toList] := by decide

/-- A file of `r` by its absolute name. -/
theorem confined_file :
    ConfinedTo smallTree [] "r".toList "/r/file".toList
      (flWrparse smallTree [] ("r".toList ++ ['/']) ["/r/file".toList]) := by
  have hfair : FairTo smallTree [] "r".toList "/r/file".toList := by
    rw [FairTo, rootOf_r]
    simp only
    rw [Fair, if_pos (by decide)]
    refine fun _ => ⟨?_, fun rel _ => ⟨?_, ?_⟩⟩
    · rintro ⟨n, -, hn, h⟩
      have hslash : '/' ∈ n := (List.cons.inj h).2 ▸ by decide
      exact absurd hslash hn
    · exact fun h => absurd h (by decide)
    · exact fun h => absurd h (by decide)
  exact ((@confined_iff smallTree [] (.inl rfl) "r".toList ["/r/file".toList] (by decide)).2 _ (by simp)).2 hfair

/-- A file of `/` is taken for one of `r`, which has none of this name. -/
theorem top_level_printed :
    flWrparse smallTree [] ("r".toList ++ ['/']) ["/name".toList] = ["name".toList] ∧
      smallTree.lstat ["r".toList] "name".toList = false ∧
      ¬ ConfinedTo smallTree [] "r".toList "/name".toList
        (flWrparse smallTree [] ("r".toList ++ ['/']) ["/name".toList]) := by
  have hrun : flWrparse smallTree [] ("r".toList ++ ['/']) ["/name".toList] = ["name".toList] := by decide
  refine ⟨hrun, by decide, ?_⟩
  rw [hrun, ConfinedTo, rootOf_r]
  simp only
  rintro (⟨h, -⟩ | ⟨t, -, ⟨-, rel, -, h⟩, -⟩)
  · simp at h
  · have hplace : location smallTree ["r".toList] "/name".toList = some ["name".toList] := by decide
    rw [hplace] at h
    exact absurd (List.cons.inj (Option.some.inj h)).1 (by decide)

end T2Sde.Wrapper
