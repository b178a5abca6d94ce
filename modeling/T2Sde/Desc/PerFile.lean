import T2Sde.Desc.Synonyms
import T2Sde.Lib.Cut
/-!
# The package list file by file (`scripts/Create-PkgList`)

The awk program reads all `.desc` files as one stream. It prints the line of a file when the next one starts, or at the
end of the input; its variables are set anew with the first line of a file, and `pkgtree` says whether there is a line
to print. Its value is the repository, and awk takes a repository with a name like `0` for false.

| here | there |
| --- | --- |
| `Awk.unset`     | the variables before the first line |
| `pending`       | `if (pkgtree) print_package()` :35-37, and the rule with `FNR == 1` :39-41 |
| `Awk.opened`    | `FNR == 1` :43-50 |
| `Awk.read`      | the rules for one line |
| `createPkgList` | the program, on all files |

* `readFile_output` — what a file adds to the output.
* `createPkgList_eq` — the output, file by file.
* `per_file_iff` — **when a file has its line exactly if it is admitted**.
-/
namespace T2Sde.Desc
open Shell

/-- A file as the program finds it: `repository/name/base`. -/
structure Input where
  file : DescFile
  base : Text
  repositoryNoSlash : '/' ∉ file.repository

def Input.filename (f : Input) : Text := f.file.repository ++ '/' :: (f.file.name ++ '/' :: f.base)

def Awk.unset : Awk where
  pkgtree := []
  package := []
  defset := []
  pri := []
  stages := []
  ver := []
  verDup := false
  categories := []
  flags := []

/-- The line of the variables, if there is one. -/
def pending (s : Awk) : List Text := if truthy s.pkgtree then [printPackage s] else []

/-- The rule that sets the variables, with the parts of the file name. -/
def Awk.opened (s : Awk) (filename : Text) : Awk :=
  let a := filename.splitOn '/'
  { s with
    pkgtree := field a 1
    package := field a 2
    defset := "X".toList
    pri := "800.000".toList
    stages := "-----5---9".toList
    ver := "0000".toList
    categories := []
    verDup := false
    flags := [] }

section
variable (arch kernel : Text)

/-- The output so far and the variables, behind line `fnr` of a file. -/
def Awk.read (filename : Text) (st : List Text × Awk) (line : Text) (fnr : Nat) : List Text × Awk :=
  let out := if fnr = 1 then st.1 ++ pending st.2 else st.1
  let s := if fnr = 1 then st.2.opened filename else st.2
  (out, s.line arch kernel line)

def readFile (st : List Text × Awk) (f : Input) : List Text × Awk :=
  (f.file.lines.zipIdx 1).foldl (fun st x => Awk.read arch kernel f.filename st x.1 x.2) st

/-- What the program prints. -/
def createPkgList (files : List Input) : List Text :=
  let st := files.foldl (readFile arch kernel) ([], Awk.unset)
  st.1 ++ pending st.2

/-! ## One file -/

variable {arch kernel}

/-- The first line of a file leaves nothing of the variables before it. -/
theorem opened_eq (s : Awk) (f : Input) : s.opened f.filename = Awk.start f.file := by
  have hsplit : f.filename.splitOn '/' = f.file.repository :: f.file.name :: f.base.splitOn '/' := by
    rw [Input.filename, splitOn_cons f.repositoryNoSlash, splitOn_cons f.file.nameNoSlash]
  simp only [Awk.opened, hsplit, field]
  rfl

/-- The lines behind the first one print nothing. -/
theorem read_rest (filename : Text) (ls : List Text) {n : Nat} (hn : 1 < n) (st : List Text × Awk) :
    (ls.zipIdx n).foldl (fun st x => Awk.read arch kernel filename st x.1 x.2) st =
      (st.1, ls.foldl (Awk.line arch kernel) st.2) := by
  induction ls generalizing n st with
  | nil => rfl
  | cons l ls ih =>
    have hread : Awk.read arch kernel filename st l n = (st.1, st.2.line arch kernel l) := by
      rw [Awk.read, if_neg (by omega), if_neg (by omega)]
    rw [List.zipIdx_cons, List.foldl_cons, hread, ih (by omega), List.foldl_cons]

theorem readFile_cons {f : Input} (h : f.file.lines ≠ []) (st : List Text × Awk) :
    readFile arch kernel st f =
      (st.1 ++ pending st.2, f.file.lines.foldl (Awk.line arch kernel) (Awk.start f.file)) := by
  obtain ⟨l, ls, hl⟩ := List.exists_cons_of_ne_nil h
  have hread : Awk.read arch kernel f.filename st l 1 =
      (st.1 ++ pending st.2, (Awk.start f.file).line arch kernel l) := by
    rw [Awk.read, if_pos rfl, if_pos rfl, opened_eq]
  rw [readFile, hl, List.zipIdx_cons, List.foldl_cons, hread, read_rest _ _ (by omega), List.foldl_cons]

/-- **One file**: what is printed of it at the end of it or later is its line. -/
theorem readFile_output (st : List Text × Awk) (f : Input) :
    (readFile arch kernel st f).1 ++ pending (readFile arch kernel st f).2 =
      st.1 ++ pending st.2 ++ (listLine arch kernel f.file).toList := by
  by_cases h : f.file.lines = []
  · simp [readFile, listLine, record, h]
  · rw [readFile_cons h, listLine, record, if_neg h]
    simp only [pending]
    congr 1
    split <;> rfl

/-! ## All files -/

theorem foldl_output (files : List Input) (st : List Text × Awk) :
    (files.foldl (readFile arch kernel) st).1 ++ pending (files.foldl (readFile arch kernel) st).2 =
      st.1 ++ pending st.2 ++ files.flatMap fun f => (listLine arch kernel f.file).toList := by
  induction files generalizing st with
  | nil => simp
  | cons f files ih => rw [List.foldl_cons, ih, readFile_output, List.flatMap_cons, List.append_assoc]

/-- **The output file by file.** -/
theorem createPkgList_eq (files : List Input) :
    createPkgList arch kernel files = files.flatMap fun f => (listLine arch kernel f.file).toList :=
  foldl_output files ([], Awk.unset)

theorem createPkgList_singleton (f : Input) :
    createPkgList arch kernel [f] = (listLine arch kernel f.file).toList := by
  rw [createPkgList_eq, List.flatMap_singleton]

/-! ## Which files have a line -/

/-- A list behind a tag admits a name: it starts with `-` and does not have it, or it has it. -/
def Admits (me : Text) : List Text → Prop
  | ['-'] :: names => me ∉ names
  | names => me ∈ names

/-- Every selection of the file admits the architecture and the kernel. -/
def Admitted (arch kernel : Text) (f : DescFile) : Prop :=
  ∀ l ∈ f.lines, (hasTag ["R", "ARCH", "ARCHITECTURE"] l = true → Admits arch ((split l).drop 1)) ∧
    (hasTag ["K", "KERN", "KERNEL"] l = true → Admits kernel ((split l).drop 1))

theorem selected_iff (me : Text) (a : List Text) : selected me a = true ↔ Admits me (a.drop 1) := by
  match a with
  | [] => simp [selected, field, Admits]
  | [t] => simp [selected, field, Admits]
  | t :: x :: names =>
    by_cases hx : x = ['-']
    · simp [selected, field, Admits, hx]
    · have hadmits : Admits me (x :: names) ↔ me ∈ x :: names := by
        unfold Admits
        split
        next h => exact absurd (List.cons.inj h).1 hx
        · rfl
      simp [selected, field, hx, hadmits]

theorem drops_iff (l : Text) : drops arch kernel l = false ↔
    (hasTag ["R", "ARCH", "ARCHITECTURE"] l = true → Admits arch ((split l).drop 1)) ∧
      (hasTag ["K", "KERN", "KERNEL"] l = true → Admits kernel ((split l).drop 1)) := by
  rw [← selected_iff, ← selected_iff, drops]
  cases hasTag ["R", "ARCH", "ARCHITECTURE"] l <;> cases hasTag ["K", "KERN", "KERNEL"] l <;> simp

/-- A file that is rejected stays so, whatever its other lines are (`foldl_pkgtree`). -/
theorem admitted_iff (f : DescFile) : Admitted arch kernel f ↔ f.lines.any (drops arch kernel) = false := by
  rw [List.any_eq_false]
  exact forall₂_congr fun l _ => by rw [Bool.not_eq_true, drops_iff]

/-- A file has a line if it is not empty, is admitted, and its repository is not a zero for awk. -/
theorem listLine_isSome (f : DescFile) : (listLine arch kernel f).isSome = true ↔
    (f.lines ≠ [] ∧ Admitted arch kernel f) ∧ isZero f.repository = false := by
  have htruthy : truthy f.repository = !isZero f.repository := by
    simp [truthy, f.repositoryWord.1]
  rw [listLine, Option.isSome_map, record]
  by_cases h : f.lines = []
  · simp [h]
  · simp only [if_neg h, foldl_pkgtree, admitted_iff, Awk.start]
    cases f.lines.any (drops arch kernel)
    · cases hz : isZero f.repository <;> simp [htruthy, hz, h]
    · simp [truthy]

/-- The output is that of the files one by one, and a file has one line if it is not empty and is admitted, and none
if not. -/
def PerFile (arch kernel : Text) (files : List Input) : Prop :=
  createPkgList arch kernel files = files.flatMap (fun f => createPkgList arch kernel [f]) ∧
    ∀ f ∈ files, (f.file.lines ≠ [] ∧ Admitted arch kernel f.file → ∃ l, createPkgList arch kernel [f] = [l]) ∧
      (¬ (f.file.lines ≠ [] ∧ Admitted arch kernel f.file) → createPkgList arch kernel [f] = [])

/-- **The package list is per file exactly when no repository with such a file is a zero for awk.** -/
theorem per_file_iff (arch kernel : Text) (files : List Input) : PerFile arch kernel files ↔
    ∀ f ∈ files, f.file.lines ≠ [] → Admitted arch kernel f.file → isZero f.file.repository = false := by
  have hconcat : createPkgList arch kernel files = files.flatMap fun f => createPkgList arch kernel [f] := by
    simp only [createPkgList_singleton, createPkgList_eq files]
  rw [PerFile, and_iff_right hconcat]
  refine forall₂_congr fun f _ => ?_
  rw [createPkgList_singleton]
  constructor
  · rintro ⟨h, -⟩ hne hadm
    obtain ⟨l, hl⟩ := h ⟨hne, hadm⟩
    have hsome : (listLine arch kernel f.file).isSome = true := by
      cases hline : listLine arch kernel f.file with
      | none => simp [hline] at hl
      | some l => rfl
    exact ((listLine_isSome f.file).1 hsome).2
  · intro h
    refine ⟨fun ⟨hne, hadm⟩ => ?_, fun hno => ?_⟩
    · obtain ⟨l, hl⟩ := Option.isSome_iff_exists.1 ((listLine_isSome f.file).2 ⟨⟨hne, hadm⟩, h hne hadm⟩)
      exact ⟨l, by rw [hl]; rfl⟩
    · have hnone : listLine arch kernel f.file = none := by
        rw [← Option.not_isSome_iff_eq_none]
        exact fun hsome => hno ((listLine_isSome f.file).1 hsome).1
      rw [hnone]
      rfl

end

/-- A package without selections in a repository. -/
def inRepository (repository : Text) (h : Word repository ∧ '/' ∉ repository) : Input where
  file :=
    { repository := repository
      name := "foo".toList
      lines := ["[I] A package".toList]
      repositoryWord := h.1
      nameWord := by decide
      nameNoSlash := by decide }
  base := "foo.desc".toList
  repositoryNoSlash := h.2

/-- A repository with the name `0` is not in the list. -/
theorem zero_left_out : createPkgList "x86".toList "linux".toList [inRepository ['0'] (by decide)] = [] ∧
    ¬ PerFile "x86".toList "linux".toList [inRepository ['0'] (by decide)] := by
  have hnone : createPkgList "x86".toList "linux".toList [inRepository ['0'] (by decide)] = [] := by decide +kernel
  refine ⟨hnone, fun h => ?_⟩
  obtain ⟨l, hl⟩ := (h.2 _ (List.mem_singleton_self _)).1 ⟨by decide, (admitted_iff _).2 (by decide +kernel)⟩
  rw [hnone] at hl
  cases hl

end T2Sde.Desc
