import T2Sde.Lib.Lua
/-!
# `scripts/Create-PkgList`

The awk program that prints a line for each `.desc` file. Its state starts anew with the first line of a file, and
a line is printed when the next file starts or the input ends, so the files are taken one by one.

| here | there |
| --- | --- |
| `split`, `truthy`   | awk: `split($0, a, /[ \t]+/)`, a field as a condition |
| `Awk.start`         | `FNR == 1` :42-49 |
| `Awk.line`          | the rules for the tags :51-121 |
| `record`            | the state with which `print_package` is called, none if `pkgtree` is not set |
| `printPackage`      | `print_package` :30-33 |
-/
namespace T2Sde.Desc
open Shell

/-! ## awk -/

def isSep (c : Char) : Bool := c == ' ' || c == '\t'

/-- The fields of a text that is not empty: a run of separators ends one. -/
def splitFields : Text → List Text
  | [] => [[]]
  | c :: t =>
    if isSep c then if t.head?.any isSep then splitFields t else [] :: splitFields t
    else (splitFields t).modifyHead (c :: ·)

/-- `split($0, a, /[ \t]+/)` -/
def split (line : Text) : List Text := if line = [] then [] else splitFields line

/-- `a[i]`, empty beyond the end -/
def field (a : List Text) (i : Nat) : Text := a.getD (i - 1) []

/-- A numeric text: sign, digits with a point, exponent; whether it is zero. -/
def isZero (t : Text) : Bool :=
  let t := if t.head? = some '+' || t.head? = some '-' then t.drop 1 else t
  let mantissa := t.takeWhile fun c => c.isDigit || c == '.'
  let exponent := t.drop mantissa.length
  let digits := mantissa.filter (·.isDigit)
  let power := if (exponent.drop 1).head? = some '+' || (exponent.drop 1).head? = some '-' then exponent.drop 2
    else exponent.drop 1
  !digits.isEmpty && digits.all (· == '0') && mantissa.length ≤ digits.length + 1 &&
    (exponent.isEmpty || ((exponent.head? = some 'e' || exponent.head? = some 'E') && !power.isEmpty &&
      power.all (·.isDigit)))

/-- A field as a condition: empty texts and numeric zeros are false. -/
def truthy (t : Text) : Bool := !t.isEmpty && !isZero t

/-! ## The rules -/

/-- A non-empty text without blanks, line ends included. -/
def Word (w : Text) : Prop := w ≠ [] ∧ ∀ c ∈ w, Lua.isSpace c = false

instance (w : Text) : Decidable (Word w) :=
  decidable_of_iff (w ≠ [] ∧ (w.all fun c => !Lua.isSpace c) = true) (by simp [Word])

/-- A `.desc` file, `repository/name/x.desc` in the package directory. -/
structure DescFile where
  repository : Text
  name : Text
  lines : List Text
  repositoryWord : Word repository
  nameWord : Word name
  nameNoSlash : '/' ∉ name

structure Awk where
  pkgtree : Text
  package : Text
  defset : Text
  pri : Text
  stages : Text
  ver : Text
  verDup : Bool
  categories : List Text
  flags : List Text
  deriving DecidableEq, Repr

def Awk.start (f : DescFile) : Awk where
  pkgtree := f.repository
  package := f.name
  defset := "X".toList
  pri := "800.000".toList
  stages := "-----5---9".toList
  ver := "0000".toList
  verDup := false
  categories := []
  flags := []

/-- `/^\[(A|B|C)\]/` -/
def hasTag (tags : List String) (line : Text) : Bool := tags.any fun t => (('[' :: t.toList) ++ [']']).isPrefixOf line

/-- `for (c=2; a[c]; c++)` -/
def listed (a : List Text) : List Text := (a.drop 1).takeWhile truthy

/-- The rule of an architecture or kernel selection: whether the package stays. -/
def selected (me : Text) (a : List Text) : Bool :=
  if field a 2 = ['-'] then !(a.drop 2).contains me else (a.drop 1).contains me

def Awk.line (arch kernel : Text) (s : Awk) (line : Text) : Awk :=
  let a := split line
  if hasTag ["P", "PRI", "PRIORITY"] line then
    { s with
      defset := field a 2
      stages := if truthy (field a 3) then field a 3 else s.stages
      pri := if truthy (field a 4) then field a 4 else s.pri }
  else if hasTag ["V", "VER", "VERSION"] line then
    { s with ver := if s.verDup then s.ver else field a 2, verDup := true }
  else if hasTag ["C", "CATEGORY"] line then { s with categories := s.categories ++ listed a }
  else if hasTag ["F", "FLAGS"] line then { s with flags := s.flags ++ listed a }
  else if hasTag ["R", "ARCH", "ARCHITECTURE"] line then
    if selected arch a then s else { s with pkgtree := [] }
  else if hasTag ["K", "KERN", "KERNEL"] line then
    if selected kernel a then s else { s with pkgtree := [] }
  else s

/-- The state at the end of a file, if its line is printed. -/
def record (arch kernel : Text) (f : DescFile) : Option Awk :=
  if f.lines = [] then none
  else
    let s := f.lines.foldl (Awk.line arch kernel) (Awk.start f)
    if truthy s.pkgtree then some s else none

/-- `categories " " a[c]` for each -/
def spaced (ws : List Text) : Text := ws.flatMap (' ' :: ·)

def printPackage (s : Awk) : Text :=
  s.defset ++ ' ' :: (s.stages ++ ' ' :: (s.pri ++ ' ' :: (s.pkgtree ++ ' ' :: (s.package ++ ' ' ::
    (s.ver ++ ' ' :: '/' :: (spaced s.categories ++ spaced s.flags ++ [' ', '0']))))))

/-! ## What the rules leave -/

theorem splitFields_ne_nil (t : Text) : splitFields t ≠ [] := by
  induction t with
  | nil => simp [splitFields]
  | cons c t ih =>
    rw [splitFields]
    split
    · split
      · exact ih
      · simp
    · simpa using ih

/-- No separator is in a field. -/
theorem mem_splitFields {t w : Text} (h : w ∈ splitFields t) : ∀ c ∈ w, isSep c = false := by
  induction t generalizing w with
  | nil =>
    obtain rfl : w = [] := by simpa [splitFields] using h
    simp
  | cons c t ih =>
    rw [splitFields] at h
    by_cases hc : isSep c = true
    · rw [if_pos hc] at h
      split at h
      · exact ih h
      · rcases List.mem_cons.1 h with rfl | h
        · simp
        · exact ih h
    · rw [if_neg hc] at h
      obtain ⟨u, us, hu⟩ := List.exists_cons_of_ne_nil (splitFields_ne_nil t)
      rw [hu, List.modifyHead_cons, List.mem_cons] at h
      rcases h with rfl | h
      · intro d hd
        rcases List.mem_cons.1 hd with rfl | hd
        · simpa using hc
        · exact ih (by simp [hu]) d hd
      · exact ih (by simp [hu, h])

theorem field_noSep (line : Text) (i : Nat) : ∀ c ∈ field (split line) i, isSep c = false := by
  unfold field split
  rw [List.getD_eq_getElem?_getD]
  intro c hc
  split at hc
  · simp at hc
  · cases hw : (splitFields line)[i - 1]? with
    | none => simp [hw] at hc
    | some w =>
      rw [hw] at hc
      exact mem_splitFields (List.mem_of_getElem? hw) c hc

/-- What holds when a file starts and is kept by every line holds of the record. -/
theorem record_inv {arch kernel : Text} {f : DescFile} {s : Awk} {I : Awk → Prop} (hstart : I (Awk.start f))
    (hline : ∀ s l, I s → I (s.line arch kernel l)) (h : record arch kernel f = some s) :
    I s ∧ truthy s.pkgtree = true := by
  have hfold : ∀ (ls : List Text) (s : Awk), I s → I (ls.foldl (Awk.line arch kernel) s) := by
    intro ls
    induction ls with
    | nil => exact fun s hs => hs
    | cons l ls ih => exact fun s hs => ih _ (hline s l hs)
  unfold record at h
  split at h
  · simp at h
  · simp only at h
    split at h
    next ht =>
      cases h
      exact ⟨hfold f.lines _ hstart, ht⟩
    · simp at h

/-- A field that is not empty and has no separator. -/
def IsField (w : Text) : Prop := w ≠ [] ∧ ∀ c ∈ w, isSep c = false

theorem truthy_ne {w : Text} (h : truthy w = true) : w ≠ [] := by
  rintro rfl
  simp [truthy] at h

theorem mem_listed {line w : Text} (h : w ∈ listed (split line)) : IsField w := by
  refine ⟨truthy_ne (List.mem_takeWhile_imp h), ?_⟩
  have hw := (List.drop_sublist 1 _).subset ((List.takeWhile_sublist _).subset h)
  unfold split at hw
  split at hw
  · simp at hw
  · exact mem_splitFields hw

/-- Only the status and the version can be empty in a record. -/
structure Awk.Fields (s : Awk) : Prop where
  defset : ∀ c ∈ s.defset, isSep c = false
  stages : IsField s.stages
  pri : IsField s.pri
  ver : ∀ c ∈ s.ver, isSep c = false
  categories : ∀ w ∈ s.categories, IsField w
  flags : ∀ w ∈ s.flags, IsField w

theorem Awk.Fields.line {s : Awk} (h : s.Fields) (arch kernel l : Text) : (s.line arch kernel l).Fields := by
  have hlist : ∀ {ws : List Text}, (∀ w ∈ ws, IsField w) → ∀ w ∈ ws ++ listed (split l), IsField w := by
    intro ws hws w hw
    rcases List.mem_append.1 hw with hw | hw
    · exact hws w hw
    · exact mem_listed hw
  have hfield : ∀ i {w : Text}, IsField w → IsField (if truthy (field (split l) i) then field (split l) i else w) := by
    intro i w hw
    split
    next ht => exact ⟨truthy_ne ht, field_noSep l i⟩
    · exact hw
  unfold Awk.line
  simp only
  split
  · exact ⟨field_noSep l 2, hfield 3 h.stages, hfield 4 h.pri, h.ver, h.categories, h.flags⟩
  · split
    · refine ⟨h.defset, h.stages, h.pri, ?_, h.categories, h.flags⟩
      simp only
      split
      · exact h.ver
      · exact field_noSep l 2
    · split_ifs
      · exact ⟨h.defset, h.stages, h.pri, h.ver, hlist h.categories, h.flags⟩
      · exact ⟨h.defset, h.stages, h.pri, h.ver, h.categories, hlist h.flags⟩
      · exact h
      · exact ⟨h.defset, h.stages, h.pri, h.ver, h.categories, h.flags⟩
      · exact h
      · exact ⟨h.defset, h.stages, h.pri, h.ver, h.categories, h.flags⟩
      · exact h

theorem record_fields {arch kernel : Text} {f : DescFile} {s : Awk} (h : record arch kernel f = some s) : s.Fields :=
  (record_inv (I := Awk.Fields) ⟨by simp [Awk.start, isSep], ⟨by simp [Awk.start], by simp [Awk.start, isSep]⟩,
    ⟨by simp [Awk.start], by simp [Awk.start, isSep]⟩, by simp [Awk.start, isSep], by simp [Awk.start],
    by simp [Awk.start]⟩ (fun _ l hs => hs.line arch kernel l) h).1

/-- The repository and the name are those of the file. -/
theorem record_names {arch kernel : Text} {f : DescFile} {s : Awk} (h : record arch kernel f = some s) :
    s.pkgtree = f.repository ∧ s.package = f.name := by
  obtain ⟨⟨htree, hname⟩, ht⟩ := record_inv
    (I := fun s => (s.pkgtree = f.repository ∨ s.pkgtree = []) ∧ s.package = f.name) ⟨.inl rfl, rfl⟩ (by
      intro s l hs
      unfold Awk.line
      simp only
      split_ifs <;> simp [hs]) h
  refine ⟨htree.resolve_right fun hnil => ?_, hname⟩
  rw [hnil] at ht
  exact absurd ht (by decide)

end T2Sde.Desc
