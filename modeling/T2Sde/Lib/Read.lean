import T2Sde.Lib.Words
import Mathlib.Data.List.DropRight
/-!
# `read` without `-r`

A backslash keeps the next character from separating fields and is dropped; before a line end it joins the line
with the next one. What is joined to the end of the input has no line end, and `read` fails on it, so a `while read`
loop does not see it.

* `unescape_plain` — a line without a backslash is read as it stands.
* `not_mem_of_prefix_unescape` — a line that is a front of what is read of it has no backslash.
* `logical_eq` — what the loop sees: the lines no line runs into, each with what is joined to it (`starts`, `joined`).
-/
namespace Shell

/-- A character that is read, and whether a backslash stood before it. -/
abbrev ReadChar := Char × Bool

/-- The characters of a line; whether it runs into the next one. -/
def unescape : Text → List ReadChar × Bool
  | [] => ([], false)
  | ['\\'] => ([], true)
  | '\\' :: c :: s => ((c, true) :: (unescape s).1, (unescape s).2)
  | c :: s => ((c, false) :: (unescape s).1, (unescape s).2)

/-- The line runs into the next one. -/
def runsOn (l : Text) : Bool := (unescape l).2

/-- What a loop of `read` sees; `acc` is what the lines before have left. -/
def logicalFrom (acc : List ReadChar) : List Text → List (List ReadChar)
  | [] => []
  | l :: ls =>
    if runsOn l then logicalFrom (acc ++ (unescape l).1) ls
    else (acc ++ (unescape l).1) :: logicalFrom [] ls

def logical (lines : List Text) : List (List ReadChar) := logicalFrom [] lines

/-- One `read`: the characters up to the line end, and the text behind it; none at the end of the input. -/
def readLine : Text → Option (List ReadChar × Text)
  | [] => none
  | ['\\'] => none
  | '\\' :: c :: s => if c = '\n' then readLine s else (readLine s).map fun x => ((c, true) :: x.1, x.2)
  | c :: s => if c = '\n' then some ([], s) else (readLine s).map fun x => ((c, false) :: x.1, x.2)

/-! ## Fields -/

def text (m : List ReadChar) : Text := m.map Prod.fst

/-- Between two fields. -/
def separates (x : ReadChar) : Bool := !x.2 && isBlank x.1

def skip (m : List ReadChar) : List ReadChar := m.dropWhile separates

def trimEnd (s : Text) : Text := s.rdropWhile isBlank

/-- What the last variable gets: one word as it is, several without the blanks behind them, escaped or not. -/
def lastField (m : List ReadChar) : Text :=
  let m := skip m
  if skip (m.dropWhile (!separates ·)) = [] then text (m.takeWhile (!separates ·)) else trimEnd (text m)

/-- `read x1 … xn x` -/
def readFields : Nat → List ReadChar → List Text
  | 0, m => [lastField m]
  | n + 1, m =>
    text ((skip m).takeWhile (!separates ·)) :: readFields n ((skip m).dropWhile (!separates ·))

/-! ## Lines without a backslash -/

/-- A text no character of which is escaped. -/
def plain (s : Text) : List ReadChar := s.map (·, false)

@[simp] theorem plain_nil : plain [] = [] := rfl

@[simp] theorem plain_cons (c : Char) (s : Text) : plain (c :: s) = (c, false) :: plain s := rfl

@[simp] theorem plain_append (s t : Text) : plain (s ++ t) = plain s ++ plain t := List.map_append

@[simp] theorem text_nil : text [] = [] := rfl

@[simp] theorem text_cons (x : ReadChar) (m : List ReadChar) : text (x :: m) = x.1 :: text m := rfl

@[simp] theorem text_append (m n : List ReadChar) : text (m ++ n) = text m ++ text n := List.map_append

@[simp] theorem text_plain (s : Text) : text (plain s) = s := by
  simp [text, plain, Function.comp_def]

theorem unescape_cons {c : Char} (hc : c ≠ '\\') (s : Text) :
    unescape (c :: s) = ((c, false) :: (unescape s).1, (unescape s).2) := by
  cases s <;> simp [unescape, hc]

theorem unescape_append {u : Text} (hu : '\\' ∉ u) (s : Text) :
    unescape (u ++ s) = (plain u ++ (unescape s).1, (unescape s).2) := by
  induction u with
  | nil => rfl
  | cons c u ih =>
    rw [List.mem_cons, not_or] at hu
    rw [List.cons_append, unescape_cons (Ne.symm hu.1), ih hu.2]
    rfl

theorem unescape_append_ends {s : Text} (h : runsOn s = false) (t : Text) :
    unescape (s ++ t) = ((unescape s).1 ++ (unescape t).1, (unescape t).2) := by
  rw [runsOn] at h
  fun_induction unescape s with
  | case1 => rfl
  | case2 => cases h
  | case3 c s ih =>
    rw [List.cons_append, List.cons_append, unescape, ih h]
    rfl
  | case4 c s h1 h2 ih =>
    have hc : c ≠ '\\' := by
      rintro rfl
      cases s with
      | nil => exact h1 rfl rfl
      | cons d s => exact h2 d s rfl rfl
    rw [List.cons_append, unescape_cons hc, ih h]
    rfl

/-- A line without a backslash is read as it stands. -/
theorem readLine_plain {l : Text} (hl : '\\' ∉ l) (hn : '\n' ∉ l) (s : Text) :
    readLine (l ++ '\n' :: s) = some (plain l, s) := by
  induction l with
  | nil => cases s <;> rfl
  | cons c l ih =>
    rw [List.mem_cons, not_or] at hl hn
    have hread : ∀ t, readLine (c :: t) = (readLine t).map fun x => ((c, false) :: x.1, x.2) := fun t => by
      cases t <;> simp [readLine, Ne.symm hl.1, Ne.symm hn.1]
    rw [List.cons_append, hread, ih hl.2 hn.2]
    rfl

theorem unescape_plain {s : Text} (hs : '\\' ∉ s) : unescape s = (plain s, false) := by
  have h := unescape_append hs []
  rwa [List.append_nil, unescape, List.append_nil] at h

theorem replicate_append_cons {α : Type} (m : Nat) (a : α) (l : List α) :
    List.replicate m a ++ a :: l = a :: (List.replicate m a ++ l) := by
  rw [List.append_cons, ← List.replicate_succ', List.replicate_succ, List.cons_append]

/-- What has been read is `m` backslashes behind, and never catches up. -/
theorem prefix_unescape {e z : Text} {m : Nat} (hz : z.head? ≠ some '\\')
    (h : List.replicate m '\\' ++ e <+: text (unescape e).1 ++ z) : m = 0 ∧ '\\' ∉ e := by
  have hnot : ∀ t, ¬ '\\' :: t <+: z := by
    rintro t ⟨u, rfl⟩
    exact hz rfl
  fun_induction unescape e generalizing m with
  | case1 =>
    cases m with
    | zero => simp
    | succ m => exact absurd h (hnot _)
  | case2 =>
    rw [replicate_append_cons] at h
    exact absurd h (hnot _)
  | case3 c s ih =>
    rw [replicate_append_cons, text_cons, List.cons_append, List.cons_prefix_cons] at h
    obtain ⟨rfl, h⟩ := h
    rw [replicate_append_cons, ← List.cons_append, ← List.replicate_succ] at h
    exact absurd (ih h).1 (by simp)
  | case4 c s h1 h2 ih =>
    have hc : c ≠ '\\' := by
      rintro rfl
      cases s with
      | nil => exact h1 rfl rfl
      | cons d s => exact h2 d s rfl rfl
    rw [text_cons, List.cons_append] at h
    cases m with
    | zero =>
      rw [List.replicate_zero, List.nil_append, List.cons_prefix_cons] at h
      exact ⟨rfl, by simpa [Ne.symm hc] using (ih (m := 0) h.2).2⟩
    | succ m =>
      rw [List.replicate_succ, List.cons_append, List.cons_prefix_cons] at h
      exact absurd h.1.symm hc

/-- A line that is a front of what is read of it, and of what is joined to it, has no backslash. -/
theorem not_mem_of_prefix_unescape {e z : Text} (hz : z.head? ≠ some '\\') (h : e <+: text (unescape e).1 ++ z) :
    '\\' ∉ e :=
  (prefix_unescape (m := 0) hz h).2

/-! ## What the loop sees -/

/-- The line with what is joined to it, if it ends. -/
def joined (l : Text) : List Text → Option (List ReadChar)
  | [] => if runsOn l then none else some (unescape l).1
  | l' :: ls => if runsOn l then (joined l' ls).map ((unescape l).1 ++ ·) else some (unescape l).1

/-- The lines that no line runs into, each with the lines behind it. -/
def starts (into : Bool) : List Text → List (Text × List Text)
  | [] => []
  | l :: ls => if into then starts (runsOn l) ls else (l, ls) :: starts (runsOn l) ls

theorem logicalFrom_eq (acc : List ReadChar) (l : Text) (ls : List Text) :
    logicalFrom acc (l :: ls) =
      ((joined l ls).map (acc ++ ·)).toList ++ (starts (runsOn l) ls).filterMap fun x => joined x.1 x.2 := by
  induction ls generalizing acc l with
  | nil =>
    rw [logicalFrom, joined, starts, logicalFrom, logicalFrom]
    cases h : runsOn l <;> simp
  | cons l' ls ih =>
    rw [logicalFrom, joined]
    cases h : runsOn l with
    | true =>
      rw [if_pos rfl, if_pos rfl, ih, starts, if_pos rfl, Option.map_map]
      simp [Function.comp_def, List.append_assoc]
    | false =>
      rw [if_neg (by simp), if_neg (by simp), ih, starts, if_neg (by simp), List.filterMap_cons]
      cases joined l' ls <;> simp

/-- **What the loop sees.** -/
theorem logical_eq (lines : List Text) :
    logical lines = (starts false lines).filterMap fun x => joined x.1 x.2 := by
  cases lines with
  | nil => rfl
  | cons l ls =>
    rw [logical, logicalFrom_eq, starts, if_neg (by simp), List.filterMap_cons]
    cases joined l ls <;> simp

theorem joined_alone {l : Text} (h : runsOn l = false) (ls : List Text) : joined l ls = some (unescape l).1 := by
  cases ls <;> simp [joined, h]

theorem joined_front {l : Text} {ls : List Text} {m : List ReadChar} (h : joined l ls = some m) :
    ∃ z, m = (unescape l).1 ++ z := by
  cases ls with
  | nil =>
    rw [joined] at h
    split at h
    · simp at h
    · exact ⟨[], by simpa using h.symm⟩
  | cons l' ls =>
    rw [joined] at h
    split at h
    · obtain ⟨z, -, rfl⟩ := Option.map_eq_some_iff.1 h
      exact ⟨z, rfl⟩
    · exact ⟨[], by simpa using h.symm⟩

/-- What is joined to a line starts as the lines do. -/
theorem joined_some {c : Char} (hc : c ≠ '\\') {l : Text} {ls : List Text} {m : List ReadChar}
    (hls : ∀ l' ∈ ls, l'.head? = some c) (h : joined l ls = some m) :
    ∃ z, m = (unescape l).1 ++ z ∧ (z = [] ∨ z.head? = some (c, false)) := by
  cases ls with
  | nil =>
    rw [joined] at h
    split at h
    · simp at h
    · exact ⟨[], by simpa using h.symm, .inl rfl⟩
  | cons l' ls =>
    rw [joined] at h
    split at h
    · obtain ⟨z, hz, rfl⟩ := Option.map_eq_some_iff.1 h
      refine ⟨z, rfl, .inr ?_⟩
      obtain ⟨s, rfl⟩ : ∃ s, l' = c :: s := by
        have hhead := hls l' List.mem_cons_self
        cases l' with
        | nil => simp at hhead
        | cons d s => exact ⟨s, by simpa using hhead⟩
      obtain ⟨z', rfl⟩ := joined_front hz
      rw [unescape_cons hc]
      rfl
    · exact ⟨[], by simpa using h.symm, .inl rfl⟩

theorem mem_starts {into : Bool} {lines : List Text} {x : Text × List Text} (h : x ∈ starts into lines) :
    x.1 ∈ lines ∧ ∀ l ∈ x.2, l ∈ lines := by
  induction lines generalizing into with
  | nil => simp [starts] at h
  | cons l ls ih =>
    have hrest : x ∈ starts (runsOn l) ls → x.1 ∈ l :: ls ∧ ∀ l' ∈ x.2, l' ∈ l :: ls := fun h =>
      ⟨List.mem_cons_of_mem _ (ih h).1, fun l' hl' => List.mem_cons_of_mem _ ((ih h).2 l' hl')⟩
    rw [starts] at h
    split at h
    · exact hrest h
    · rcases List.mem_cons.1 h with rfl | h
      · exact ⟨List.mem_cons_self, fun l' hl' => List.mem_cons_of_mem _ hl'⟩
      · exact hrest h

theorem mem_unescape {l : Text} {c : Char} (h : c ∈ text (unescape l).1) : c ∈ l := by
  fun_induction unescape l with
  | case1 => simp at h
  | case2 => simp at h
  | case3 d s ih =>
    rcases List.mem_cons.1 h with rfl | h
    · simp
    · simp [ih h]
  | case4 d s _ _ ih =>
    rcases List.mem_cons.1 h with rfl | h
    · simp
    · simp [ih h]

theorem mem_joined {l : Text} {ls : List Text} {m : List ReadChar} (h : joined l ls = some m) {c : Char}
    (hc : c ∈ text m) : ∃ l' ∈ l :: ls, c ∈ l' := by
  induction ls generalizing l m with
  | nil =>
    obtain rfl : (unescape l).1 = m := by
      rw [joined] at h
      split at h
      · simp at h
      · simpa using h
    exact ⟨l, by simp, mem_unescape hc⟩
  | cons l' ls ih =>
    rw [joined] at h
    split at h
    · obtain ⟨z, hz, rfl⟩ := Option.map_eq_some_iff.1 h
      rw [text_append, List.mem_append] at hc
      rcases hc with hc | hc
      · exact ⟨l, by simp, mem_unescape hc⟩
      · obtain ⟨l'', hl'', hc⟩ := ih hz hc
        exact ⟨l'', List.mem_cons_of_mem _ hl'', hc⟩
    · obtain rfl := Option.some.inj h
      exact ⟨l, by simp, mem_unescape hc⟩

/-! ## Parts of the input -/

/-- What is joined to a line, from the lines behind it. -/
def behind (on : Bool) (ls : List Text) : Option (List ReadChar) :=
  if on then
    match ls with
    | [] => none
    | l :: ls => joined l ls
  else some []

theorem joined_eq (l : Text) (ls : List Text) : joined l ls = (behind (runsOn l) ls).map ((unescape l).1 ++ ·) := by
  cases ls <;> cases h : runsOn l <;> simp [joined, behind, h]

/-- What is left of the last line when it runs on. -/
def leftOver (acc : List ReadChar) : List Text → List ReadChar
  | [] => acc
  | l :: ls => if runsOn l then leftOver (acc ++ (unescape l).1) ls else leftOver [] ls

/-- The line that started what is left. -/
def running (cur : Option Text) : List Text → Option Text
  | [] => cur
  | l :: ls => if runsOn l then running (cur.or (some l)) ls else running none ls

theorem logicalFrom_append (acc : List ReadChar) (ls rest : List Text) :
    logicalFrom acc (ls ++ rest) = logicalFrom acc ls ++ logicalFrom (leftOver acc ls) rest := by
  induction ls generalizing acc with
  | nil => rfl
  | cons l ls ih =>
    rw [List.cons_append, logicalFrom, logicalFrom, leftOver]
    split
    · exact ih _
    · rw [ih, List.cons_append]

/-- What is left was started by the line, if there is one. -/
def StartedBy : Option Text → List ReadChar → Prop
  | none, m => m = []
  | some l, m => ∃ y, m = (unescape l).1 ++ y

theorem startedBy_leftOver {cur : Option Text} {acc : List ReadChar} (ls : List Text) (h : StartedBy cur acc) :
    StartedBy (running cur ls) (leftOver acc ls) := by
  induction ls generalizing cur acc with
  | nil => exact h
  | cons l ls ih =>
    cases hl : runsOn l with
    | false =>
      simp only [running, leftOver, hl]
      exact ih rfl
    | true =>
      simp only [running, leftOver, hl, if_true]
      refine ih ?_
      cases cur with
      | none =>
        obtain rfl : acc = [] := h
        exact ⟨[], by simp⟩
      | some l₀ =>
        obtain ⟨y, rfl⟩ := h
        exact ⟨y ++ (unescape l).1, by simp⟩

theorem mem_running {cur : Option Text} {ls : List Text} {l : Text} (h : running cur ls = some l) :
    cur = some l ∨ l ∈ ls := by
  induction ls generalizing cur with
  | nil => exact .inl h
  | cons l' ls ih =>
    rw [running] at h
    split at h
    · rcases ih h with hcur | hmem
      · cases cur with
        | none =>
          obtain rfl : l' = l := by simpa using hcur
          exact .inr List.mem_cons_self
        | some l₀ => exact .inl (by simpa using hcur)
      · exact .inr (List.mem_cons_of_mem _ hmem)
    · exact .inr (List.mem_cons_of_mem _ ((ih h).resolve_left (by simp)))

/-- A line in its place: what is left of the lines before, the line, and what is joined to it. -/
theorem logical_middle (ls rest : List Text) (l : Text) :
    logical (ls ++ l :: rest) = logical ls ++
      (((behind (runsOn l) rest).map fun z => leftOver [] ls ++ ((unescape l).1 ++ z)).toList ++
        (starts (runsOn l) rest).filterMap fun x => joined x.1 x.2) := by
  rw [logical, logicalFrom_append, logicalFrom_eq, joined_eq, Option.map_map]
  rfl

/-! ## The last field -/

theorem trimEnd_append (s t : Text) :
    trimEnd (s ++ t) = if trimEnd t = [] then trimEnd s else s ++ trimEnd t := by
  simp only [trimEnd, List.rdropWhile, List.reverse_append, List.dropWhile_append, List.reverse_eq_nil_iff,
    List.isEmpty_iff]
  split
  · rfl
  · simp

theorem trimEnd_eq_nil {s : Text} : trimEnd s = [] ↔ ∀ c ∈ s, isBlank c = true := by
  rw [trimEnd, List.rdropWhile_eq_nil_iff]

theorem trimEnd_append_word {s u : Text} (hu : IsWord u) : trimEnd (s ++ u) = s ++ u := by
  obtain ⟨v, c, rfl⟩ : ∃ v c, u = v ++ [c] := ⟨u.dropLast, u.getLast hu.1, (List.dropLast_append_getLast hu.1).symm⟩
  rw [← List.append_assoc, trimEnd, List.rdropWhile_concat_neg _ _ _ (by simp [hu.2 c (by simp)])]

/-- A word is the first field. -/
theorem skip_word {u : Text} (hu : IsWord u) (m : List ReadChar) : skip (plain u ++ m) = plain u ++ m := by
  obtain ⟨c, u, rfl⟩ := List.exists_cons_of_ne_nil hu.1
  have hc : isBlank c = false := hu.2 c List.mem_cons_self
  rw [plain_cons, List.cons_append, skip, List.dropWhile_cons_of_neg (by simp [separates, hc])]

theorem noSep_plain {u : Text} (hu : ∀ c ∈ u, isBlank c = false) : ∀ x ∈ plain u, (!separates x) = true := by
  intro x hx
  obtain ⟨c, hc, rfl⟩ := List.mem_map.1 hx
  simp [separates, hu c hc]

theorem takeWhile_word {u : Text} (hu : ∀ c ∈ u, isBlank c = false) {b : Char} (hb : isBlank b = true)
    (m : List ReadChar) : (plain u ++ (b, false) :: m).takeWhile (!separates ·) = plain u := by
  rw [List.takeWhile_append_of_pos (noSep_plain hu), List.takeWhile_cons_of_neg (by simp [separates, hb]),
    List.append_nil]

theorem dropWhile_word {u : Text} (hu : ∀ c ∈ u, isBlank c = false) {b : Char} (hb : isBlank b = true)
    (m : List ReadChar) : (plain u ++ (b, false) :: m).dropWhile (!separates ·) = (b, false) :: m := by
  rw [List.dropWhile_append_of_pos (noSep_plain hu), List.dropWhile_cons_of_neg (by simp [separates, hb])]

theorem skip_blank {b : Char} (hb : isBlank b = true) (m : List ReadChar) : skip ((b, false) :: m) = skip m := by
  rw [skip, List.dropWhile_cons_of_pos (by simp [separates, hb])]
  rfl

/-- A word, one blank, and a rest: the blanks at the end are gone, and the blank with them if nothing is left. -/
theorem lastField_word {u : Text} (hu : IsWord u) (m : List ReadChar) :
    lastField (plain u ++ (' ', false) :: m) =
      if trimEnd (text m) = [] then u else u ++ ' ' :: trimEnd (text m) := by
  have hb : isBlank ' ' = true := rfl
  rw [lastField, skip_word hu, dropWhile_word hu.2 hb, takeWhile_word hu.2 hb, skip_blank hb, text_plain]
  by_cases hm : skip m = []
  · have hall : trimEnd (text m) = [] := by
      rw [trimEnd_eq_nil]
      intro c hc
      obtain ⟨x, hx, rfl⟩ := List.mem_map.1 hc
      have hsep := List.dropWhile_eq_nil_iff.1 hm x hx
      exact (Bool.and_eq_true_iff.1 hsep).2
    rw [if_pos hm, if_pos hall]
  · have htext : text (plain u ++ (' ', false) :: m) = (u ++ [' ']) ++ text m := by simp
    have hu' : trimEnd (u ++ [' ']) = u := by
      rw [trimEnd_append, if_pos (by decide)]
      simpa using trimEnd_append_word (s := []) hu
    rw [if_neg hm, htext, trimEnd_append, hu']
    simp

theorem mem_lastField {m : List ReadChar} {c : Char} (h : c ∈ lastField m) : c ∈ text m := by
  have hskip : ∀ x ∈ skip m, x ∈ m := fun x hx => (List.dropWhile_sublist _).subset hx
  unfold lastField at h
  simp only at h
  split at h
  · obtain ⟨x, hx, rfl⟩ := List.mem_map.1 h
    exact List.mem_map.2 ⟨x, hskip x ((List.takeWhile_sublist _).subset hx), rfl⟩
  · obtain ⟨x, hx, rfl⟩ := List.mem_map.1 ((List.rdropWhile_prefix _ _).subset h)
    exact List.mem_map.2 ⟨x, hskip x hx, rfl⟩

/-! ## The words of a line -/

/-- The words of a text, counted from 0; empty beyond the last one. -/
def wordAt : Nat → Text → Text
  | 0, s => (s.dropWhile isBlank).takeWhile (!isBlank ·)
  | n + 1, s => wordAt n ((s.dropWhile isBlank).dropWhile (!isBlank ·))

theorem wordAt_noBlank (n : Nat) (s : Text) : ∀ c ∈ wordAt n s, isBlank c = false := by
  induction n generalizing s with
  | zero =>
    intro c hc
    simpa using List.mem_takeWhile_imp hc
  | succ n ih => exact ih _

theorem wordAt_blank {b : Char} (hb : isBlank b = true) (n : Nat) (s : Text) : wordAt n (b :: s) = wordAt n s := by
  cases n <;> rw [wordAt, wordAt, List.dropWhile_cons_of_pos hb]

theorem wordAt_nil (n : Nat) : wordAt n [] = [] := by
  induction n with
  | zero => rfl
  | succ n ih => exact ih

/-- A word and a blank in front. -/
theorem wordAt_word {u : Text} (hu : IsWord u) {b : Char} (hb : isBlank b = true) (n : Nat) (s : Text) :
    wordAt (n + 1) (u ++ b :: s) = wordAt n s := by
  obtain ⟨c, u, rfl⟩ := List.exists_cons_of_ne_nil hu.1
  have hc : ¬ isBlank c = true := by simp [hu.2 c List.mem_cons_self]
  have hdrop : (c :: u ++ b :: s).dropWhile isBlank = c :: u ++ b :: s := by
    rw [List.cons_append, List.dropWhile_cons_of_neg hc]
  rw [wordAt, hdrop, List.dropWhile_append_of_pos (by simpa using hu.2),
    List.dropWhile_cons_of_neg (by simp [hb]), wordAt_blank hb]

theorem wordAt_alone {u : Text} (hu : IsWord u) (n : Nat) : wordAt (n + 1) u = [] := by
  obtain ⟨c, u, rfl⟩ := List.exists_cons_of_ne_nil hu.1
  have hc : ¬ isBlank c = true := by simp [hu.2 c List.mem_cons_self]
  have hrest : (c :: u).dropWhile (!isBlank ·) = [] := List.dropWhile_eq_nil_iff.2 (by simpa using hu.2)
  rw [wordAt, List.dropWhile_cons_of_neg hc, hrest, wordAt_nil]

theorem takeWhile_word_append {u s : Text} (hu : ∀ c ∈ u, isBlank c = false) (hs : AtBlank s) :
    (u ++ s).takeWhile (!isBlank ·) = u ∧ (u ++ s).dropWhile (!isBlank ·) = s := by
  have hall : ∀ c ∈ u, (!isBlank c) = true := fun c hc => by simp [hu c hc]
  rw [List.takeWhile_append_of_pos hall, List.dropWhile_append_of_pos hall]
  cases s with
  | nil => simp
  | cons c s =>
    have hc : isBlank c = true := hs
    simp [hc]

theorem wordAt_words (n : Nat) (s : Text) : wordAt n s = (words s).getD n [] := by
  induction s using text_induction generalizing n with
  | nil => rw [wordAt_nil, words_nil, List.getD_nil]
  | blank c s hc ih => rw [wordAt_blank hc, words_blank_cons hc, ih]
  | word w rest hw hrest ih =>
    rw [words_word_append hw hrest]
    cases n with
    | zero =>
      obtain ⟨c, w, rfl⟩ := List.exists_cons_of_ne_nil hw.1
      have hc : isBlank c = false := hw.2 c List.mem_cons_self
      rw [wordAt, List.cons_append, List.dropWhile_cons_of_neg (by simp [hc]), ← List.cons_append,
        (takeWhile_word_append hw.2 hrest).1, List.getD_cons_zero]
    | succ n =>
      rw [List.getD_cons_succ, ← ih]
      cases rest with
      | nil => rw [List.append_nil, wordAt_alone hw, wordAt_nil]
      | cons b r => rw [wordAt_word hw hrest, wordAt_blank hrest]

/-- Behind the last word there is none. -/
theorem wordAt_succ_nil {n : Nat} {s : Text} (h : wordAt n s = []) : wordAt (n + 1) s = [] := by
  induction n generalizing s with
  | zero =>
    have hhead := List.head?_dropWhile_not isBlank s
    cases hs : s.dropWhile isBlank with
    | nil =>
      rw [wordAt, hs]
      rfl
    | cons c t =>
      rw [hs, List.head?_cons] at hhead
      rw [wordAt, hs, List.takeWhile_cons_of_pos (by simp [hhead])] at h
      simp at h
  | succ n ih => exact ih h

theorem wordAt_append_blank {b : Text} (hb : ∀ c ∈ b, isBlank c = true) (n : Nat) (s : Text) :
    wordAt n (s ++ b) = wordAt n s := by
  have hword : b.takeWhile (!isBlank ·) = [] ∧ b.dropWhile (!isBlank ·) = b := by
    cases b with
    | nil => simp
    | cons c b => simp [hb c List.mem_cons_self]
  have htake : ∀ t, (t ++ b).takeWhile (!isBlank ·) = t.takeWhile (!isBlank ·) := by
    intro t
    induction t with
    | nil => exact hword.1
    | cons c t ih => cases hc : isBlank c <;> simp [hc, ih]
  have hdrop : ∀ t, (t ++ b).dropWhile (!isBlank ·) = t.dropWhile (!isBlank ·) ++ b := by
    intro t
    induction t with
    | nil => exact hword.2
    | cons c t ih => cases hc : isBlank c <;> simp [hc, ih]
  induction n generalizing s with
  | zero =>
    by_cases hs : s.dropWhile isBlank = []
    · have hall := List.dropWhile_eq_nil_iff.1 hs
      have hnil : (s ++ b).dropWhile isBlank = [] :=
        List.dropWhile_eq_nil_iff.2 fun c hc => (List.mem_append.1 hc).elim (hall c) (hb c)
      rw [wordAt, wordAt, hs, hnil]
    · rw [wordAt, wordAt, List.dropWhile_append, if_neg (by simpa using hs), htake]
  | succ n ih =>
    by_cases hs : s.dropWhile isBlank = []
    · have hall := List.dropWhile_eq_nil_iff.1 hs
      have hnil : (s ++ b).dropWhile isBlank = [] :=
        List.dropWhile_eq_nil_iff.2 fun c hc => (List.mem_append.1 hc).elim (hall c) (hb c)
      rw [wordAt, wordAt, hs, hnil]
    · rw [wordAt, wordAt, List.dropWhile_append, if_neg (by simpa using hs), hdrop, ih]

theorem trimEnd_blank (s : Text) : ∃ b, s = trimEnd s ++ b ∧ ∀ c ∈ b, isBlank c = true := by
  refine ⟨(s.reverse.takeWhile isBlank).reverse, ?_, fun c hc => List.mem_takeWhile_imp (List.mem_reverse.1 hc)⟩
  rw [trimEnd, List.rdropWhile, ← List.reverse_append, List.takeWhile_append_dropWhile, List.reverse_reverse]

theorem wordAt_trimEnd (n : Nat) (s : Text) : wordAt n (trimEnd s) = wordAt n s := by
  obtain ⟨b, hs, hb⟩ := trimEnd_blank s
  conv_rhs => rw [hs, wordAt_append_blank hb]

/-! ## Lines read twice -/

/-- A backslash stands before no blank and no backslash: reading the text again changes nothing. -/
def Settled (m : List ReadChar) : Prop := ∀ x ∈ m, x.2 = true → isBlank x.1 = false ∧ x.1 ≠ '\\'

instance (m : List ReadChar) : Decidable (Settled m) := inferInstanceAs (Decidable (∀ x ∈ m, _))

theorem settled_plain (s : Text) : Settled (plain s) := by
  intro x hx h
  obtain ⟨c, -, rfl⟩ := List.mem_map.1 hx
  simp at h

theorem unescape_mem {l : Text} {c : Char} (h : (c, false) ∈ (unescape l).1) : c ≠ '\\' := by
  fun_induction unescape l with
  | case1 => simp at h
  | case2 => simp at h
  | case3 d s ih =>
    rcases List.mem_cons.1 h with h | h
    · simp at h
    · exact ih h
  | case4 d s h1 h2 ih =>
    rcases List.mem_cons.1 h with h | h
    · obtain rfl : c = d := (Prod.mk.inj h).1
      rintro rfl
      cases s with
      | nil => exact h1 rfl rfl
      | cons d s => exact h2 d s rfl rfl
    · exact ih h

theorem Settled.noBackslash {l : Text} (h : Settled (unescape l).1) : '\\' ∉ text (unescape l).1 := by
  intro hc
  obtain ⟨⟨c, e⟩, hx, rfl⟩ := List.mem_map.1 hc
  cases e with
  | false => exact unescape_mem hx rfl
  | true => exact (h _ hx rfl).2 rfl

/-- No blank is escaped: what is read depends on the text only. -/
def Bare (m : List ReadChar) : Prop := ∀ x ∈ m, separates x = isBlank x.1

theorem bare_of_escaped {m : List ReadChar} (h : ∀ x ∈ m, x.2 = true → isBlank x.1 = false) : Bare m := by
  rintro ⟨c, e⟩ hx
  cases e with
  | false => rfl
  | true => simp [separates, h _ hx rfl]

theorem Settled.bare {m : List ReadChar} (h : Settled m) : Bare m := bare_of_escaped fun x hx hesc => (h x hx hesc).1

theorem bare_plain (s : Text) : Bare (plain s) := (settled_plain s).bare

theorem Settled.sublist {m n : List ReadChar} (h : Settled m) (hn : List.Sublist n m) : Settled n :=
  fun x hx => h x (hn.subset hx)

theorem text_unescape_sublist (s : Text) : List.Sublist (text (unescape s).1) s := by
  fun_induction unescape s with
  | case1 => exact List.Sublist.refl _
  | case2 => exact List.nil_sublist _
  | case3 c s ih => exact (ih.cons_cons c).cons _
  | case4 c s h1 h2 ih => exact ih.cons_cons c

/-- The character behind a line that runs on is escaped. -/
theorem escaped_of_runsOn {w : Text} (h : runsOn w = true) (b : Char) (r : Text) :
    (b, true) ∈ (unescape (w ++ b :: r)).1 := by
  rw [runsOn] at h
  fun_induction unescape w with
  | case1 => cases h
  | case2 => exact List.mem_cons_self
  | case3 c s ih => exact List.mem_cons_of_mem _ (ih h)
  | case4 c s h1 h2 ih =>
    have hc : c ≠ '\\' := by
      rintro rfl
      cases s with
      | nil => exact h1 rfl rfl
      | cons d s => exact h2 d s rfl rfl
    rw [List.cons_append, unescape_cons hc]
    exact List.mem_cons_of_mem _ (ih h)

theorem unescape_ne_nil {w : Text} (hw : w ≠ []) (h : runsOn w = false) : (unescape w).1 ≠ [] := by
  rw [runsOn] at h
  fun_cases unescape w with
  | case1 => exact absurd rfl hw
  | case2 => cases h
  | case3 c s => exact List.cons_ne_nil _ _
  | case4 c s => exact List.cons_ne_nil _ _

/-- Read without escaped blanks, each word loses its backslashes. -/
theorem Settled.words {l : Text} (h : Settled (unescape l).1) (hrun : runsOn l = false) :
    words (text (unescape l).1) = (Shell.words l).map fun w => text (unescape w).1 := by
  induction l using text_induction with
  | nil => rfl
  | blank c s hc ih =>
    have hback : c ≠ '\\' := by
      rintro rfl
      cases hc
    rw [runsOn, unescape_cons hback] at hrun
    rw [unescape_cons hback] at h ⊢
    rw [text_cons, words_blank_cons hc, words_blank_cons hc]
    exact ih (fun x hx => h x (List.mem_cons_of_mem _ hx)) hrun
  | word w rest hw hrest ih =>
    have hends : runsOn w = false := by
      by_contra hruns
      rw [Bool.not_eq_false] at hruns
      cases rest with
      | nil => rw [List.append_nil, hruns] at hrun; cases hrun
      | cons b r => exact absurd hrest (by simp [(h _ (escaped_of_runsOn hruns b r) rfl).1, AtBlank])
    rw [runsOn, unescape_append_ends hends] at hrun
    rw [unescape_append_ends hends] at h ⊢
    have hword : IsWord (text (unescape w).1) :=
      ⟨by simpa [text] using unescape_ne_nil hw.1 hends, fun c hc => hw.2 c ((text_unescape_sublist w).subset hc)⟩
    have hblank : AtBlank (text (unescape rest).1) := by
      cases rest with
      | nil => trivial
      | cons b r =>
        have hback : b ≠ '\\' := by
          rintro rfl
          cases hrest
        rw [unescape_cons hback]
        exact hrest
    rw [text_append, words_word_append hword hblank, words_word_append hw hrest, List.map_cons,
      ih (fun x hx => h x (List.mem_append_right _ hx)) hrun]

/-- The text without the blanks at its ends. -/
def trim (s : Text) : Text := trimEnd (s.dropWhile isBlank)

theorem trim_blank {b : Char} (hb : isBlank b = true) (s : Text) : trim (b :: s) = trim s := by
  rw [trim, List.dropWhile_cons_of_pos hb, trim]

theorem trim_start {s : Text} {c : Char} (h : (trim s).head? = some c) : isBlank c = false := by
  obtain ⟨t, ht⟩ : trim s <+: s.dropWhile isBlank := List.rdropWhile_prefix _ _
  have hhead := List.head?_dropWhile_not isBlank s
  rw [← ht, List.head?_append, h] at hhead
  exact hhead

theorem trim_trim (s : Text) : trim (trim s) = trim s := by
  have hstart : (trim s).dropWhile isBlank = trim s := by
    cases hs : trim s with
    | nil => rfl
    | cons c t => rw [List.dropWhile_cons_of_neg (by simp [trim_start (s := s) (c := c) (by rw [hs]; rfl)])]
  conv_lhs => rw [trim, hstart]
  exact List.rdropWhile_idempotent _ _

namespace Bare
variable {m : List ReadChar} (h : Bare m)
include h

theorem sublist {n : List ReadChar} (hn : List.Sublist n m) : Bare n := fun x hx => h x (hn.subset hx)

theorem text_skip : text (skip m) = (text m).dropWhile isBlank := by
  induction m with
  | nil => rfl
  | cons x m ih =>
    have hx := h x List.mem_cons_self
    rw [text_cons, skip, List.dropWhile_cons, List.dropWhile_cons, hx]
    split
    · exact ih (h.sublist (List.sublist_cons_self x m))
    · rfl

theorem text_takeWhile : text (m.takeWhile (!separates ·)) = (text m).takeWhile (!isBlank ·) := by
  induction m with
  | nil => rfl
  | cons x m ih =>
    have hx := h x List.mem_cons_self
    rw [text_cons, List.takeWhile_cons, List.takeWhile_cons, hx]
    split
    · rw [text_cons, ih (h.sublist (List.sublist_cons_self x m))]
    · rfl

theorem text_dropWhile : text (m.dropWhile (!separates ·)) = (text m).dropWhile (!isBlank ·) := by
  induction m with
  | nil => rfl
  | cons x m ih =>
    have hx := h x List.mem_cons_self
    rw [text_cons, List.dropWhile_cons, List.dropWhile_cons, hx]
    split
    · exact ih (h.sublist (List.sublist_cons_self x m))
    · rfl

/-- The last variable gets what is left, without the blanks around it. -/
theorem lastField_eq : lastField m = trim (text m) := by
  have hskip : Bare (skip m) := h.sublist (List.dropWhile_sublist _)
  have hrest : Bare ((skip m).dropWhile (!separates ·)) := hskip.sublist (List.dropWhile_sublist _)
  rw [lastField, trim, ← h.text_skip]
  split
  next hnil =>
    -- nothing but blanks is behind the first word
    have hblank := hrest.text_skip
    rw [hnil, hskip.text_dropWhile, text_nil, eq_comm, List.dropWhile_eq_nil_iff] at hblank
    have hsplit := List.takeWhile_append_dropWhile (p := (!isBlank ·)) (l := text (skip m))
    have hword : ∀ c ∈ (text (skip m)).takeWhile (!isBlank ·), isBlank c = false := by
      intro c hc
      simpa using List.mem_takeWhile_imp hc
    rw [hskip.text_takeWhile]
    conv_rhs => rw [← hsplit, trimEnd_append, if_pos (trimEnd_eq_nil.2 hblank)]
    by_cases hne : (text (skip m)).takeWhile (!isBlank ·) = []
    · rw [hne]
      rfl
    · simpa using (trimEnd_append_word (s := []) ⟨hne, hword⟩).symm
  · rfl

end Bare

theorem Settled.lastField_head {m : List ReadChar} (h : Settled m) :
    (lastField m).head? = (wordAt 0 (text m)).head? := by
  rw [h.bare.lastField_eq, wordAt, trim]
  have hhead := List.head?_dropWhile_not isBlank (text m)
  cases hs : (text m).dropWhile isBlank with
  | nil => rfl
  | cons c s =>
    have hc : isBlank c = false := by
      rw [hs] at hhead
      exact hhead
    have hword : IsWord [c] := ⟨by simp, by simpa using hc⟩
    rw [List.takeWhile_cons_of_pos (by simp [hc]), ← List.singleton_append, trimEnd_append]
    split
    · simpa using congrArg List.head? (trimEnd_append_word (s := []) hword)
    · rfl

/-- The fields of `read` are the words, and the last one starts with the next word. -/
theorem Settled.readFields {m : List ReadChar} (h : Settled m) (n : Nat) :
    (∀ i < n, (readFields n m).getD i [] = wordAt i (text m)) ∧
      ((readFields n m).getD n []).head? = (wordAt n (text m)).head? := by
  induction n generalizing m with
  | zero => exact ⟨fun i hi => absurd hi (Nat.not_lt_zero i), h.lastField_head⟩
  | succ n ih =>
    have hskip : Settled (skip m) := h.sublist (List.dropWhile_sublist _)
    have hrest : Settled ((skip m).dropWhile (!Shell.separates ·)) := hskip.sublist (List.dropWhile_sublist _)
    obtain ⟨hfields, hlast⟩ := ih hrest
    rw [hskip.bare.text_dropWhile, h.bare.text_skip] at hlast hfields
    refine ⟨fun i hi => ?_, hlast⟩
    cases i with
    | zero => rw [Shell.readFields, List.getD_cons_zero, hskip.bare.text_takeWhile, h.bare.text_skip, wordAt]
    | succ i => exact hfields i (by omega)

theorem logical_alone {ls : List Text} (h : ∀ l ∈ ls, runsOn l = false) :
    logical ls = ls.map fun l => (unescape l).1 := by
  induction ls with
  | nil => rfl
  | cons l ls ih =>
    obtain ⟨hl, hls⟩ := List.forall_mem_cons.1 h
    rw [logical, logicalFrom, if_neg (by simp [hl]), List.nil_append, List.map_cons, ← ih hls]
    rfl

/-! ## Texts without blanks at their ends -/

structure Trimmed (s : Text) : Prop where
  ne : s ≠ []
  start : s.dropWhile isBlank = s
  trim : trimEnd s = s

instance (s : Text) : Decidable (Trimmed s) :=
  decidable_of_iff (s ≠ [] ∧ s.dropWhile isBlank = s ∧ trimEnd s = s)
    ⟨fun ⟨h₁, h₂, h₃⟩ => ⟨h₁, h₂, h₃⟩, fun ⟨h₁, h₂, h₃⟩ => ⟨h₁, h₂, h₃⟩⟩

theorem IsWord.trimmed {u : Text} (hu : IsWord u) : Trimmed u where
  ne := hu.1
  start := by
    obtain ⟨c, u, rfl⟩ := List.exists_cons_of_ne_nil hu.1
    rw [List.dropWhile_cons_of_neg (by simp [hu.2 c])]
  trim := by simpa using trimEnd_append_word (s := []) hu

theorem Trimmed.eq {s : Text} (h : Trimmed s) : Shell.trim s = s := by
  rw [Shell.trim, h.start, h.trim]

/-- The last variable gets it as it is, with the blanks in it. -/
theorem lastField_trimmed {s : Text} (h : Trimmed s) : lastField (plain s) = s := by
  rw [(bare_plain s).lastField_eq, text_plain, h.eq]

theorem readFields_trimmed {u s : Text} (hu : IsWord u) (h : Trimmed s) :
    readFields 1 (plain (u ++ ' ' :: s)) = [u, s] := by
  have hskip : skip (plain (u ++ ' ' :: s)) = plain u ++ (' ', false) :: plain s := by
    rw [plain_append, plain_cons, skip_word hu]
  rw [readFields, hskip, takeWhile_word hu.2 (by rfl), dropWhile_word hu.2 (by rfl), readFields, text_plain]
  have hlast : lastField ((' ', false) :: plain s) = lastField (plain s) := by
    rw [lastField, skip_blank rfl, lastField]
  rw [hlast, lastField_trimmed h]

end Shell
