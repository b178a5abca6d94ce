import T2Sde.Lib.Glob
/-!
# Sourcing a text of quoted words

`. file` for a text whose commands are `export` and comments: blanks between the words, `'…'`, `"…"` and backslashes.
An expansion, a character with a meaning of its own and a quote that is missing are not followed, and there is no
result.

* `commands_escape` — what stands between `'` is read as it is, when each `'` in it is written `'\''`.
* `source_export` — a line `export NAME='…'` sets the one variable, and the rest is sourced behind it.
-/
namespace Shell

/-- Where the reader stands. -/
inductive Quotes
  | bare | comment | single | double
  deriving DecidableEq, Repr

/-- A character that stands for itself without quotes. -/
def bareChar (c : Char) : Bool := c.isAlphanum || "_-.,/:=+%@^".toList.contains c

/-- The commands of a text as words; `ws` and `w` are what the first one has so far. -/
def commands : Quotes → List Text → Option Text → Text → Option (List (List Text))
  | .bare, ws, w, [] | .comment, ws, w, [] => some [ws ++ w.toList]
  | .single, _, _, [] | .double, _, _, [] => none
  | .bare, ws, w, '\\' :: c :: s =>
    if c = '\n' then commands .bare ws w s else commands .bare ws (some (w.getD [] ++ [c])) s
  | .bare, ws, w, c :: s =>
    if c = '\n' then (commands .bare [] none s).map ((ws ++ w.toList) :: ·)
    else if c = ' ' ∨ c = '\t' then commands .bare (ws ++ w.toList) none s
    else if c = '\'' then commands .single ws (some (w.getD [])) s
    else if c = '"' then commands .double ws (some (w.getD [])) s
    else if c = '#' ∧ w = none then commands .comment ws none s
    else if bareChar c then commands .bare ws (some (w.getD [] ++ [c])) s
    else none
  | .comment, ws, w, c :: s =>
    if c = '\n' then (commands .bare [] none s).map ((ws ++ w.toList) :: ·) else commands .comment ws w s
  | .single, ws, w, c :: s =>
    if c = '\'' then commands .bare ws w s else commands .single ws (some (w.getD [] ++ [c])) s
  | .double, ws, w, '\\' :: c :: s =>
    if c = '\n' then commands .double ws w s
    else if c = '$' ∨ c = '`' ∨ c = '"' ∨ c = '\\' then commands .double ws (some (w.getD [] ++ [c])) s
    else commands .double ws (some (w.getD [] ++ ['\\', c])) s
  | .double, ws, w, c :: s =>
    if c = '"' then commands .bare ws w s
    else if c = '$' ∨ c = '`' ∨ c = '\\' then none
    else commands .double ws (some (w.getD [] ++ [c])) s

/-- The shell's variables, and which of them it exports. -/
structure Variables where
  vars : Text → Option Text
  exported : Text → Bool

def Variables.set (s : Variables) (name v : Text) : Variables :=
  { vars := upd s.vars name (some v), exported := upd s.exported name true }

/-- The name of a variable. -/
def IsName (name : Text) : Prop :=
  (∃ c ∈ name.head?, c.isAlpha = true ∨ c = '_') ∧ ∀ c ∈ name, c.isAlphanum = true ∨ c = '_'

instance (name : Text) : Decidable (IsName name) := inferInstanceAs (Decidable (_ ∧ _))

/-- An argument of `export`. -/
def Variables.export (s : Variables) (arg : Text) : Option Variables :=
  let name := arg.takeWhile (· ≠ '=')
  if IsName name then
    match arg.dropWhile (· ≠ '=') with
    | [] => some { s with exported := upd s.exported name true }
    | _ :: v => some (s.set name v)
  else none

def Variables.run (s : Variables) : List Text → Option Variables
  | [] => some s
  | w :: args => if w = "export".toList then args.foldlM Variables.export s else none

/-- `. file` -/
def source (t : Text) (s : Variables) : Option Variables :=
  (commands .bare [] none t).bind fun cs => cs.foldlM Variables.run s

/-! ## Words -/

section
variable {ws : List Text} {w : Option Text} {s : Text}

theorem commands_bareChar {c : Char} (hc : bareChar c = true) :
    commands .bare ws w (c :: s) = commands .bare ws (some (w.getD [] ++ [c])) s := by
  have hne : ∀ d, bareChar d = false → c ≠ d := by
    rintro d hd rfl
    simp [hc] at hd
  have hs : c ≠ '\\' := hne _ (by decide)
  have h₁ : c ≠ '\n' := hne _ (by decide)
  have h₂ : c ≠ ' ' := hne _ (by decide)
  have h₃ : c ≠ '\t' := hne _ (by decide)
  have h₄ : c ≠ '\'' := hne _ (by decide)
  have h₅ : c ≠ '"' := hne _ (by decide)
  have h₆ : c ≠ '#' := hne _ (by decide)
  cases s <;> simp [commands, hs, h₁, h₂, h₃, h₄, h₅, h₆, hc]

theorem commands_word {u : Text} (hne : u ≠ []) (hu : ∀ c ∈ u, bareChar c = true) :
    commands .bare ws w (u ++ s) = commands .bare ws (some (w.getD [] ++ u)) s := by
  induction u generalizing w with
  | nil => exact absurd rfl hne
  | cons c u ih =>
    obtain ⟨hc, hu⟩ := List.forall_mem_cons.1 hu
    rw [List.cons_append, commands_bareChar hc]
    by_cases h : u = []
    · simp [h]
    · rw [ih h hu]
      simp

theorem commands_quote : commands .bare ws w ('\'' :: s) = commands .single ws (some (w.getD [])) s := by
  cases s <;> simp [commands]

/-- Each `'` as `'\''`. -/
def escape (v : Text) : Text := v.flatMap fun c => if c = '\'' then "'\\''".toList else [c]

/-- What stands between `'`. -/
theorem commands_escape (v w : Text) :
    commands .single ws (some w) (escape v ++ '\'' :: s) = commands .bare ws (some (w ++ v)) s := by
  induction v generalizing w with
  | nil => simp [escape, commands]
  | cons c v ih =>
    rw [escape, List.flatMap_cons, List.append_assoc, ← escape]
    by_cases hc : c = '\''
    · rw [if_pos hc]
      simp only [String.reduceToList, List.cons_append, List.nil_append, commands, if_pos, if_false, Char.reduceEq,
        Option.getD_some]
      rw [commands_quote, Option.getD_some, ih, hc, List.append_assoc]
      rfl
    · rw [if_neg hc, List.singleton_append, commands, if_neg hc, ih, Option.getD_some, List.append_assoc]
      rfl

theorem commands_newline :
    commands .bare ws w ('\n' :: s) = (commands .bare [] none s).map ((ws ++ w.toList) :: ·) := by
  cases s <;> simp [commands]

theorem commands_blank : commands .bare ws w (' ' :: s) = commands .bare (ws ++ w.toList) none s := by
  cases s <;> simp [commands]

theorem commands_comment {t : Text} (ht : '\n' ∉ t) :
    commands .comment ws w (t ++ '\n' :: s) = (commands .bare [] none s).map ((ws ++ w.toList) :: ·) := by
  induction t with
  | nil => simp [commands]
  | cons c t ih =>
    rw [List.mem_cons, not_or] at ht
    rw [List.cons_append, commands, if_neg (Ne.symm ht.1), ih ht.2]

end

theorem source_cons {c : List Text} {t t' : Text}
    (h : commands .bare [] none t = (commands .bare [] none t').map (c :: ·)) (s : Variables) :
    source t s = (s.run c).bind (source t') := by
  rw [source, h]
  cases hc : s.run c <;> cases ht : commands .bare [] none t' <;> simp [source, hc, ht]

theorem IsName.bare {name : Text} (h : IsName name) : ∀ c ∈ name, bareChar c = true := by
  intro c hc
  rcases h.2 c hc with h | rfl
  · simp [bareChar, h]
  · decide

theorem IsName.ne_nil {name : Text} (h : IsName name) : name ≠ [] := by
  rintro rfl
  obtain ⟨c, hc, -⟩ := h.1
  simp at hc

theorem IsName.no_eq {name : Text} (h : IsName name) : ∀ c ∈ name, c ≠ '=' := by
  rintro _ hc rfl
  rcases h.2 _ hc with h | h <;> revert h <;> decide

theorem Variables.export_assign {name : Text} (h : IsName name) (v : Text) (s : Variables) :
    s.export (name ++ '=' :: v) = some (s.set name v) := by
  have ht : (name ++ '=' :: v).takeWhile (· ≠ '=') = name := by
    rw [List.takeWhile_append_of_pos (by simpa using h.no_eq)]
    simp
  have hd : (name ++ '=' :: v).dropWhile (· ≠ '=') = '=' :: v := by
    rw [List.dropWhile_append_of_pos (by simpa using h.no_eq)]
    simp
  simp only [Variables.export, ht, hd, if_pos h]

/-- A line `export NAME='…'`. -/
theorem source_export {name : Text} (h : IsName name) (v rest : Text) (s : Variables) :
    source ("export ".toList ++ name ++ "='".toList ++ escape v ++ "'\n".toList ++ rest) s =
      source rest (s.set name v) := by
  have hread : commands .bare [] none ("export ".toList ++ name ++ "='".toList ++ escape v ++ "'\n".toList ++ rest) =
      (commands .bare [] none rest).map (["export".toList, name ++ '=' :: v] :: ·) := by
    have heq : "export ".toList ++ name ++ "='".toList ++ escape v ++ "'\n".toList ++ rest =
        "export".toList ++ ' ' :: ((name ++ ['=']) ++ '\'' :: (escape v ++ '\'' :: '\n' :: rest)) := by simp
    rw [heq, commands_word (by decide) (List.all_eq_true.1 (by decide)), commands_blank,
      commands_word (by simp) (by simpa [or_imp, forall_and] using ⟨h.bare, by decide⟩), commands_quote,
      commands_escape, commands_newline]
    simp
  rw [source_cons hread, Variables.run, if_pos rfl]
  simp [Variables.export_assign h]

/-- A line of a comment. -/
theorem source_comment {t : Text} (ht : '\n' ∉ t) (rest : Text) (s : Variables) :
    source ('#' :: t ++ '\n' :: rest) s = source rest s := by
  have hread : commands .bare [] none ('#' :: (t ++ '\n' :: rest)) = (commands .bare [] none rest).map ([] :: ·) := by
    have hopen : ∀ u, commands .bare [] none ('#' :: u) = commands .comment [] none u := fun u => by
      cases u <;> simp [commands]
    rw [hopen, commands_comment ht]
    rfl
  rw [List.cons_append, source_cons hread, Variables.run, Option.bind_some]

example : commands .bare [] none "# a\nexport A='it'\\''s $1'\n".toList =
    some [[], ["export".toList, "A=it's $1".toList], []] := by decide

end Shell
