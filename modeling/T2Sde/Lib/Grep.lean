import T2Sde.Lib.Glob
/-!
# `grep -x` and `egrep`

A basic regular expression that has to match a whole line: `.`, `*`, `[…]`, an anchor at either end, a backslash
before a special character. A backslash before another character (a group, an interval) is not modelled, nor are
collating elements. An extended expression of `egrep` is modelled without groups and alternatives.

* `wholeLine_self` — a text without `[`, `*`, `$` and backslash matches itself.
-/
namespace Shell
open Pattern

def classNames : List Text :=
  ["alpha", "digit", "alnum", "upper", "lower", "space", "blank", "punct", "graph", "print", "cntrl",
    "xdigit"].map String.toList

/-- A range in order, a class that there is. -/
def Elem.valid : Elem → Bool
  | .char _ => true
  | .range a b => a.toNat ≤ b.toNat
  | .named name => classNames.contains name

/-- A bracket, from the text behind its `[`; an error if it is not closed. -/
def basicBracket (t : Text) : Option ((Char → Bool) × Text) :=
  let negated := t.head? = some '^'
  match bracketElems t.length true (if negated then t.drop 1 else t) with
  | none => none
  | some (es, t) => if es.all Elem.valid then some (fun c => es.any (·.test c) != negated, t) else none

/-- What a backslash takes its meaning from. -/
def special : Text := ".[]*^$\\/".toList

/-- The characters that the front of a pattern stands for, and the rest of the pattern. -/
def atom : Text → Option ((Char → Bool) × Text)
  | [] => none
  | '[' :: t => basicBracket t
  | ['\\'] => none
  | '\\' :: c :: t => if special.contains c then some ((· == c), t) else none
  | '.' :: t => some (fun _ => true, t)
  | c :: t => some ((· == c), t)

def basicUpTo : Nat → Text → Option (List Item)
  | 0, _ => some []
  | n + 1, t =>
    if t = [] ∨ t = ['$'] then some []
    else
      match atom t with
      | none => none
      | some (p, t) =>
        let rep : Rep := if t.head? = some '*' then .star else .one
        (basicUpTo n (t.dropWhile (· == '*'))).map (.chr p rep :: ·)

/-- The items of a pattern; none if it is an error. -/
def basic (pattern : Text) : Option (List Item) :=
  let pattern := if pattern.head? = some '^' then pattern.drop 1 else pattern
  basicUpTo pattern.length pattern

/-- The pattern matches the whole line. -/
def wholeLine (pattern line : Text) : Bool :=
  match basic pattern with
  | none => false
  | some items =>
    match run line (items ++ [.atEnd]) [] line with
    | .ok _ => true
    | _ => false

/-- `grep -qx "$pattern"` -/
def grepLine (pattern : Text) (lines : List Text) : Bool := lines.any (wholeLine pattern)

/-! ## `egrep` -/

/-- An extended expression repeats with `+` and `?`, too. -/
def isQuantifier (c : Char) : Bool := c == '*' || c == '+' || c == '?'

/-- Several quantifiers behind one another. -/
def repetition (qs : Text) : Rep :=
  if qs = [] then .one
  else if qs.all (· == '+') then .plus
  else if qs.all (· == '?') then .opt
  else .star

/-- The characters that have to be escaped; groups, alternatives and intervals are not followed. -/
def extendedSpecial : Text := ".[]*+?(){}|^$\\".toList

def extendedAtom : Text → Option ((Char → Bool) × Text)
  | [] => none
  | '[' :: t => basicBracket t
  | ['\\'] => none
  | '\\' :: c :: t => if extendedSpecial.contains c then some ((· == c), t) else none
  | '.' :: t => some (fun _ => true, t)
  | c :: t => if extendedSpecial.contains c then none else some ((· == c), t)

def extendedUpTo : Nat → Text → Option (List Item)
  | 0, _ => some []
  | n + 1, t =>
    if t = [] then some []
    else if t = ['$'] then some [.atEnd]
    else
      match extendedAtom t with
      | none => none
      | some (p, t) =>
        (extendedUpTo n (t.dropWhile isQuantifier)).map (.chr p (repetition (t.takeWhile isQuantifier)) :: ·)

/-- The items of an extended expression that begins without `^`. -/
def extended (pattern : Text) : Option (List Item) := extendedUpTo pattern.length pattern

/-- The expression is somewhere in the line. -/
def egrepLine (pattern line : Text) : Option Bool :=
  (extended pattern).map fun items =>
    match search line items line with
    | .ok _ => true
    | _ => false

/-! ## Plain texts -/

theorem atom_plain {c : Char} (hc : c ≠ '[' ∧ c ≠ '*' ∧ c ≠ '$' ∧ c ≠ '\\') (t : Text) :
    ∃ p, atom (c :: t) = some (p, t) ∧ p c = true := by
  obtain ⟨h1, -, -, h4⟩ := hc
  by_cases hdot : c = '.'
  · subst hdot
    exact ⟨_, rfl, rfl⟩
  · refine ⟨(· == c), ?_, by simp⟩
    unfold atom
    split <;> simp_all

theorem run_basicUpTo_plain {w : Text} (hw : ∀ c ∈ w, c ≠ '[' ∧ c ≠ '*' ∧ c ≠ '$' ∧ c ≠ '\\') (src : Text) {n : Nat}
    (hn : w.length ≤ n) :
    ∃ items, basicUpTo n w = some items ∧ run src (items ++ [.atEnd]) [] w = .ok ([], []) := by
  induction n generalizing w with
  | zero =>
    obtain rfl : w = [] := List.eq_nil_of_length_eq_zero (by omega)
    exact ⟨[], rfl, rfl⟩
  | succ n ih =>
    cases w with
    | nil => exact ⟨[], rfl, rfl⟩
    | cons c w =>
      obtain ⟨hc, hw⟩ := List.forall_mem_cons.1 hw
      obtain ⟨items, hitems, hrun⟩ := ih hw (by simpa using hn)
      obtain ⟨p, hatom, hp⟩ := atom_plain hc w
      have hnostar : w.head? ≠ some '*' ∧ w.dropWhile (· == '*') = w := by
        cases w with
        | nil => simp
        | cons d w => simp [(hw d List.mem_cons_self).2.1]
      refine ⟨.chr p .one :: items, ?_, ?_⟩
      · rw [basicUpTo, if_neg (by simpa using fun h => absurd h hc.2.2.1), hatom]
        simp only [if_neg hnostar.1, hnostar.2, hitems, Option.map_some]
      · rw [List.cons_append, run_one, if_pos hp, hrun]

/-- **A plain text** matches itself. -/
theorem wholeLine_self {w : Text} (hw : ∀ c ∈ w, c ≠ '[' ∧ c ≠ '*' ∧ c ≠ '$' ∧ c ≠ '\\') (hstart : w.head? ≠ some '^') :
    wholeLine w w = true := by
  obtain ⟨items, hitems, hrun⟩ := run_basicUpTo_plain hw w le_rfl
  rw [wholeLine, basic, if_neg hstart, hitems]
  simp only [hrun]

example : wholeLine "a.b*".toList "axbbb".toList = true ∧ wholeLine "b*".toList "b*".toList = false := by decide

example : egrepLine ".*: gtk+$".toList ": gtk+".toList = some false ∧
    egrepLine ".*: gtk+$".toList ": gtk".toList = some true := by decide

end Shell
