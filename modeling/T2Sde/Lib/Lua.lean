import T2Sde.Lib.Pattern
/-!
# Lua patterns

The pattern text of `string.match` of Lua 5.1 as a list of items. The classes are those of the C locale. A text is not
a pattern from the place on where the matcher would raise an error (`Item.bad`).

| here | there |
| --- | --- |
| `escClass`  | `%a`, `%S`, `%-` |
| `setBody`, `setElems` | `[set]`, `[^set]` |
| `toks`, `items` | the pattern text without `^` |
| `strMatch`  | `string.match(s, pattern)` |
-/
namespace Lua
open Shell (Text)
open Pattern

/-! ## Classes -/

def between (a b c : Char) : Bool := a.toNat ≤ c.toNat && c.toNat ≤ b.toNat

def isLower (c : Char) : Bool := between 'a' 'z' c
def isUpper (c : Char) : Bool := between 'A' 'Z' c
def isDigit (c : Char) : Bool := between '0' '9' c
def isAlnum (c : Char) : Bool := isLower c || isUpper c || isDigit c
def isGraph (c : Char) : Bool := between '!' '~' c

/-- Space, tab, newline, vertical tab, form feed, carriage return. -/
def isSpace (c : Char) : Bool := c == ' ' || between '\x09' '\x0d' c

/-- The class `%cl`; the class of a letter is named by its lower case, the upper case is the complement. -/
def escClass (cl c : Char) : Bool :=
  let class? : Option Bool :=
    match cl.toLower with
    | 'a' => some (isLower c || isUpper c)
    | 'c' => some (c.toNat < 32 || c.toNat == 127)
    | 'd' => some (isDigit c)
    | 'l' => some (isLower c)
    | 'p' => some (isGraph c && !isAlnum c)
    | 's' => some (isSpace c)
    | 'u' => some (isUpper c)
    | 'w' => some (isAlnum c)
    | 'x' => some (isDigit c || between 'a' 'f' c || between 'A' 'F' c)
    | 'z' => some (c.toNat == 0)
    | _ => none
  match class? with
  | some b => if isUpper cl then !b else b
  | none => c == cl

/-! ## Sets -/

/-- The text of a set up to its `]`, and the text behind; a `]` at the front does not end it. -/
def setBody : Bool → Text → Option (Text × Text)
  | _, [] => none
  | _, ['%'] => none
  | _, '%' :: c :: t => (setBody false t).map fun x => ('%' :: c :: x.1, x.2)
  | first, c :: t =>
    if c = ']' && !first then some ([], t)
    else (setBody false t).map fun x => (c :: x.1, x.2)

/-- Whether a character is in a set, from the text of the set. -/
def setElems (c : Char) : Text → Bool
  | [] => false
  | ['%'] => false
  | '%' :: cl :: t => escClass cl c || setElems c t
  | [a] => c == a
  | a :: '-' :: b :: t => between a b c || setElems c t
  | a :: t => c == a || setElems c t

/-- A set without escapes and ranges is the list of its characters. -/
theorem mem_of_setElems {c : Char} {t : Text} (ht : ∀ x ∈ t, x ≠ '%' ∧ x ≠ '-') (h : setElems c t = true) : c ∈ t := by
  fun_induction setElems c t with
  | case1 => simp at h
  | case2 => simp at h
  | case3 cl t => exact absurd rfl (ht '%' List.mem_cons_self).1
  | case4 a => simpa using h
  | case5 a b t => exact absurd rfl (ht '-' (by simp)).2
  | case6 a t _ _ _ _ ih =>
    rcases Bool.or_eq_true_iff.1 h with h | h
    · exact List.mem_cons.2 (.inl (by simpa using h))
    · exact List.mem_cons_of_mem _ (ih (fun x hx => ht x (List.mem_cons_of_mem _ hx)) h)

/-- A single-character class: `.`, a character, `%cl`, `[set]` and `[^set]`. -/
inductive Class
  | any
  | lit (c : Char)
  | esc (cl : Char)
  | set (neg : Bool) (elems : Text)
  deriving DecidableEq, Repr

def Class.test : Class → Char → Bool
  | .any, _ => true
  | .lit a, c => c == a
  | .esc cl, c => escClass cl c
  | .set neg elems, c => setElems c elems != neg

/-- A set, from the text behind its `[`. -/
def set : Text → Option (Class × Text)
  | '^' :: t => (setBody true t).map fun x => (.set true x.1, x.2)
  | t => (setBody true t).map fun x => (.set false x.1, x.2)

/-! ## Pattern text -/

inductive Tok
  | chr (c : Class) (r : Rep)
  | opening
  | closing
  | place
  | atEnd
  | backref (n : Nat)
  | balance (x y : Char)
  | frontier (c : Class)
  | bad
  deriving DecidableEq, Repr

def Tok.item : Tok → Item
  | .chr c r => .chr c.test r
  | .opening => .opening
  | .closing => .closing
  | .place => .place
  | .atEnd => .atEnd
  | .backref n => .backref n
  | .balance x y => .balance x y
  | .frontier c => .frontier c.test
  | .bad => .bad

/-- A class at the front of a pattern text. -/
def single : Text → Option (Class × Text)
  | [] => none
  | ['%'] => none
  | '%' :: cl :: t => some (.esc cl, t)
  | '[' :: t => set t
  | '.' :: t => some (.any, t)
  | a :: t => some (.lit a, t)

def rep : Text → Rep × Text
  | '?' :: t => (.opt, t)
  | '*' :: t => (.star, t)
  | '+' :: t => (.plus, t)
  | '-' :: t => (.lazy, t)
  | t => (.one, t)

/-- `%1` to `%9` -/
def isBackref : Text → Option (Nat × Text)
  | '%' :: d :: t => if isDigit d then some (d.toNat - '0'.toNat, t) else none
  | _ => none

/-- The first `n` items of a pattern text. -/
def toksUpTo : Nat → Text → List Tok
  | 0, _ => []
  | _, [] => []
  | n + 1, '(' :: ')' :: t => .place :: toksUpTo n t
  | n + 1, '(' :: t => .opening :: toksUpTo n t
  | n + 1, ')' :: t => .closing :: toksUpTo n t
  | _, ['$'] => [.atEnd]
  | n + 1, '%' :: 'b' :: x :: y :: t => .balance x y :: toksUpTo n t
  | _, '%' :: 'b' :: _ => [.bad]
  | n + 1, '%' :: 'f' :: '[' :: t =>
    match set t with
    | some (c, t) => .frontier c :: toksUpTo n t
    | none => [.bad]
  | _, '%' :: 'f' :: _ => [.bad]
  | n + 1, t =>
    match isBackref t with
    | some (0, _) => [.bad]
    | some (d, t) => .backref d :: toksUpTo n t
    | none =>
      match single t with
      | some (c, t) => .chr c (rep t).1 :: toksUpTo n (rep t).2
      | none => [.bad]

/-- The pattern text without its `^`. -/
def toks (pattern : Text) : List Tok := toksUpTo pattern.length pattern

def items (pattern : Text) : List Item := (toks pattern).map Tok.item

/-- `string.match(s, pattern)`: the captures, `fail` for `nil`. -/
def strMatch (pattern s : Text) : Res (List Text) :=
  let hit : Res Hit :=
    match pattern with
    | '^' :: pattern => (run s (items pattern) [] s).map fun x => Hit.mk s x.1.reverse x.2
    | pattern => search s (items pattern) s
  match hit with
  | .fail => .fail
  | .error => .error
  | .ok h => h.texts

theorem strMatch_of_run {pattern s : Text} {ts : List Text} {rest : Text} (hp : pattern.head? ≠ some '^')
    (hne : ts ≠ []) (h : run s (items pattern) [] s = .ok ((ts.map Cap.text).reverse, rest)) :
    strMatch pattern s = .ok ts := by
  have hs := search_of_run h
  rw [List.reverse_reverse] at hs
  unfold strMatch
  split
  · simp at hp
  · simp only [hs]
    exact texts_of_text hne

/-- A match without an anchor is a run at the end of the text. -/
theorem strMatch_sound {pattern s : Text} {ts : List Text} (hp : pattern.head? ≠ some '^')
    (h : strMatch pattern s = .ok ts) :
    ∃ t caps rest, t <:+ s ∧ run s (items pattern) [] t = .ok (caps, rest) ∧
      (Hit.mk t caps.reverse rest).texts = .ok ts := by
  unfold strMatch at h
  split at h
  · simp at hp
  · cases hs : search s (items pattern) s with
    | fail => simp [hs] at h
    | error => simp [hs] at h
    | ok hit =>
      obtain ⟨a, hsuf, hrun, hcaps, hrest⟩ := search_sound hs
      refine ⟨hit.start, a.1, a.2, hsuf, hrun, ?_⟩
      rw [← hcaps, ← hrest]
      simpa [hs] using h

/-! ## Values -/

/-- Values of two types are never equal. -/
inductive Val
  | bool (b : Bool)
  | str (s : Text)
  deriving DecidableEq, Repr

/-- What `not` negates: everything but `false` and `nil` counts as true. -/
def Val.truthy : Val → Bool
  | .bool b => b
  | .str _ => true

/-! ## Examples -/

example : strMatch "(%S+) +(%S+)".toList "O  perl/* x".toList = .ok ["O".toList, "perl/*".toList] := by decide

example : strMatch "^lib[a-z%-]*$".toList "lib-x".toList = .ok ["lib-x".toList] := by decide

end Lua
