import T2Sde.Lib.Words
/-!
# Options of a Lua program (`misc/lua/sde/getopt.lua`)

The second pass goes through the arguments and, for each, through the whole table of options; what it takes leaves a
hole in the vector, and behind a hole the table has no more match. An option with a required argument looks at the next
argument only where there is one: at the end of the vector it gets none, and no error is reported.

| here | there |
| --- | --- |
| `defaults`       | :49-53 |
| `found`          | :62-70 |
| `flagged`        | :101-107 |
| `take`           | :72-113 |
| `inner`          | the loop over the table :59-115, in any order |
| `second`         | :56-117 |
| `third`          | :120-128 |
| `getopt`         | :43-132 |
| `items`          | what the arguments are |

* `items_words` — each argument is in one item.
* `second_items` — the second pass item by item.
* `getopt_iff` — **when errors are reported exactly where they are made**.
-/
namespace T2Sde.Getopt
open Shell (Text upd)

/-! ## The table -/

inductive Argument
  | none | required | optional
  deriving DecidableEq, Repr

inductive Flag
  | none | number | incremental
  deriving DecidableEq, Repr

inductive Value (N : Type)
  | bool (b : Bool) | str (t : Text) | num (n : N) | other
  deriving DecidableEq, Repr

inductive Names
  | one (s : Text) | many (l : List Text)

structure Def (N : Type) where
  key : Text
  option : Names
  default : Option (Value N)
  argument : Argument
  flag : Flag

/-- What is nil is not there. -/
abbrev Opts (N : Type) := Text → Option (Value N)

/-- `getopt` returns a message, or Lua raises an error. -/
inductive Stop
  | message (t : Text) | raised
  deriving DecidableEq, Repr

def missing (a : Text) : Stop := .message ("Missing option argument for \x60".toList ++ a ++ "'".toList)
def unrecognized (a : Text) : Stop := .message ("Unrecognized option \x60".toList ++ a ++ "'".toList)

/-! ## The passes -/

section
variable {N : Type}

def defaults (defs : List (Def N)) : Opts N :=
  defs.foldl (fun opt d => if d.default.isSome then upd opt d.key d.default else opt) fun _ => none

def Names.has : Names → Text → Bool
  | .one s, a => s == a
  | .many l, a => l.any (· == a)

def found (d : Def N) : Option Text → Bool
  | none => false
  | some a => d.option.has a

def dash (a : Text) : Bool := a.head? == some '-'

variable (tonumber : Text → Option N) (succ : N → N)

/-- A number, or a text that is one. -/
def Value.number : Value N → Option N
  | .num n => some n
  | .str t => tonumber t
  | _ => none

/-- The value to assign; none if there is nothing to add 1 to. -/
def flagged (opt : Opts N) (d : Def N) (val : Option (Value N)) : Option (Option (Value N)) :=
  match d.flag with
  | .none => some val
  | .number => some ((val.bind (Value.number tonumber)).map .num)
  | .incremental => ((opt d.key).bind (Value.number tonumber)).map fun n => some (.num (succ n))

/-- The arguments with their holes, the index and the options. -/
abbrev Loop (N : Type) := List (Option Text) × Nat × Opts N

def Def.takes (d : Def N) : Bool := d.argument == .required || d.argument == .optional

/-- What is done for the option that is found. -/
def take (d : Def N) : Loop N → Except Stop (Loop N)
  | (args, i, opt) =>
    let nextisopt := ((args.getD (i + 1) none).map dash).getD false
    if nextisopt ∧ d.argument = .required then .error (missing ((args.getD i none).getD []))
    else
      let havearg : Bool := !nextisopt && d.takes
      let args := if havearg then args.set i none else args
      let i := if havearg then i + 1 else i
      let val := if havearg then (args.getD i none).map Value.str else some (.bool true)
      match flagged tonumber succ opt d val with
      | none => .error .raised
      | some val => .ok (args.set i none, i, upd opt d.key val)

def inner : List (Def N) → Loop N → Except Stop (Loop N)
  | [], s => .ok s
  | d :: defs, s =>
    if found d (s.1.getD s.2.1 none) then
      match take tonumber succ d s with
      | .error e => .error e
      | .ok s => inner defs s
    else inner defs s

/-- The first `n` turns of `repeat`. -/
def second (defs : List (Def N)) (nargs : Nat) : Nat → Loop N → Except Stop (Loop N)
  | 0, s => .ok s
  | n + 1, s =>
    match inner tonumber succ defs s with
    | .error e => .error e
    | .ok (args, i, opt) => if i + 1 < nargs then second defs nargs n (args, i + 1, opt) else .ok (args, i + 1, opt)

def third : List (Option Text) → Except Stop (List Text)
  | [] => .ok []
  | none :: args => third args
  | some a :: args => if dash a then .error (unrecognized a) else (third args).map (a :: ·)

def getopt (defs : List (Def N)) (args : List Text) : Except Stop (Opts N × List Text) :=
  match second tonumber succ defs args.length (args.length + 1) (args.map some, 0, defaults defs) with
  | .error e => .error e
  | .ok (args, _, opt) => (third args).map fun arg => (opt, arg)

end

/-! ## What the arguments are -/

section
variable {N : Type}

/-- The argument of an option: given, or not taken from what follows, or nothing follows. -/
inductive Given
  | text (b : Text) | alone | ended
  deriving DecidableEq, Repr

inductive Item (N : Type)
  | opt (d : Def N) (name : Text) (given : Given)
  | pos (a : Text)

/-- The option that an argument is. -/
def lookup (defs : List (Def N)) (a : Text) : Option (Def N) := defs.find? fun d => d.option.has a

def items (defs : List (Def N)) : List Text → List (Item N)
  | [] => []
  | [a] =>
    match lookup defs a with
    | none => [.pos a]
    | some d => [.opt d a (if d.takes then .ended else .alone)]
  | a :: b :: args =>
    match lookup defs a with
    | none => .pos a :: items defs (b :: args)
    | some d =>
      if d.takes ∧ dash b = false then .opt d a (.text b) :: items defs args
      else .opt d a .alone :: items defs (b :: args)

def Item.words : Item N → List Text
  | .opt _ name (.text b) => [name, b]
  | .opt _ name _ => [name]
  | .pos a => [a]

/-- An option that requires an argument, and the next one starts with `-`. -/
def Item.refused : Item N → Bool
  | .opt d _ .alone => d.argument == .required
  | _ => false

/-- An option that requires an argument, and there is no next one. -/
def Item.unserved : Item N → Bool
  | .opt d _ .ended => d.argument == .required
  | _ => false

def Item.unknown : Item N → Bool
  | .opt .. => false
  | .pos a => dash a

def Item.positional : Item N → Option Text
  | .opt .. => none
  | .pos a => some a

/-- An error is to be reported. -/
def Wrong (its : List (Item N)) : Prop := ∃ it ∈ its, (it.refused || it.unserved || it.unknown) = true

/-- The items up to one that is refused. -/
def reached (its : List (Item N)) : List (Item N) := its.takeWhile (!·.refused)

variable (tonumber : Text → Option N) (succ : N → N)

def Given.value : Given → Option (Value N)
  | .text b => some (.str b)
  | .alone => some (.bool true)
  | .ended => none

/-- What an item gives the key of its option. -/
def assign (opt : Opts N) : Item N → Option (Opts N)
  | .opt d _ given => (flagged tonumber succ opt d given.value).map fun val => upd opt d.key val
  | .pos _ => some opt

def assignAll (opt : Opts N) : List (Item N) → Option (Opts N)
  | [] => some opt
  | it :: its => (assign tonumber succ opt it).bind fun opt => assignAll opt its

/-- An error exactly where there is one to report; else the positional arguments in their order, and the options with
theirs. -/
def Right (defs : List (Def N)) (args : List Text) : Except Stop (Opts N × List Text) → Prop
  | .ok (opt, arg) => ¬ Wrong (items defs args) ∧ arg = (items defs args).filterMap Item.positional ∧
      assignAll tonumber succ (defaults defs) (items defs args) = some opt
  | .error (.message _) => Wrong (items defs args)
  | .error .raised => False

/-- What the options are added to is there, and if nothing but the end of the vector leaves an option without its
argument, there is another error. -/
structure Fair (defs : List (Def N)) (args : List Text) : Prop where
  counted : (assignAll tonumber succ (defaults defs) (reached (items defs args))).isSome = true
  served : (∀ it ∈ items defs args, it.refused = false) → (∃ it ∈ items defs args, it.unserved = true) →
    ∃ it ∈ items defs args, it.unknown = true

end

/-! ## Item by item -/

section
variable {N : Type} {defs : List (Def N)} {a b : Text}

/-- **Each argument** is in one item, in the order of the vector. -/
theorem items_words (defs : List (Def N)) (args : List Text) : (items defs args).flatMap Item.words = args := by
  fun_induction items defs args with
  | case1 => rfl
  | case2 a h => rfl
  | case3 a d h => split <;> rfl
  | case4 a b args h ih => rw [List.flatMap_cons, ih]; rfl
  | case5 a b args d h hb ih => rw [List.flatMap_cons, ih]; rfl
  | case6 a b args d h hb ih => rw [List.flatMap_cons, ih]; rfl

/-- With distinct names, the order of the table does not matter. -/
theorem lookup_iff {d : Def N} (h : defs.Pairwise fun d e => ∀ a, ¬ (d.option.has a = true ∧ e.option.has a = true)) :
    lookup defs a = some d ↔ d ∈ defs ∧ d.option.has a = true := by
  induction defs with
  | nil => simp [lookup]
  | cons e defs ih =>
    obtain ⟨he, hdefs⟩ := List.pairwise_cons.1 h
    have ih := ih hdefs
    rw [lookup] at ih ⊢
    rw [List.find?_cons, List.mem_cons]
    cases hhas : e.option.has a with
    | true =>
      constructor
      · intro heq
        obtain rfl := Option.some.inj heq
        exact ⟨.inl rfl, hhas⟩
      · rintro ⟨rfl | hd, hd'⟩
        · rfl
        · exact absurd ⟨hhas, hd'⟩ (he d hd a)
    | false =>
      refine ih.trans ⟨fun h => ⟨.inr h.1, h.2⟩, ?_⟩
      rintro ⟨rfl | hd, hd'⟩
      · exact absurd hd' (by simp [hhas])
      · exact ⟨hd, hd'⟩

variable (tonumber : Text → Option N) (succ : N → N)

theorem getD_set_none (l : List (Option Text)) (i : Nat) : (l.set i none).getD i none = none := by
  rw [List.getD_eq_getElem?_getD, List.getElem?_set]
  split
  · split <;> rfl
  · contradiction

/-- The next argument is taken, or the one that is not there. -/
theorem take_next {d : Def N} {args : List (Option Text)} {i : Nat} (ht : d.takes = true)
    (hnext : ((args.getD (i + 1) none).map dash).getD false = false) (opt : Opts N) :
    take tonumber succ d (args, i, opt) =
      match flagged tonumber succ opt d (((args.set i none).getD (i + 1) none).map Value.str) with
      | none => .error .raised
      | some val => .ok ((args.set i none).set (i + 1) none, i + 1, upd opt d.key val) := by
  rw [take]
  simp only [hnext, ht, Bool.false_eq_true, false_and, if_false, Bool.not_false, Bool.and_true, if_true]

theorem take_alone {d : Def N} {args : List (Option Text)} {i : Nat}
    (hnot : (!((args.getD (i + 1) none).map dash).getD false && d.takes) = false) (opt : Opts N) :
    take tonumber succ d (args, i, opt) =
      if d.argument = .required then .error (missing ((args.getD i none).getD []))
      else
        match flagged tonumber succ opt d (some (.bool true)) with
        | none => .error .raised
        | some val => .ok (args.set i none, i, upd opt d.key val) := by
  rw [take]
  simp only [hnot, Bool.false_eq_true, if_false]
  by_cases hreq : d.argument = .required
  · have hnext : ((args.getD (i + 1) none).map dash).getD false = true := by
      have htakes : d.takes = true := by simp [Def.takes, hreq]
      simpa [htakes] using hnot
    rw [if_pos ⟨hnext, hreq⟩, if_pos hreq]
  · rw [if_neg fun h => hreq h.2, if_neg hreq]

theorem take_hole {d : Def N} {s s' : Loop N} (h : take tonumber succ d s = .ok s') : s'.1.getD s'.2.1 none = none := by
  obtain ⟨args, i, opt⟩ := s
  rw [take] at h
  split at h
  · cases h
  · dsimp only at h
    split at h
    · cases h
    · cases h
      exact getD_set_none _ _

/-- Behind a hole there is no match. -/
theorem inner_hole {s : Loop N} (h : s.1.getD s.2.1 none = none) (defs : List (Def N)) :
    inner tonumber succ defs s = .ok s := by
  induction defs with
  | nil => rfl
  | cons d defs ih => rw [inner, h, found, if_neg (by simp), ih]

/-- So at most one option is found. -/
theorem inner_eq {s : Loop N} (h : s.1.getD s.2.1 none = some a) (defs : List (Def N)) :
    inner tonumber succ defs s =
      match lookup defs a with
      | none => .ok s
      | some d => take tonumber succ d s := by
  induction defs with
  | nil => rfl
  | cons d defs ih =>
    rw [inner, h, found, lookup, List.find?_cons]
    cases d.option.has a with
    | false =>
      rw [if_neg (by simp), ih]
      rfl
    | true =>
      rw [if_pos rfl]
      dsimp only
      cases htake : take tonumber succ d s with
      | error e => rfl
      | ok s' => exact inner_hole tonumber succ (take_hole tonumber succ htake) defs

/-- What the second pass leaves of an item. -/
def Item.holes : Item N → List (Option Text)
  | .opt _ _ (.text _) => [none, none]
  | .opt _ _ _ => [none]
  | .pos a => [some a]

/-- The second pass, item by item. -/
def runItems (opt : Opts N) : List (Item N) → Except Stop (Opts N)
  | [] => .ok opt
  | it :: its =>
    if it.refused then .error (missing (it.words.headD []))
    else
      match assign tonumber succ opt it with
      | none => .error .raised
      | some opt => runItems opt its

/-- The result of the loop over the table for an item; `rest` is behind it. -/
def turn (done : List (Option Text)) (rest : List Text) (i : Nat) (opt : Opts N) (it : Item N) : Except Stop (Loop N) :=
  if it.refused then .error (missing (it.words.headD []))
  else
    match assign tonumber succ opt it with
    | none => .error .raised
    | some opt => .ok (done ++ it.holes ++ rest.map some, i, opt)

section
variable {tonumber succ} {done : List (Option Text)} {args rest : List Text} {d : Def N}

theorem getD_done (done : List (Option Text)) (x : Option Text) (l : List (Option Text)) :
    (done ++ x :: l).getD done.length none = x := by
  simp

theorem getD_next (done : List (Option Text)) (x : Option Text) (l : List (Option Text)) :
    (done ++ x :: l).getD (done.length + 1) none = l.getD 0 none := by
  simp [List.getElem?_append_right]

theorem set_done (done : List (Option Text)) (x y : Option Text) (l : List (Option Text)) :
    (done ++ x :: l).set done.length y = done ++ y :: l := by
  rw [List.set_append_right _ _ (Nat.le_refl _), Nat.sub_self]
  rfl

theorem set_next (done : List (Option Text)) (x y : Option Text) (l : List (Option Text)) :
    (done ++ x :: l).set (done.length + 1) y = done ++ x :: l.set 0 y := by
  simp [List.set_append_right]

theorem inner_pos (h : lookup defs a = none) (opt : Opts N) :
    inner tonumber succ defs (done ++ (a :: rest).map some, done.length, opt) =
      turn tonumber succ done rest done.length opt (.pos a) := by
  rw [List.map_cons, inner_eq tonumber succ (getD_done done (some a) _), h, turn, if_neg (by simp [Item.refused])]
  simp [assign, Item.holes]

theorem inner_ended (h : lookup defs a = some d) (ht : d.takes = true) (opt : Opts N) :
    inner tonumber succ defs (done ++ [a].map some, done.length, opt) =
      turn tonumber succ done [] (done.length + 1) opt (.opt d a .ended) := by
  rw [List.map_cons, List.map_nil, inner_eq tonumber succ (getD_done done (some a) _), h, turn,
    if_neg (by simp [Item.refused])]
  have hnext : (((done ++ [some a]).getD (done.length + 1) none).map dash).getD false = false := by
    rw [getD_next]
    rfl
  have htake := take_next tonumber succ ht hnext opt
  rw [set_done, getD_next, set_next] at htake
  dsimp only
  rw [htake, assign, Given.value]
  simp only [List.getD_nil, Option.map_none]
  cases flagged tonumber succ opt d none with
  | none => rfl
  | some val => simp [Item.holes]

theorem inner_alone (h : lookup defs a = some d) (ht : d.takes = false ∨ ∃ b, rest.head? = some b ∧ dash b = true)
    (opt : Opts N) :
    inner tonumber succ defs (done ++ (a :: rest).map some, done.length, opt) =
      turn tonumber succ done rest done.length opt (.opt d a .alone) := by
  rw [List.map_cons, inner_eq tonumber succ (getD_done done (some a) _), h]
  have hnot : (!(((done ++ some a :: rest.map some).getD (done.length + 1) none).map dash).getD false && d.takes) =
      false := by
    rcases ht with ht | ⟨b, hb, hdash⟩
    · rw [ht, Bool.and_false]
    · rw [getD_next]
      cases rest with
      | nil => simp at hb
      | cons c rest =>
        obtain rfl := Option.some.inj hb
        simp [hdash]
  have htake := take_alone tonumber succ hnot opt
  rw [set_done, getD_done] at htake
  dsimp only
  rw [htake, turn, Item.refused, assign, Given.value]
  by_cases hreq : d.argument = .required
  · rw [if_pos hreq, if_pos (by simp [hreq])]
    rfl
  · rw [if_neg hreq, if_neg (by simpa using hreq)]
    cases flagged tonumber succ opt d (some (.bool true)) with
    | none => rfl
    | some val => simp [Item.holes]

theorem inner_text {b : Text} (h : lookup defs a = some d) (ht : d.takes = true) (hb : dash b = false) (opt : Opts N) :
    inner tonumber succ defs (done ++ (a :: b :: rest).map some, done.length, opt) =
      turn tonumber succ done rest (done.length + 1) opt (.opt d a (.text b)) := by
  rw [List.map_cons, List.map_cons, inner_eq tonumber succ (getD_done done (some a) _), h, turn,
    if_neg (by simp [Item.refused])]
  have hnext : (((done ++ some a :: some b :: rest.map some).getD (done.length + 1) none).map dash).getD false =
      false := by
    rw [getD_next]
    exact hb
  have htake := take_next tonumber succ ht hnext opt
  rw [set_done, getD_next, set_next] at htake
  dsimp only
  rw [htake, assign, Given.value]
  simp only [List.getD_cons_zero, Option.map_some]
  cases flagged tonumber succ opt d (some (.str b)) with
  | none => rfl
  | some val => simp [Item.holes]

/-- One turn of `repeat`. -/
theorem second_turn {it : Item N} {its : List (Item N)} {n i : Nat} {opt : Opts N}
    (hinner : inner tonumber succ defs (done ++ args.map some, done.length, opt) =
      turn tonumber succ done rest i opt it)
    (hrest : (rest = [] ∧ its = [] ∧ done.length + args.length ≤ i + 1) ∨
      (rest ≠ [] ∧ i + 1 = (done ++ it.holes).length ∧ args.length = it.holes.length + rest.length))
    (ih : rest ≠ [] → ∀ opt, (second tonumber succ defs ((done ++ it.holes).length + rest.length) n
        (done ++ it.holes ++ rest.map some, (done ++ it.holes).length, opt)).map (fun s => (s.1, s.2.2)) =
      (runItems tonumber succ opt its).map fun opt => (done ++ it.holes ++ its.flatMap Item.holes, opt)) :
    (second tonumber succ defs (done.length + args.length) (n + 1) (done ++ args.map some, done.length, opt)).map
        (fun s => (s.1, s.2.2)) =
      (runItems tonumber succ opt (it :: its)).map fun opt => (done ++ (it :: its).flatMap Item.holes, opt) := by
  rw [second, hinner, turn, runItems]
  by_cases hrefused : it.refused = true
  · rw [if_pos hrefused, if_pos hrefused]
    rfl
  · rw [if_neg hrefused, if_neg hrefused]
    cases assign tonumber succ opt it with
    | none => rfl
    | some opt' =>
      dsimp only
      rw [List.flatMap_cons, ← List.append_assoc]
      rcases hrest with ⟨hnil, hits, hi⟩ | ⟨hne, hi, hlen⟩
      · subst hnil
        subst hits
        rw [if_neg (by omega)]
        simp [runItems, Except.map]
      · have hpos := List.length_pos_of_ne_nil hne
        have hall : done.length + args.length = (done ++ it.holes).length + rest.length := by
          rw [List.length_append]
          omega
        rw [if_pos (by omega), hall, hi]
        exact ih hne opt'

end

/-- The loop is at the argument behind `done`. -/
theorem second_items (defs : List (Def N)) (args : List Text) : ∀ (done : List (Option Text)) (n : Nat) (opt : Opts N),
    args ≠ [] → args.length ≤ n →
    (second tonumber succ defs (done.length + args.length) n (done ++ args.map some, done.length, opt)).map
        (fun s => (s.1, s.2.2)) =
      (runItems tonumber succ opt (items defs args)).map
        fun opt => (done ++ (items defs args).flatMap Item.holes, opt) := by
  fun_induction items defs args with
  | case1 => exact fun _ _ _ hne => absurd rfl hne
  | case2 a h =>
    rintro done (_ | n) opt _ hn
    · simp at hn
    · exact second_turn (inner_pos h opt) (.inl ⟨rfl, rfl, Nat.le_refl _⟩) fun h => absurd rfl h
  | case3 a d h =>
    rintro done (_ | n) opt _ hn
    · simp at hn
    · split
      next ht => exact second_turn (inner_ended h ht opt) (.inl ⟨rfl, rfl, by simp⟩) fun h => absurd rfl h
      next ht =>
        exact second_turn (inner_alone h (.inl (by simpa using ht)) opt) (.inl ⟨rfl, rfl, Nat.le_refl _⟩)
          fun h => absurd rfl h
  | case4 a b args h ih =>
    rintro done (_ | n) opt _ hn
    · simp at hn
    · refine second_turn (inner_pos h opt) (.inr ⟨List.cons_ne_nil b args, ?_, ?_⟩) fun _ opt =>
        ih _ n opt (List.cons_ne_nil b args) (Nat.le_of_succ_le_succ hn)
      · simp [Item.holes]
      · simp [Item.holes, Nat.add_comm]
  | case5 a b args d h hb ih =>
    rintro done (_ | n) opt _ hn
    · simp at hn
    · by_cases hrest : args = []
      · subst hrest
        exact second_turn (inner_text h hb.1 hb.2 opt) (.inl ⟨rfl, rfl, by simp⟩) fun h => absurd rfl h
      · refine second_turn (inner_text h hb.1 hb.2 opt) (.inr ⟨hrest, ?_, ?_⟩) fun _ opt =>
          ih _ n opt hrest (Nat.le_of_succ_le (Nat.le_of_succ_le_succ hn))
        · simp [Item.holes]
        · simp only [List.length_cons, Item.holes, List.length_nil]
          omega
  | case6 a b args d h hb ih =>
    rintro done (_ | n) opt _ hn
    · simp at hn
    · refine second_turn (inner_alone h ?_ opt) (.inr ⟨List.cons_ne_nil b args, ?_, ?_⟩) fun _ opt =>
        ih _ n opt (List.cons_ne_nil b args) (Nat.le_of_succ_le_succ hn)
      · by_cases ht : d.takes = true
        · exact .inr ⟨b, rfl, by simpa [ht] using hb⟩
        · exact .inl (by simpa using ht)
      · simp [Item.holes]
      · simp [Item.holes, Nat.add_comm]

/-! ## The result -/

theorem runItems_eq (its : List (Item N)) (opt : Opts N) :
    runItems tonumber succ opt its =
      match assignAll tonumber succ opt (reached its) with
      | none => .error .raised
      | some opt =>
        match its.find? Item.refused with
        | none => .ok opt
        | some it => .error (missing (it.words.headD [])) := by
  induction its generalizing opt with
  | nil => rfl
  | cons it its ih =>
    rw [runItems, reached, List.find?_cons]
    cases hrefused : it.refused with
    | true =>
      rw [if_pos rfl, List.takeWhile_cons_of_neg (by simp [hrefused])]
      rfl
    | false =>
      rw [if_neg (by simp), List.takeWhile_cons_of_pos (by simp [hrefused]), assignAll]
      cases assign tonumber succ opt it with
      | none => rfl
      | some opt' => exact ih opt'

theorem third_holes (its : List (Item N)) :
    third (its.flatMap Item.holes) =
      match its.find? Item.unknown with
      | none => .ok (its.filterMap Item.positional)
      | some it => .error (unrecognized (it.words.headD [])) := by
  induction its with
  | nil => rfl
  | cons it its ih =>
    rw [List.flatMap_cons, List.find?_cons]
    cases it with
    | opt d name given => cases given <;> exact ih
    | pos a =>
      change third (some a :: its.flatMap Item.holes) = _
      rw [third, ih]
      cases hdash : dash a with
      | true => simp [Item.unknown, hdash, Item.words]
      | false =>
        rw [if_neg (by simp), Item.unknown, hdash]
        cases its.find? Item.unknown with
        | none => rfl
        | some it => rfl

/-- **The result**, by the items. -/
theorem getopt_items (defs : List (Def N)) (args : List Text) :
    getopt tonumber succ defs args =
      match runItems tonumber succ (defaults defs) (items defs args) with
      | .error e => .error e
      | .ok opt => (third ((items defs args).flatMap Item.holes)).map fun arg => (opt, arg) := by
  cases args with
  | nil =>
    have hnone : inner tonumber succ defs ([], 0, defaults defs) = .ok ([], 0, defaults defs) :=
      inner_hole tonumber succ rfl defs
    rw [getopt, List.map_nil, List.length_nil, second, hnone]
    rfl
  | cons a args =>
    have hsecond := second_items tonumber succ defs (a :: args) [] ((a :: args).length + 1) (defaults defs)
      (List.cons_ne_nil a args) (Nat.le_succ _)
    rw [List.length_nil, Nat.zero_add, List.nil_append] at hsecond
    rw [getopt]
    cases hloop : second tonumber succ defs (a :: args).length ((a :: args).length + 1)
        ((a :: args).map some, 0, defaults defs) with
    | error e =>
      rw [hloop] at hsecond
      cases hrun : runItems tonumber succ (defaults defs) (items defs (a :: args)) with
      | error e' =>
        rw [hrun] at hsecond
        cases hsecond
        rfl
      | ok opt =>
        rw [hrun] at hsecond
        cases hsecond
    | ok s =>
      rw [hloop] at hsecond
      obtain ⟨args', i, opt⟩ := s
      cases hrun : runItems tonumber succ (defaults defs) (items defs (a :: args)) with
      | error e' =>
        rw [hrun] at hsecond
        cases hsecond
      | ok opt' =>
        rw [hrun] at hsecond
        cases hsecond
        rfl

end

/-! ## When the errors are right -/

section
variable {N : Type} (tonumber : Text → Option N) (succ : N → N)

/-- **An error is reported exactly where one is made**, and the other arguments are handed on, each once, if the options
can be counted and the vector does not end without an argument. -/
theorem getopt_iff (defs : List (Def N)) (args : List Text) :
    (items defs args).flatMap Item.words = args ∧
      (Right tonumber succ defs args (getopt tonumber succ defs args) ↔ Fair tonumber succ defs args) := by
  refine ⟨items_words defs args, ?_⟩
  rw [getopt_items, runItems_eq]
  cases hcount : assignAll tonumber succ (defaults defs) (reached (items defs args)) with
  | none =>
    refine iff_of_false id fun h => ?_
    have hsome := h.counted
    rw [hcount] at hsome
    exact absurd hsome (by simp)
  | some opt =>
    have hcounted : (assignAll tonumber succ (defaults defs) (reached (items defs args))).isSome = true := by
      rw [hcount]
      rfl
    dsimp only
    cases hrefused : (items defs args).find? Item.refused with
    | some it =>
      have hit := List.find?_some hrefused
      have hmem := List.mem_of_find?_eq_some hrefused
      refine iff_of_true ⟨it, hmem, by simp [hit]⟩ ⟨hcounted, fun hno => ?_⟩
      exact absurd hit (by simp [hno it hmem])
    | none =>
      have hno : ∀ it ∈ items defs args, it.refused = false := fun it hit => by
        simpa using List.find?_eq_none.1 hrefused it hit
      have hall : reached (items defs args) = items defs args :=
        List.takeWhile_eq_self_iff.2 fun it hit => by simp [hno it hit]
      rw [hall] at hcount
      dsimp only
      rw [third_holes]
      cases hunknown : (items defs args).find? Item.unknown with
      | some it =>
        have hit := List.find?_some hunknown
        have hmem := List.mem_of_find?_eq_some hunknown
        exact iff_of_true ⟨it, hmem, by simp [hit]⟩ ⟨hcounted, fun _ _ => ⟨it, hmem, hit⟩⟩
      | none =>
        have hknown : ∀ it ∈ items defs args, it.unknown = false := fun it hit => by
          simpa using List.find?_eq_none.1 hunknown it hit
        have hwrong : Wrong (items defs args) ↔ ∃ it ∈ items defs args, it.unserved = true := by
          refine exists_congr fun it => and_congr_right fun hit => ?_
          rw [hno it hit, hknown it hit, Bool.false_or, Bool.or_false]
        constructor
        · rintro ⟨hright, -, -⟩
          exact ⟨hcounted, fun _ hunserved => absurd (hwrong.2 hunserved) hright⟩
        · intro h
          refine ⟨fun hw => ?_, rfl, hcount⟩
          obtain ⟨it, hit, hdash⟩ := h.served hno (hwrong.1 hw)
          exact absurd hdash (by simp [hknown it hit])

end

/-- Numerals of one digit, for the examples. -/
def digit : Text → Option Nat
  | [c] => if c.isDigit then some (c.toNat - '0'.toNat) else none
  | _ => none

def outDef : Def Nat := ⟨"out".toList, .many ["-o".toList, "--out".toList], none, .required, .none⟩

/-- The last argument is an option that requires one. -/
theorem out_ended :
    ¬ Right digit (· + 1) [outDef] ["x".toList, "-o".toList] (getopt digit (· + 1) [outDef] ["x".toList, "-o".toList]) ∧
      (getopt digit (· + 1) [outDef] ["x".toList, "-o".toList]).toOption.map Prod.snd = some ["x".toList] := by
  refine ⟨fun h => ?_, rfl⟩
  have hitems : items [outDef] ["x".toList, "-o".toList] = [.pos "x".toList, .opt outDef "-o".toList .ended] := rfl
  have hright : ¬ Wrong (items [outDef] ["x".toList, "-o".toList]) := h.1
  rw [hitems] at hright
  exact hright ⟨.opt outDef "-o".toList .ended, List.mem_cons_of_mem _ List.mem_cons_self, rfl⟩

end T2Sde.Getopt
