import Mathlib.Data.List.Sort
import T2Sde.Lib.Run
/-!
# Hooks with levels (`misc/lua/sde/hooks.lua`)

`hook.new` returns the one table `hook`, whatever hook it is for. The levels stand in a table whose keys are the levels;
a new one is put there with `table.insert`, which moves what stands from there to the border that `#` gives, any border
of the table. `pairs` visits a table in any order.

| here | there |
| --- | --- |
| `Table`        | a table with whole numbers as keys |
| `Table.IsBorder`, `Table.Visits` | `#` and `pairs` |
| `Table.insert` | `table.insert(t, pos, v)` |
| `clamp`, `index` | `meta.__index` :136-147 |
| `State`        | `hook = { level = {} }` :45, with what the last operation has called |
| `Op`           | :53-71, :130-133, :149-151; without a level, `add` is for the fifth |
| `apply`        | one operation |
| `Spec`         | hooks that have nothing in common |

* `contents_index` — a level that is made moves no functions.
* `step_agrees` — one operation.
* `hooks_agree` — **when each hook runs its own functions, level by level**.
* `agrees_of_oneLevel` — with one level at each run `pairs` does not matter.
-/
namespace T2Sde.Hooks

/-! ## Tables -/

structure Table (α : Type) where
  get : Nat → Option α
  bound : Nat
  get_bound : ∀ k, bound ≤ k → get k = none

namespace Table

variable {α : Type}

def empty : Table α := ⟨fun _ => none, 0, fun _ _ => rfl⟩

/-- `t[k] = v` -/
def put (t : Table α) (k : Nat) (v : α) : Table α where
  get := Function.update t.get k (some v)
  bound := max t.bound (k + 1)
  get_bound j hj := by
    rw [Function.update_of_ne (by omega)]
    exact t.get_bound j (by omega)

def map (f : α → α) (t : Table α) : Table α where
  get k := (t.get k).map f
  bound := t.bound
  get_bound k hk := by rw [t.get_bound k hk, Option.map_none]

/-- What stands from `pos` to the border moves up by one. -/
def insert (t : Table α) (border pos : Nat) (v : α) : Table α where
  get k := if k = pos then some v else if pos < k ∧ k ≤ border + 1 then t.get (k - 1) else t.get k
  bound := max t.bound (max (pos + 1) (border + 2))
  get_bound k hk := by
    rw [if_neg (by omega), if_neg (by omega)]
    exact t.get_bound k (by omega)

def IsBorder (t : Table α) (n : Nat) : Prop := (n = 0 ∨ (t.get n).isSome) ∧ (t.get (n + 1)).isNone

/-- Each key once. -/
def Visits (t : Table α) (order : List Nat) : Prop :=
  order.Nodup ∧ (∀ k ∈ order, (t.get k).isSome) ∧ ∀ k < t.bound, (t.get k).isSome → k ∈ order

instance (t : Table α) (n : Nat) : Decidable (t.IsBorder n) := inferInstanceAs (Decidable (_ ∧ _))

instance (t : Table α) (order : List Nat) : Decidable (t.Visits order) := inferInstanceAs (Decidable (_ ∧ _))

end Table

/-! ## Hooks -/

variable {F : Type}

/-- The functions of a level; none where there is no level. -/
def contents (t : Table (List F)) (k : Nat) : List F := (t.get k).getD []

def clamp (pos : Int) : Nat := if pos < 1 then 1 else if 9 < pos then 9 else pos.toNat

/-- `self[pos]`: the levels with this one. -/
def index (t : Table (List F)) (border : Nat) (pos : Int) : Table (List F) :=
  if (t.get (clamp pos)).isNone then t.insert border (clamp pos) [] else t

/-- The number of hooks that were made, and the table that they all are. -/
structure State (F : Type) where
  hooks : Nat
  level : Table (List F)
  called : List F

/-- `data` is a function, a string that was loaded, or what is in a table, in the order of `pairs`. -/
inductive Op (F : Type)
  | new
  | add (h : Nat) (pos : Int) (data : List F)
  | setAt (h : Nat) (pos : Int) (data : List F)
  | clearAt (h : Nat) (pos : Int)
  | runAt (h : Nat) (pos : Int)
  | set (h : Nat) (data : List F)
  | clear (h : Nat)
  | run (h : Nat)

def Op.hook : Op F → Option Nat
  | .new => none
  | .add h _ _ | .setAt h _ _ | .clearAt h _ | .runAt h _ | .set h _ | .clear h | .run h => some h

/-- An operation, with what `#` and `pairs` do; `inner` is the order in which a level is visited. -/
structure Act (F : Type) where
  op : Op F
  border : Nat
  order : List Nat
  inner : List F → List F

def apply (s : State F) (a : Act F) : State F :=
  match a.op with
  | .new => ⟨s.hooks + 1, s.level, []⟩
  | .add _ pos data =>
    let t := index s.level a.border pos
    ⟨s.hooks, t.put (clamp pos) (contents t (clamp pos) ++ data), []⟩
  | .setAt _ pos data => ⟨s.hooks, (index s.level a.border pos).put (clamp pos) data, []⟩
  | .clearAt _ pos => ⟨s.hooks, (index s.level a.border pos).put (clamp pos) [], []⟩
  | .runAt _ pos =>
    let t := index s.level a.border pos
    ⟨s.hooks, t, a.inner (contents t (clamp pos))⟩
  | .set _ data => ⟨s.hooks, (index (s.level.map fun _ => []) a.border 5).put 5 data, []⟩
  | .clear _ => ⟨s.hooks, s.level.map fun _ => [], []⟩
  | .run _ => ⟨s.hooks, s.level, a.order.flatMap fun k => a.inner (contents s.level k)⟩

/-- The hook was made, and the library does what it may do. -/
def Allowed [DecidableEq F] (s : State F) (a : Act F) : Prop :=
  (∀ h ∈ a.op.hook, h < s.hooks) ∧ s.level.IsBorder a.border ∧ s.level.Visits a.order ∧
    ∀ k < s.level.bound, (a.inner (contents s.level k)).Perm (contents s.level k)

instance [DecidableEq F] (s : State F) (a : Act F) : Decidable (Allowed s a) := inferInstanceAs (Decidable (_ ∧ _))

/-! ## What hooks are for -/

/-- The functions of each hook and level. -/
structure Spec (F : Type) where
  live : Nat → Nat → List F
  called : List F

def Spec.put (e : Spec F) (h k : Nat) (data : List F) : Spec F :=
  ⟨Function.update e.live h (Function.update (e.live h) k data), []⟩

def Spec.apply (e : Spec F) : Op F → Spec F
  | .new => ⟨e.live, []⟩
  | .add h pos data => e.put h (clamp pos) (e.live h (clamp pos) ++ data)
  | .setAt h pos data => e.put h (clamp pos) data
  | .clearAt h pos => e.put h (clamp pos) []
  | .runAt h pos => ⟨e.live, e.live h (clamp pos)⟩
  | .set h data => ⟨Function.update e.live h (Function.update (fun _ => []) 5 data), []⟩
  | .clear h => ⟨Function.update e.live h fun _ => [], []⟩
  | .run h => ⟨e.live, (List.range' 1 9).flatMap (e.live h)⟩

/-- Both of them go on together. -/
def step [DecidableEq F] (x : State F × Spec F) (a : Act F) : Option (State F × Spec F) :=
  if Allowed x.1 a then some (apply x.1 a, x.2.apply a.op) else none

def start : State F × Spec F := (⟨0, .empty, []⟩, ⟨fun _ _ => [], []⟩)

/-- Each hook has its own functions, at the levels that they were added to, and the last operation has called what it
should. -/
def Agrees (x : State F × Spec F) : Prop :=
  x.1.called = x.2.called ∧ ∀ h < x.1.hooks, ∀ k, contents x.1.level k = x.2.live h k

/-! ## The condition -/

/-- No level that has functions is moved. -/
def Stays (s : State F) (a : Act F) (pos : Int) : Prop :=
  (s.level.get (clamp pos)).isNone → ∀ k ≤ a.border, clamp pos ≤ k → contents s.level k = []

/-- Another hook is made while there are no functions, and functions are added while there is one hook; levels stay,
and `pairs` goes up. -/
def Meets (x : State F × Spec F) (a : Act F) : Prop :=
  match a.op with
  | .new => x.1.hooks = 0 ∨ ∀ k < x.1.level.bound, contents x.1.level k = []
  | .add _ pos data | .setAt _ pos data => (x.1.hooks = 1 ∨ data = []) ∧ Stays x.1 a pos
  | .clearAt _ pos => Stays x.1 a pos
  | .runAt _ pos => Stays x.1 a pos ∧ a.inner (contents x.1.level (clamp pos)) = contents x.1.level (clamp pos)
  | .set _ data => x.1.hooks = 1 ∨ data = []
  | .clear _ => True
  | .run _ => (a.order.filter fun k => !(contents x.1.level k).isEmpty).Pairwise (· < ·) ∧
      ∀ k ∈ a.order, a.inner (contents x.1.level k) = contents x.1.level k

instance [DecidableEq F] (s : State F) (a : Act F) (pos : Int) : Decidable (Stays s a pos) :=
  inferInstanceAs (Decidable (_ → _))

instance [DecidableEq F] (x : State F × Spec F) : (a : Act F) → Decidable (Meets x a)
  | ⟨.new, _, _, _⟩ => inferInstanceAs (Decidable (_ ∨ _))
  | ⟨.add _ _ _, _, _, _⟩ => inferInstanceAs (Decidable (_ ∧ _))
  | ⟨.setAt _ _ _, _, _, _⟩ => inferInstanceAs (Decidable (_ ∧ _))
  | ⟨.clearAt _ pos, _, _, _⟩ => inferInstanceAs (Decidable (Stays _ _ pos))
  | ⟨.runAt _ _, _, _, _⟩ => inferInstanceAs (Decidable (_ ∧ _))
  | ⟨.set _ _, _, _, _⟩ => inferInstanceAs (Decidable (_ ∨ _))
  | ⟨.clear _, _, _, _⟩ => .isTrue trivial
  | ⟨.run _, _, _, _⟩ => inferInstanceAs (Decidable (_ ∧ _))

/-! ## Levels -/

section
variable {t : Table (List F)} {x x' : State F × Spec F} {a : Act F}

theorem clamp_range (pos : Int) : 1 ≤ clamp pos ∧ clamp pos ≤ 9 := by
  unfold clamp
  split
  · omega
  · split <;> omega

theorem contents_put (t : Table (List F)) (p : Nat) (v : List F) (k : Nat) :
    contents (t.put p v) k = if k = p then v else contents t k := by
  unfold contents Table.put
  dsimp only
  by_cases hk : k = p
  · rw [if_pos hk, hk, Function.update_self, Option.getD_some]
  · rw [if_neg hk, Function.update_of_ne hk]

theorem contents_clear (t : Table (List F)) (k : Nat) : contents (t.map fun _ => []) k = [] := by
  unfold contents Table.map
  dsimp only
  cases t.get k with
  | none => rfl
  | some _ => rfl

/-- **A level that is made** between others moves none of their functions. -/
theorem contents_index {border : Nat} (hborder : t.IsBorder border) {pos : Int}
    (hstays : (t.get (clamp pos)).isNone → ∀ k ≤ border, clamp pos ≤ k → contents t k = []) (k : Nat) :
    contents (index t border pos) k = contents t k := by
  unfold index
  split
  next hnone =>
    have hstays := hstays hnone
    have hnew : contents t (clamp pos) = [] := by
      unfold contents
      rw [Option.isNone_iff_eq_none.1 hnone, Option.getD_none]
    have hend : contents t (border + 1) = [] := by
      unfold contents
      rw [Option.isNone_iff_eq_none.1 hborder.2, Option.getD_none]
    by_cases hk : k = clamp pos
    · rw [hk, hnew]
      unfold contents Table.insert
      simp
    · by_cases hmoved : clamp pos < k ∧ k ≤ border + 1
      · have hfrom : contents t (k - 1) = [] := hstays (k - 1) (by omega) (by omega)
        have hto : contents t k = [] := by
          by_cases hlast : k = border + 1
          · rw [hlast, hend]
          · exact hstays k (by omega) (by omega)
        rw [hto, ← hfrom]
        unfold contents Table.insert
        dsimp only
        rw [if_neg hk, if_pos hmoved]
      · unfold contents Table.insert
        dsimp only
        rw [if_neg hk, if_neg hmoved]
  next => rfl

theorem contents_ne_nil {k : Nat} (h : contents t k ≠ []) : k < t.bound ∧ (t.get k).isSome := by
  unfold contents at h
  cases hget : t.get k with
  | none =>
    rw [hget] at h
    exact absurd rfl h
  | some c =>
    refine ⟨?_, rfl⟩
    by_contra hbound
    rw [t.get_bound k (by omega)] at hget
    cases hget

theorem border_clear {border : Nat} (h : t.IsBorder border) : (t.map fun _ => ([] : List F)).IsBorder border := by
  unfold Table.IsBorder Table.map at *
  simpa using h

/-! ## One operation -/

/-- What is true of a run under the condition. -/
structure Inv (x : State F × Spec F) : Prop where
  agrees : ∀ h < x.1.hooks, ∀ k, contents x.1.level k = x.2.live h k
  unmade : ∀ h ≥ x.1.hooks, ∀ k, x.2.live h k = []
  range : ∀ h k, k < 1 ∨ 9 < k → x.2.live h k = []
  shared : x.1.hooks ≠ 1 → ∀ k, contents x.1.level k = []

theorem inv_start : Inv (start : State F × Spec F) :=
  ⟨fun h hh => absurd hh (Nat.not_lt_zero h), fun _ _ _ => rfl, fun _ _ _ => rfl, fun _ _ => rfl⟩

theorem inv_called (hx : Inv x) (c d : List F) :
    Inv ((⟨x.1.hooks, x.1.level, c⟩, ⟨x.2.live, d⟩) : State F × Spec F) :=
  ⟨hx.agrees, hx.unmade, hx.range, hx.shared⟩

/-- The same functions in another table. -/
theorem inv_level (hx : Inv x) (ht : ∀ k, contents t k = contents x.1.level k) :
    Inv ((⟨x.1.hooks, t, []⟩, x.2) : State F × Spec F) where
  agrees h hh k := (ht k).trans (hx.agrees h hh k)
  unmade := hx.unmade
  range := hx.range
  shared hne k := (ht k).trans (hx.shared hne k)

/-- A level gets other functions. -/
theorem inv_put (hx : Inv x) {h p : Nat} (hh : h < x.1.hooks) (hp : 1 ≤ p ∧ p ≤ 9) {v : List F}
    (hv : x.1.hooks = 1 ∨ v = []) :
    Inv ((⟨x.1.hooks, x.1.level.put p v, []⟩, x.2.put h p v) : State F × Spec F) where
  agrees h' hh' k := by
    have hlive := hx.agrees h' hh' k
    unfold Spec.put
    dsimp only
    rw [contents_put]
    by_cases hone : x.1.hooks = 1
    · obtain rfl : h' = h := by
        dsimp only at hh'
        omega
      rw [Function.update_self]
      by_cases hk : k = p
      · rw [if_pos hk, hk, Function.update_self]
      · rw [if_neg hk, Function.update_of_ne hk, hlive]
    · obtain rfl := hv.resolve_left hone
      have hnone := hx.shared hone k
      have hempty : (if k = p then [] else contents x.1.level k) = [] := by split <;> trivial
      rw [hempty]
      by_cases heq : h' = h
      · subst heq
        rw [Function.update_self]
        by_cases hk : k = p
        · rw [hk, Function.update_self]
        · rw [Function.update_of_ne hk, ← hlive, hnone]
      · rw [Function.update_of_ne heq, ← hlive, hnone]
  unmade h' hh' k := by
    have hne : h' ≠ h := by
      dsimp only at hh'
      omega
    unfold Spec.put
    dsimp only
    rw [Function.update_of_ne hne]
    exact hx.unmade h' hh' k
  range h' k hk := by
    unfold Spec.put
    dsimp only
    by_cases heq : h' = h
    · rw [heq, Function.update_self, Function.update_of_ne (by omega)]
      exact hx.range h k hk
    · rw [Function.update_of_ne heq]
      exact hx.range h' k hk
  shared hne k := by
    obtain rfl := hv.resolve_left hne
    rw [contents_put]
    split
    · rfl
    · exact hx.shared hne k

theorem inv_clear (hx : Inv x) {h : Nat} (hh : h < x.1.hooks) :
    Inv ((⟨x.1.hooks, x.1.level.map fun _ => [], []⟩, ⟨Function.update x.2.live h fun _ => [], []⟩) :
      State F × Spec F) where
  agrees h' hh' k := by
    dsimp only at hh' ⊢
    rw [contents_clear]
    by_cases heq : h' = h
    · rw [heq, Function.update_self]
    · have hshared := hx.shared (by omega) k
      rw [Function.update_of_ne heq, ← hx.agrees h' hh' k, hshared]
  unmade h' hh' k := by
    dsimp only at hh' ⊢
    rw [Function.update_of_ne (by omega)]
    exact hx.unmade h' hh' k
  range h' k hk := by
    dsimp only
    by_cases heq : h' = h
    · rw [heq, Function.update_self]
    · rw [Function.update_of_ne heq]
      exact hx.range h' k hk
  shared _ k := contents_clear _ k

/-! ## Runs of a hook -/

theorem flatMap_filter (f : Nat → List F) (l : List Nat) :
    (l.filter fun k => !(f k).isEmpty).flatMap f = l.flatMap f := by
  induction l with
  | nil => rfl
  | cons k l ih =>
    by_cases hk : f k = []
    · rw [List.filter_cons_of_neg (by simp [hk]), ih, List.flatMap_cons, hk, List.nil_append]
    · rw [List.filter_cons_of_pos (by simpa using hk), List.flatMap_cons, List.flatMap_cons, ih]

/-- `pairs` that goes up from level to level. -/
theorem flatMap_ascending {f : Nat → List F} {order : List Nat}
    (hup : (order.filter fun k => !(f k).isEmpty).Pairwise (· < ·)) (hmem : ∀ k, f k ≠ [] → k ∈ order)
    (hrange : ∀ k, f k ≠ [] → 1 ≤ k ∧ k ≤ 9) : order.flatMap f = (List.range' 1 9).flatMap f := by
  have hsorted : ((List.range' 1 9).filter fun k => !(f k).isEmpty).Pairwise (· < ·) :=
    List.Pairwise.filter _ List.pairwise_lt_range'
  have heq : (order.filter fun k => !(f k).isEmpty) = (List.range' 1 9).filter fun k => !(f k).isEmpty := by
    apply hup.eq_of_mem_iff hsorted
    intro k
    rw [List.mem_filter, List.mem_filter, List.mem_range'_1]
    constructor
    · rintro ⟨_, hk⟩
      have hk' := hrange k (by simpa using hk)
      exact ⟨by omega, hk⟩
    · rintro ⟨_, hk⟩
      exact ⟨hmem k (by simpa using hk), hk⟩
  rw [← flatMap_filter f order, heq, flatMap_filter]

variable [DecidableEq F]

/-- **One operation** under the condition. -/
theorem step_agrees (hx : Inv x) (ha : Meets x a) (hstep : step x a = some x') :
    Inv x' ∧ x'.1.called = x'.2.called := by
  unfold step at hstep
  split at hstep
  next hallowed =>
    obtain ⟨hmade, hborder, hvisits, -⟩ := hallowed
    obtain rfl := Option.some.inj hstep
    clear hstep
    obtain ⟨op, border, order, inner⟩ := a
    cases op with
    | new =>
      have hempty : ∀ k, contents x.1.level k = [] := by
        intro k
        rcases ha with hnone | hempty
        · exact hx.shared (by omega) k
        · by_contra hk
          exact hk (hempty k (contents_ne_nil hk).1)
      refine ⟨⟨?_, fun h hh => hx.unmade h (by dsimp only [apply] at hh; omega), hx.range, fun _ => hempty⟩, rfl⟩
      intro h _ k
      by_cases hh : h < x.1.hooks
      · exact hx.agrees h hh k
      · exact (hempty k).trans (hx.unmade h (by omega) k).symm
    | add h pos data =>
      have hh : h < x.1.hooks := hmade h rfl
      have ht := contents_index hborder ha.2
      have hsame := (ht (clamp pos)).trans (hx.agrees h hh (clamp pos))
      refine ⟨?_, rfl⟩
      unfold apply Spec.apply
      dsimp only
      rw [hsame]
      apply inv_put (inv_level hx ht) hh (clamp_range pos)
      by_cases hone : x.1.hooks = 1
      · exact .inl hone
      · right
        rw [← hsame, ht, hx.shared hone, ha.1.resolve_left hone, List.append_nil]
    | setAt h pos data =>
      exact ⟨inv_put (inv_level hx (contents_index hborder ha.2)) (hmade h rfl) (clamp_range pos) ha.1, rfl⟩
    | clearAt h pos =>
      exact ⟨inv_put (inv_level hx (contents_index hborder ha)) (hmade h rfl) (clamp_range pos) (.inr rfl), rfl⟩
    | runAt h pos =>
      have ht := contents_index hborder ha.1
      refine ⟨inv_called (inv_level hx ht) _ _, ?_⟩
      calc inner (contents (index x.1.level border pos) (clamp pos))
        _ = inner (contents x.1.level (clamp pos)) := congrArg inner (ht _)
        _ = contents x.1.level (clamp pos) := ha.2
        _ = x.2.live h (clamp pos) := hx.agrees h (hmade h rfl) _
    | set h data =>
      have hh : h < x.1.hooks := hmade h rfl
      have hlevel := inv_level (inv_clear hx hh)
        (@contents_index _ _ _ (border_clear hborder) 5 fun _ k _ _ => contents_clear _ k)
      have hput := inv_put hlevel hh (show 1 ≤ 5 ∧ 5 ≤ 9 by omega) (v := data) ha
      unfold Spec.put at hput
      dsimp only at hput
      rw [Function.update_self, Function.update_idem] at hput
      exact ⟨hput, rfl⟩
    | clear h => exact ⟨inv_clear hx (hmade h rfl), rfl⟩
    | run h =>
      have hagrees := hx.agrees h (hmade h rfl)
      refine ⟨inv_called hx _ _, ?_⟩
      unfold apply Spec.apply
      dsimp only
      have hinner : order.flatMap (fun k => inner (contents x.1.level k)) = order.flatMap (contents x.1.level) :=
        List.flatMap_congr ha.2
      have hlive : contents x.1.level = x.2.live h := funext hagrees
      rw [hinner, flatMap_ascending ha.1, hlive]
      · exact fun k hk => hvisits.2.2 k (contents_ne_nil hk).1 (contents_ne_nil hk).2
      · intro k hk
        by_contra hrange
        exact hk ((hagrees k).trans (hx.range h k (by omega)))
  next => cases hstep

end

/-- **Each hook runs its own functions**, level by level, in every state of a run whose steps all meet the condition. -/
theorem hooks_agree [DecidableEq F] {as : List (Act F)} (hC : Lts.Along step Meets start as) {x : State F × Spec F}
    (h : Lts.run step start as = some x) : Agrees x := by
  have hx : Inv x ∧ x.1.called = x.2.called :=
    Lts.run_inv_along (I := fun y => Inv y ∧ y.1.called = y.2.called)
      (fun _ _ _ hs hc hstep => step_agrees hs.1 hc hstep) ⟨inv_start, rfl⟩ hC h
  exact ⟨hx.2, hx.1.agrees⟩

/-- One hook: the second level, then the seventh one, and a run that goes up. -/
def twoLevels : List (Act Nat) :=
  [⟨.new, 0, [], id⟩, ⟨.add 0 2 [20], 0, [], id⟩, ⟨.add 0 7 [70], 0, [2], id⟩, ⟨.run 0, 0, [2, 7], id⟩]

theorem hooks_agree_twoLevels : ∃ x, Lts.run step start twoLevels = some x ∧ x.1.called = [20, 70] ∧ Agrees x := by
  have hcalled : (Lts.run step start twoLevels).map (fun x => x.1.called) = some [20, 70] := by decide +kernel
  obtain ⟨x, hx, hcalled⟩ := Option.map_eq_some_iff.1 hcalled
  exact ⟨x, hx, hcalled, hooks_agree (by decide +kernel) hx⟩

/-- The seventh level first: both keys hash to one node, and `pairs` finds the seventh one before the second one. -/
example : (Lts.run step (start : State Nat × Spec Nat)
    [⟨.new, 0, [], id⟩, ⟨.add 0 7 [70], 0, [], id⟩, ⟨.add 0 2 [20], 0, [7], id⟩, ⟨.run 0, 0, [7, 2], id⟩]).map
      (fun x => (x.1.called, x.2.called)) = some ([70, 20], [20, 70]) := by decide +kernel

/-- As `Meets`, but at a run at most one level has functions, whatever the order of `pairs` is. -/
def OneLevel (x : State F × Spec F) (a : Act F) : Prop :=
  match a.op with
  | .run _ => (∀ j k, contents x.1.level j ≠ [] → contents x.1.level k ≠ [] → j = k) ∧
      ∀ k ∈ a.order, a.inner (contents x.1.level k) = contents x.1.level k
  | _ => Meets x a

theorem meets_of_oneLevel [DecidableEq F] {x : State F × Spec F} {a : Act F} (h : OneLevel x a)
    (hallowed : Allowed x.1 a) : Meets x a := by
  obtain ⟨op, border, order, inner⟩ := a
  cases op with
  | run i =>
    obtain ⟨hone, hinner⟩ := h
    refine ⟨?_, hinner⟩
    have hnodup : (order.filter fun k => !(contents x.1.level k).isEmpty).Nodup := hallowed.2.2.1.1.filter _
    refine hnodup.imp_of_mem fun {j k} hj hk hne => absurd (hone j k ?_ ?_) hne
    · simpa using (List.mem_filter.1 hj).2
    · simpa using (List.mem_filter.1 hk).2
  | _ => exact h

/-- With one level at each run nothing depends on the order of `pairs`. -/
theorem agrees_of_oneLevel [DecidableEq F] {as : List (Act F)} (hC : Lts.Along step OneLevel start as)
    {x : State F × Spec F} (h : Lts.run step start as = some x) : Agrees x := by
  have hx : Inv x ∧ x.1.called = x.2.called := by
    refine Lts.run_inv_along (I := fun y => Inv y ∧ y.1.called = y.2.called) (fun y a z hy hc hstep => ?_)
      ⟨inv_start, rfl⟩ hC h
    have hallowed : Allowed y.1 a := by
      by_contra hnot
      rw [step, if_neg hnot] at hstep
      cases hstep
    exact step_agrees hy.1 (meets_of_oneLevel hc hallowed) hstep
  exact ⟨hx.2, hx.1.agrees⟩

/-- Two hooks: what is added to the first one is run with the second one. -/
theorem hooks_shared : ∃ x, Lts.run step (start : State Nat × Spec Nat)
    [⟨.new, 0, [], id⟩, ⟨.new, 0, [], id⟩, ⟨.add 0 5 [50], 0, [], id⟩, ⟨.run 1, 0, [5], id⟩] = some x ∧
      x.1.called = [50] ∧ x.2.called = [] ∧ ¬ Agrees x := by
  have hcalled : (Lts.run step (start : State Nat × Spec Nat)
      [⟨.new, 0, [], id⟩, ⟨.new, 0, [], id⟩, ⟨.add 0 5 [50], 0, [], id⟩, ⟨.run 1, 0, [5], id⟩]).map
        (fun x => (x.1.called, x.2.called)) = some ([50], []) := by decide +kernel
  obtain ⟨x, hx, hcalled⟩ := Option.map_eq_some_iff.1 hcalled
  obtain ⟨hone, hnone⟩ := Prod.mk.inj hcalled
  refine ⟨x, hx, hone, hnone, ?_⟩
  intro h
  rw [h.1, hnone] at hone
  cases hone

/-- A third level between the second and the fourth one: with 4 for `#`, the functions of the fourth go to the fifth. -/
example : (Lts.run step (start : State Nat × Spec Nat)
    [⟨.new, 0, [], id⟩, ⟨.add 0 1 [10], 0, [], id⟩, ⟨.add 0 2 [20], 1, [1], id⟩, ⟨.add 0 4 [40], 2, [1, 2], id⟩,
      ⟨.add 0 3 [30], 4, [1, 2, 4], id⟩]).map (fun x => (contents x.1.level 4, contents x.1.level 5)) =
        some ([], [40]) := by decide +kernel

end T2Sde.Hooks
