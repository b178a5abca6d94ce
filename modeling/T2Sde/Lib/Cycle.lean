import Mathlib.Data.Fintype.Card
import Mathlib.Data.Set.Finite.List
import Mathlib.Logic.Relation
/-!
# Cycles in a relation on a list

Where each of finitely many things waits for another one of them, some of them wait for each other in a circle.
-/
namespace Cycle
open Relation

variable {α : Type} {R : α → α → Prop}

/-- `R` between members of `l`. -/
def Within (R : α → α → Prop) (l : List α) (a b : α) : Prop := a ∈ l ∧ b ∈ l ∧ R a b

theorem exists_cycle {l : List α} (hne : l ≠ []) (h : ∀ a ∈ l, ∃ b ∈ l, R a b) : ∃ a, TransGen (Within R l) a a := by
  by_contra hno
  push Not at hno
  have hfin : Finite {a // a ∈ l} := l.finite_toSet
  let behind : {a // a ∈ l} → {a // a ∈ l} → Prop := fun a b => TransGen (Within R l) b.1 a.1
  have htrans : IsTrans _ behind := ⟨fun _ _ _ hab hbc => hbc.trans hab⟩
  have hirr : Std.Irrefl behind := ⟨fun a => hno a.1⟩
  -- a last member has nothing to wait for
  obtain ⟨a, ha⟩ := List.exists_mem_of_ne_nil l hne
  obtain ⟨⟨m, hm⟩, -, hlast⟩ := (Finite.wellFounded_of_trans_of_irrefl behind).has_min Set.univ ⟨⟨a, ha⟩, trivial⟩
  obtain ⟨b, hb, hmb⟩ := h m hm
  exact hlast ⟨b, hb⟩ trivial (TransGen.single ⟨hm, hb, hmb⟩)

end Cycle
