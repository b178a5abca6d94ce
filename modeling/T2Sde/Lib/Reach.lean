import Mathlib.Data.List.Basic
import Mathlib.Logic.Relation
import Mathlib.Tactic.Common
/-!
# A recursion with a list of what was visited

`visit` marks a node and calls itself for the nodes behind it, one after the other; a node that is marked is left at
once. The list of marked nodes goes from call to call.

* `Visited` — what a list of calls adds to the list: the nodes themselves, closed, and nothing out of reach.
* `visit_spec` — so does one call, if it returns.
* `visit_returns` — it returns where the nodes are finitely many.
* `visitAll_iff` — **from nothing, the marked nodes are the nodes within reach**.
-/
namespace Search

variable {κ : Type} (next : κ → List κ)

/-- One call, with at most `n` calls inside one another. -/
def visit [DecidableEq κ] : Nat → List κ → κ → Option (List κ)
  | 0, _, _ => none
  | n + 1, seen, k => if k ∈ seen then some seen else (next k).foldlM (visit n) (k :: seen)

/-- A node is behind another one. -/
def Behind (k l : κ) : Prop := l ∈ next k

/-- The calls for `ks` make `seen'` of `seen`. -/
structure Visited (seen ks seen' : List κ) : Prop where
  keeps : ∀ x ∈ seen, x ∈ seen'
  marks : ∀ k ∈ ks, k ∈ seen'
  closed : ∀ x ∈ seen', x ∉ seen → ∀ y ∈ next x, y ∈ seen'
  reached : ∀ x ∈ seen', x ∉ seen → ∃ k ∈ ks, Relation.ReflTransGen (Behind next) k x

variable {next}

theorem Visited.nil (seen : List κ) : Visited next seen [] seen :=
  ⟨fun _ h => h, by simp, fun _ h h' => absurd h h', fun _ h h' => absurd h h'⟩

theorem Visited.cons {seen seen' seen'' ks : List κ} {k : κ} (h : Visited next seen [k] seen')
    (h' : Visited next seen' ks seen'') : Visited next seen (k :: ks) seen'' where
  keeps x hx := h'.keeps x (h.keeps x hx)
  marks l hl := by
    rcases List.mem_cons.1 hl with rfl | hl
    · exact h'.keeps _ (h.marks _ List.mem_cons_self)
    · exact h'.marks l hl
  closed x hx hnew y hy := by
    by_cases hx' : x ∈ seen'
    · exact h'.keeps y (h.closed x hx' hnew y hy)
    · exact h'.closed x hx hx' y hy
  reached x hx hnew := by
    by_cases hx' : x ∈ seen'
    · obtain ⟨l, hl, hreach⟩ := h.reached x hx' hnew
      exact ⟨l, by simp [List.mem_singleton.1 hl], hreach⟩
    · obtain ⟨l, hl, hreach⟩ := h'.reached x hx hx'
      exact ⟨l, List.mem_cons_of_mem _ hl, hreach⟩

/-- A marked node, and then what is behind it. -/
theorem Visited.node {seen seen' : List κ} {k : κ} (hk : k ∉ seen) (h : Visited next (k :: seen) (next k) seen') :
    Visited next seen [k] seen' where
  keeps x hx := h.keeps x (List.mem_cons_of_mem _ hx)
  marks l hl := List.mem_singleton.1 hl ▸ h.keeps k List.mem_cons_self
  closed x hx hnew y hy := by
    by_cases hxk : x = k
    · subst hxk
      exact h.marks y hy
    · exact h.closed x hx (by simp [hxk, hnew]) y hy
  reached x hx hnew := by
    refine ⟨k, List.mem_cons_self, ?_⟩
    by_cases hxk : x = k
    · rw [hxk]
    · obtain ⟨l, hl, hreach⟩ := h.reached x hx (by simp [hxk, hnew])
      exact .head hl hreach

variable [DecidableEq κ]

theorem foldlM_spec {n : Nat} (hvisit : ∀ {seen seen' : List κ} {k : κ}, visit next n seen k = some seen' →
    Visited next seen [k] seen') {ks seen seen' : List κ} (h : ks.foldlM (visit next n) seen = some seen') :
    Visited next seen ks seen' := by
  induction ks generalizing seen with
  | nil =>
    obtain rfl := Option.some.inj h
    exact .nil seen
  | cons k ks ih =>
    rw [List.foldlM_cons] at h
    obtain ⟨mid, hmid, h⟩ := Option.bind_eq_some_iff.1 h
    exact (hvisit hmid).cons (ih h)

/-- **What one call marks.** -/
theorem visit_spec {n : Nat} {seen seen' : List κ} {k : κ} (h : visit next n seen k = some seen') :
    Visited next seen [k] seen' := by
  induction n generalizing seen seen' k with
  | zero => cases h
  | succ n ih =>
    rw [visit] at h
    split at h
    next hk =>
      obtain rfl := Option.some.inj h
      refine ⟨fun _ hx => hx, fun l hl => List.mem_singleton.1 hl ▸ hk, ?_, ?_⟩
      · exact fun x hx hnew => absurd hx hnew
      · exact fun x hx hnew => absurd hx hnew
    next hk => exact .node hk (foldlM_spec ih h)

section
variable {U : List κ}

/-- The nodes that are still to be marked. -/
def left (U seen : List κ) : Nat := (U.filter (· ∉ seen)).length

theorem left_mono {seen seen' : List κ} (h : ∀ x ∈ seen, x ∈ seen') : left U seen' ≤ left U seen := by
  rw [left, left, ← List.countP_eq_length_filter, ← List.countP_eq_length_filter]
  refine List.countP_mono_left fun x _ hx => ?_
  simp only [decide_eq_true_eq] at hx ⊢
  exact fun hx' => hx (h x hx')

theorem left_cons {seen : List κ} {k : κ} (hk : k ∈ U) (hnew : k ∉ seen) : left U (k :: seen) < left U seen := by
  have hsplit : U.filter (· ∉ k :: seen) = (U.filter (· ∉ seen)).filter (· ≠ k) := by
    rw [List.filter_filter]
    refine List.filter_congr fun x _ => ?_
    by_cases hx : x = k <;> simp [hx]
  rw [left, hsplit]
  refine List.length_filter_lt_length_iff_exists.2 ⟨k, ?_, by simp⟩
  exact List.mem_filter.2 ⟨hk, by simpa using hnew⟩

theorem foldlM_returns {n : Nat} (hvisit : ∀ {seen : List κ} {k : κ}, k ∈ U → left U seen < n →
    ∃ seen', visit next n seen k = some seen') {ks seen : List κ} (hks : ∀ k ∈ ks, k ∈ U) (hn : left U seen < n) :
    ∃ seen', ks.foldlM (visit next n) seen = some seen' := by
  induction ks generalizing seen with
  | nil => exact ⟨seen, rfl⟩
  | cons k ks ih =>
    obtain ⟨hk, hks⟩ := List.forall_mem_cons.1 hks
    obtain ⟨mid, hmid⟩ := hvisit hk hn
    have hleft := left_mono (U := U) (visit_spec hmid).keeps
    have hless : left U mid < n := by omega
    obtain ⟨seen', h⟩ := ih hks hless
    exact ⟨seen', by rw [List.foldlM_cons, hmid]; exact h⟩

variable (hU : ∀ k ∈ U, ∀ l ∈ next k, l ∈ U)
include hU

/-- A call returns: each call inside another one has a node less before it. -/
theorem visit_returns {n : Nat} {seen : List κ} {k : κ} (hk : k ∈ U) (hn : left U seen < n) :
    ∃ seen', visit next n seen k = some seen' := by
  induction n generalizing seen k with
  | zero => omega
  | succ n ih =>
    rw [visit]
    split
    · exact ⟨seen, rfl⟩
    next hnew =>
      have hleft := left_cons hk hnew
      exact foldlM_returns ih (hU k hk) (by omega)

/-- **From nothing, the marked nodes are the nodes within reach.** -/
theorem visitAll_iff {ks : List κ} (hks : ∀ k ∈ ks, k ∈ U) {n : Nat} (hn : U.length < n) :
    ∃ seen, ks.foldlM (visit next n) [] = some seen ∧
      ∀ x, x ∈ seen ↔ ∃ k ∈ ks, Relation.ReflTransGen (Behind next) k x := by
  have hleft : left U [] < n := by
    have hle : left U [] ≤ U.length := List.length_filter_le _ _
    omega
  obtain ⟨seen, h⟩ := foldlM_returns (visit_returns hU) hks hleft
  have hspec := foldlM_spec visit_spec h
  refine ⟨seen, h, fun x => ⟨fun hx => hspec.reached x hx (by simp), ?_⟩⟩
  rintro ⟨k, hk, hreach⟩
  induction hreach with
  | refl => exact hspec.marks k hk
  | tail _ hlast ih => exact hspec.closed _ ih (by simp) _ hlast

end

end Search
