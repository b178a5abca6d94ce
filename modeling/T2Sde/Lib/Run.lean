/-!
# Runs of a step function

`step s a = some s'` reads: in state `s` the choice `a` (what the environment decides) is possible
and leads to `s'`. A run is a list of choices.

* `run_inv` — what holds first and is kept by every step holds after every run.
* `run_inv_along` — the same for runs all of whose steps meet a condition (`Along`).
* `run_iff_along` — what no step repairs holds after a run exactly if every step keeps it.
* `run_length` — a measure that every step lowers bounds the length of every run.
-/
namespace Lts

variable {σ α : Type} (step : σ → α → Option σ)

def run (s : σ) : List α → Option σ
  | [] => some s
  | a :: as => (step s a).bind fun s' => run s' as

/-- Every step of the run `as` from `s` meets `C`, a condition on the state before the step. -/
def Along (C : σ → α → Prop) (s : σ) : List α → Prop
  | [] => True
  | a :: as => C s a ∧ ∀ s', step s a = some s' → Along C s' as

instance Along.decidable {C : σ → α → Prop} [∀ s a, Decidable (C s a)] :
    (s : σ) → (as : List α) → Decidable (Along step C s as)
  | _, [] => .isTrue trivial
  | s, a :: as =>
    match h : step s a with
    | none => decidable_of_iff (C s a) ⟨fun hc => ⟨hc, fun t ht => by simp [h] at ht⟩, And.left⟩
    | some t =>
      have : Decidable (Along step C t as) := Along.decidable t as
      decidable_of_iff (C s a ∧ Along step C t as)
        ⟨fun hc => ⟨hc.1, fun t' ht => by obtain rfl : t = t' := Option.some.inj (h.symm.trans ht); exact hc.2⟩,
          fun hc => ⟨hc.1, hc.2 t h⟩⟩

@[simp] theorem run_nil (s : σ) : run step s [] = some s := rfl

@[simp] theorem run_cons (s : σ) (a : α) (as : List α) :
    run step s (a :: as) = (step s a).bind fun s' => run step s' as := rfl

variable {step}

theorem run_cons_some {s s' : σ} {a : α} {as : List α} :
    run step s (a :: as) = some s' ↔ ∃ t, step s a = some t ∧ run step t as = some s' := by
  simp [Option.bind_eq_some_iff]

theorem run_append {as bs : List α} {s : σ} :
    run step s (as ++ bs) = (run step s as).bind fun t => run step t bs := by
  induction as generalizing s with
  | nil => rfl
  | cons a as ih =>
    rw [List.cons_append, run_cons, run_cons]
    cases h : step s a with
    | none => rfl
    | some t => exact ih

theorem run_snoc {as : List α} {a : α} {s t : σ} (h : run step s as = some t) :
    run step s (as ++ [a]) = step t a := by
  rw [run_append, h]
  cases h' : step t a <;> simp [h']

/-- The invariant rule. -/
theorem run_inv {I : σ → Prop} (hstep : ∀ s a s', I s → step s a = some s' → I s') {s s' : σ} {as : List α}
    (hs : I s) (h : run step s as = some s') : I s' := by
  induction as generalizing s with
  | nil => cases h; exact hs
  | cons a as ih =>
    obtain ⟨t, ht, h⟩ := run_cons_some.1 h
    exact ih (hstep s a t hs ht) h

/-- The invariant rule for the runs that stay on the condition `C`. -/
theorem run_inv_along {I : σ → Prop} {C : σ → α → Prop}
    (hstep : ∀ s a s', I s → C s a → step s a = some s' → I s') {s s' : σ} {as : List α}
    (hs : I s) (hC : Along step C s as) (h : run step s as = some s') : I s' := by
  induction as generalizing s with
  | nil => cases h; exact hs
  | cons a as ih =>
    obtain ⟨t, ht, h⟩ := run_cons_some.1 h
    exact ih (hstep s a t hs hC.1 ht) (hC.2 t ht) h

/-- A condition that an invariant implies holds along every run. -/
theorem along_of_inv {I : σ → Prop} {C : σ → α → Prop} (hstep : ∀ s a s', I s → step s a = some s' → I s')
    (hC : ∀ s a, I s → C s a) {s : σ} (hs : I s) (as : List α) : Along step C s as := by
  induction as generalizing s with
  | nil => trivial
  | cons a as ih => exact ⟨hC s a hs, fun t ht => ih (hstep s a t hs ht)⟩

/-- Under an invariant, one condition along a run may be exchanged for an equivalent one. -/
theorem along_iff {I : σ → Prop} {C D : σ → α → Prop}
    (hstep : ∀ s a s', I s → C s a → step s a = some s' → I s')
    (hCD : ∀ s a, I s → (C s a ↔ D s a)) {s : σ} (hs : I s) (as : List α) :
    Along step C s as ↔ Along step D s as := by
  induction as generalizing s with
  | nil => exact Iff.rfl
  | cons a as ih =>
    constructor
    · rintro ⟨h, hrest⟩
      exact ⟨(hCD s a hs).1 h, fun t ht => (ih (hstep s a t hs h ht)).1 (hrest t ht)⟩
    · rintro ⟨h, hrest⟩
      have hc := (hCD s a hs).2 h
      exact ⟨hc, fun t ht => (ih (hstep s a t hs hc ht)).2 (hrest t ht)⟩

theorem along_and {C D : σ → α → Prop} {s : σ} {as : List α} (hC : Along step C s as) (hD : Along step D s as) :
    Along step (fun s a => C s a ∧ D s a) s as := by
  induction as generalizing s with
  | nil => trivial
  | cons a as ih => exact ⟨⟨hC.1, hD.1⟩, fun t ht => ih (hC.2 t ht) (hD.2 t ht)⟩

theorem along_imp {C D : σ → α → Prop} (h : ∀ s a, C s a → D s a) {s : σ} {as : List α} (hC : Along step C s as) :
    Along step D s as := by
  induction as generalizing s with
  | nil => trivial
  | cons a as ih => exact ⟨h s a hC.1, fun t ht => ih (hC.2 t ht)⟩

/-- A condition on the choices alone. -/
theorem along_of_forall {D : α → Prop} {s : σ} {as : List α} (h : ∀ a ∈ as, D a) :
    Along step (fun _ a => D a) s as := by
  induction as generalizing s with
  | nil => trivial
  | cons a as ih => exact ⟨h a List.mem_cons_self, fun _ _ => ih fun b hb => h b (List.mem_cons_of_mem _ hb)⟩

/-- What holds along a run holds at its last step. -/
theorem along_snoc {C : σ → α → Prop} {s t : σ} {as : List α} {a : α} (h : Along step C s (as ++ [a]))
    (hrun : run step s as = some t) : Along step C s as ∧ C t a := by
  induction as generalizing s with
  | nil => cases hrun; exact ⟨trivial, h.1⟩
  | cons b as ih =>
    obtain ⟨u, hu, hrun⟩ := run_cons_some.1 hrun
    obtain ⟨h1, h2⟩ := ih (h.2 u hu) hrun
    refine ⟨⟨h.1, fun v hv => ?_⟩, h2⟩
    obtain rfl : u = v := Option.some.inj (hu.symm.trans hv)
    exact h1

/-- What no step repairs was right before a run after which it is. -/
theorem run_back {G : σ → Prop} (hback : ∀ s a s', step s a = some s' → G s' → G s) {s s' : σ} {as : List α}
    (h : run step s as = some s') (hg : G s') : G s := by
  induction as generalizing s with
  | nil => cases h; exact hg
  | cons a as ih =>
    obtain ⟨t, ht, h⟩ := run_cons_some.1 h
    exact hback s a t ht (ih h)

/-- What no step repairs is right at the end exactly if every step keeps it right. -/
theorem run_iff_along {I G : σ → Prop} {C : σ → α → Prop} (hinv : ∀ s a s', I s → step s a = some s' → I s')
    (hback : ∀ s a s', step s a = some s' → G s' → G s)
    (hstep : ∀ s a, I s → G s → (C s a ↔ ∃ s', step s a = some s' ∧ G s')) {s : σ} (hs : I s) (hg : G s)
    (as : List α) : (∃ s', run step s as = some s' ∧ G s') ↔ Along step C s as := by
  induction as generalizing s with
  | nil => exact iff_of_true ⟨s, rfl, hg⟩ trivial
  | cons a as ih =>
    constructor
    · rintro ⟨s', h, hg'⟩
      obtain ⟨t, ht, h⟩ := run_cons_some.1 h
      have hgt := run_back hback h hg'
      refine ⟨(hstep s a hs hg).2 ⟨t, ht, hgt⟩, fun u hu => ?_⟩
      obtain rfl : t = u := Option.some.inj (ht.symm.trans hu)
      exact (ih (hinv s a t hs ht) hgt).1 ⟨s', h, hg'⟩
    · rintro ⟨hc, hrest⟩
      obtain ⟨t, ht, hgt⟩ := (hstep s a hs hg).1 hc
      obtain ⟨s', h, hg'⟩ := (ih (hinv s a t hs ht) hgt).2 (hrest t ht)
      exact ⟨s', run_cons_some.2 ⟨t, ht, h⟩, hg'⟩

/-- A measure that every step lowers bounds the length of a run. -/
theorem run_length {I : σ → Prop} {C : σ → α → Prop} {m : σ → Nat}
    (hstep : ∀ s a s', I s → C s a → step s a = some s' → I s' ∧ m s' < m s) {s s' : σ} {as : List α}
    (hs : I s) (hC : Along step C s as) (h : run step s as = some s') : as.length + m s' ≤ m s := by
  induction as generalizing s with
  | nil => cases h; simp
  | cons a as ih =>
    obtain ⟨t, ht, h⟩ := run_cons_some.1 h
    obtain ⟨ht', hlt⟩ := hstep s a t hs hC.1 ht
    have := ih ht' (hC.2 t ht) h
    simp only [List.length_cons]
    omega

end Lts
