import T2Sde.Lib.Run
/-!
# Programs that can be stopped

A program is a tree of operations: `op o k` does the operation `o` and goes on with `k` of its result.
What an operation does to the world is `eff o s a`, where `a` is what the outside answers. A program
can be stopped before any of its operations, and two of them can be interleaved at these points.

* `wp_bind`, `wp_mono`, `wp_and` — weakest preconditions with a condition that holds wherever the
  program may be stopped.
* `wp_run` — they are sound for every partial run.
* `All`, `wp_of_all` — a property of all operations of a program, and the invariants it gives.
* `Follows`, `follows_of_all` — programs that keep to a protocol: an automaton over their operations.
-/
inductive Prog (Op : Type) (Res : Op → Type) (α : Type) : Type
  | ret (a : α)
  | op (o : Op) (k : Res o → Prog Op Res α)

namespace Prog

variable {Op : Type} {Res : Op → Type} {α β σ A : Type}

def bind : Prog Op Res α → (α → Prog Op Res β) → Prog Op Res β
  | ret a, f => f a
  | op o k, f => op o fun r => (k r).bind f

instance : Monad (Prog Op Res) where
  pure := ret
  bind := bind

/-- The program of one operation. -/
def act (o : Op) : Prog Op Res (Res o) := op o ret

/-! ## Runs -/

variable (eff : (o : Op) → σ → A → σ × Res o)

/-- One operation of a program. -/
def step : σ × Prog Op Res α → A → Option (σ × Prog Op Res α)
  | (_, ret _), _ => none
  | (s, op o k), a => some ((eff o s a).1, k (eff o s a).2)

/-- `C` holds wherever the program may be stopped, `Q` at its end. -/
def wp (C : σ → Prop) (Q : α → σ → Prop) : Prog Op Res α → σ → Prop
  | ret a, s => Q a s
  | op o k, s => C s ∧ ∀ a, wp C Q (k (eff o s a).2) (eff o s a).1

variable {eff}

@[simp] theorem wp_pure {C : σ → Prop} {Q : α → σ → Prop} {a : α} {s : σ} :
    wp eff C Q (pure a : Prog Op Res α) s ↔ Q a s := Iff.rfl

@[simp] theorem wp_act {C : σ → Prop} {o : Op} {Q : Res o → σ → Prop} {s : σ} :
    wp eff C Q (act o) s ↔ C s ∧ ∀ a, Q (eff o s a).2 (eff o s a).1 := Iff.rfl

@[simp] theorem wp_bind {C : σ → Prop} {Q : β → σ → Prop} {p : Prog Op Res α} {f : α → Prog Op Res β} {s : σ} :
    wp eff C Q (p >>= f) s ↔ wp eff C (fun a => wp eff C Q (f a)) p s := by
  show wp eff C Q (p.bind f) s ↔ _
  induction p generalizing s with
  | ret a => exact Iff.rfl
  | op o k ih => exact and_congr_right fun _ => forall_congr' fun a => ih _

/-- One operation first. -/
theorem wp_op {C : σ → Prop} {Q : β → σ → Prop} {o : Op} {f : Res o → Prog Op Res β} {s : σ} (hC : C s)
    (h : ∀ a, wp eff C Q (f (eff o s a).2) (eff o s a).1) : wp eff C Q (act o >>= f) s := ⟨hC, h⟩

theorem wp_mono {C D : σ → Prop} {Q R : α → σ → Prop} {p : Prog Op Res α} {s : σ} (hC : ∀ s, C s → D s)
    (hQ : ∀ a s, Q a s → R a s) (h : wp eff C Q p s) : wp eff D R p s := by
  induction p generalizing s with
  | ret a => exact hQ a s h
  | op o k ih => exact ⟨hC s h.1, fun a => ih _ (h.2 a)⟩

theorem wp_and {C D : σ → Prop} {Q R : α → σ → Prop} {p : Prog Op Res α} {s : σ} (h : wp eff C Q p s)
    (h' : wp eff D R p s) : wp eff (fun s => C s ∧ D s) (fun a s => Q a s ∧ R a s) p s := by
  induction p generalizing s with
  | ret a => exact ⟨h, h'⟩
  | op o k ih => exact ⟨⟨h.1, h'.1⟩, fun a => ih _ (h.2 a) (h'.2 a)⟩

/-- What a partial run has left to do meets its conditions still. -/
theorem wp_run {C : σ → Prop} {Q : α → σ → Prop} {p p' : Prog Op Res α} {s s' : σ} {as : List A} (h : wp eff C Q p s)
    (hrun : Lts.run (step eff) (s, p) as = some (s', p')) : wp eff C Q p' s' := by
  refine Lts.run_inv (I := fun x : σ × Prog Op Res α => wp eff C Q x.2 x.1) ?_ h hrun
  rintro ⟨s, p⟩ a t h ht
  cases p with
  | ret _ => cases ht
  | op o k => cases ht; exact h.2 a

theorem wp_end {C : σ → Prop} {Q : α → σ → Prop} {p : Prog Op Res α} {a : α} {s s' : σ} {as : List A}
    (h : wp eff C Q p s) (hrun : Lts.run (step eff) (s, p) as = some (s', ret a)) : Q a s' := wp_run h hrun

/-! ## Properties of all operations -/

def All (φ : Op → Prop) : Prog Op Res α → Prop
  | ret _ => True
  | op o k => φ o ∧ ∀ r, All φ (k r)

@[simp] theorem all_pure {φ : Op → Prop} {a : α} : All φ (pure a : Prog Op Res α) := trivial

@[simp] theorem all_act {φ : Op → Prop} {o : Op} : All φ (act o : Prog Op Res (Res o)) ↔ φ o :=
  ⟨And.left, fun h => ⟨h, fun _ => trivial⟩⟩

theorem all_bind {φ : Op → Prop} {p : Prog Op Res α} {f : α → Prog Op Res β} (hp : All φ p) (hf : ∀ a, All φ (f a)) :
    All φ (p >>= f) := by
  show All φ (p.bind f)
  induction p with
  | ret a => exact hf a
  | op o k ih => exact ⟨hp.1, fun r => ih r (hp.2 r)⟩

/-- An invariant of all operations of a program. -/
theorem wp_of_all {φ : Op → Prop} {I : σ → Prop} (hI : ∀ o s a, φ o → I s → I (eff o s a).1) {p : Prog Op Res α}
    (hp : All φ p) {s : σ} (hs : I s) : wp eff I (fun _ => I) p s := by
  induction p generalizing s with
  | ret _ => exact hs
  | op o k ih => exact ⟨hs, fun a => ih _ (hp.2 _) (hI o s a hp.1 hs)⟩

/-! ## Protocols -/

section
variable {Φ : Type} (next : Φ → (o : Op) → Res o → Φ) (ok : Φ → Op → Prop)

/-- From phase `φ` on the program does what each phase allows, and ends with `Q`. -/
def Follows (Q : α → Φ → Prop) : Prog Op Res α → Φ → Prop
  | ret a, φ => Q a φ
  | op o k, φ => ok φ o ∧ ∀ r, Follows Q (k r) (next φ o r)

variable {next ok}

theorem follows_bind {Q : β → Φ → Prop} {p : Prog Op Res α} {f : α → Prog Op Res β} {φ : Φ}
    (h : Follows next ok (fun a => Follows next ok Q (f a)) p φ) : Follows next ok Q (p >>= f) φ := by
  show Follows next ok Q (p.bind f) φ
  induction p generalizing φ with
  | ret a => exact h
  | op o k ih => exact ⟨h.1, fun r => ih r (h.2 r)⟩

theorem follows_op {Q : β → Φ → Prop} {o : Op} {f : Res o → Prog Op Res β} {φ : Φ} (ho : ok φ o)
    (h : ∀ r, Follows next ok Q (f r) (next φ o r)) : Follows next ok Q (act o >>= f) φ := ⟨ho, h⟩

/-- Operations that stay in their phase. -/
theorem follows_of_all {ψ : Op → Prop} {φ : Φ} (hok : ∀ o, ψ o → ok φ o) (hnext : ∀ o r, ψ o → next φ o r = φ)
    {Q : α → Φ → Prop} (hQ : ∀ a, Q a φ) {p : Prog Op Res α} (hp : All ψ p) : Follows next ok Q p φ := by
  induction p with
  | ret a => exact hQ a
  | op o k ih =>
    refine ⟨hok o hp.1, fun r => ?_⟩
    rw [hnext o r hp.1]
    exact ih r (hp.2 r)

end

end Prog
