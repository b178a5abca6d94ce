import T2Sde.Scheduler.Safety
/-!
# The work list `targets`

`end_target` cuts `" $t"` out of `" $targets "`, without a blank behind the name — two lines further
on, the dependency texts are cut at `" $t "`. So a name that starts with `t` and stands before `t`
loses its front instead (`words_cut`). `Clean` is the condition on a step that this does not happen;
under it, and as long as every job exits 0, `Lined` is an invariant: the words of `targets` are the
pending and running targets in their first order.
-/
namespace T2Sde.Scheduler
open Shell

/-- Every job that exits in the run exits 0. -/
def ExitsZero : Act → Prop
  | .jobExit _ rc => rc = 0
  | _ => True

/-- The target that `end_target` marks done in a step. -/
def ended (s : St) : Act → Option Name
  | .tick _ =>
    match s.pc with
    | .detect (t :: _) => match deadJob s t with
      | some (_, 0) => some t
      | _ => none
    | _ => none
  | _ => none

/-- When a target is marked done, no word of `targets` before it starts with its name. -/
def Clean (s : St) (a : Act) : Prop :=
  ∀ t, ended s a = some t → ∀ u ∈ (words s.targets).takeWhile (· ≠ t), ¬ t <+: u

instance (s : St) (a : Act) : Decidable (Clean s a) :=
  decidable_of_iff (∀ t ∈ ended s a, ∀ u ∈ (words s.targets).takeWhile (· ≠ t), ¬ t <+: u) Iff.rfl

/-- When a target is marked done, `targets` loses exactly its word. -/
def ListKept (P : Plan) (s : St) (a : Act) : Prop :=
  ∀ t s', ended s a = some t → step P s a = some s' → words s'.targets = (words s.targets).erase t

structure Lined (P : Plan) (s : St) : Prop where
  list : words s.targets = P.order.filter (· ∈ s.deplist)
  spaces : ∀ c ∈ s.targets, isBlank c = true → c = ' '
  zero : ∀ p rc, s.jobs p = some (.exited rc) → rc = 0
  noFailed : ∀ t, s.state t ≠ some .failed
  noNil : [] ∉ s.started
  waiting : s.pc = .wait → ∃ t, s.state t = some .running
  exit : ∀ rc, s.pc = .exit rc → rc = 0 ∧ s.deplist = []
  noBad : s.pc ≠ .badSubscript

theorem ended_eq_some {s : St} {a : Act} {t : Name} :
    ended s a = some t ↔ ∃ q ks p, a = .tick q ∧ s.pc = .detect (t :: ks) ∧ deadJob s t = some (p, 0) := by
  constructor
  · intro h
    unfold ended at h
    split at h
    · split at h
      · rename_i t' ks hpc
        split at h
        · rename_i p hd; cases h; exact ⟨_, ks, p, rfl, hpc, hd⟩
        · cases h
      · cases h
    · cases h
  · rintro ⟨q, ks, p, rfl, hpc, hd⟩
    simp [ended, hpc, hd]

/-- What `end_target` makes of the words of `targets`. -/
theorem words_endTarget {P : Plan} {s : St} (hc : Core P s) (hl : Lined P s) {t : Name} {p : Pid}
    (hd : deadJob s t = some (p, 0)) : words (endTarget s p 0).targets = cutPrefix t (words s.targets) := by
  have hr := (deadJob_eq_some.1 hd).1
  rw [endTarget_ok (hc.targetOf hd)]
  exact words_cut (Plan.isWord ((hc.known t).1 (by simp [hr]))) hl.spaces

/-- Moving on to a place that is neither `wait -n` nor the end. -/
theorem lined_pc {P : Plan} {s : St} (hl : Lined P s) {c : Pc} (h1 : c ≠ .wait) (h2 : ∀ rc, c ≠ .exit rc)
    (h3 : c ≠ .badSubscript) : Lined P { s with pc := c } :=
  ⟨hl.list, hl.spaces, hl.zero, hl.noFailed, hl.noNil, fun h => absurd h h1, fun rc h => absurd h (h2 rc), h3⟩

theorem lined_fork {P : Plan} {s : St} (hl : Lined P s) {t : Name} {p : Pid} {c : Pc} (ht : t ≠ [])
    (h2 : ∀ rc, c ≠ .exit rc) (h3 : c ≠ .badSubscript) : Lined P { forkTarget s t p with pc := c } where
  list := hl.list
  spaces := hl.spaces
  zero q rc hq := by
    by_cases hqp : q = p
    · subst hqp; simp [forkTarget] at hq
    · exact hl.zero q rc (by simpa [forkTarget, hqp] using hq)
  noFailed u := by
    by_cases hut : u = t
    · subst hut; simp [forkTarget]
    · simpa [forkTarget, hut] using hl.noFailed u
  noNil := by simp [forkTarget, hl.noNil, Ne.symm ht]
  waiting _ := ⟨t, by simp [forkTarget]⟩
  exit rc h := absurd h (h2 rc)
  noBad := h3

section
variable {P : Plan} (hP : P.order.Perm P.deplist)
include hP

theorem order_isWord {t : Name} (ht : t ∈ P.order) : IsWord t := Plan.isWord (hP.mem_iff.1 ht)

theorem lined_init : Lined P P.init where
  list := by
    have hall : P.order.filter (· ∈ P.deplist) = P.order :=
      List.filter_eq_self.2 fun t ht => by simpa using hP.mem_iff.1 ht
    refine Eq.trans ?_ hall.symm
    simp only [Plan.init]
    cases P.script with
    | emergePkg => exact words_flatMap_append fun t ht => order_isWord hP ht
    | buildTarget => exact words_flatMap_cons fun t ht => order_isWord hP ht
  spaces c hc hb := by
    have key : ∀ t ∈ P.order, c ∉ t := fun t ht hct => by
      have := (order_isWord hP ht).2 c hct
      rw [hb] at this
      cases this
    simp only [Plan.init] at hc
    cases h : P.script <;> rw [h] at hc <;> simp only [Script.workList, List.mem_flatMap] at hc <;>
      obtain ⟨t, ht, hct⟩ := hc <;> simpa [key t ht] using hct
  zero p rc h := by simp [Plan.init] at h
  noFailed t := by simp [Plan.init]
  noNil := by simp [Plan.init]
  waiting h := by simp [Plan.init] at h
  exit rc h := by simp [Plan.init] at h
  noBad := by simp [Plan.init]

/-- A target that is still in `deplist` is a word of `targets`. -/
theorem mem_words_targets {s : St} (hc : Core P s) (hl : Lined P s) {t : Name} (ht : t ∈ s.deplist) :
    t ∈ words s.targets := by
  rw [hl.list, List.mem_filter]
  exact ⟨hP.mem_iff.2 (hc.sub t ht), by simpa using ht⟩

/-- The cut is right exactly at the clean steps. -/
theorem listKept_iff_clean {s : St} {a : Act} (hc : Core P s) (hl : Lined P s) : ListKept P s a ↔ Clean s a := by
  have key : ∀ t q ks p, a = .tick q → s.pc = .detect (t :: ks) → deadJob s t = some (p, 0) →
      ((∀ s', step P s a = some s' → words s'.targets = (words s.targets).erase t) ↔
        ∀ u ∈ (words s.targets).takeWhile (· ≠ t), ¬ t <+: u) := by
    rintro t q ks p rfl hpc hd
    have hr := (deadJob_eq_some.1 hd).1
    have hstep : step P s (.tick q) = some { endTarget s p 0 with pc := .detect ks } := by
      simp [step, hpc, detectStep, hd]
    rw [← cutPrefix_eq_erase_iff (hc.ne_nil hr) (mem_words_targets hP hc hl (hc.mem_deplist hr (by simp))),
      ← words_endTarget hc hl hd]
    constructor
    · intro h
      simpa using h _ hstep
    · intro h s' hs'
      rw [hstep] at hs'
      cases hs'
      exact h
  constructor
  · intro h t ht
    obtain ⟨q, ks, p, ha, hpc, hd⟩ := ended_eq_some.1 ht
    exact (key t q ks p ha hpc hd).1 fun s' hs' => h t s' ht hs'
  · intro h t s' ht hs'
    obtain ⟨q, ks, p, ha, hpc, hd⟩ := ended_eq_some.1 ht
    exact (key t q ks p ha hpc hd).2 (h t ht) s' hs'

/-- A clean end takes one word out of the list. -/
theorem words_endTarget_clean {s : St} (hc : Core P s) (hl : Lined P s) {t : Name} {p : Pid}
    (hd : deadJob s t = some (p, 0)) (hclean : ∀ u ∈ (words s.targets).takeWhile (· ≠ t), ¬ t <+: u) :
    words (endTarget s p 0).targets = P.order.filter (· ∈ s.deplist.filter (· ≠ t)) := by
  have hr := (deadJob_eq_some.1 hd).1
  have htd := hc.mem_deplist hr (by simp)
  have hnd : (P.order.filter (· ∈ s.deplist)).Nodup := (hP.nodup_iff.2 P.nodup).filter _
  rw [words_endTarget hc hl hd,
    (cutPrefix_eq_erase_iff (hc.ne_nil hr) (mem_words_targets hP hc hl htd)).2 hclean, hl.list,
    hnd.erase_eq_filter, List.filter_filter]
  refine List.filter_congr fun u _ => ?_
  by_cases hut : u = t <;> simp [hut]

/-- While no target runs and one is left, the first word of `targets` is pending. -/
theorem firstPending_of_idle {s : St} (hc : Core P s) (hl : Lined P s) (hr : runningCount s = 0)
    (hd : allDone s = false) :
    ∃ t ∈ P.deplist, (words s.targets).find? (fun t => s.state t == some .pending) = some t := by
  obtain ⟨t, ht, htd⟩ : ∃ t ∈ s.deplist, s.state t ≠ some .done := by simpa [allDone] using hd
  have hpend : s.state t = some .pending := by
    have hknown := (hc.known t).2 (hc.sub t ht)
    cases hs : s.state t with
    | none => exact absurd hs hknown
    | some x =>
      cases x with
      | pending => rfl
      | running => exact absurd hs (not_running_of_count hc hr t)
      | done => exact absurd hs htd
      | failed => exact absurd hs (hl.noFailed t)
  have hsome : ((words s.targets).find? fun t => s.state t == some .pending).isSome := by
    rw [List.find?_isSome]
    exact ⟨t, mem_words_targets hP hc hl ht, by simp [hpend]⟩
  obtain ⟨u, hu⟩ := Option.isSome_iff_exists.1 hsome
  have hup : s.state u = some .pending := by simpa using List.find?_some hu
  exact ⟨u, (hc.known u).1 (by simp [hup]), hu⟩

theorem firstPending_pending {s : St} (hc : Core P s) (hl : Lined P s) (hr : runningCount s = 0)
    (hd : allDone s = false) : s.state (firstPending s) = some .pending := by
  obtain ⟨t, -, ht⟩ := firstPending_of_idle hP hc hl hr hd
  rw [firstPending, ht]
  simpa using List.find?_some ht

theorem lined_fires {s s' : St} {a : Act} (hi : Inv P s) (hl : Lined P s) (hclean : Clean s a) (hz : ExitsZero a)
    (hf : Fires P s a s') : Lined P s' := by
  obtain ⟨hc, -⟩ := hi
  cases hf with
  | @jobExit p rc hp =>
    refine ⟨hl.list, hl.spaces, fun q rc' hq => ?_, hl.noFailed, hl.noNil, hl.waiting, hl.exit, hl.noBad⟩
    by_cases hqp : q = p
    · subst hqp
      have : rc = rc' := by simpa using hq
      exact this ▸ hz
    · exact hl.zero q rc' (by simpa [hqp] using hq)
  | abort _ _ hft => exact absurd hft (hl.noFailed _)
  | start _ _ ht _ _ =>
    rw [startTarget_eq (hc.ne_nil ht)]
    refine lined_fork hl (hc.ne_nil ht) (fun rc => ?_) ?_ <;> split <;> simp
  | finish _ hd =>
    refine ⟨hl.list, hl.spaces, hl.zero, hl.noFailed, hl.noNil, by simp, fun rc h => ⟨by simpa using h.symm, ?_⟩,
      by simp⟩
    rw [List.eq_nil_iff_forall_not_mem]
    intro t ht
    have hdone : s.state t = some .done := by simpa using List.all_eq_true.1 hd t ht
    exact (hc.done t (hc.sub t ht)).2 hdone ht
  | breaker _ hd hr _ =>
    have hpend := firstPending_pending hP hc hl hr hd
    rw [startTarget_eq (hc.ne_nil hpend)]
    exact lined_fork hl (hc.ne_nil hpend) (by simp) (by simp)
  | sleep _ _ hr =>
    obtain ⟨t, -, ht⟩ := List.countP_pos_iff.1 (Nat.pos_of_ne_zero hr)
    exact ⟨hl.list, hl.spaces, hl.zero, hl.noFailed, hl.noNil, fun _ => ⟨t, by simpa using ht⟩, by simp, by simp⟩
  | @reap t ks q p rc hpc hd =>
    obtain rfl := hl.zero p rc (deadJob_eq_some.1 hd).2.2
    have hcut := hclean t (ended_eq_some.2 ⟨q, ks, p, rfl, hpc, hd⟩)
    have hlist := words_endTarget_clean hP hc hl hd hcut
    refine lined_pc (c := .detect ks) (s := endTarget s p 0) ?_ (by simp) (by simp) (by simp)
    rw [endTarget_ok (hc.targetOf hd)] at hlist ⊢
    refine ⟨hlist, ?_, hl.zero, ?_, hl.noNil, by simp [hpc], by simp [hpc], by simp [hpc]⟩
    · intro c hcm hb
      rcases mem_replaceFirst (by simp) hcm with hcm | hcm
      · simp only [List.cons_append, List.mem_cons, List.mem_append, List.not_mem_nil, or_false] at hcm
        rcases hcm with h | h | h
        · exact h
        · exact hl.spaces c h hb
        · exact h
      · simpa using hcm
    · intro u
      by_cases hut : u = t
      · subst hut; simp
      · simpa [hut] using hl.noFailed u
  | _ => exact lined_pc hl (by simp) (by simp) (by simp)

end

end T2Sde.Scheduler
