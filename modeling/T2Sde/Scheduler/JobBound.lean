import T2Sde.Scheduler.Safety
/-!
# The job bound

`job_bound`: never more than `max 1 JOBS` targets are in state `running`. The loop compares twice,
`-gt` before a start and `-ge` after it, and the breaker starts without a comparison; the bound holds
because a pass of the launch loop begins with room for one more (`Bound`), which the detection pass
restores: `wait -n` returned, so one of the keys still to be walked is dead.
-/
namespace T2Sde.Scheduler
open Shell

/-! ## Counting -/

theorem countP_succ_of {α : Type} {l : List α} {t : α} {p q : α → Bool} (hl : l.Nodup) (ht : t ∈ l)
    (hp : p t = false) (hq : q t = true) (h : ∀ x ∈ l, x ≠ t → q x = p x) : l.countP q = l.countP p + 1 := by
  induction l with
  | nil => simp at ht
  | cons x l ih =>
    rw [List.nodup_cons] at hl
    by_cases hx : x = t
    · subst hx
      have : l.countP q = l.countP p := by
        refine List.countP_congr fun y hy => ?_
        rw [h y (List.mem_cons_of_mem _ hy) (by rintro rfl; exact hl.1 hy)]
      simp [hp, hq, this]
    · have ih' := ih hl.2 ((List.mem_cons.1 ht).resolve_left (Ne.symm hx))
        fun y hy => h y (List.mem_cons_of_mem _ hy)
      rw [List.countP_cons, List.countP_cons, ih', h x List.mem_cons_self hx]
      omega

theorem runningCount_fork {P : Plan} {s : St} (hc : Core P s) {t : Name} {p : Pid} (ht : s.state t = some .pending) :
    runningCount (forkTarget s t p) = runningCount s + 1 := by
  refine countP_succ_of hc.nodup (hc.mem_deplist ht (by simp)) (by simp [ht]) (by simp [forkTarget]) fun u _ hu => ?_
  simp [forkTarget, hu]

/-- A reaped target no longer counts, whatever its status was. -/
theorem runningCount_reap {P : Plan} {s : St} (hc : Core P s) {t : Name} {p : Pid} {rc : Nat}
    (hd : deadJob s t = some (p, rc)) : runningCount (endTarget s p rc) + 1 = runningCount s := by
  have hto := hc.targetOf hd
  obtain ⟨hr, -, -⟩ := deadJob_eq_some.1 hd
  have htd := hc.mem_deplist hr (by simp)
  by_cases hrc : rc = 0
  · subst hrc
    rw [endTarget_ok hto]
    simp only [runningCount, List.countP_filter]
    refine (countP_succ_of hc.nodup htd (by simp) (by simp [hr]) fun u _ hu => ?_).symm
    simp [hu]
  · rw [endTarget_fail hto hrc]
    refine (countP_succ_of hc.nodup htd (by simp) (by simp [hr]) fun u _ hu => ?_).symm
    simp [hu]

/-- A dead job stays dead while others exit. -/
theorem deadJob_jobExit {s : St} {t : Name} {p q : Pid} {rc rc' : Nat} (hp : s.jobs p = some .alive)
    (hd : deadJob s t = some (q, rc')) :
    deadJob { s with jobs := upd s.jobs p (some (.exited rc)) } t = some (q, rc') := by
  obtain ⟨h1, h2, h3⟩ := deadJob_eq_some.1 hd
  have hqp : q ≠ p := by rintro rfl; rw [hp] at h3; cases h3
  exact deadJob_eq_some.2 ⟨h1, h2, by simpa [hqp] using h3⟩

/-! ## The bound -/

/-- At most `max 1 JOBS` targets run, and fewer wherever the launch loop is or comes next — in the
detection pass once the dead job that ended `wait -n` is met. -/
structure Bound (P : Plan) (s : St) : Prop where
  le : runningCount s ≤ max 1 P.JOBS
  room : s.pc = .head ∨ (∃ ks, s.pc = .launch ks) → runningCount s < max 1 P.JOBS
  owed : ∀ ks, s.pc = .detect ks → runningCount s < max 1 P.JOBS ∨ ∃ t ∈ ks, deadJob s t ≠ none

theorem bound_fires {P : Plan} {s s' : St} {a : Act} (hi : Inv P s) (h : Bound P s) (hf : Fires P s a s') :
    Bound P s' := by
  obtain ⟨hc, hfl⟩ := hi
  cases hf with
  | @jobExit p rc hp =>
    refine ⟨h.le, h.room, fun ks hks => (h.owed ks hks).imp_right ?_⟩
    rintro ⟨t, ht, hd⟩
    obtain ⟨⟨q, rc'⟩, hq⟩ := Option.ne_none_iff_exists'.1 hd
    exact ⟨t, ht, by rw [deadJob_jobExit hp hq]; simp⟩
  | abort hpc _ _ => exact ⟨h.le, by simp, by simp⟩
  | enter hpc _ _ => exact ⟨h.le, fun _ => h.room (.inl hpc), by simp⟩
  | @waited ks t p rc hpc _ ht hd =>
    refine ⟨h.le, by simp, fun ks' hks' => ?_⟩
    obtain rfl : ks = ks' := by simpa using hks'
    exact .inr ⟨t, ht, by
      have : deadJob s t ≠ none := by simp [hd]
      exact this⟩
  | launched hpc => exact ⟨h.le, by simp, by simp⟩
  | full hpc _ => exact ⟨h.le, by simp, by simp⟩
  | @start t ks p hpc _ ht _ _ =>
    have hroom := h.room (.inr ⟨_, hpc⟩)
    have hcount : runningCount (forkTarget s t p) = runningCount s + 1 := runningCount_fork hc ht
    rw [startTarget_eq (hc.ne_nil ht)]
    refine ⟨show runningCount (forkTarget s t p) ≤ _ by omega, fun hpc' => ?_, fun ks' hks' => ?_⟩
    · show runningCount (forkTarget s t p) < _
      by_cases hge : runningCount (forkTarget s t p) ≥ P.JOBS
      · simp [hge] at hpc'
      · omega
    · simp only at hks'
      split at hks' <;> cases hks'
  | skip hpc _ => exact ⟨h.le, fun _ => h.room (.inr ⟨_, hpc⟩), by simp⟩
  | finish hpc _ => exact ⟨h.le, by simp, by simp⟩
  | @breaker p hpc _ hr _ =>
    rcases firstPending_cases s with ht | ht
    · have hcount : runningCount (forkTarget s (firstPending s) p) = runningCount s + 1 := runningCount_fork hc ht
      rw [startTarget_eq (hc.ne_nil ht)]
      exact ⟨show runningCount (forkTarget s (firstPending s) p) ≤ _ by omega, by simp, by simp⟩
    · rw [ht, startTarget_nil]
      exact ⟨h.le, by simp, by simp⟩
  | sleep hpc _ _ => exact ⟨h.le, by simp, by simp⟩
  | detected hpc =>
    refine ⟨h.le, fun _ => ?_, by simp⟩
    rcases h.owed [] hpc with hlt | ⟨t, ht, -⟩
    · exact hlt
    · simp at ht
  | @reap t ks _ p rc hpc hd =>
    have hcount := runningCount_reap hc hd
    have hle := h.le
    exact ⟨show runningCount (endTarget s p rc) ≤ _ by omega, by simp,
      fun _ _ => .inl (show runningCount (endTarget s p rc) < _ by omega)⟩
  | @pass t ks _ hpc hd =>
    refine ⟨h.le, by simp, fun ks' hks' => ?_⟩
    obtain rfl : ks = ks' := by simpa using hks'
    refine (h.owed _ hpc).imp_right ?_
    rintro ⟨u, hu, hud⟩
    rcases List.mem_cons.1 hu with rfl | hu
    · exact absurd hd hud
    · exact ⟨u, hu, hud⟩

theorem bound_reachable {P : Plan} {acts : List Act} {s : St} (h : Lts.run (step P) P.init acts = some s) :
    Bound P s := by
  suffices hboth : Inv P s ∧ Bound P s from hboth.2
  refine Lts.run_inv (I := fun s => Inv P s ∧ Bound P s) ?_ ⟨⟨core_init P, flow_init P⟩, ?_⟩ h
  · exact fun s a s' hs hstep => ⟨inv_step s a s' hs.1 hstep, bound_fires hs.1 hs.2 (step_fires hstep)⟩
  · have h0 : runningCount P.init = 0 := by
      simp only [runningCount, List.countP_eq_zero, Plan.init]
      intro t ht
      simp [ht]
    exact ⟨by omega, fun _ => by omega, by simp [Plan.init]⟩

/-- `running_count` looks at `deplist` only; no target outside it runs. -/
theorem countP_running {P : Plan} {s : St} (hc : Core P s) :
    P.deplist.countP (fun t => s.state t == some .running) = runningCount s := by
  have hperm : (P.deplist.filter fun t => s.state t == some .running).Perm
      (s.deplist.filter fun t => s.state t == some .running) := by
    refine (List.perm_ext_iff_of_nodup (P.nodup.filter _) (hc.nodup.filter _)).2 fun t => ?_
    simp only [List.mem_filter, beq_iff_eq]
    constructor
    · rintro ⟨-, hr⟩
      exact ⟨hc.mem_deplist hr (by simp), hr⟩
    · rintro ⟨ht, hr⟩
      exact ⟨hc.sub t ht, hr⟩
  rw [runningCount, List.countP_eq_length_filter, List.countP_eq_length_filter, hperm.length_eq]

/-- **The job bound**, in every state of every run. -/
theorem job_bound (P : Plan) (acts : List Act) (s : St) (hrun : Lts.run (step P) P.init acts = some s) :
    P.deplist.countP (fun t => s.state t == some .running) ≤ max 1 P.JOBS := by
  rw [countP_running (inv_reachable hrun).1]
  exact (bound_reachable hrun).le

/-- A pass of the launch loop over `twoPlan` up to its start of `glibc`. -/
theorem job_bound_glibc :
    ∃ s, Lts.run (step twoPlan) twoPlan.init (twoActs ++ [.tick 100]) = some s ∧
      s.state "glibc".toList = some .running ∧
      twoPlan.deplist.countP (fun t => s.state t == some .running) ≤ max 1 1 := by
  have h : ((Lts.run (step twoPlan) twoPlan.init (twoActs ++ [.tick 100])).map fun s => s.state "glibc".toList) =
      some (some .running) := by decide
  obtain ⟨s, hs, hg⟩ := Option.map_eq_some_iff.1 h
  exact ⟨s, hs, hg, job_bound twoPlan _ s hs⟩

end T2Sde.Scheduler
