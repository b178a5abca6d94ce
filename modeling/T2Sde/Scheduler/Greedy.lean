import T2Sde.Scheduler.JobBound
/-!
# No idle slot

"Launch as many ready jobs as possible up to JOBS" (`Emerge-Pkg` :496, `Build-Target` :289):
`work_conserving` says that the loop goes to sleep only with `JOBS` targets running or without a
ready target. The launch loop may pass a key before the target it waits for is started, never before
it is done: `done` is set in the detection pass only.
-/
namespace T2Sde.Scheduler
open Shell

def Startable (s : St) (t : Name) : Prop := s.state t = some .pending ∧ isReady s t = true

def NoneStartable (s : St) : Prop := ∀ t ∈ s.deplist, ¬ Startable s t

/-- What the launch loop has seen. -/
structure Busy (P : Plan) (s : St) : Prop where
  launch : ∀ ks, s.pc = .launch ks → ∀ t ∈ s.deplist, t ∉ ks → ¬ Startable s t
  check : s.pc = .check ∨ s.pc = .wait → P.JOBS ≤ runningCount s ∨ NoneStartable s

/-- Starting a pending target makes no other one ready. -/
theorem startable_of_fork {s : St} {t u : Name} {p : Pid} {c : Pc} (ht : s.state t = some .pending)
    (h : Startable { forkTarget s t p with pc := c } u) : u ≠ t ∧ Startable s u := by
  have hut : u ≠ t := by
    rintro rfl
    simp [Startable, forkTarget] at h
  refine ⟨hut, by simpa [forkTarget, hut] using h.1, ?_⟩
  simp only [isReady, List.all_eq_true, beq_iff_eq]
  intro d hd
  have hdone := List.all_eq_true.1 h.2 d hd
  have hdt : d ≠ t := by
    rintro rfl
    simp [forkTarget] at hdone
  simpa [forkTarget, hdt] using hdone

theorem busy_fires {P : Plan} {s s' : St} {a : Act} (hi : Inv P s) (h : Busy P s) (hf : Fires P s a s') :
    Busy P s' := by
  have hc := hi.1
  cases hf with
  | jobExit _ => exact ⟨h.launch, h.check⟩
  | abort => exact ⟨by simp, by simp⟩
  | @enter ks _ hperm _ =>
    refine ⟨fun ks' hks' t ht htks => ?_, by simp⟩
    obtain rfl : ks = ks' := by simpa using hks'
    exact absurd (hperm.mem_iff.2 ht) htks
  | waited => exact ⟨by simp, by simp⟩
  | launched hpc => exact ⟨by simp, fun _ => .inr fun t ht => h.launch [] hpc t ht (by simp)⟩
  | full _ hr => exact ⟨by simp, fun _ => .inl (Nat.le_of_lt hr)⟩
  | @start t ks p hpc _ ht _ hp =>
    rw [startTarget_eq (hc.ne_nil ht)]
    split
    · rename_i hfull
      exact ⟨by simp, fun _ => .inl hfull⟩
    · refine ⟨fun ks' hks' u hu huks => ?_, by simp⟩
      obtain rfl : ks = ks' := by simpa using hks'
      intro hst
      obtain ⟨hut, hst⟩ := startable_of_fork ht hst
      exact h.launch _ hpc u hu (by simp [hut, huks]) hst
  | @skip t ks _ hpc hno =>
    refine ⟨fun ks' hks' u hu huks => ?_, by simp⟩
    obtain rfl : ks = ks' := by simpa using hks'
    by_cases hut : u = t
    · subst hut; exact hno
    · exact h.launch _ hpc u hu (by simp [hut, huks])
  | finish => exact ⟨by simp, by simp⟩
  | @breaker p hpc _ hr _ =>
    rcases firstPending_cases s with ht | ht
    · rw [startTarget_eq (hc.ne_nil ht)]
      refine ⟨by simp, fun _ => ?_⟩
      rcases h.check (.inl hpc) with hjobs | hnone
      · exact .inl (by omega)
      · exact .inr fun u hu hst => hnone u hu (startable_of_fork ht hst).2
    · rw [ht, startTarget_nil]
      exact ⟨by simp, by simp⟩
  | sleep hpc _ _ => exact ⟨by simp, fun _ => h.check (.inl hpc)⟩
  | detected => exact ⟨by simp, by simp⟩
  | reap => exact ⟨by simp, by simp⟩
  | pass => exact ⟨by simp, by simp⟩

theorem busy_init (P : Plan) : Busy P P.init := ⟨by simp [Plan.init], by simp [Plan.init]⟩

/-- **The loop sleeps only when it has to**: in every run, at `wait -n`, `JOBS` targets or more are
running or no pending target has its scheduled dependencies done. -/
theorem work_conserving (P : Plan) (acts : List Act) (s : St) (hrun : Lts.run (step P) P.init acts = some s)
    (hpc : s.pc = .wait) :
    P.JOBS ≤ runningCount s ∨ ∀ t ∈ P.deplist, s.state t = some .pending → ¬ Ready P s t := by
  obtain ⟨hi, hb⟩ := Lts.run_inv (I := fun s => Inv P s ∧ Busy P s)
    (fun s a s' h hs => ⟨inv_step s a s' h.1 hs, busy_fires h.1 h.2 (step_fires hs)⟩)
    ⟨⟨core_init P, flow_init P⟩, busy_init P⟩ hrun
  refine (hb.check (.inr hpc)).imp_right fun hnone t _ ht hready => ?_
  have htd := hi.1.mem_deplist ht (by simp)
  exact hnone t htd ⟨ht, (isReady_iff hi.1 htd).2 hready⟩

/-- With one job, the script sleeps while `glibc` is built. -/
theorem work_conserving_glibc :
    ∃ s, Lts.run (step twoPlan) twoPlan.init (twoActs ++ [.tick 100, .tick 100]) = some s ∧
      (twoPlan.JOBS ≤ runningCount s ∨
        ∀ t ∈ twoPlan.deplist, s.state t = some .pending → ¬ Ready twoPlan s t) := by
  have h : ((Lts.run (step twoPlan) twoPlan.init (twoActs ++ [.tick 100, .tick 100])).map St.pc) = some .wait := by
    decide
  obtain ⟨s, hs, hpc⟩ := Option.map_eq_some_iff.1 h
  exact ⟨s, hs, work_conserving twoPlan _ s hs hpc⟩

end T2Sde.Scheduler
