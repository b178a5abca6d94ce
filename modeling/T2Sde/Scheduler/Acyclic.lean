import T2Sde.Lib.Cycle
import T2Sde.Scheduler.Completion
/-!
# Dependency cycles

The script takes `running_count = 0` with targets left for a "dependency cycle or missing target"
(`Build-Target` :313). `breaker_cycle` says that it is right: a target that is started before its
dependencies is started because pending targets wait for each other in a circle. Where the scheduled
dependencies have no cycle the cycle breaker is dead code, and with it what goes wrong in `targets`
(`not_orderly_glib`): `acyclic_topological`.
-/
namespace T2Sde.Scheduler
open Shell Relation

/-- `t` waits for `d`. -/
def Plan.Needs (P : Plan) (t d : Name) : Prop := t ∈ P.deplist ∧ d ∈ words (P.dependencies t) ∧ d ∈ P.deplist

/-- Two pending targets, the first waiting for the second. -/
def Blocked (P : Plan) (s : St) (t d : Name) : Prop :=
  P.Needs t d ∧ s.state t = some .pending ∧ s.state d = some .pending

/-- While nothing runs and nothing has failed, the targets left are the pending ones. -/
theorem pending_of_idle {P : Plan} {s : St} (hi : Inv P s) (hpc : s.pc = .check) (hr : runningCount s = 0) {t : Name}
    (ht : t ∈ P.deplist) (hnd : s.state t ≠ some .done) : s.state t = some .pending := by
  have hknown := (hi.1.known t).2 ht
  have hrun := not_running_of_count hi.1 hr t
  have hfail := hi.2.no_failed (by simp [hpc]) (by simp [hpc]) (by simp [hpc]) t
  cases hst : s.state t with
  | none => exact absurd hst hknown
  | some x => cases x <;> simp_all

theorem idle_cycle {P : Plan} {s : St} (hi : Inv P s) (hpc : s.pc = .check) (hd : allDone s = false)
    (hr : runningCount s = 0) : ∃ c, TransGen (Blocked P s) c c := by
  have hleft : ∀ t ∈ s.deplist, s.state t = some .pending := fun t ht =>
    pending_of_idle hi hpc hr (hi.1.sub t ht) fun hdone => (hi.1.done t (hi.1.sub t ht)).2 hdone ht
  have hne : s.deplist ≠ [] := by
    intro h
    rw [allDone, h] at hd
    cases hd
  obtain ⟨c, hc⟩ := Cycle.exists_cycle (R := P.Needs) hne fun t ht => by
    have hnot := hi.2.idle [] (.inr ⟨hpc, rfl⟩) hr t ht (by simp)
    have hnready : ¬ Ready P s t := fun h => hnot ⟨hleft t ht, (isReady_iff hi.1 ht).2 h⟩
    simp only [Ready, not_forall] at hnready
    obtain ⟨d, hdw, hdP, hnd⟩ := hnready
    exact ⟨d, hi.1.mem_deplist (pending_of_idle hi hpc hr hdP hnd) (by simp), hi.1.sub t ht, hdw, hdP⟩
  exact ⟨c, TransGen.mono (fun a b h => ⟨h.2.2, hleft a h.1, hleft b h.2.1⟩) c c hc⟩

/-- A start is in order, or pending targets wait for each other. -/
theorem start_ready_or_cycle {P : Plan} {a : Act} {s s' : St} {t : Name} (hi : Inv P s) (hstep : step P s a = some s')
    (hstart : s'.started = s.started ++ [t]) : (t ∈ P.deplist ∧ Ready P s t) ∨ ∃ c, TransGen (Blocked P s) c c := by
  rcases fires_started (step_fires hstep) hstart with ⟨ks, hpc, -, hready⟩ | ⟨hpc, hr, -⟩
  · have htd := (hi.2.walk _ (.inl hpc)).2 t List.mem_cons_self
    exact .inl ⟨hi.1.sub t htd, (isReady_iff hi.1 htd).1 hready⟩
  · cases hd : allDone s with
    | false => exact .inr (idle_cycle hi hpc hd hr)
    | true =>
      -- with all done the step is `exit 0` and starts nothing
      cases a with
      | tick p =>
        simp only [step, hpc, checkStep, hd, if_true, Option.some.injEq] at hstep
        subst hstep
        simp at hstart
      | walk ks => simp [step, hpc] at hstep
      | jobExit p rc =>
        simp only [step, Option.ite_none_right_eq_some, Option.some.injEq] at hstep
        obtain ⟨-, rfl⟩ := hstep
        simp at hstart

/-- **The cycle breaker breaks a cycle**: in every run, a target that is started without its scheduled
dependencies done, or an empty one, is started while pending targets wait for each other in a circle. -/
theorem breaker_cycle (P : Plan) (acts : List Act) (a : Act) (s s' : St) (t : Name)
    (hrun : Lts.run (step P) P.init acts = some s) (hstep : step P s a = some s')
    (hstart : s'.started = s.started ++ [t]) (hearly : t ∈ P.deplist → ¬ Ready P s t) :
    ∃ c, TransGen (Blocked P s) c c := by
  rcases start_ready_or_cycle (inv_reachable hrun) hstep hstart with ⟨ht, hready⟩ | hcyc
  · exact absurd hready (hearly ht)
  · exact hcyc

/-- `m4` and `bison` need each other. -/
def loopPlan : Plan where
  script := .buildTarget
  deplist := ["m4".toList, "bison".toList]
  dependencies t := if t = "m4".toList then "bison".toList else "m4".toList
  order := ["m4".toList, "bison".toList]
  JOBS := 2
  nodup := by decide
  names := by decide

def loopActs : List Act := [.walk ["m4".toList, "bison".toList], .tick 7, .tick 7, .tick 7]

theorem breaker_cycle_m4 : ∃ s c, Lts.run (step loopPlan) loopPlan.init loopActs = some s ∧
    TransGen (Blocked loopPlan s) c c := by
  have h : ((Lts.run (step loopPlan) loopPlan.init loopActs).bind fun s =>
      (step loopPlan s (.tick 7)).map fun s' => (s.started, s'.started, s.state "bison".toList)) =
      some ([], ["m4".toList], some .pending) := by decide
  obtain ⟨s, hs, h⟩ := Option.bind_eq_some_iff.1 h
  obtain ⟨s', hs', h⟩ := Option.map_eq_some_iff.1 h
  obtain ⟨h0, h1, h2⟩ := Prod.mk.inj h |>.imp_right Prod.mk.inj
  obtain ⟨c, hc⟩ := breaker_cycle loopPlan loopActs (.tick 7) s s' "m4".toList hs hs' (by rw [h0, h1]; rfl)
    fun _ hready => by
      have := hready "bison".toList (by decide) (by decide)
      rw [h2] at this
      cases this
  exact ⟨s, c, hs, hc⟩

/-! ## Without a cycle -/

def Plan.Acyclic (P : Plan) : Prop := ∀ t, ¬ TransGen P.Needs t t

theorem no_blocked {P : Plan} (hP : P.Acyclic) (s : St) : ¬ ∃ c, TransGen (Blocked P s) c c :=
  fun ⟨c, hc⟩ => hP c (TransGen.mono (fun _ _ h => h.1) c c hc)

/-- What a step does to a calm state: the breaker never fires, so `targets` is never looked at. -/
theorem calm_fires {P : Plan} {s s' : St} {a : Act} (hP : P.Acyclic) (hi : Inv P s) (h : Calm s) (hz : ExitsZero a)
    (hf : Fires P s a s') : Calm s' := by
  have hc := hi.1
  cases hf with
  | @jobExit p rc hp =>
    refine ⟨fun q rc' hq => ?_, h.noFailed, h.noNil, h.waiting, h.exit, h.noBad⟩
    by_cases hqp : q = p
    · subst hqp
      have hrc : rc = rc' := by simpa using hq
      exact hrc ▸ hz
    · exact h.zero q rc' (by simpa [hqp] using hq)
  | abort _ _ hft => exact absurd hft (h.noFailed _)
  | enter => exact ⟨h.zero, h.noFailed, h.noNil, by simp, by simp, by simp⟩
  | waited => exact ⟨h.zero, h.noFailed, h.noNil, by simp, by simp, by simp⟩
  | launched => exact ⟨h.zero, h.noFailed, h.noNil, by simp, by simp, by simp⟩
  | full => exact ⟨h.zero, h.noFailed, h.noNil, by simp, by simp, by simp⟩
  | @start t ks p hpc _ ht _ hp =>
    have hne := hc.ne_nil ht
    rw [startTarget_eq hne]
    have hnext : (if runningCount (forkTarget s t p) ≥ P.JOBS then Pc.check else .launch ks) = .check ∨
        (if runningCount (forkTarget s t p) ≥ P.JOBS then Pc.check else .launch ks) = .launch ks := by
      split <;> simp
    generalize (if runningCount (forkTarget s t p) ≥ P.JOBS then Pc.check else .launch ks) = c at hnext
    refine ⟨fun q rc hq => ?_, fun u hu => ?_, ?_, ?_, ?_, ?_⟩
    · by_cases hqp : q = p
      · subst hqp; simp [forkTarget] at hq
      · exact h.zero q rc (by simpa [forkTarget, hqp] using hq)
    · by_cases hut : u = t
      · subst hut; simp [forkTarget] at hu
      · exact h.noFailed u (by simpa [forkTarget, hut] using hu)
    · simp [forkTarget, h.noNil, Ne.symm hne]
    · rcases hnext with rfl | rfl <;> simp
    · rcases hnext with rfl | rfl <;> simp
    · rcases hnext with rfl | rfl <;> simp
  | skip => exact ⟨h.zero, h.noFailed, h.noNil, by simp, by simp, by simp⟩
  | finish hpc hd =>
    refine ⟨h.zero, h.noFailed, h.noNil, by simp, ?_, by simp⟩
    rintro rc ⟨⟩
    refine ⟨rfl, List.eq_nil_iff_forall_not_mem.2 fun t ht => ?_⟩
    have hdone : s.state t = some .done := by simpa using List.all_eq_true.1 hd t ht
    exact (hc.done t (hc.sub t ht)).2 hdone ht
  | breaker hpc hd hr _ => exact absurd (idle_cycle hi hpc hd hr) (no_blocked hP s)
  | sleep hpc _ hr =>
    refine ⟨h.zero, h.noFailed, h.noNil, fun _ => ?_, by simp, by simp⟩
    obtain ⟨t, -, ht⟩ := List.countP_pos_iff.1 (Nat.pos_of_ne_zero hr)
    exact ⟨t, by simpa using ht⟩
  | detected => exact ⟨h.zero, h.noFailed, h.noNil, by simp, by simp, by simp⟩
  | @reap t ks q p rc hpc hd =>
    obtain rfl := h.zero p rc (deadJob_eq_some.1 hd).2.2
    rw [endTarget_ok (hc.targetOf hd)]
    refine ⟨h.zero, fun u hu => ?_, h.noNil, by simp, by simp, by simp⟩
    by_cases hut : u = t
    · subst hut; simp at hu
    · exact h.noFailed u (by simpa [hut] using hu)
  | pass => exact ⟨h.zero, h.noFailed, h.noNil, by simp, by simp, by simp⟩

theorem calm_init (P : Plan) : Calm P.init :=
  ⟨by simp [Plan.init], fun t => by simp only [Plan.init]; split <;> simp, by simp [Plan.init], by simp [Plan.init],
    by simp [Plan.init], by simp [Plan.init]⟩

theorem Calm.started_nodup {P : Plan} {s : St} (h : Calm s) (hc : Core P s) : s.started.Nodup := by
  rw [List.nodup_iff_count_le_one]
  intro t
  by_cases ht : t ∈ s.started
  · rcases hc.onlyKnown t ht with rfl | hP
    · exact absurd ht h.noNil
    · have hone := hc.once t hP
      omega
  · rw [List.count_eq_zero_of_not_mem ht]
    exact Nat.zero_le 1

/-- What the loop does for a plan without cycles, when every job exits 0. -/
structure Topological (P : Plan) (acts : List Act) : Prop where
  /-- Only scheduled targets are started, each with its scheduled dependencies done. -/
  ordered : Lts.Along (step P) (fun s a => ∀ s' t, step P s a = some s' → s'.started = s.started ++ [t] →
    t ∈ P.deplist ∧ Ready P s t) P.init acts
  /-- No target is started twice. -/
  once : ∀ s, Lts.run (step P) P.init acts = some s → s.started.Nodup
  /-- No run is longer than this. -/
  bounded : ∀ s, Lts.run (step P) P.init acts = some s → acts.length ≤ loopMeasure P P.init
  /-- No run stops before `exit 0`. -/
  onward : ∀ s, Lts.run (step P) P.init acts = some s → s.pc ≠ .exit 0 →
    ∃ a s', ExitsZero a ∧ step P s a = some s'
  built : ∀ s, Lts.run (step P) P.init acts = some s → s.pc = .exit 0 →
    s.started.Perm P.deplist ∧ ∀ t ∈ P.deplist, s.state t = some .done

theorem topological_of_acyclic {P : Plan} (hP : P.Acyclic) {acts : List Act} (hz : ∀ a ∈ acts, ExitsZero a) :
    Topological P acts := by
  have h0 : Inv P P.init ∧ Calm P.init := ⟨⟨core_init P, flow_init P⟩, calm_init P⟩
  have hC : Lts.Along (step P) (fun _ a => ExitsZero a) P.init acts := Lts.along_of_forall hz
  have hstep : ∀ s a s', Inv P s ∧ Calm s → ExitsZero a → step P s a = some s' → Inv P s' ∧ Calm s' :=
    fun s a s' h hza hs => ⟨inv_step s a s' h.1 hs, calm_fires hP h.1 h.2 hza (step_fires hs)⟩
  have hinv : ∀ s, Lts.run (step P) P.init acts = some s → Inv P s ∧ Calm s :=
    fun s hs => Lts.run_inv_along hstep h0 hC hs
  refine ⟨?_, fun s hs => (hinv s hs).2.started_nodup (hinv s hs).1.1, fun s hs => ?_, fun s hs hend => ?_,
    fun s hs hend => ?_⟩
  · refine Lts.along_of_inv inv_step (fun s a hi s' t hs hstart => ?_) ⟨core_init P, flow_init P⟩ acts
    exact (start_ready_or_cycle hi hs hstart).resolve_right (no_blocked hP s)
  · have hbr : ∀ s, Inv P s → BreakerReady s :=
      fun s hi hpc hd hr => absurd (idle_cycle hi hpc hd hr) (no_blocked hP s)
    have := Lts.run_length (fun s a s' hs hza hst =>
      ⟨hstep s a s' hs hza hst, hs.2.loopMeasure_fires (hbr s hs.1) hs.1 (step_fires hst)⟩) h0 hC hs
    omega
  · exact (hinv s hs).2.can_step (hinv s hs).1 hend
  · exact (hinv s hs).2.built_of_exit (hinv s hs).1 hend

/-- **A plan without cycles is built in dependency order**, each target once and to the end, in every
run in which every job exits 0 — whatever `targets` holds and whatever is cut out of it. -/
theorem acyclic_topological (P : Plan) (hP : P.Acyclic) (acts : List Act) (hz : ∀ a ∈ acts, ExitsZero a) :
    Topological P acts := topological_of_acyclic hP hz

/-- In `twoPlan` only `gcc` waits, for `glibc`. -/
theorem twoPlan_acyclic : twoPlan.Acyclic := by
  have hneeds : ∀ t d, twoPlan.Needs t d → t = "gcc".toList ∧ d = "glibc".toList := by
    rintro t d ⟨ht, hd, hdP⟩
    have hcases : ∀ t ∈ twoPlan.deplist, ∀ d ∈ twoPlan.deplist, d ∈ words (twoPlan.dependencies t) →
        t = "gcc".toList ∧ d = "glibc".toList := by decide
    exact hcases t ht d hdP hd
  intro t ht
  obtain ⟨u, hu, -⟩ := TransGen.head'_iff.1 ht
  obtain ⟨v, -, hv⟩ := TransGen.tail'_iff.1 ht
  have h1 := (hneeds t u hu).1
  have h2 := (hneeds v t hv).2
  rw [h1] at h2
  exact absurd h2 (by decide)

theorem acyclic_topological_gcc : Topological twoPlan twoBuild :=
  acyclic_topological twoPlan twoPlan_acyclic twoBuild (by simp [twoBuild, ExitsZero])

end T2Sde.Scheduler
