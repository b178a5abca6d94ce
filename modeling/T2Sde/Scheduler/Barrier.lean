import T2Sde.Scheduler.Stages
/-!
# A whole build, stage after stage (`scripts/Build-Target`)

The run of `pkgloop`: the steps of the scheduling loop, the ends of its jobs with what they leave in the log
directory, and the step to the next stage where the loop returns. The logs that a stage skips are those the build
began with (`Whole.plan`, `Whole.later`), since a job writes the files of its own stage and package only.

* `stage_barrier` — **no job of a stage starts before the stages below are through**, nor for a package that had its
  log of the stage when the build began.
* `build_complete` — what a build that came to its end leaves behind for every package and stage.
-/
namespace T2Sde.Stages
open Shell Scheduler

structure State where
  stage : Nat
  plan : Plan
  loop : St
  files : Files
  /-- `pkgloop` is through with the last stage. -/
  finished : Bool

def enter (I : Input) (F : Files) (k : Nat) : State := ⟨k, I.plan F k, (I.plan F k).init, F, false⟩

def start (I : Input) (F : Files) : State := enter I (cleaned I.config F) 0

inductive Event
  /-- A step of the scheduling loop, not the exit of a job. -/
  | sched (a : Act)
  | exit (p : Pid) (o : Outcome)
  /-- `pkgloop_parallel` has returned. -/
  | next

def isExit : Act → Bool
  | .jobExit _ _ => true
  | _ => false

/-- The job of the target that `p` was forked for ends. -/
def endJob (I : Input) (s : State) (p : Pid) (o : Outcome) : Option State :=
  let (rc, files) := buildJob I s.stage s.files ((s.loop.targetOf p).getD []) o
  (step s.plan s.loop (.jobExit p rc)).map fun loop => { s with loop, files }

def move (I : Input) (s : State) : Event → Option State
  | .sched a => if isExit a then none else (step s.plan s.loop a).map fun loop => { s with loop }
  | .exit p o => if s.loop.pc = .badSubscript then none else endJob I s p o
  | .next =>
    if s.loop.pc = .exit 0 ∧ s.finished = false then
      some (if s.stage < I.config.maxstage then enter I s.files (s.stage + 1) else { s with finished := true })
    else none

/-! ## What a step can do -/

inductive Moves (I : Input) (s : State) : State → Prop
  | sched {a loop} : isExit a = false → step s.plan s.loop a = some loop → Moves I s { s with loop }
  | exit {p o rc files} : s.loop.pc ≠ .badSubscript → s.loop.jobs p = some .alive →
      buildJob I s.stage s.files ((s.loop.targetOf p).getD []) o = (rc, files) →
      Moves I s { s with loop := { s.loop with jobs := upd s.loop.jobs p (some (.exited rc)) }, files }
  | next : s.loop.pc = .exit 0 → s.stage < I.config.maxstage → Moves I s (enter I s.files (s.stage + 1))
  | finish : s.loop.pc = .exit 0 → ¬ s.stage < I.config.maxstage → Moves I s { s with finished := true }

theorem move_moves {I : Input} {s s' : State} {e : Event} (h : move I s e = some s') : Moves I s s' := by
  cases e with
  | sched a =>
    simp only [move] at h
    split at h
    · cases h
    · rename_i ha
      obtain ⟨loop, hl, rfl⟩ := Option.map_eq_some_iff.1 h
      exact .sched (by simpa using ha) hl
  | exit p o =>
    simp only [move] at h
    split at h
    · cases h
    · rename_i hpc
      rcases hb : buildJob I s.stage s.files ((s.loop.targetOf p).getD []) o with ⟨rc, files⟩
      simp only [endJob, hb] at h
      obtain ⟨loop, hl, rfl⟩ := Option.map_eq_some_iff.1 h
      simp only [step, Option.ite_none_right_eq_some, Option.some.injEq] at hl
      obtain ⟨hp, rfl⟩ := hl
      exact .exit hpc hp hb
  | next =>
    simp only [move] at h
    split at h
    · rename_i hpc
      cases h
      split
      · rename_i hlt; exact .next hpc.1 hlt
      · rename_i hlt; exact .finish hpc.1 hlt
    · cases h

/-! ## The invariant -/

/-- The stage is through with the package: it was built, or it failed and the build goes on after failures. -/
def Files.Through (F : Files) (c : Config) (k : Nat) (n : Name) : Prop :=
  F.log k n = true ∨ (F.err k n = true ∧ c.SDECFG_CONTINUE_ON_ERROR_AFTER < k)

/-- A job that exits 0 is through. -/
theorem through_of_zero {c : Config} {k : Nat} {o : Outcome} {log err : Bool}
    (h : pkgloopPackage c k o = (0, log, err)) :
    log = true ∨ (err = true ∧ c.SDECFG_CONTINUE_ON_ERROR_AFTER < k) := by
  cases o with
  | action rc log' err' logged =>
    simp only [pkgloopPackage] at h
    split at h
    · cases h
    · rename_i hgo
      by_cases hrc : rc = 0
      · have hlog := logged hrc
        subst hlog
        simp only [Bool.not_true, Bool.false_and, Bool.false_eq_true, if_false, Prod.mk.injEq, true_and] at h
        exact .inl h.1.symm
      · have hk : c.SDECFG_CONTINUE_ON_ERROR_AFTER < k := by
          by_contra hle
          exact hgo ⟨hrc, by omega⟩
        split at h
        · cases h
        · rename_i hleft
          cases h
          cases hlog : log with
          | true => exact .inl rfl
          | false => exact .inr ⟨by simpa [hlog] using hleft, hk⟩
  | died rc log' err' failed => exact absurd (Prod.mk.inj h).1 failed

theorem set_ne {F : Files} {k j : Nat} {n m : Name} {log err : Bool} (h : ¬ (j = k ∧ m = n)) :
    (F.set k n log err).log j m = F.log j m ∧ (F.set k n log err).err j m = F.err j m :=
  ⟨if_neg h, if_neg h⟩

theorem through_set_ne {F : Files} {c : Config} {k j : Nat} {n m : Name} {log err : Bool} (h : ¬ (j = k ∧ m = n))
    (ht : F.Through c j m) : (F.set k n log err).Through c j m := by
  obtain ⟨h1, h2⟩ : (F.set k n log err).log j m = F.log j m ∧ (F.set k n log err).err j m = F.err j m := set_ne h
  rwa [Files.Through, h1, h2]

structure Whole (I : Input) (F : Files) (s : State) : Prop where
  loop : Inv s.plan s.loop
  stage : s.stage ≤ I.config.maxstage
  plan : s.plan = I.plan F s.stage
  /-- The stages above have the logs they had. -/
  later : ∀ k n, s.stage < k → s.files.log k n = F.log k n
  /-- So have the packages that this stage skips. -/
  skipped : ∀ n, F.log s.stage n = true → s.files.log s.stage n = true
  below : ∀ k < s.stage, ∀ n ∈ I.stageNames k, s.files.Through I.config k n
  done : ∀ t, s.loop.state t = some .done → s.files.Through I.config s.stage t
  /-- A running target whose job has exited 0. -/
  exited : ∀ t p, s.loop.state t = some .running → s.loop.pidOf t = some p → s.loop.jobs p = some (.exited 0) →
    s.files.Through I.config s.stage t
  ended : s.loop.pc = .exit 0 → ∀ t ∈ s.plan.deplist, s.loop.state t = some .done
  finished : s.finished = true → s.loop.pc = .exit 0 ∧ s.stage = I.config.maxstage

theorem maxstage_lt (c : Config) : c.maxstage < 10 := by
  unfold Config.maxstage
  split
  · decide
  · split <;> decide

theorem enter_whole {I : Input} {F G : Files} {k : Nat} (hk : k ≤ I.config.maxstage)
    (hlog : ∀ j n, k ≤ j → G.log j n = F.log j n)
    (hbelow : ∀ j < k, ∀ n ∈ I.stageNames j, G.Through I.config j n) : Whole I F (enter I G k) where
  loop := ⟨core_init _, flow_init _⟩
  stage := hk
  plan := by
    have htargets : I.targets G k = I.targets F k :=
      List.filter_congr fun n _ => by rw [hlog k n (Nat.le_refl k)]
    simp only [enter, Input.plan, htargets]
  later j n hj := hlog j n (Nat.le_of_lt hj)
  skipped n hn := (hlog k n (Nat.le_refl k)).trans hn
  below := hbelow
  done t ht := by
    simp only [enter, Plan.init] at ht
    split at ht <;> cases ht
  exited t p ht := by
    simp only [enter, Plan.init] at ht
    split at ht <;> cases ht
  ended h := by cases h
  finished h := by cases h

/-- A target that came to be done was running, its job had exited 0. -/
theorem done_of_fires {P : Plan} {s s' : St} {a : Act} (hi : Inv P s) (hf : Fires P s a s') {t : Name}
    (ht : s'.state t = some .done) : s.state t = some .done ∨
      ∃ p, s.state t = some .running ∧ s.pidOf t = some p ∧ s.jobs p = some (.exited 0) := by
  have hfork : ∀ u, upd s.state u (some TState.running) t = some .done → s.state t = some .done := fun u h => by
    by_cases htu : t = u
    · subst htu; simp at h
    · simpa [htu] using h
  cases hf with
  | @start u ks p hpc _ hu _ _ =>
    rw [startTarget_eq (hi.1.ne_nil hu)] at ht
    exact .inl (hfork u ht)
  | @breaker p hpc _ _ _ =>
    rcases firstPending_cases s with hu | hu
    · rw [startTarget_eq (hi.1.ne_nil hu)] at ht
      exact .inl (hfork _ ht)
    · rw [hu, startTarget_nil] at ht
      exact .inl ht
  | @reap u ks q p rc hpc hd =>
    by_cases hrc : rc = 0
    · subst hrc
      rw [endTarget_ok (hi.1.targetOf hd)] at ht
      by_cases htu : t = u
      · subst htu
        exact .inr ⟨p, deadJob_eq_some.1 hd⟩
      · exact .inl (by simpa [htu] using ht)
    · rw [endTarget_fail (hi.1.targetOf hd) hrc] at ht
      by_cases htu : t = u
      · subst htu; simp at ht
      · exact .inl (by simpa [htu] using ht)
  | _ => exact .inl ht

/-- A running target with an exited job was so before, if the step is not the exit of a job. -/
theorem exited_of_fires {P : Plan} {s s' : St} {a : Act} (hi : Inv P s) (hf : Fires P s a s') (ha : isExit a = false)
    {t : Name} {p : Pid} {rc : Nat} (ht : s'.state t = some .running) (hp : s'.pidOf t = some p)
    (hj : s'.jobs p = some (.exited rc)) :
    s.state t = some .running ∧ s.pidOf t = some p ∧ s.jobs p = some (.exited rc) := by
  have hfork : ∀ u q c, s.jobs q = none → ({ forkTarget s u q with pc := c } : St).state t = some .running →
      ({ forkTarget s u q with pc := c } : St).pidOf t = some p →
      ({ forkTarget s u q with pc := c } : St).jobs p = some (.exited rc) →
      s.state t = some .running ∧ s.pidOf t = some p ∧ s.jobs p = some (.exited rc) := by
    intro u q c hq ht hp hj
    have hpq : p ≠ q := by rintro rfl; simp [forkTarget] at hj
    by_cases htu : t = u
    · subst htu
      simp only [forkTarget, upd_same, Option.some.injEq] at hp
      exact absurd hp.symm hpq
    · exact ⟨by simpa [forkTarget, htu] using ht, by simpa [forkTarget, htu] using hp,
        by simpa [forkTarget, hpq] using hj⟩
  cases hf with
  | jobExit _ => cases ha
  | @start u ks q hpc _ hu _ hq =>
    rw [startTarget_eq (hi.1.ne_nil hu)] at ht hp hj
    exact hfork u q _ hq ht hp hj
  | @breaker q hpc _ _ hq =>
    rcases firstPending_cases s with hu | hu
    · rw [startTarget_eq (hi.1.ne_nil hu)] at ht hp hj
      exact hfork _ q _ hq ht hp hj
    · rw [hu, startTarget_nil] at ht hp hj
      have hpq : p ≠ q := by rintro rfl; simp at hj
      exact ⟨ht, hp, by simpa [hpq] using hj⟩
  | @reap u ks q r rc' hpc hd =>
    by_cases hrc : rc' = 0
    · subst hrc
      rw [endTarget_ok (hi.1.targetOf hd)] at ht hp hj
      by_cases htu : t = u
      · subst htu; simp at ht
      · exact ⟨by simpa [htu] using ht, hp, hj⟩
    · rw [endTarget_fail (hi.1.targetOf hd) hrc] at ht hp hj
      by_cases htu : t = u
      · subst htu; simp at ht
      · exact ⟨by simpa [htu] using ht, hp, hj⟩
  | _ => exact ⟨ht, hp, hj⟩

/-- The loop returns with every target done. -/
theorem ended_of_fires {P : Plan} {s s' : St} {a : Act} (hi : Inv P s) (hf : Fires P s a s')
    (h : s.pc = .exit 0 → ∀ t ∈ P.deplist, s.state t = some .done) (hpc : s'.pc = .exit 0) :
    ∀ t ∈ P.deplist, s'.state t = some .done := by
  cases hf with
  | jobExit _ => exact h hpc
  | @start u ks p hpc' _ hu _ _ =>
    rw [startTarget_eq (hi.1.ne_nil hu)] at hpc
    dsimp only at hpc
    split at hpc <;> cases hpc
  | finish _ hd =>
    intro t ht
    by_cases htd : t ∈ s.deplist
    · simpa using List.all_eq_true.1 hd t htd
    · exact (hi.1.done t ht).1 htd
  | breaker =>
    rcases firstPending_cases s with hu | hu
    · rw [startTarget_eq (hi.1.ne_nil hu)] at hpc; cases hpc
    · rw [hu, startTarget_nil] at hpc; cases hpc
  | _ => cases hpc

/-- At the end of a stage every package of it is through. -/
theorem through_of_exit {I : Input} {F : Files} {s : State} (h : Whole I F s) (hpc : s.loop.pc = .exit 0) (n : Name)
    (hn : n ∈ I.stageNames s.stage) : s.files.Through I.config s.stage n := by
  cases hlog : F.log s.stage n with
  | true => exact .inl (h.skipped n hlog)
  | false => exact h.done n (h.ended hpc n (h.plan ▸ mem_plan.2 ⟨hn, hlog⟩))

/-- And no job of it is left. -/
theorem no_alive_of_exit {I : Input} {F : Files} {s : State} (h : Whole I F s) (hpc : s.loop.pc = .exit 0) (p : Pid) :
    s.loop.jobs p ≠ some .alive := by
  intro hp
  rcases h.loop.1.alive p hp with ⟨t, -, ht⟩ | hbad
  · have hdone := h.ended hpc t ((h.loop.1.known t).1 (by simp [ht]))
    rw [ht] at hdone
    cases hdone
  · have := h.loop.2.bad hbad
    rw [hpc] at this
    cases this

theorem whole_exit {I : Input} (hI : I.Clear) {F : Files} {s : State} (h : Whole I F s) {p : Pid} {o : Outcome}
    {rc : Nat} {files : Files} (hpc : s.loop.pc ≠ .badSubscript) (hp : s.loop.jobs p = some .alive)
    (hb : buildJob I s.stage s.files ((s.loop.targetOf p).getD []) o = (rc, files)) :
    Whole I F { s with loop := { s.loop with jobs := upd s.loop.jobs p (some (.exited rc)) }, files } := by
  have hc := h.loop.1
  obtain ⟨t, hpt, hrun⟩ := (hc.alive p hp).resolve_right (h.loop.2.nil_not_started hpc)
  obtain ⟨q, hq, hto, -⟩ := hc.job t hrun
  rw [hpt] at hq
  obtain rfl := Option.some.inj hq
  have htP : t ∈ s.plan.deplist := (hc.known t).1 (by simp [hrun])
  obtain ⟨htn, htlog⟩ := mem_plan.1 (h.plan ▸ htP)
  have hk : s.stage < 10 := Nat.lt_of_le_of_lt h.stage (maxstage_lt _)
  rcases ho : pkgloopPackage I.config s.stage o with ⟨rc', log, err⟩
  simp only [hto, Option.getD_some, buildJob, jobFor_own hI hk htn, ho, Prod.mk.injEq] at hb
  obtain ⟨rfl, rfl⟩ := hb
  have hinv : Inv s.plan { s.loop with jobs := upd s.loop.jobs p (some (.exited rc')) } :=
    ⟨core_jobExit hc hp, flow_fires hc h.loop.2 (.jobExit hp)⟩
  refine ⟨hinv, h.stage, h.plan, ?_, ?_, ?_, ?_, ?_, h.ended, h.finished⟩
  · intro k n hlt
    have hk : k ≠ s.stage := Nat.ne_of_gt hlt
    rw [(set_ne (by simp [hk])).1]
    exact h.later k n hlt
  · intro n hn
    -- the skipped package is not the target
    have hnt : n ≠ t := by
      rintro rfl
      rw [htlog] at hn
      cases hn
    rw [(set_ne (by simp [hnt])).1]
    exact h.skipped n hn
  · intro k hlt n hn
    have hk : k ≠ s.stage := Nat.ne_of_lt hlt
    exact through_set_ne (by simp [hk]) (h.below k hlt n hn)
  · intro u hu
    have hut : u ≠ t := by
      rintro rfl
      rw [hrun] at hu
      cases hu
    exact through_set_ne (by simp [hut]) (h.done u hu)
  · intro u r hu hr hj
    by_cases hut : u = t
    · subst hut
      rw [hpt] at hr
      obtain rfl := Option.some.inj hr
      obtain rfl : rc' = 0 := by simpa using hj
      have := through_of_zero ho
      simpa [Files.Through, Files.set] using this
    · have hrp : r ≠ p := by
        rintro rfl
        obtain ⟨x, hx, hxo, -⟩ := hc.job u hu
        rw [hr] at hx
        obtain rfl := Option.some.inj hx
        rw [hto] at hxo
        exact hut (Option.some.inj hxo).symm
      exact through_set_ne (by simp [hut]) (h.exited u r hu hr (by simpa [hrp] using hj))

theorem whole_moves {I : Input} (hI : I.Clear) {F : Files} {s s' : State} (h : Whole I F s) (hm : Moves I s s') :
    Whole I F s' := by
  cases hm with
  | @sched a loop ha hs =>
    have hf := step_fires hs
    refine ⟨inv_step s.loop a loop h.loop hs, h.stage, h.plan, h.later, h.skipped, h.below, ?_, ?_,
      ended_of_fires h.loop hf h.ended, ?_⟩
    · intro t ht
      rcases done_of_fires h.loop hf ht with hd | ⟨p, h1, h2, h3⟩
      · exact h.done t hd
      · exact h.exited t p h1 h2 h3
    · intro t p ht hp hj
      obtain ⟨h1, h2, h3⟩ := exited_of_fires h.loop hf ha ht hp hj
      exact h.exited t p h1 h2 h3
    · -- behind `exit 0` there is no step but the exit of a job
      intro ho
      obtain ⟨hpc, -⟩ := h.finished ho
      cases a with
      | jobExit p rc => cases ha
      | walk ks => simp [step, hpc] at hs
      | tick p => simp [step, hpc] at hs
  | exit hpc hp hb => exact whole_exit hI h hpc hp hb
  | next hpc hlt =>
    refine enter_whole hlt (fun j n hj => h.later j n hj) fun j hj n hn => ?_
    rcases Nat.lt_succ_iff_lt_or_eq.1 hj with hj | rfl
    · exact h.below j hj n hn
    · exact through_of_exit h hpc n hn
  | finish hpc hlt =>
    exact ⟨h.loop, h.stage, h.plan, h.later, h.skipped, h.below, h.done, h.exited, h.ended,
      fun _ => ⟨hpc, Nat.le_antisymm h.stage (Nat.le_of_not_lt hlt)⟩⟩

theorem whole_reachable {I : Input} (hI : I.Clear) {F : Files} {es : List Event} {s : State}
    (hrun : Lts.run (move I) (start I F) es = some s) : Whole I F s := by
  have hstep : ∀ s e s', Whole I F s → move I s e = some s' → Whole I F s' :=
    fun s e s' h hs => whole_moves hI h (move_moves hs)
  have hstart : Whole I F (start I F) :=
    enter_whole (Nat.zero_le _) (fun _ _ _ => rfl) fun j hj => absurd hj (Nat.not_lt_zero j)
  exact Lts.run_inv hstep hstart hrun

/-! ## Results -/

/-- What the job of a target may rely on when it starts. -/
structure StageStart (I : Input) (F : Files) (s : State) (t : Name) : Prop where
  selected : t ∈ I.stageNames s.stage
  below : ∀ k < s.stage, ∀ n ∈ I.stageNames k, s.files.Through I.config k n
  /-- The build did not begin with a log of it. -/
  unlogged : F.log s.stage t = false
  safe : SafeStart s.plan s.loop t

theorem started_of_moves {I : Input} {s s' : State} (hm : Moves I s s') {t : Name}
    (hs : s'.loop.started = s.loop.started ++ [t]) : ∃ a, step s.plan s.loop a = some s'.loop := by
  cases hm with
  | @sched a loop _ h => exact ⟨a, h⟩
  | exit => simp at hs
  | next => simp [enter, Plan.init] at hs
  | finish => simp at hs

theorem stageStart_of_moves {I : Input} {F : Files} {s s' : State} (h : Whole I F s) (hm : Moves I s s') {t : Name}
    (hne : t ≠ []) (hstart : s'.loop.started = s.loop.started ++ [t]) : StageStart I F s t := by
  obtain ⟨a, ha⟩ := started_of_moves hm hstart
  have hknown := (inv_step _ _ _ h.loop ha).1.onlyKnown t (by simp [hstart])
  have ht := hknown.resolve_left hne
  obtain ⟨htn, htlog⟩ := mem_plan.1 (h.plan ▸ ht)
  exact ⟨htn, h.below, htlog, safeStart_of_step h.loop ha hstart ht⟩

theorem through_of_finished {I : Input} {F : Files} {s : State} (h : Whole I F s) (hover : s.finished = true) :
    ∀ k ≤ I.config.maxstage, ∀ n ∈ I.stageNames k, s.files.Through I.config k n := by
  obtain ⟨hpc, hstage⟩ := h.finished hover
  intro k hk n hn
  rcases Nat.lt_or_eq_of_le hk with hlt | rfl
  · exact h.below k (hstage ▸ hlt) n hn
  · exact hstage ▸ through_of_exit h hpc n (hstage ▸ hn)

/-- **The stages of a build do not overlap**: in every run, for every order of the walks and of the ends of the jobs,
a job is started for a package of the stage that had no log of it when the build began, once, with every package of
the stages below through; and the step to the next stage is made when no job is left. -/
theorem stage_barrier (I : Input) (hI : I.Clear) (F : Files) (es : List Event) (e : Event) (s s' : State)
    (hrun : Lts.run (move I) (start I F) es = some s) (hstep : move I s e = some s') :
    (∀ t, t ≠ [] → s'.loop.started = s.loop.started ++ [t] → StageStart I F s t) ∧
      (s'.stage ≠ s.stage → s'.stage = s.stage + 1 ∧ ∀ p, s.loop.jobs p ≠ some .alive) := by
  have h := whole_reachable hI hrun
  have hm := move_moves hstep
  refine ⟨fun t hne hstart => stageStart_of_moves h hm hne hstart, fun hne => ?_⟩
  cases hm with
  | sched => exact absurd rfl hne
  | exit => exact absurd rfl hne
  | next hpc _ => exact ⟨rfl, no_alive_of_exit h hpc⟩
  | finish => exact absurd rfl hne

def dirtree : Name := "dirtree".toList
def gcc : Name := "gcc".toList

/-- `dirtree` in stage 0 and `gcc` in stage 1, and the build goes on after errors from stage 1 on. -/
def crossInput : Input where
  config := ⟨false, true, false, 0, 1⟩
  lines := [⟨"0---------".toList, "001".toList, "base".toList, dirtree, "26.3 / 0".toList, rfl, by decide, by decide,
      by decide, by decide⟩,
    ⟨"-1--------".toList, "112".toList, "develop".toList, gcc, "15.2 / 0".toList, rfl, by decide, by decide,
      by decide, by decide⟩]
  dependencies _ := []

def noFiles : Files := ⟨fun _ _ => false, fun _ _ => false⟩

/-- One stage with one package, whose job has the pid `p` and ends with `o`. -/
def oneJob (n : Name) (p : Pid) (o : Outcome) : List Event :=
  [.sched (.walk [n]), .sched (.tick p), .sched (.tick p), .exit p o, .sched (.walk [n]), .sched (.tick p),
    .sched (.tick p)]

/-- A stage, or what is left of it, with nothing to build. -/
def noJob : List Event := [.sched (.walk []), .sched (.tick 0), .sched (.tick 0), .next]

def built : Outcome := .action 0 true false fun _ => rfl
def failed : Outcome := .action 1 false true fun h => by cases h

def stageZero : List Event := oneJob dirtree 7 built ++ noJob ++ [.sched (.walk [gcc])]

theorem stage_barrier_gcc : ∃ s s', Lts.run (move crossInput) (start crossInput noFiles) stageZero = some s ∧
    move crossInput s (.sched (.tick 8)) = some s' ∧ s'.loop.started = s.loop.started ++ [gcc] ∧
    StageStart crossInput noFiles s gcc := by
  have h : ((Lts.run (move crossInput) (start crossInput noFiles) stageZero).bind fun s =>
      (move crossInput s (.sched (.tick 8))).map fun s' => (s.loop.started, s'.loop.started)) = some ([], [gcc]) := by
    decide +kernel
  obtain ⟨s, hs, h⟩ := Option.bind_eq_some_iff.1 h
  obtain ⟨s', hs', h⟩ := Option.map_eq_some_iff.1 h
  obtain ⟨h0, h1⟩ := Prod.mk.inj h
  have hstart : s'.loop.started = s.loop.started ++ [gcc] := by rw [h0, h1]; rfl
  exact ⟨s, s', hs, hs', hstart,
    (stage_barrier crossInput (by decide +kernel) noFiles stageZero _ s s' hs hs').1 gcc (by decide) hstart⟩

/-- **A build that came to its end is complete**: every package has the log of each of its stages, or its error log
where the build goes on after errors. -/
theorem build_complete (I : Input) (hI : I.Clear) (F : Files) (es : List Event) (s : State)
    (hrun : Lts.run (move I) (start I F) es = some s) (hover : s.finished = true) :
    ∀ k ≤ I.config.maxstage, ∀ n ∈ I.stageNames k, s.files.Through I.config k n :=
  through_of_finished (whole_reachable hI hrun) hover

/-- `gcc` fails in stage 1. -/
def wholeBuild : List Event := oneJob dirtree 7 built ++ noJob ++ oneJob gcc 8 failed ++ noJob ++ noJob

theorem wholeBuild_over : ((Lts.run (move crossInput) (start crossInput noFiles) wholeBuild).map fun s =>
    (s.finished, s.files.log 0 dirtree, s.files.err 1 gcc)) = some (true, true, true) := by decide +kernel

theorem build_complete_gcc : ∃ s, Lts.run (move crossInput) (start crossInput noFiles) wholeBuild = some s ∧
    s.files.Through crossInput.config 1 gcc := by
  obtain ⟨s, hs, h⟩ := Option.map_eq_some_iff.1 wholeBuild_over
  exact ⟨s, hs, build_complete crossInput (by decide +kernel) noFiles wholeBuild s hs (Prod.mk.inj h).1 1 (by decide)
    gcc (by decide +kernel)⟩

/-- **A build over a finished one starts what failed, nothing else**. -/
theorem rebuild_failed (I : Input) (hI : I.Clear) (F : Files) (es es' : List Event) (e : Event) (s r r' : State)
    (t : Name) (hrun : Lts.run (move I) (start I F) es = some s) (hover : s.finished = true)
    (hrun' : Lts.run (move I) (start I s.files) es' = some r) (hstep : move I r e = some r') (hne : t ≠ [])
    (hstart : r'.loop.started = r.loop.started ++ [t]) :
    s.files.log r.stage t = false ∧ s.files.err r.stage t = true ∧
      I.config.SDECFG_CONTINUE_ON_ERROR_AFTER < r.stage := by
  have h := whole_reachable hI hrun'
  have hs := stageStart_of_moves h (move_moves hstep) hne hstart
  rcases through_of_finished (whole_reachable hI hrun) hover r.stage h.stage t hs.selected with hlog | ⟨herr, hk⟩
  · rw [hs.unlogged] at hlog
    cases hlog
  · exact ⟨hs.unlogged, herr, hk⟩

theorem rebuild_failed_gcc : ∃ s, Lts.run (move crossInput) (start crossInput noFiles) wholeBuild = some s ∧
    s.files.err 1 gcc = true := by
  have h : ((Lts.run (move crossInput) (start crossInput noFiles) wholeBuild).bind fun s =>
      (Lts.run (move crossInput) (start crossInput s.files) (noJob ++ [.sched (.walk [gcc])])).bind fun r =>
      (move crossInput r (.sched (.tick 9))).map fun r' => (s.finished, r.stage, r.loop.started, r'.loop.started)) =
      some (true, 1, [], [gcc]) := by decide +kernel
  obtain ⟨s, hs, h⟩ := Option.bind_eq_some_iff.1 h
  obtain ⟨r, hr, h⟩ := Option.bind_eq_some_iff.1 h
  obtain ⟨r', hr', h⟩ := Option.map_eq_some_iff.1 h
  simp only [Prod.mk.injEq] at h
  obtain ⟨hover, hstage, h0, h1⟩ := h
  have := rebuild_failed crossInput (by decide +kernel) noFiles wholeBuild _ _ s r r' gcc hs hover hr hr' (by decide)
    (by rw [h0, h1]; rfl)
  exact ⟨s, hs, hstage ▸ this.2.1⟩

end T2Sde.Stages
