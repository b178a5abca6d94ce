import T2Sde.Scheduler.Invariant
/-!
# Dependency safety of the scheduling loop

`start_safe`: in every run, for every order of the walks and of the job exits, `start_target` is
called on a scheduled target only while it is pending, once, never after a failure, and only if its
scheduled dependencies are done — or, from the cycle breaker, if nothing runs and nothing is ready.
The breaker's half rests on `Flow.idle`: a launch pass that started nothing has looked at every key.
-/
namespace T2Sde.Scheduler
open Shell

theorem runningCount_ne_zero {s : St} {t : Name} (ht : t ∈ s.deplist) (hr : s.state t = some .running) :
    runningCount s ≠ 0 := by
  have : 0 < runningCount s := List.countP_pos_iff.2 ⟨t, ht, by simp [hr]⟩
  omega

theorem not_running_of_count {P : Plan} {s : St} (hc : Core P s) (h : runningCount s = 0) (t : Name) :
    s.state t ≠ some .running :=
  fun hr => runningCount_ne_zero (hc.mem_deplist hr (by simp)) hr h

/-- A job that is alive belongs to a running target. -/
theorem no_alive_of_count {P : Plan} {s : St} (hc : Core P s) (hnil : [] ∉ s.started) (h : runningCount s = 0)
    (p : Pid) : s.jobs p ≠ some .alive := by
  intro hp
  rcases hc.alive p hp with ⟨t, -, hr⟩ | hbad
  · exact not_running_of_count hc h t hr
  · exact hnil hbad

/-- While the loop is at any other place, no `start_target ""` has happened. -/
theorem Flow.nil_not_started {s : St} (h : Flow s) (hpc : s.pc ≠ .badSubscript) : [] ∉ s.started :=
  fun hb => hpc (h.bad hb)

theorem Flow.no_failed {s : St} (h : Flow s) (h1 : s.pc ≠ .head) (h2 : s.pc ≠ .exit 1)
    (h3 : ∀ ks, s.pc ≠ .detect ks) (t : Name) : s.state t ≠ some .failed := by
  intro hf
  rcases h.failed t hf with h' | h' | ⟨ks, h'⟩
  · exact h1 h'
  · exact h2 h'
  · exact h3 ks h'

/-- A step that only moves on to a place without a walk. -/
theorem flow_pc {s : St} (h : Flow s) {c : Pc} (hpc : s.pc ≠ .badSubscript) (h1 : ∀ ks, c ≠ .launch ks)
    (h2 : ∀ ks, c ≠ .detect ks) (h3 : c = .check → ∀ t ∈ s.deplist, runningCount s = 0 →
      ¬ (s.state t = some .pending ∧ isReady s t = true))
    (h4 : ∀ t, s.state t = some .failed → c = .head ∨ c = .exit 1) : Flow { s with pc := c } where
  walk ks hks := by
    rcases hks with hks | hks
    · exact absurd hks (h1 ks)
    · exact absurd hks (h2 ks)
  idle ks hks hr t ht _ := by
    rcases hks with hks | ⟨hks, -⟩
    · exact absurd hks (h1 ks)
    · exact h3 hks t ht hr
  failed t ht := by
    rcases h4 t ht with h' | h'
    · exact .inl h'
    · exact .inr (.inl h')
  bad hb := absurd (h.bad hb) hpc

theorem flow_start {P : Plan} {s : St} (hc : Core P s) (h : Flow s) {t : Name} {ks : List Name} {p : Pid}
    (hpc : s.pc = .launch (t :: ks)) (ht : s.state t = some .pending) :
    Flow (startTarget s t p fun s => if runningCount s ≥ P.JOBS then .check else .launch ks) := by
  have hne := hc.ne_nil ht
  have hnf := h.no_failed (by simp [hpc]) (by simp [hpc]) (by simp [hpc])
  obtain ⟨hnd, hsub⟩ := h.walk (t :: ks) (.inl hpc)
  rw [List.nodup_cons] at hnd
  rw [startTarget_eq hne]
  have hnext : (if runningCount (forkTarget s t p) ≥ P.JOBS then Pc.check else .launch ks) = .check ∨
      (if runningCount (forkTarget s t p) ≥ P.JOBS then Pc.check else .launch ks) = .launch ks := by
    split <;> simp
  generalize (if runningCount (forkTarget s t p) ≥ P.JOBS then Pc.check else .launch ks) = c at hnext
  refine ⟨?_, ?_, ?_, ?_⟩
  · intro ks' hks'
    obtain rfl : ks = ks' := by
      rcases hnext with rfl | rfl
      · simp at hks'
      · simpa using hks'
    exact ⟨hnd.2, fun u hu => hsub u (List.mem_cons_of_mem _ hu)⟩
  · -- the target just started runs
    intro ks' _ hr
    exact absurd hr (runningCount_ne_zero (t := t) (hsub t List.mem_cons_self) (by simp [forkTarget]))
  · intro u hu
    by_cases hut : u = t
    · subst hut; simp [forkTarget] at hu
    · exact absurd (by simpa [forkTarget, hut] using hu) (hnf u)
  · intro hb
    simp only [forkTarget, List.mem_append, List.mem_singleton] at hb
    rcases hb with hb | hb
    · exact absurd hb (h.nil_not_started (by simp [hpc]))
    · exact absurd hb.symm hne

theorem flow_breaker {P : Plan} {s : St} (hc : Core P s) (h : Flow s) {p : Pid} (hpc : s.pc = .check) :
    Flow (startTarget s (firstPending s) p fun _ => .wait) := by
  have hnf := h.no_failed (by simp [hpc]) (by simp [hpc]) (by simp [hpc])
  have hnil := h.nil_not_started (by simp [hpc])
  rcases firstPending_cases s with ht | ht
  · have hne := hc.ne_nil ht
    rw [startTarget_eq hne]
    refine ⟨by simp, by simp, ?_, ?_⟩
    · intro u hu
      by_cases hut : u = firstPending s
      · rw [hut] at hu; simp [forkTarget] at hu
      · exact absurd (by simpa [forkTarget, hut] using hu) (hnf u)
    · simp [forkTarget, hnil, Ne.symm hne]
  · rw [ht, startTarget_nil]
    exact ⟨by simp, by simp, fun u hu => absurd hu (hnf u), fun _ => rfl⟩

theorem flow_reap {P : Plan} {s : St} (hc : Core P s) (h : Flow s) {t : Name} {ks : List Name} {p : Pid} {rc : Nat}
    (hpc : s.pc = .detect (t :: ks)) (hd : deadJob s t = some (p, rc)) :
    Flow { endTarget s p rc with pc := .detect ks } := by
  obtain ⟨hnd, hsub⟩ := h.walk (t :: ks) (.inr hpc)
  rw [List.nodup_cons] at hnd
  have hto := hc.targetOf hd
  have hnil := h.nil_not_started (by simp [hpc])
  have hstarted : (endTarget s p rc).started = s.started := by
    unfold endTarget; split <;> rfl
  refine ⟨?_, by simp, fun _ _ => .inr (.inr ⟨ks, rfl⟩), fun hb => absurd (hstarted ▸ hb) hnil⟩
  intro ks' hks'
  obtain rfl : ks = ks' := by simpa using hks'
  refine ⟨hnd.2, fun u hu => ?_⟩
  have hu' := hsub u (List.mem_cons_of_mem _ hu)
  by_cases hrc : rc = 0
  · subst hrc
    rw [endTarget_ok hto]
    have hut : u ≠ t := by rintro rfl; exact hnd.1 hu
    simpa [hut] using hu'
  · rw [endTarget_fail hto hrc]
    exact hu'

theorem flow_fires {P : Plan} {s s' : St} {a : Act} (hc : Core P s) (h : Flow s) (hf : Fires P s a s') :
    Flow s' := by
  cases hf with
  | jobExit hp => exact ⟨h.walk, h.idle, h.failed, h.bad⟩
  | abort hpc _ _ => exact flow_pc h (by simp [hpc]) (by simp) (by simp) (by simp) fun _ _ => .inr rfl
  | @enter ks hpc hperm hnf =>
    refine ⟨?_, ?_, fun t ht => absurd ht (hnf t ?_), fun hb => absurd hb (h.nil_not_started (by simp [hpc]))⟩
    · intro ks' hks'
      obtain rfl : ks = ks' := by simpa using hks'
      exact ⟨hperm.nodup_iff.2 hc.nodup, fun t ht => hperm.mem_iff.1 ht⟩
    · intro ks' hks' _ t ht hks
      obtain rfl : ks = ks' := by simpa using hks'
      exact absurd (hperm.mem_iff.2 ht) hks
    · exact hc.mem_deplist ht (by simp)
  | @waited ks _ _ _ hpc hperm _ _ =>
    refine ⟨?_, by simp, fun _ _ => .inr (.inr ⟨ks, rfl⟩), fun hb => absurd hb (h.nil_not_started (by simp [hpc]))⟩
    intro ks' hks'
    obtain rfl : ks = ks' := by simpa using hks'
    exact ⟨hperm.nodup_iff.2 hc.nodup, fun t ht => hperm.mem_iff.1 ht⟩
  | launched hpc =>
    refine flow_pc h (by simp [hpc]) (by simp) (by simp) (fun _ t ht hr => h.idle [] (.inl hpc) hr t ht (by simp)) ?_
    intro t ht
    exact absurd ht (h.no_failed (by simp [hpc]) (by simp [hpc]) (by simp [hpc]) t)
  | full hpc hr =>
    refine flow_pc h (by simp [hpc]) (by simp) (by simp) (fun _ _ _ h0 => by omega) ?_
    intro t ht
    exact absurd ht (h.no_failed (by simp [hpc]) (by simp [hpc]) (by simp [hpc]) t)
  | start hpc _ ht _ _ => exact flow_start hc h hpc ht
  | @skip t ks _ hpc hno =>
    obtain ⟨hnd, hsub⟩ := h.walk _ (.inl hpc)
    rw [List.nodup_cons] at hnd
    have hnf := h.no_failed (by simp [hpc]) (by simp [hpc]) (by simp [hpc])
    refine ⟨?_, ?_, fun u hu => absurd hu (hnf u), fun hb => absurd hb (h.nil_not_started (by simp [hpc]))⟩
    · intro ks' hks'
      obtain rfl : ks = ks' := by simpa using hks'
      exact ⟨hnd.2, fun u hu => hsub u (List.mem_cons_of_mem _ hu)⟩
    · intro ks' hks' hr u hu huks
      obtain rfl : ks = ks' := by simpa using hks'
      by_cases hut : u = t
      · subst hut; exact hno
      · exact h.idle _ (.inl hpc) hr u hu (by simp [hut, huks])
  | finish hpc _ =>
    refine flow_pc h (by simp [hpc]) (by simp) (by simp) (by simp) fun t ht => ?_
    exact absurd ht (h.no_failed (by simp [hpc]) (by simp [hpc]) (by simp [hpc]) t)
  | breaker hpc _ _ _ => exact flow_breaker hc h hpc
  | sleep hpc _ _ =>
    refine flow_pc h (by simp [hpc]) (by simp) (by simp) (by simp) fun t ht => ?_
    exact absurd ht (h.no_failed (by simp [hpc]) (by simp [hpc]) (by simp [hpc]) t)
  | detected hpc => exact flow_pc h (by simp [hpc]) (by simp) (by simp) (by simp) fun _ _ => .inl rfl
  | reap hpc hd => exact flow_reap hc h hpc hd
  | @pass t ks _ hpc _ =>
    obtain ⟨hnd, hsub⟩ := h.walk _ (.inr hpc)
    rw [List.nodup_cons] at hnd
    refine ⟨?_, by simp, fun _ _ => .inr (.inr ⟨ks, rfl⟩), fun hb => absurd hb (h.nil_not_started (by simp [hpc]))⟩
    intro ks' hks'
    obtain rfl : ks = ks' := by simpa using hks'
    exact ⟨hnd.2, fun u hu => hsub u (List.mem_cons_of_mem _ hu)⟩

/-! ## Reachable states -/

theorem words_syncDeps (P : Plan) (t : Name) :
    words (syncDeps P t) = (words (P.dependencies t)).filter (· ∈ P.deplist) := by
  unfold syncDeps
  rw [words_append_space, words_flatMap_cons]
  exact fun w hw => isWord_of_mem_words (List.mem_of_mem_filter hw)

theorem core_init (P : Plan) : Core P P.init where
  nodup := P.nodup
  sub _ h := h
  done t ht := by simp [Plan.init, ht]
  known t := by simp [Plan.init]
  deps t ht d hd hdP := by
    simp only [Plan.init] at ht ⊢
    rw [if_pos ht, words_syncDeps]
    exact .inl (by simp [hd, hdP])
  depsSub t ht d hd := by
    simp only [Plan.init] at ht hd
    rw [if_pos ht, words_syncDeps] at hd
    simpa using hd
  job t ht := by simp [Plan.init] at ht
  alive p hp := by simp [Plan.init] at hp
  fresh := ⟨0, fun _ _ => rfl⟩
  started t ht := by simp [Plan.init, ht]
  once t _ := by simp [Plan.init]
  onlyKnown t ht := by simp [Plan.init] at ht

theorem flow_init (P : Plan) : Flow P.init :=
  ⟨by simp [Plan.init], by simp [Plan.init], fun _ _ => .inl rfl, by simp [Plan.init]⟩

/-- The whole invariant. -/
def Inv (P : Plan) (s : St) : Prop := Core P s ∧ Flow s

theorem inv_step {P : Plan} (s : St) (a : Act) (s' : St) (h : Inv P s) (hs : step P s a = some s') : Inv P s' :=
  have hf := step_fires hs
  ⟨core_fires h.1 hf, flow_fires h.1 h.2 hf⟩

theorem inv_reachable {P : Plan} {acts : List Act} {s : St} (h : Lts.run (step P) P.init acts = some s) : Inv P s :=
  Lts.run_inv inv_step ⟨core_init P, flow_init P⟩ h

/-! ## Safety -/

/-- What `start_target t` may rely on. -/
structure SafeStart (P : Plan) (s : St) (t : Name) : Prop where
  pending : s.state t = some .pending
  /-- The scheduled dependencies are done, or the cycle breaker fired: no target and no job is
  running, and no pending target has all its scheduled dependencies done. -/
  ordered : Ready P s t ∨
    ((∀ u, s.state u ≠ some .running) ∧ (∀ p, s.jobs p ≠ some .alive) ∧
      ∀ u, s.state u = some .pending → ¬ Ready P s u)
  notTwice : t ∉ s.started
  noFailed : ∀ u, s.state u ≠ some .failed

theorem safeStart_of_pending {P : Plan} {s : St} (h : Inv P s) {t : Name} (ht : s.state t = some .pending)
    (h1 : s.pc ≠ .head) (h2 : s.pc ≠ .exit 1) (h3 : ∀ ks, s.pc ≠ .detect ks)
    (hord : Ready P s t ∨ ((∀ u, s.state u ≠ some .running) ∧ (∀ p, s.jobs p ≠ some .alive) ∧
      ∀ u, s.state u = some .pending → ¬ Ready P s u)) : SafeStart P s t where
  pending := ht
  ordered := hord
  notTwice hs := (h.1.started t ((h.1.known t).1 (by simp [ht]))).1 hs ht
  noFailed := h.2.no_failed h1 h2 h3

theorem fires_started {P : Plan} {s s' : St} {a : Act} {t : Name} (hf : Fires P s a s')
    (hs : s'.started = s.started ++ [t]) :
    (∃ ks, s.pc = .launch (t :: ks) ∧ s.state t = some .pending ∧ isReady s t = true) ∨
    (s.pc = .check ∧ runningCount s = 0 ∧ t = firstPending s) := by
  cases hf with
  | start hpc _ ht hr _ =>
    rw [startTarget_started, List.append_cancel_left_eq, List.singleton_inj] at hs
    subst hs
    exact .inl ⟨_, hpc, ht, hr⟩
  | breaker hpc _ hr _ =>
    rw [startTarget_started, List.append_cancel_left_eq, List.singleton_inj] at hs
    exact .inr ⟨hpc, hr, hs.symm⟩
  | @reap u ks q p rc hpc hd =>
    have : (endTarget s p rc).started = s.started := by unfold endTarget; split <;> rfl
    rw [this] at hs
    simp at hs
  | _ => simp at hs

theorem safeStart_of_step {P : Plan} {a : Act} {s s' : St} {t : Name} (hinv : Inv P s) (hstep : step P s a = some s')
    (hstart : s'.started = s.started ++ [t]) (ht : t ∈ P.deplist) : SafeStart P s t := by
  obtain ⟨hc, hfl⟩ := hinv
  rcases fires_started (step_fires hstep) hstart with ⟨ks, hpc, hpend, hready⟩ | ⟨hpc, hr, htf⟩
  · have htd := (hfl.walk _ (.inl hpc)).2 t List.mem_cons_self
    exact safeStart_of_pending ⟨hc, hfl⟩ hpend (by simp [hpc]) (by simp [hpc]) (by simp [hpc])
      (.inl ((isReady_iff hc htd).1 hready))
  · have hpend : s.state t = some .pending := by
      rcases firstPending_cases s with h | h
      · rwa [htf]
      · exact absurd (h ▸ htf ▸ ht) P.nil_not_mem
    refine safeStart_of_pending ⟨hc, hfl⟩ hpend (by simp [hpc]) (by simp [hpc]) (by simp [hpc]) (.inr ⟨?_, ?_, ?_⟩)
    · exact not_running_of_count hc hr
    · exact no_alive_of_count hc (hfl.nil_not_started (by simp [hpc])) hr
    · intro u hu hready
      have hud := hc.mem_deplist hu (by simp)
      exact hfl.idle [] (.inr ⟨hpc, rfl⟩) hr u hud (by simp) ⟨hu, (isReady_iff hc hud).2 hready⟩

/-- **`start_target` is safe**: whenever a step of a run calls it on a scheduled target `t`. -/
theorem start_safe (P : Plan) (acts : List Act) (a : Act) (s s' : St) (t : Name)
    (hrun : Lts.run (step P) P.init acts = some s) (hstep : step P s a = some s')
    (hstart : s'.started = s.started ++ [t]) (ht : t ∈ P.deplist) : SafeStart P s t :=
  safeStart_of_step (inv_reachable hrun) hstep hstart ht

/-- `gcc` needs `glibc`, one job at a time. -/
def twoPlan : Plan where
  script := .emergePkg
  deplist := ["gcc".toList, "glibc".toList]
  dependencies t := if t = "gcc".toList then "glibc make".toList else []
  order := ["glibc".toList, "gcc".toList]
  JOBS := 1
  nodup := by decide
  names := by decide

/-- The first pass over `gcc glibc`: `gcc` is skipped. -/
def twoActs : List Act := [.walk ["gcc".toList, "glibc".toList], .tick 100]

/-- `glibc` is built, then `gcc`. -/
def twoBuild : List Act :=
  let ks := ["gcc".toList, "glibc".toList]
  let gcc := ["gcc".toList]
  [.walk ks, .tick 1, .tick 1, .tick 0, .jobExit 1 0, .walk ks, .tick 0, .tick 0, .tick 0,
    .walk gcc, .tick 2, .tick 0, .jobExit 2 0, .walk gcc, .tick 0, .tick 0, .walk [], .tick 0, .tick 0]

theorem start_safe_glibc :
    ∃ s s', Lts.run (step twoPlan) twoPlan.init twoActs = some s ∧ step twoPlan s (.tick 100) = some s' ∧
      SafeStart twoPlan s "glibc".toList := by
  have h : ((Lts.run (step twoPlan) twoPlan.init twoActs).bind fun s =>
      (step twoPlan s (.tick 100)).map fun s' => (s.started, s'.started)) = some ([], ["glibc".toList]) := by decide
  obtain ⟨s, hs, h⟩ := Option.bind_eq_some_iff.1 h
  obtain ⟨s', hs', h⟩ := Option.map_eq_some_iff.1 h
  obtain ⟨h0, h1⟩ := Prod.mk.inj h
  exact ⟨s, s', hs, hs', start_safe twoPlan twoActs (.tick 100) s s' _ hs hs' (by rw [h0, h1]; rfl) (by decide)⟩

end T2Sde.Scheduler
