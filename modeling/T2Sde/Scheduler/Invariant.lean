import T2Sde.Scheduler.Loop
/-!
# The invariant of the scheduling loop

`Core` is about the arrays and does not mention where the loop is; `Flow` is about the place in the
loop. Each is kept by every step (`core_fires`, `flow_fires`), from one lemma for each thing a step
does to the arrays: a job exits (`core_jobExit`), a target is started (`core_startTarget`), a target
is reaped (`core_endTarget`).
-/
namespace T2Sde.Scheduler
open Shell

/-- All scheduled dependencies of `t` are done. -/
def Ready (P : Plan) (s : St) (t : Name) : Prop :=
  ∀ d ∈ words (P.dependencies t), d ∈ P.deplist → s.state d = some .done

structure Core (P : Plan) (s : St) : Prop where
  nodup : s.deplist.Nodup
  sub : ∀ t ∈ s.deplist, t ∈ P.deplist
  /-- What left `deplist` is done, and nothing else is. -/
  done : ∀ t ∈ P.deplist, t ∉ s.deplist ↔ s.state t = some .done
  known : ∀ t, s.state t ≠ none ↔ t ∈ P.deplist
  /-- The words left in a dependency text are the scheduled dependencies, less some done ones. -/
  deps : ∀ t ∈ s.deplist, ∀ d ∈ words (P.dependencies t), d ∈ P.deplist →
    d ∈ words (s.dependencies t) ∨ s.state d = some .done
  depsSub : ∀ t ∈ s.deplist, ∀ d ∈ words (s.dependencies t), d ∈ words (P.dependencies t) ∧ d ∈ P.deplist
  job : ∀ t, s.state t = some .running → ∃ p, s.pidOf t = some p ∧ s.targetOf p = some t ∧ s.jobs p ≠ none
  alive : ∀ p, s.jobs p = some .alive → (∃ t, s.pidOf t = some p ∧ s.state t = some .running) ∨ [] ∈ s.started
  fresh : ∃ n : Nat, ∀ p : Nat, n ≤ p → s.jobs p = none
  started : ∀ t ∈ P.deplist, t ∈ s.started ↔ s.state t ≠ some .pending
  once : ∀ t ∈ P.deplist, s.started.count t ≤ 1
  onlyKnown : ∀ t ∈ s.started, t = [] ∨ t ∈ P.deplist

/-- What holds at each place of the loop. -/
structure Flow (s : St) : Prop where
  walk : ∀ ks, s.pc = .launch ks ∨ s.pc = .detect ks → ks.Nodup ∧ ∀ t ∈ ks, t ∈ s.deplist
  /-- If nothing runs, the launch loop has passed no ready target. -/
  idle : ∀ ks, s.pc = .launch ks ∨ (s.pc = .check ∧ ks = []) → runningCount s = 0 →
    ∀ t ∈ s.deplist, t ∉ ks → ¬ (s.state t = some .pending ∧ isReady s t = true)
  failed : ∀ t, s.state t = some .failed → s.pc = .head ∨ s.pc = .exit 1 ∨ ∃ ks, s.pc = .detect ks
  bad : [] ∈ s.started → s.pc = .badSubscript

theorem PkgName.isWord {t : Name} (h : PkgName t) : IsWord t := by
  refine ⟨h.1, fun c hc => ?_⟩
  have hn := h.2 c hc
  cases hb : isBlank c with
  | false => rfl
  | true =>
    simp only [isBlank, Bool.or_eq_true, beq_iff_eq] at hb
    rcases hb with (rfl | rfl) | rfl <;> simp [nameChar] at hn

theorem Plan.isWord {P : Plan} {t : Name} (h : t ∈ P.deplist) : IsWord t := (P.names t h).isWord

theorem Plan.nil_not_mem (P : Plan) : [] ∉ P.deplist := fun h => (P.names [] h).1 rfl

/-- A key whose state is not `done` is still in `deplist`. -/
theorem Core.mem_deplist {P : Plan} {s : St} (hc : Core P s) {t : Name} {x : TState}
    (h : s.state t = some x) (hx : x ≠ .done) : t ∈ s.deplist := by
  have ht : t ∈ P.deplist := (hc.known t).1 (by simp [h])
  by_contra hn
  have := (hc.done t ht).1 hn
  rw [h] at this
  exact hx (Option.some.inj this)

/-- `is_ready` answers for the dependencies the target started with. -/
theorem isReady_iff {P : Plan} {s : St} (hc : Core P s) {t : Name} (ht : t ∈ s.deplist) :
    isReady s t = true ↔ Ready P s t := by
  simp only [isReady, List.all_eq_true, beq_iff_eq]
  constructor
  · intro h d hd hdP
    rcases hc.deps t ht d hd hdP with h' | h'
    · exact h d h'
    · exact h'
  · intro h d hd
    obtain ⟨h1, h2⟩ := hc.depsSub t ht d hd
    exact h d h1 h2

theorem deadJob_eq_some {s : St} {t : Name} {p : Pid} {rc : Nat} :
    deadJob s t = some (p, rc) ↔
      s.state t = some .running ∧ s.pidOf t = some p ∧ s.jobs p = some (.exited rc) := by
  unfold deadJob
  split
  · rename_i hr
    cases hp : s.pidOf t with
    | none => simp [hr]
    | some q =>
      cases hj : s.jobs q with
      | none => simp only [hr, true_and, Option.some.injEq]; grind
      | some j => cases j <;> simp only [hr, true_and, Option.some.injEq] <;> grind
  · rename_i hr
    simp [hr]

/-! ## Starting a target -/

theorem startTarget_eq {s : St} {t : Name} {p : Pid} {next : St → Pc} (ht : t ≠ []) :
    startTarget s t p next = { forkTarget s t p with pc := next (forkTarget s t p) } := if_neg ht

theorem startTarget_nil (s : St) (p : Pid) (next : St → Pc) :
    startTarget s [] p next =
      { s with jobs := upd s.jobs p (some .alive), started := s.started ++ [[]], pc := .badSubscript } := by
  simp [startTarget]

theorem startTarget_started (s : St) (t : Name) (p : Pid) (next : St → Pc) :
    (startTarget s t p next).started = s.started ++ [t] := by
  unfold startTarget
  split <;> rfl

theorem core_pc {P : Plan} {s : St} (h : Core P s) (c : Pc) : Core P { s with pc := c } :=
  ⟨h.nodup, h.sub, h.done, h.known, h.deps, h.depsSub, h.job, h.alive, h.fresh, h.started, h.once, h.onlyKnown⟩

theorem fresh_upd {jobs : Pid → Option Job} (h : ∃ n : Nat, ∀ p : Nat, n ≤ p → jobs p = none) (p : Nat) (j : Job) :
    ∃ n : Nat, ∀ q : Nat, n ≤ q → upd jobs p (some j) q = none := by
  obtain ⟨n, hn⟩ := h
  refine ⟨n + p + 1, fun q hq => ?_⟩
  have hqp : q ≠ p := by omega
  rw [upd_ne _ _ _ _ hqp]
  exact hn q (by omega)

theorem core_jobExit {P : Plan} {s : St} (h : Core P s) {p : Pid} {rc : Nat} (hp : s.jobs p = some .alive) :
    Core P { s with jobs := upd s.jobs p (some (.exited rc)) } where
  nodup := h.nodup
  sub := h.sub
  done := h.done
  known := h.known
  deps := h.deps
  depsSub := h.depsSub
  job t ht := by
    obtain ⟨q, h1, h2, h3⟩ := h.job t ht
    refine ⟨q, h1, h2, ?_⟩
    by_cases hq : q = p
    · subst hq; simp
    · simpa [hq] using h3
  alive q hq := by
    by_cases hqp : q = p
    · subst hqp; simp at hq
    · exact h.alive q (by simpa [hqp] using hq)
  fresh := fresh_upd h.fresh p _
  started := h.started
  once := h.once
  onlyKnown := h.onlyKnown

/-- A pending target is a scheduled one, so its name is not empty. -/
theorem Core.ne_nil {P : Plan} {s : St} (h : Core P s) {t : Name} {x : TState} (ht : s.state t = some x) : t ≠ [] :=
  fun he => P.nil_not_mem (he ▸ (h.known t).1 (by simp [ht]))

/-- A pending target moves to `running`, under a pid no target has. -/
theorem core_forkTarget {P : Plan} {s : St} (h : Core P s) {t : Name} {p : Pid}
    (ht : s.state t = some .pending) (hp : s.jobs p = none) : Core P (forkTarget s t p) := by
  have htP : t ∈ P.deplist := (h.known t).1 (by simp [ht])
  have hns : t ∉ s.started := fun hs => (h.started t htP).1 hs ht
  unfold forkTarget
  refine ⟨h.nodup, h.sub, ?_, ?_, ?_, h.depsSub, ?_, ?_, fresh_upd h.fresh p _, ?_, ?_, ?_⟩
  · intro u hu
    by_cases hut : u = t
    · subst hut
      simp [h.mem_deplist ht (by simp)]
    · simpa [hut] using h.done u hu
  · intro u
    by_cases hut : u = t
    · subst hut; simpa using htP
    · simpa [hut] using h.known u
  · intro u hu d hd hdP
    rcases h.deps u hu d hd hdP with h' | h'
    · exact .inl h'
    · have hdt : d ≠ t := by rintro rfl; rw [ht] at h'; cases h'
      exact .inr (by simpa [hdt] using h')
  · intro u hu
    by_cases hut : u = t
    · subst hut; exact ⟨p, by simp, by simp, by simp⟩
    · simp only [upd_ne _ _ _ _ hut] at hu ⊢
      obtain ⟨q, h1, h2, h3⟩ := h.job u hu
      have hqp : q ≠ p := by rintro rfl; exact h3 hp
      exact ⟨q, h1, by simpa [hqp] using h2, by simpa [hqp] using h3⟩
  · intro q hq
    by_cases hqp : q = p
    · subst hqp; exact .inl ⟨t, by simp, by simp⟩
    · rcases h.alive q (by simpa [hqp] using hq) with ⟨u, h1, h2⟩ | h'
      · have hut : u ≠ t := by rintro rfl; rw [ht] at h2; cases h2
        exact .inl ⟨u, by simpa [hut] using h1, by simpa [hut] using h2⟩
      · exact .inr (by simp [h'])
  · intro u hu
    by_cases hut : u = t
    · subst hut; simp
    · simpa [hut] using h.started u hu
  · intro u hu
    rw [List.count_append]
    by_cases hut : u = t
    · subst hut
      simp [List.count_eq_zero_of_not_mem hns]
    · simpa [List.count_singleton, Ne.symm hut] using h.once u hu
  · intro u hu
    rcases List.mem_append.1 hu with hu | hu
    · exact h.onlyKnown u hu
    · exact .inr (by simpa [List.mem_singleton.1 hu] using htP)

theorem core_startTarget {P : Plan} {s : St} (h : Core P s) {t : Name} {p : Pid} (next : St → Pc)
    (ht : s.state t = some .pending) (hp : s.jobs p = none) : Core P (startTarget s t p next) := by
  rw [startTarget_eq (h.ne_nil ht)]
  exact core_pc (core_forkTarget h ht hp) _

/-- `start_target ""`: a job is forked and the script ends. -/
theorem core_startTarget_nil {P : Plan} {s : St} (h : Core P s) (p : Pid) (next : St → Pc) (hp : s.jobs p = none) :
    Core P (startTarget s [] p next) := by
  rw [startTarget_nil]
  refine ⟨h.nodup, h.sub, h.done, h.known, h.deps, h.depsSub, ?_, fun _ _ => .inr (by simp), fresh_upd h.fresh p _,
    ?_, ?_, ?_⟩
  · intro t ht
    obtain ⟨q, h1, h2, h3⟩ := h.job t ht
    have hqp : q ≠ p := by rintro rfl; exact h3 hp
    exact ⟨q, h1, h2, by simpa [hqp] using h3⟩
  · intro t ht
    have htn : t ≠ [] := fun he => P.nil_not_mem (he ▸ ht)
    simpa [htn] using h.started t ht
  · intro t ht
    have htn : t ≠ [] := fun he => P.nil_not_mem (he ▸ ht)
    simpa [List.count_append, List.count_singleton, Ne.symm htn] using h.once t ht
  · intro t ht
    rcases List.mem_append.1 ht with ht | ht
    · exact h.onlyKnown t ht
    · exact .inl (by simpa using ht)

/-! ## Reaping a target -/

theorem endTarget_ok {s : St} {t : Name} {p : Pid} (ht : s.targetOf p = some t) :
    endTarget s p 0 =
      { s with
        state := upd s.state t (some .done)
        targets := replaceFirst (' ' :: t) [' '] (' ' :: s.targets ++ [' '])
        deplist := s.deplist.filter (· ≠ t)
        dependencies := fun d =>
          if d ∈ s.deplist.filter (· ≠ t) then replaceFirst (' ' :: t ++ [' ']) [' '] (s.dependencies d)
          else if d = t then [] else s.dependencies d } := by
  simp [endTarget, ht]

theorem endTarget_fail {s : St} {t : Name} {p : Pid} {rc : Nat} (ht : s.targetOf p = some t) (hrc : rc ≠ 0) :
    endTarget s p rc = { s with state := upd s.state t (some .failed) } := by
  simp [endTarget, ht, hrc]

/-- The target that is reaped is the one the pid was given to. -/
theorem Core.targetOf {P : Plan} {s : St} (h : Core P s) {t : Name} {p : Pid} {rc : Nat}
    (hd : deadJob s t = some (p, rc)) : s.targetOf p = some t := by
  obtain ⟨h1, h2, -⟩ := deadJob_eq_some.1 hd
  obtain ⟨q, hq, hqt, -⟩ := h.job t h1
  rw [h2] at hq
  cases hq
  exact hqt

theorem core_endTarget {P : Plan} {s : St} (h : Core P s) {t : Name} {p : Pid} {rc : Nat}
    (hd : deadJob s t = some (p, rc)) : Core P (endTarget s p rc) := by
  obtain ⟨hrun, hpid, hjob⟩ := deadJob_eq_some.1 hd
  have hto := h.targetOf hd
  have htP : t ∈ P.deplist := (h.known t).1 (by simp [hrun])
  have hts : t ∈ s.started := (h.started t htP).2 (by simp [hrun])
  -- what both outcomes share: only `t` leaves `running`
  have hjobs : ∀ u, u ≠ t → s.state u = some .running →
      ∃ q, s.pidOf u = some q ∧ s.targetOf q = some u ∧ s.jobs q ≠ none := fun u _ hu => h.job u hu
  have halive : ∀ x : TState, ∀ q, s.jobs q = some .alive →
      (∃ u, s.pidOf u = some q ∧ upd s.state t (some x) u = some .running) ∨ [] ∈ s.started := by
    intro x q hq
    rcases h.alive q hq with ⟨u, h1, h2⟩ | h'
    · have hut : u ≠ t := by
        rintro rfl
        rw [hpid] at h1; cases h1
        rw [hjob] at hq; cases hq
      exact .inl ⟨u, h1, by simpa [hut] using h2⟩
    · exact .inr h'
  by_cases hrc : rc = 0
  · subst hrc
    rw [endTarget_ok hto]
    refine ⟨h.nodup.filter _, fun u hu => h.sub u (List.mem_of_mem_filter hu), ?_, ?_, ?_, ?_, ?_, halive _, h.fresh,
      ?_, h.once, h.onlyKnown⟩
    · intro u hu
      by_cases hut : u = t
      · subst hut; simp
      · simpa [hut] using h.done u hu
    · intro u
      by_cases hut : u = t
      · subst hut; simpa using htP
      · simpa [hut] using h.known u
    · intro u hu d hdw hdP
      dsimp only at hu ⊢
      rw [if_pos hu]
      by_cases hdt : d = t
      · exact .inr (by simp [hdt])
      · rcases h.deps u (List.mem_of_mem_filter hu) d hdw hdP with h' | h'
        · exact .inl (mem_words_replaceFirst (Plan.isWord htP) _ h' hdt)
        · exact .inr (by simpa [hdt] using h')
    · intro u hu d hdw
      dsimp only at hu hdw
      rw [if_pos hu] at hdw
      exact h.depsSub u (List.mem_of_mem_filter hu) d (mem_of_mem_words_replaceFirst _ hdw)
    · intro u hu
      by_cases hut : u = t
      · subst hut; simp at hu
      · exact hjobs u hut (by simpa [hut] using hu)
    · intro u hu
      by_cases hut : u = t
      · subst hut; simpa using hts
      · simpa [hut] using h.started u hu
  · rw [endTarget_fail hto hrc]
    refine ⟨h.nodup, h.sub, ?_, ?_, ?_, h.depsSub, ?_, halive _, h.fresh, ?_, h.once, h.onlyKnown⟩
    · intro u hu
      by_cases hut : u = t
      · subst hut
        simp [h.mem_deplist hrun (by simp)]
      · simpa [hut] using h.done u hu
    · intro u
      by_cases hut : u = t
      · subst hut; simpa using htP
      · simpa [hut] using h.known u
    · intro u hu d hdw hdP
      rcases h.deps u hu d hdw hdP with h' | h'
      · exact .inl h'
      · have hdt : d ≠ t := by rintro rfl; rw [hrun] at h'; cases h'
        exact .inr (by simpa [hdt] using h')
    · intro u hu
      by_cases hut : u = t
      · subst hut; simp at hu
      · exact hjobs u hut (by simpa [hut] using hu)
    · intro u hu
      by_cases hut : u = t
      · subst hut; simpa using hts
      · simpa [hut] using h.started u hu

/-- The cycle breaker takes a pending target, or none. -/
theorem firstPending_cases (s : St) :
    s.state (firstPending s) = some .pending ∨ firstPending s = [] := by
  unfold firstPending
  cases hf : (words s.targets).find? fun t => s.state t == some .pending with
  | none => exact .inr rfl
  | some t => exact .inl (by simpa using List.find?_some hf)

theorem core_fires {P : Plan} {s s' : St} {a : Act} (h : Core P s) (hf : Fires P s a s') : Core P s' := by
  cases hf with
  | jobExit hp => exact core_jobExit h hp
  | start _ _ ht _ hp => exact core_startTarget h _ ht hp
  | breaker _ _ _ hp =>
    rcases firstPending_cases s with ht | ht
    · exact core_startTarget h _ ht hp
    · rw [ht]; exact core_startTarget_nil h _ _ hp
  | reap _ hd => exact core_pc (core_endTarget h hd) _
  | _ => exact core_pc h _

end T2Sde.Scheduler
