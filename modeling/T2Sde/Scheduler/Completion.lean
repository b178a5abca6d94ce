import Mathlib.Data.List.Nodup
import Mathlib.Data.List.Perm.Subperm
import T2Sde.Scheduler.WorkList
import T2Sde.Scheduler.JobBound
/-!
# Completion of the scheduling loop

`orderly_iff`: a run in which every job exits 0 keeps `targets` in step with `deplist`, lets the cycle
breaker find a pending target and ends with every target built exactly once if and only if none of
its steps cuts a longer word of `targets` (`Clean`). `not_orderly_glib` is a run that does.

The loop ends because of `loopMeasure`: a round of the loop waits for a dead job (`rounds` counts the
targets that outlive the detection pass), within a round the place moves on (`phase`), and a job
exits once (`undead`).
-/
namespace T2Sde.Scheduler
open Shell

/-! ## The measure -/

def isDead (s : St) (t : Name) : Bool := (deadJob s t).isSome

/-- The targets left once the detection pass, if one is under way, is over. -/
def rounds (s : St) : Nat :=
  match s.pc with
  | .detect ks => s.deplist.length - ks.countP (isDead s)
  | _ => s.deplist.length

/-- How far a round has come, counted down from the detection pass to `wait -n`. -/
def phase (n : Nat) : Pc → Nat
  | .detect ks => n + 5 + ks.length
  | .head => n + 4
  | .launch ks => 3 + ks.length
  | .check => 2
  | .wait => 1
  | .exit _ | .badSubscript => 0

/-- The targets whose job has not exited. -/
def undead (s : St) : Nat := s.deplist.countP fun t => !isDead s t

def loopMeasure (P : Plan) (s : St) : Nat :=
  (2 * P.deplist.length + 5) * rounds s + phase P.deplist.length s.pc + undead s

theorem loopMeasure_lt_of_le {P : Plan} {s s' : St} (hr : rounds s' ≤ rounds s)
    (h : phase P.deplist.length s'.pc + undead s' < phase P.deplist.length s.pc + undead s) :
    loopMeasure P s' < loopMeasure P s := by
  have := Nat.mul_le_mul_left (2 * P.deplist.length + 5) hr
  unfold loopMeasure
  omega

/-- A new round pays for the longest phase. -/
theorem loopMeasure_lt_of_lt {P : Plan} {s s' : St} (hr : rounds s' < rounds s)
    (h : phase P.deplist.length s'.pc + undead s' <
      (2 * P.deplist.length + 5) + phase P.deplist.length s.pc + undead s) :
    loopMeasure P s' < loopMeasure P s := by
  have := Nat.mul_le_mul_left (2 * P.deplist.length + 5) (Nat.succ_le_of_lt hr)
  rw [Nat.mul_succ] at this
  unfold loopMeasure
  omega

theorem deplist_length_le {P : Plan} {s : St} (hc : Core P s) : s.deplist.length ≤ P.deplist.length :=
  (List.subperm_of_subset hc.nodup hc.sub).length_le

theorem isDead_fork {P : Plan} {s : St} (hc : Core P s) {t : Name} {p : Pid} (ht : s.state t = some .pending)
    (hp : s.jobs p = none) (u : Name) : isDead (forkTarget s t p) u = isDead s u := by
  by_cases hut : u = t
  · subst hut
    simp [isDead, deadJob, forkTarget, ht]
  · have hpid : s.state u = some .running → ∃ q, s.pidOf u = some q ∧ q ≠ p := by
      intro hr
      obtain ⟨q, h1, -, h3⟩ := hc.job u hr
      exact ⟨q, h1, by rintro rfl; exact h3 hp⟩
    simp only [isDead, deadJob, forkTarget, upd_ne _ _ _ _ hut]
    split
    · rename_i hr
      obtain ⟨q, hq, hqp⟩ := hpid hr
      simp [hq, upd_ne _ _ _ _ hqp]
    · rfl

theorem isDead_endTarget {P : Plan} {s : St} (hc : Core P s) {t u : Name} {p : Pid}
    (hd : deadJob s t = some (p, 0)) (hut : u ≠ t) : isDead (endTarget s p 0) u = isDead s u := by
  simp [isDead, deadJob, endTarget_ok (hc.targetOf hd), upd_ne _ _ _ _ hut]

theorem isDead_jobExit {s : St} {t : Name} {p : Pid} {rc : Nat} (hp : s.jobs p = some .alive)
    (h : isDead s t = true) : isDead { s with jobs := upd s.jobs p (some (.exited rc)) } t = true := by
  obtain ⟨⟨q, rc'⟩, hq⟩ := Option.isSome_iff_exists.1 h
  rw [isDead, deadJob_jobExit hp hq]
  rfl

/-- The exit of a job makes one target dead. -/
theorem undead_jobExit {P : Plan} {s : St} (hc : Core P s) (hnil : [] ∉ s.started) {p : Pid} {rc : Nat}
    (hp : s.jobs p = some .alive) :
    undead { s with jobs := upd s.jobs p (some (.exited rc)) } + 1 = undead s := by
  obtain ⟨t, hpid, hr⟩ := (hc.alive p hp).resolve_right hnil
  refine (countP_succ_of hc.nodup (hc.mem_deplist hr (by simp)) ?_ ?_ fun u _ hut => ?_).symm
  · simp [isDead, deadJob, hr, hpid]
  · simp [isDead, deadJob, hr, hpid, hp]
  · -- another running target has another pid
    congr 1
    simp only [isDead, deadJob]
    split
    · rename_i hru
      obtain ⟨q, h1, h2, -⟩ := hc.job u hru
      have hqp : q ≠ p := by
        rintro rfl
        obtain ⟨q', h1', h2', -⟩ := hc.job t hr
        rw [hpid] at h1'
        cases h1'
        rw [h2] at h2'
        exact hut (Option.some.inj h2')
      simp [h1, upd_ne _ _ _ _ hqp]
    · rfl

theorem rounds_jobExit {s : St} {p : Pid} {rc : Nat} (hp : s.jobs p = some .alive) :
    rounds { s with jobs := upd s.jobs p (some (.exited rc)) } ≤ rounds s := by
  unfold rounds
  cases hpc : s.pc with
  | detect ks =>
    have : ks.countP (isDead s) ≤ ks.countP (isDead { s with jobs := upd s.jobs p (some (.exited rc)) }) :=
      List.countP_mono_left fun t _ h => isDead_jobExit hp h
    simp only [hpc] at this ⊢
    omega
  | _ => exact Nat.le_refl _

theorem length_filter_ne {P : Plan} {s : St} (hc : Core P s) {t : Name} (ht : t ∈ s.deplist) :
    (s.deplist.filter (· ≠ t)).length + 1 = s.deplist.length := by
  have h := List.length_erase_of_mem ht
  rw [hc.nodup.erase_eq_filter] at h
  have hpos := List.length_pos_of_mem ht
  have hbne : (fun u => decide (u ≠ t)) = fun u : Name => u != t := by
    funext u
    by_cases hut : u = t <;> simp [hut]
  rw [hbne]
  omega

/-- Reaping the dead target `t` at the head of the detection pass. -/
theorem loopMeasure_reap {P : Plan} {s : St} (hi : Inv P s) {t : Name} {ks : List Name} {p : Pid}
    (hpc : s.pc = .detect (t :: ks)) (hd : deadJob s t = some (p, 0)) :
    loopMeasure P { endTarget s p 0 with pc := .detect ks } < loopMeasure P s := by
  obtain ⟨hc, hfl⟩ := hi
  obtain ⟨hnd, hsub⟩ := hfl.walk _ (.inr hpc)
  rw [List.nodup_cons] at hnd
  have hlen := length_filter_ne hc (hsub t List.mem_cons_self)
  have hdep : (endTarget s p 0).deplist = s.deplist.filter (· ≠ t) := by rw [endTarget_ok (hc.targetOf hd)]
  have htd : isDead s t = true := by simp [isDead, hd]
  have hks : ks.countP (isDead (endTarget s p 0)) = ks.countP (isDead s) :=
    List.countP_congr fun u hu => by rw [isDead_endTarget hc hd (by rintro rfl; exact hnd.1 hu)]
  have hrounds : rounds { endTarget s p 0 with pc := .detect ks } = rounds s := by
    show (endTarget s p 0).deplist.length - ks.countP (isDead (endTarget s p 0)) = rounds s
    rw [rounds, hpc, hdep, hks]
    simp only [List.countP_cons, htd, if_true]
    omega
  have hundead : undead { endTarget s p 0 with pc := .detect ks } = undead s := by
    show (endTarget s p 0).deplist.countP (fun u => !isDead (endTarget s p 0) u) = undead s
    rw [hdep, List.countP_filter, undead]
    refine List.countP_congr fun u _ => ?_
    by_cases hut : u = t
    · subst hut; simp [htd]
    · simp [hut, isDead_endTarget hc hd hut]
  refine loopMeasure_lt_of_le (Nat.le_of_eq hrounds) ?_
  rw [hundead, hpc]
  simp only [phase, List.length_cons]
  omega

/-- Starting a target takes none of them away and makes none dead. -/
theorem loopMeasure_fork {P : Plan} {s : St} (hc : Core P s) {t : Name} {p : Pid} {c : Pc}
    (ht : s.state t = some .pending) (hp : s.jobs p = none) (h1 : ∀ ks, s.pc ≠ .detect ks)
    (h2 : ∀ ks, c ≠ .detect ks) (hphase : phase P.deplist.length c < phase P.deplist.length s.pc) :
    loopMeasure P { forkTarget s t p with pc := c } < loopMeasure P s := by
  have hlen : ∀ s : St, (∀ ks, s.pc ≠ .detect ks) → rounds s = s.deplist.length := by
    intro s h
    unfold rounds
    split
    · rename_i ks hks; exact absurd hks (h ks)
    · rfl
  have hundead : undead { forkTarget s t p with pc := c } = undead s :=
    List.countP_congr fun u _ => by
      have := isDead_fork hc ht hp u
      simp only [Bool.not_eq_eq_eq_not, Bool.not_true]
      exact this ▸ Iff.rfl
  refine loopMeasure_lt_of_le ?_ (by rw [hundead]; simp only; omega)
  rw [hlen s h1, hlen _ (by simpa using h2)]
  exact Nat.le_refl _

/-- A run in which every job exited 0, whatever became of `targets`. -/
structure Calm (s : St) : Prop where
  zero : ∀ p rc, s.jobs p = some (.exited rc) → rc = 0
  noFailed : ∀ t, s.state t ≠ some .failed
  noNil : [] ∉ s.started
  waiting : s.pc = .wait → ∃ t, s.state t = some .running
  exit : ∀ rc, s.pc = .exit rc → rc = 0 ∧ s.deplist = []
  noBad : s.pc ≠ .badSubscript

theorem Lined.calm {P : Plan} {s : St} (h : Lined P s) : Calm s :=
  ⟨h.zero, h.noFailed, h.noNil, h.waiting, h.exit, h.noBad⟩

/-- The cycle breaker has a target to start. -/
def BreakerReady (s : St) : Prop :=
  s.pc = .check → allDone s = false → runningCount s = 0 → s.state (firstPending s) = some .pending

theorem Calm.loopMeasure_fires {P : Plan} {s s' : St} {a : Act} (hl : Calm s) (hbr : BreakerReady s) (hi : Inv P s)
    (hf : Fires P s a s') : loopMeasure P s' < loopMeasure P s := by
  have hc := hi.1
  have hn := deplist_length_le hc
  cases hf with
  | @jobExit p rc hp =>
    have h1 : undead { s with jobs := upd s.jobs p (some (.exited rc)) } + 1 = undead s := undead_jobExit hc hl.noNil hp
    exact loopMeasure_lt_of_le (rounds_jobExit hp) (by simp only at h1 ⊢; omega)
  | abort _ _ hft => exact absurd hft (hl.noFailed _)
  | @enter ks hpc hperm _ =>
    refine loopMeasure_lt_of_le (by simp [rounds, hpc]) ?_
    have := hperm.length_eq
    simp only [hpc, phase]
    show 3 + ks.length + undead s < _
    omega
  | @waited ks t p rc hpc hperm ht hd =>
    have hlen := hperm.length_eq
    have hpos : 0 < ks.countP (isDead s) := List.countP_pos_iff.2 ⟨t, ht, by simp [isDead, hd]⟩
    have hle : ks.countP (isDead s) ≤ ks.length := List.countP_le_length
    refine loopMeasure_lt_of_lt ?_ ?_
    · show s.deplist.length - ks.countP (isDead s) < rounds s
      simp only [rounds, hpc]
      omega
    · simp only [hpc, phase]
      show P.deplist.length + 5 + ks.length + undead s < _
      omega
  | launched hpc =>
    refine loopMeasure_lt_of_le (by simp [rounds, hpc]) ?_
    simp only [hpc, phase]
    show 2 + undead s < _
    simp
  | @full t ks p hpc _ =>
    refine loopMeasure_lt_of_le (by simp [rounds, hpc]) ?_
    simp only [hpc, phase, List.length_cons]
    show 2 + undead s < _
    omega
  | @start t ks p hpc _ ht _ hp =>
    rw [startTarget_eq (hc.ne_nil ht)]
    refine loopMeasure_fork hc ht hp (by simp [hpc]) ?_ ?_
    · intro ks; split <;> simp
    · rw [hpc]
      by_cases hfull : runningCount (forkTarget s t p) ≥ P.JOBS
      · rw [if_pos hfull]; simp only [phase]; omega
      · rw [if_neg hfull]; simp only [phase, List.length_cons]; omega
  | @skip t ks p hpc _ =>
    refine loopMeasure_lt_of_le (by simp [rounds, hpc]) ?_
    simp only [hpc, phase, List.length_cons]
    show 3 + ks.length + undead s < _
    omega
  | finish hpc _ =>
    refine loopMeasure_lt_of_le (by simp [rounds, hpc]) ?_
    simp only [hpc, phase]
    show 0 + undead s < _
    omega
  | breaker hpc hd hr hp =>
    have ht := hbr hpc hd hr
    rw [startTarget_eq (hc.ne_nil ht)]
    exact loopMeasure_fork hc ht hp (by simp [hpc]) (by simp) (by simp [hpc, phase])
  | sleep hpc _ _ =>
    refine loopMeasure_lt_of_le (by simp [rounds, hpc]) ?_
    simp only [hpc, phase]
    show 1 + undead s < _
    omega
  | detected hpc =>
    refine loopMeasure_lt_of_le (by simp [rounds, hpc]) ?_
    simp only [hpc, phase, List.length_nil]
    show P.deplist.length + 4 + undead s < _
    omega
  | @reap t ks q p rc hpc hd =>
    obtain rfl := hl.zero p rc (deadJob_eq_some.1 hd).2.2
    exact loopMeasure_reap hi hpc hd
  | @pass t ks q hpc hd =>
    refine loopMeasure_lt_of_le ?_ ?_
    · show s.deplist.length - ks.countP (isDead s) ≤ rounds s
      simp [rounds, hpc, isDead, hd]
    · simp only [hpc, phase, List.length_cons]
      show P.deplist.length + 5 + ks.length + undead s < _
      omega

theorem loopMeasure_fires {P : Plan} {s s' : St} {a : Act} (hP : P.order.Perm P.deplist) (hi : Inv P s)
    (hl : Lined P s) (hf : Fires P s a s') : loopMeasure P s' < loopMeasure P s :=
  hl.calm.loopMeasure_fires (fun _ hd hr => firstPending_pending hP hi.1 hl hr hd) hi hf

/-! ## Progress -/

theorem Calm.can_step {P : Plan} {s : St} (hl : Calm s) (hi : Inv P s) (hend : s.pc ≠ .exit 0) :
    ∃ a s', ExitsZero a ∧ step P s a = some s' := by
  obtain ⟨hc, -⟩ := hi
  obtain ⟨n, hn⟩ := hc.fresh
  have hp : s.jobs n = none := hn n (Nat.le_refl _)
  have hself : s.deplist.isPerm s.deplist = true := List.isPerm_iff.2 (List.Perm.refl _)
  cases hpc : s.pc with
  | head => exact ⟨.walk s.deplist, _, trivial, by simp [step, hpc, hself]; rfl⟩
  | launch ks =>
    cases ks with
    | nil => exact ⟨.tick n, _, trivial, by simp [step, hpc]; rfl⟩
    | cons t ks =>
      refine ⟨.tick n, ?_⟩
      simp only [step, hpc, launchStep, hp, if_true]
      split
      · exact ⟨_, trivial, rfl⟩
      · split <;> exact ⟨_, trivial, rfl⟩
  | check =>
    refine ⟨.tick n, ?_⟩
    simp only [step, hpc, checkStep, hp, if_true]
    split
    · exact ⟨_, trivial, rfl⟩
    · split <;> exact ⟨_, trivial, rfl⟩
  | wait =>
    obtain ⟨t, hr⟩ := hl.waiting hpc
    obtain ⟨p, h1, -, h3⟩ := hc.job t hr
    cases hj : s.jobs p with
    | none => exact absurd hj h3
    | some j =>
      cases j with
      | alive => exact ⟨.jobExit p 0, _, rfl, by simp [step, hj]; rfl⟩
      | exited rc =>
        refine ⟨.walk s.deplist, { s with pc := .detect s.deplist }, trivial, ?_⟩
        have hany : (s.deplist.any fun t => (deadJob s t).isSome) = true :=
          List.any_eq_true.2 ⟨t, hc.mem_deplist hr (by simp), by rw [deadJob_eq_some.2 ⟨hr, h1, hj⟩]; rfl⟩
        simp [step, hpc, hself, hany]
  | detect ks =>
    cases ks with
    | nil => exact ⟨.tick n, _, trivial, by simp [step, hpc]; rfl⟩
    | cons t ks => exact ⟨.tick n, _, trivial, by simp [step, hpc]; rfl⟩
  | exit rc => exact absurd (by rw [hpc, (hl.exit rc hpc).1]) hend
  | badSubscript => exact absurd hpc hl.noBad

/-- Wherever the loop is, the script or a job can go on until `exit 0` is reached. -/
theorem can_step {P : Plan} {s : St} (hi : Inv P s) (hl : Lined P s) (hend : s.pc ≠ .exit 0) :
    ∃ a s', ExitsZero a ∧ step P s a = some s' := hl.calm.can_step hi hend

theorem Calm.built_of_exit {P : Plan} {s : St} (hl : Calm s) (hi : Inv P s) (hend : s.pc = .exit 0) :
    s.started.Perm P.deplist ∧ ∀ t ∈ P.deplist, s.state t = some .done := by
  obtain ⟨hc, -⟩ := hi
  have hempty := (hl.exit 0 hend).2
  have hdone : ∀ t ∈ P.deplist, s.state t = some .done :=
    fun t ht => (hc.done t ht).1 (by simp [hempty])
  refine ⟨List.perm_iff_count.2 fun t => ?_, hdone⟩
  by_cases ht : t ∈ P.deplist
  · have hmem : t ∈ s.started := (hc.started t ht).2 (by simp [hdone t ht])
    have hpos := List.count_pos_iff.2 hmem
    have hone := hc.once t ht
    rw [List.count_eq_one_of_mem P.nodup ht]
    omega
  · have hnot : t ∉ s.started := fun h =>
      (hc.onlyKnown t h).elim (fun h0 => hl.noNil (h0 ▸ h)) ht
    rw [List.count_eq_zero_of_not_mem ht, List.count_eq_zero_of_not_mem hnot]

/-- At the end every target has been started once and is done. -/
theorem built_of_exit {P : Plan} {s : St} (hi : Inv P s) (hl : Lined P s) (hend : s.pc = .exit 0) :
    s.started.Perm P.deplist ∧ ∀ t ∈ P.deplist, s.state t = some .done := hl.calm.built_of_exit hi hend

/-! ## The result -/

/-- The cycle breaker, when it fires, finds the first pending target of `targets` and starts it. -/
def BreakerFires (P : Plan) (s : St) (a : Act) : Prop :=
  ∀ s', step P s a = some s' → s.pc = .check → allDone s = false → runningCount s = 0 → (∃ p, a = .tick p) →
    ∃ t ∈ P.deplist, (words s.targets).find? (fun t => s.state t == some .pending) = some t ∧
      s'.started = s.started ++ [t] ∧ s'.state t = some .running

/-- What the loop owes in a run in which every job exits 0. -/
structure Orderly (P : Plan) (acts : List Act) : Prop where
  list : Lts.Along (step P) (ListKept P) P.init acts
  breaker : Lts.Along (step P) (BreakerFires P) P.init acts
  /-- No run is longer than this. -/
  bounded : ∀ s, Lts.run (step P) P.init acts = some s → acts.length ≤ loopMeasure P P.init
  /-- No run stops before `exit 0`. -/
  onward : ∀ s, Lts.run (step P) P.init acts = some s → s.pc ≠ .exit 0 →
    ∃ a s', ExitsZero a ∧ step P s a = some s'
  built : ∀ s, Lts.run (step P) P.init acts = some s → s.pc = .exit 0 →
    s.started.Perm P.deplist ∧ ∀ t ∈ P.deplist, s.state t = some .done

theorem breakerFires_of_lined {P : Plan} {s : St} (hP : P.order.Perm P.deplist) (hi : Inv P s) (hl : Lined P s)
    (a : Act) : BreakerFires P s a := by
  rintro s' hs' hpc hd hr ⟨p, rfl⟩
  obtain ⟨t, ht, hfind⟩ := firstPending_of_idle hP hi.1 hl hr hd
  have hfirst : firstPending s = t := by rw [firstPending, hfind]; rfl
  have hne : t ≠ [] := fun he => P.nil_not_mem (he ▸ ht)
  simp only [step, hpc, checkStep, hd, hr, hfirst] at hs'
  split at hs'
  · simp_all
  · simp only [if_true] at hs'
    split at hs'
    · cases hs'
      rw [startTarget_eq hne]
      exact ⟨t, ht, hfind, rfl, by simp [forkTarget]⟩
    · cases hs'

theorem lined_step {P : Plan} (hP : P.order.Perm P.deplist) (s : St) (a : Act) (s' : St)
    (h : Inv P s ∧ Lined P s) (hC : Clean s a ∧ ExitsZero a) (hs : step P s a = some s') : Inv P s' ∧ Lined P s' :=
  ⟨inv_step s a s' h.1 hs, lined_fires hP h.1 h.2 hC.1 hC.2 (step_fires hs)⟩

/-- **Completion**: a run in which every job exits 0 is orderly iff no step of it cuts a longer word
of `targets` than the target that is done. -/
theorem orderly_iff (P : Plan) (hP : P.order.Perm P.deplist) (acts : List Act) (hz : ∀ a ∈ acts, ExitsZero a) :
    Orderly P acts ↔ Lts.Along (step P) Clean P.init acts := by
  have h0 : Inv P P.init ∧ Lined P P.init := ⟨⟨core_init P, flow_init P⟩, lined_init hP⟩
  have hzero : Lts.Along (step P) (fun _ a => ExitsZero a) P.init acts := Lts.along_of_forall hz
  constructor
  · intro h
    have hboth := (Lts.along_iff (I := fun s => Inv P s ∧ Lined P s) (D := fun s a => Clean s a ∧ ExitsZero a)
      ?_ ?_ h0 acts).1 (Lts.along_and h.list hzero)
    · exact Lts.along_imp (fun _ _ h => h.1) hboth
    · exact fun s a s' hs hC => lined_step hP s a s' hs ⟨(listKept_iff_clean hP hs.1.1 hs.2).1 hC.1, hC.2⟩
    · exact fun s a hs => and_congr_left fun _ => listKept_iff_clean hP hs.1.1 hs.2
  · intro h
    have hC := Lts.along_and h hzero
    have hinv : ∀ s, Lts.run (step P) P.init acts = some s → Inv P s ∧ Lined P s :=
      fun s hs => Lts.run_inv_along (lined_step hP) h0 hC hs
    refine ⟨?_, ?_, ?_, ?_, ?_⟩
    · have := (Lts.along_iff (lined_step hP)
        (fun s a hs => and_congr_left fun _ => (listKept_iff_clean hP hs.1.1 hs.2).symm) h0 acts).1 hC
      exact Lts.along_imp (fun _ _ h => h.1) this
    · have := (Lts.along_iff (lined_step hP)
        (fun s a hs => and_congr_left fun _ =>
          ⟨fun h => (⟨h, breakerFires_of_lined hP hs.1 hs.2 a⟩ : Clean s a ∧ BreakerFires P s a), And.left⟩)
        h0 acts).1 hC
      exact Lts.along_imp (fun _ _ h => h.1.2) this
    · intro s hs
      have := Lts.run_length (fun s a s' hs hC hstep =>
        ⟨lined_step hP s a s' hs hC hstep, loopMeasure_fires hP hs.1 hs.2 (step_fires hstep)⟩) h0 hC hs
      omega
    · exact fun s hs hend => can_step (hinv s hs).1 (hinv s hs).2 hend
    · exact fun s hs hend => built_of_exit (hinv s hs).1 (hinv s hs).2 hend

/-- `glibc` and `gcc` are built. -/
theorem orderly_glibc : Orderly twoPlan twoBuild :=
  (orderly_iff twoPlan (by decide) twoBuild (by simp [twoBuild, ExitsZero])).2 (by decide +kernel)

/-! ## A name that starts with another -/

/-- `glib-networking` stands before `glib`, and only the cycle breaker can start it. -/
def glibPlan : Plan where
  script := .emergePkg
  deplist := ["glib-networking".toList, "glib".toList]
  dependencies t := if t = "glib-networking".toList then "glib-networking".toList else []
  order := ["glib-networking".toList, "glib".toList]
  JOBS := 1
  nodup := by decide
  names := by decide

/-- `glib` is built and cut out of `targets`, which leaves `-networking glib`; with nothing left to
run the script comes to the cycle breaker. -/
def glibActs : List Act :=
  let gn := "glib-networking".toList
  let g := "glib".toList
  [.walk [gn, g], .tick 1, .tick 1, .tick 0, .jobExit 1 0, .walk [gn, g], .tick 0, .tick 0, .tick 0,
    .walk [gn], .tick 0, .tick 0]

/-- What the cycle breaker looks at, and what it leaves. -/
structure BreakerView where
  pc : Pc
  started : List Name
  targets : Text
  networking : Option TState
  allDone : Bool
  running : Nat
  deriving DecidableEq

def breakerView (s : St) : BreakerView :=
  ⟨s.pc, s.started, s.targets, s.state "glib-networking".toList, allDone s, runningCount s⟩

theorem glib_before :
    (Lts.run (step glibPlan) glibPlan.init glibActs).map breakerView = some
      ⟨.check, ["glib".toList], " -networking glib  ".toList, some .pending, false, 0⟩ := by decide

theorem glib_after :
    (Lts.run (step glibPlan) glibPlan.init (glibActs ++ [.tick 2])).map breakerView = some
      ⟨.badSubscript, ["glib".toList, []], " -networking glib  ".toList, some .pending, false, 0⟩ := by decide

/-- The cycle breaker finds no pending target, starts the empty one and the script gives up. -/
theorem not_orderly_glib :
    glibPlan.order.Perm glibPlan.deplist ∧ (∀ a ∈ glibActs ++ [.tick 2], ExitsZero a) ∧
      (∃ s, Lts.run (step glibPlan) glibPlan.init (glibActs ++ [.tick 2]) = some s ∧ s.pc = .badSubscript ∧
        s.started = ["glib".toList, []] ∧ s.state "glib-networking".toList = some .pending) ∧
      ¬ Orderly glibPlan (glibActs ++ [.tick 2]) := by
  obtain ⟨s', hs', hv'⟩ := Option.map_eq_some_iff.1 glib_after
  have hstarted : s'.started = ["glib".toList, []] := congrArg BreakerView.started hv'
  refine ⟨by decide, by simp [glibActs, ExitsZero], ?_, ?_⟩
  · exact ⟨s', hs', congrArg BreakerView.pc hv', hstarted, congrArg BreakerView.networking hv'⟩
  · intro h
    obtain ⟨s, hs, hv⟩ := Option.map_eq_some_iff.1 glib_before
    have hstep : step glibPlan s (.tick 2) = some s' := by rw [← Lts.run_snoc hs, hs']
    obtain ⟨t, ht, -, hstart, -⟩ := (Lts.along_snoc h.breaker hs).2 s' hstep (congrArg BreakerView.pc hv)
      (congrArg BreakerView.allDone hv) (congrArg BreakerView.running hv) ⟨2, rfl⟩
    have hs0 : s.started = ["glib".toList] := congrArg BreakerView.started hv
    rw [hstarted, hs0] at hstart
    obtain rfl : [] = t := by simpa using hstart
    exact glibPlan.nil_not_mem ht

end T2Sde.Scheduler
