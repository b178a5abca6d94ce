import T2Sde.Download.Frame
/-!
# The lock of a file

Two calls of `download_file` for one file, in two processes. The lock is a file: a call tests that it has no
data, and writes it some steps later. Two calls that both test before either writes hold it both; if no call
tests between the test and the write of the other, at most one holds it.

| here | there |
| --- | --- |
| `Calls`        | two processes of `scripts/Download`, the files they share |
| `Act.step`     | the next file-system step of a call |
| `Act.kill`     | a signal without a trap |
| `Act.interrupt`| INT: `trap '… rm -f "$lkfile"; return $ret' INT` :355 |
| `Phase`        | where a call is: before its lock test, between test and write, holding, released |
-/
namespace T2Sde.Download
open Shell

inductive Phase
  | before | passed | holding | ended
  deriving DecidableEq, Repr

/-- The phase after a step, from what the step is and what it found. -/
def Phase.next (gz : Text) (ph : Phase) (o : Op) (r : Res o) : Phase :=
  match ph, o, r with
  | .before, .nonEmpty p, r => if p = lockFile gz then if r then .ended else .passed else .before
  | .passed, .write p _, _ => if p = lockFile gz then .holding else .passed
  | .holding, .rm p, _ => if p = lockFile gz then .ended else .holding
  | ph, _, _ => ph

/-- A call. `trap` tells whether its INT handler is set. -/
structure Call where
  prog : P Bool
  phase : Phase
  trap : Bool

structure Calls where
  world : World
  call : Bool → Call

inductive Act
  | step (i : Bool) (a : Ans)
  | kill (i : Bool)
  /-- INT. The handler returns from the function that is running: `rest` is what is left of the call then,
  nothing if that is `download_file` itself. -/
  | interrupt (i : Bool) (rest : P Bool)

def trapAfter (trap : Bool) : Op → Bool
  | .trapInt on => on
  | _ => trap

def Calls.step (T : Tools) (gz : Text) (s : Calls) : Act → Option Calls
  | .step i a =>
    match (s.call i).prog with
    | .ret _ => none
    | .op o k =>
      let x := eff T o s.world a
      some ⟨x.1, upd s.call i ⟨k x.2, (s.call i).phase.next gz o x.2, trapAfter (s.call i).trap o⟩⟩
  | .kill i => some { s with call := upd s.call i ⟨.ret true, .ended, false⟩ }
  | .interrupt i rest =>
    if (s.call i).trap then
      some ⟨{ s.world with files := upd s.world.files (lockFile gz) none },
        upd s.call i ⟨rest, .ended, true⟩⟩
    else some { s with call := upd s.call i ⟨.ret true, .ended, false⟩ }

def Calls.init (files : Text → Option Bytes) (o : Bool → Opts) (l : Bool → DLine) : Calls :=
  ⟨⟨files, [], []⟩, fun i => ⟨downloadFile (o i) (l i), .before, false⟩⟩

def Call.nextOp (c : Call) : Option Op :=
  match c.prog with
  | .ret _ => none
  | .op o _ => some o

/-! ## What a call does in each phase -/

/-- The lock is written, with data, after its test, and removed by its holder; the `.incomplete` file is
the holder's. -/
def Phase.ok (gz : Text) : Phase → Op → Prop
  | .passed, o => incomplete gz ∉ o.writes ∧ ∀ b, o = .write (lockFile gz) b → b ≠ []
  | .holding, o => lockFile gz ∈ o.writes → o = .rm (lockFile gz)
  | _, o => lockFile gz ∉ o.writes ∧ incomplete gz ∉ o.writes

abbrev Obeys (gz : Text) {α : Type} (p : P α) (ph : Phase) : Prop :=
  Prog.Follows (Phase.next gz) (Phase.ok gz) (fun _ _ => True) p ph

section
variable {gz : Text}

theorem next_holding {o : Op} {r : Res o} (h : lockFile gz ∉ o.writes) : Phase.next gz .holding o r = .holding := by
  cases o with
  | rm p =>
    have hp : p ≠ lockFile gz := by simpa [Op.writes, eq_comm] using h
    simp [Phase.next, hp]
  | _ => rfl

theorem next_ended {o : Op} {r : Res o} : Phase.next gz .ended o r = .ended := by
  cases o <;> rfl

theorem obeys_op {α : Type} {o : Op} {f : Res o → P α} (h : lockFile gz ∉ o.writes)
    (hf : ∀ r, Obeys gz (f r) .holding) : Obeys gz (act o >>= f) .holding := by
  refine Prog.follows_op (fun hw => absurd hw h) fun r => ?_
  rw [next_holding h]
  exact hf r

theorem obeys_all {α β : Type} {p : P α} {f : α → P β} (hp : Prog.All (fun o => lockFile gz ∉ o.writes) p)
    (hf : ∀ a, Obeys gz (f a) .holding) : Obeys gz (p >>= f) .holding :=
  Prog.follows_bind (Prog.follows_of_all (fun _ h hw => absurd hw h) (fun _ _ h => next_holding h) hf hp)

theorem obeys_unlock (err : Bool) : Obeys gz (unlock gz err) .holding := by
  refine Prog.follows_op (fun _ => rfl) fun _ => ?_
  have hnext : Phase.next gz .holding (.rm (lockFile gz)) () = .ended := if_pos rfl
  refine Prog.follows_op ?_ fun _ => trivial
  show Phase.ok gz (Phase.next gz .holding (.rm (lockFile gz)) ()) _
  rw [hnext]
  simp [Phase.ok, Op.writes]

/-- Nothing but the lock's own steps touches the lock. -/
theorem covers_lock (o : Opts) (hgz : gz.head? = some 'd') (hname : (checkedName gz).head? = some 'd') :
    Covers (fun op => lockFile gz ∉ op.writes) o gz := by
  have hext : ∀ (p : Text), p.head? = some 'd' → ∀ e, lockFile gz ≠ p ++ e := by
    intro p hp e
    refine (ne_of_head (p := p ++ e) ?_ (lockFile_head gz)).symm
    cases p with
    | nil => simp at hp
    | cons c p => simpa using hp
  have hgz' : lockFile gz ≠ gz := (ne_of_head hgz (lockFile_head gz)).symm
  have hname' : lockFile gz ≠ checkedName gz := (ne_of_head hname (lockFile_head gz)).symm
  have hinc : lockFile gz ≠ incomplete gz := hext gz hgz _
  have hexck : lockFile gz ≠ extckErr gz := hext gz hgz _
  have hck : lockFile gz ≠ cksumErr (checkedName gz) := hext _ hname _
  have htemp := lockFile_ne_tempFile gz o
  refine ⟨⟨?_, ?_, ?_, ?_, ?_, ?_, ?_, ?_⟩, ?_, ?_, ?_, ?_, ?_⟩
  case refine_1 => exact fun op hw _ _ => by simp [hw]
  all_goals simp [Op.writes, hgz', hname', hinc, hexck, hck, htemp]

theorem obeys_verify (o : Opts) (cksum : Text) (hgz : gz.head? = some 'd')
    (hname : (checkedName gz).head? = some 'd') : Obeys gz (verify o cksum gz) .holding := by
  have hc := covers_lock o hgz hname
  have hcompare : Obeys gz (compare o cksum gz (checkedName gz)) .holding :=
    obeys_all (all_testCksum hc cksum) fun _ => obeys_unlock _
  unfold verify
  by_cases hs : isSigned gz = true
  · rw [if_pos hs]
    refine obeys_all (all_unsign hc) fun _ => obeys_op (by simp [Op.writes]) fun made => ?_
    split
    · exact obeys_op (by simp [Op.writes]) fun _ => obeys_unlock _
    · exact hcompare
  · rw [if_neg hs]
    have hsame : checkedName gz = gz := if_neg hs
    rwa [hsame] at hcompare

theorem obeys_lockedPart (o : Opts) (cksum location : Text) (hgz : gz.head? = some 'd')
    (hname : (checkedName gz).head? = some 'd') : Obeys gz (lockedPart o cksum location gz) .holding := by
  have hc := covers_lock o hgz hname
  unfold lockedPart
  split
  · refine obeys_op (by simp [Op.writes]) fun there => ?_
    split
    · exact obeys_unlock _
    · split
      · exact obeys_unlock _
      · exact obeys_verify o cksum hgz hname
  · refine obeys_op (by simp [Op.writes]) fun there => ?_
    split
    · exact obeys_verify o cksum hgz hname
    · refine obeys_op (by simp [Op.writes]) fun bad => ?_
      split
      · exact obeys_unlock _
      · refine obeys_op (by simp [Op.writes]) fun bad => ?_
        split
        · exact obeys_unlock _
        · split
          · exact obeys_op (by simp [Op.writes]) fun _ => obeys_unlock _
          · refine obeys_all (all_obtain hc.toCoversFetch _) fun err => ?_
            refine obeys_op (by simp [Op.writes]) fun there => ?_
            split
            · exact obeys_unlock _
            · exact Prog.follows_bind (obeys_verify o cksum hgz hname)

/-- The call: its test, the two writes of its lock, what it does as the holder. -/
theorem obeys_downloadFile (o : Opts) {l : DLine} (hl : l.gzfile = gz) : Obeys gz (downloadFile o l) .before := by
  have hgz : gz.head? = some 'd' := hl ▸ gzfile_head l
  have hname : (checkedName gz).head? = some 'd' := hl ▸ checkedName_head l
  have hne : gz ≠ lockFile gz := ne_of_head hgz (lockFile_head gz)
  unfold downloadFile
  rw [hl]
  refine Prog.follows_op (by simp [Phase.ok, Op.writes]) fun there => ?_
  have hbefore : Phase.next gz .before (.nonEmpty gz) there = .before := if_neg hne
  rw [hbefore]
  split
  · trivial
  · refine Prog.follows_op (by simp [Phase.ok, Op.writes]) fun locked => ?_
    have htest : Phase.next gz .before (.nonEmpty (lockFile gz)) locked = if locked then .ended else .passed :=
      if_pos rfl
    rw [htest]
    cases locked with
    | true => exact Prog.follows_op (by simp [Phase.ok, Op.writes]) fun _ => trivial
    | false =>
      have hinc : incomplete gz ≠ lockFile gz := by
        refine ne_of_head (p := incomplete gz) ?_ (lockFile_head gz)
        rw [← hl]
        rfl
      refine Prog.follows_op (by simp [Phase.ok, Op.writes]) fun _ => ?_
      refine Prog.follows_op (by simp [Phase.ok, Phase.next, Op.writes, hinc]) fun _ => ?_
      refine Prog.follows_op ?_ fun _ => ?_
      · refine ⟨by simp [Op.writes, hinc], fun b hb => ?_⟩
        cases hb
        simpa using o.pidDigits.1
      · have hwrite : ∀ b, Phase.next gz .passed (.write (lockFile gz) b) () = .holding := fun _ => if_pos rfl
        exact hwrite _ ▸ obeys_lockedPart o l.cksum l.location hgz hname

end

/-! ## Mutual exclusion -/

def Phase.Active (ph : Phase) : Prop := ph = .passed ∨ ph = .holding

/-- At most one call is between its lock test and its release; while one holds, the lock has data or the
other call is over. -/
structure Exclusive (gz : Text) (s : Calls) : Prop where
  obeys : ∀ i, Obeys gz (s.call i).prog (s.call i).phase
  one : ∀ i, (s.call i).phase.Active → ¬(s.call !i).phase.Active
  locked : ∀ i, (s.call i).phase = .holding →
    hasData (s.world.files (lockFile gz)) = true ∨ (s.call !i).phase = .ended

/-- No call passes its lock test while the other has passed its own and not yet written the lock; INT comes
when `download_file` itself is running. -/
def Clean (gz : Text) (s : Calls) : Act → Prop
  | .step i _ => (s.call i).nextOp = some (.nonEmpty (lockFile gz)) →
      hasData (s.world.files (lockFile gz)) = false → (s.call !i).phase ≠ .passed
  | .kill _ => True
  | .interrupt _ rest => ∃ err, rest = .ret err

instance (gz : Text) (s : Calls) : (act : Act) → Decidable (Clean gz s act)
  | .step i _ => inferInstanceAs (Decidable ((s.call i).nextOp = some (.nonEmpty (lockFile gz)) →
      hasData (s.world.files (lockFile gz)) = false → (s.call !i).phase ≠ .passed))
  | .kill _ => .isTrue trivial
  | .interrupt _ (.ret err) => .isTrue ⟨err, rfl⟩
  | .interrupt _ (.op o k) => .isFalse (by rintro ⟨err, h⟩; cases h)

theorem exclusive_init {gz : Text} {files : Text → Option Bytes} {o : Bool → Opts} {l : Bool → DLine}
    (hl : ∀ i, (l i).gzfile = gz) : Exclusive gz (Calls.init files o l) where
  obeys i := obeys_downloadFile (o i) (hl i)
  one i h := by rcases h with h | h <;> cases h
  locked i h := by cases h

/-- A call ends, with or without its lock. -/
theorem exclusive_ended {gz : Text} {s : Calls} {i : Bool} {w : World} {err trap : Bool} (h : Exclusive gz s) :
    Exclusive gz ⟨w, upd s.call i ⟨.ret err, .ended, trap⟩⟩ where
  obeys j := by
    by_cases hj : j = i
    · subst hj
      simp only [upd_same]
      trivial
    · simpa [hj] using h.obeys j
  one j hact := by
    by_cases hj : j = i
    · subst hj
      simp [Phase.Active] at hact
    · have hij : (!j) = i := by cases i <;> cases j <;> simp_all
      simp [hij, Phase.Active]
  locked j hold := by
    by_cases hj : j = i
    · subst hj
      simp at hold
    · have hij : (!j) = i := by cases i <;> cases j <;> simp_all
      exact .inr (by simp [hij])

section
variable {T : Tools} {gz : Text} {o : Op} {w : World} {a : Ans} {ph : Phase}

theorem passed_of_next (h : ph.next gz o (eff T o w a).2 = .passed) :
    ph = .passed ∨ ph = .before ∧ o = .nonEmpty (lockFile gz) ∧ hasData (w.files (lockFile gz)) = false := by
  cases ph with
  | passed => exact .inl rfl
  | before =>
    cases o with
    | nonEmpty p =>
      by_cases hp : p = lockFile gz
      · subst hp
        cases hd : hasData (w.files (lockFile gz)) with
        | false => exact .inr ⟨rfl, rfl, rfl⟩
        | true => simp [Phase.next, eff, effect, hd] at h
      · simp [Phase.next, hp] at h
    | _ => cases h
  | holding =>
    cases o with
    | rm p =>
      simp only [Phase.next] at h
      split at h <;> cases h
    | _ => cases h
  | ended => simp [next_ended] at h

/-- A call that holds has written the lock by this step, or held it and left it as it is. -/
theorem holding_of_next (hok : ph.ok gz o) (h : ph.next gz o (eff T o w a).2 = .holding) :
    ph = .passed ∧ hasData ((eff T o w a).1.files (lockFile gz)) = true ∨
      ph = .holding ∧ (eff T o w a).1.files (lockFile gz) = w.files (lockFile gz) := by
  cases ph with
  | before =>
    cases o with
    | nonEmpty p =>
      simp only [Phase.next] at h
      split at h
      · split at h <;> cases h
      · cases h
    | _ => cases h
  | passed =>
    cases o with
    | write p b =>
      by_cases hp : p = lockFile gz
      · subst hp
        have hb : b ≠ [] := hok.2 b rfl
        refine .inl ⟨rfl, ?_⟩
        cases b with
        | nil => exact absurd rfl hb
        | cons x b => simp [eff, effect, hasData]
      · simp [Phase.next, hp] at h
    | _ => cases h
  | holding =>
    refine .inr ⟨rfl, files_eff fun hw => ?_⟩
    have ho : o = .rm (lockFile gz) := hok hw
    subst ho
    simp [Phase.next] at h
  | ended => simp [next_ended] at h

theorem lock_same (hok : ph.ok gz o) (h : ¬ph.Active) :
    (eff T o w a).1.files (lockFile gz) = w.files (lockFile gz) := by
  cases ph with
  | before => exact files_eff hok.1
  | ended => exact files_eff hok.1
  | passed => exact absurd (.inl rfl) h
  | holding => exact absurd (.inr rfl) h

end

theorem exclusive_step {T : Tools} {gz : Text} {s : Calls} {i : Bool} {a : Ans} {o : Op} {k : Res o → P Bool}
    (h : Exclusive gz s) (hprog : (s.call i).prog = .op o k)
    (hclean : o = .nonEmpty (lockFile gz) → hasData (s.world.files (lockFile gz)) = false →
      (s.call !i).phase ≠ .passed) (trap : Bool) :
    Exclusive gz ⟨(eff T o s.world a).1,
      upd s.call i ⟨k (eff T o s.world a).2, (s.call i).phase.next gz o (eff T o s.world a).2, trap⟩⟩ := by
  have hob := h.obeys i
  rw [hprog] at hob
  obtain ⟨hok, hk⟩ := hob
  have hother : ∀ j, j ≠ i → j = !i := by
    intro j hj
    cases i <;> cases j <;> simp_all
  have hne : (!i) ≠ i := by cases i <;> decide
  have hone : ((s.call i).phase.next gz o (eff T o s.world a).2).Active → ¬(s.call !i).phase.Active := by
    rintro (hp | hp)
    · rcases passed_of_next hp with hp | ⟨hp, ho, hd⟩
      · exact h.one i (.inl hp)
      · rintro (hp' | hp')
        · exact hclean ho hd hp'
        · rcases h.locked (!i) hp' with hd' | hended
          · rw [hd] at hd'
            cases hd'
          · rw [Bool.not_not, hp] at hended
            cases hended
    · rcases holding_of_next hok hp with ⟨hp, -⟩ | ⟨hp, -⟩
      · exact h.one i (.inl hp)
      · exact h.one i (.inr hp)
  refine ⟨fun j => ?_, fun j hact => ?_, fun j hold => ?_⟩
  · by_cases hj : j = i
    · subst hj
      simpa using hk _
    · simpa [hj] using h.obeys j
  · by_cases hj : j = i
    · subst hj
      simpa [hne] using hone (by simpa using hact)
    · obtain rfl := hother j hj
      simp only [upd_ne _ _ _ _ hne] at hact
      simp only [Bool.not_not, upd_same]
      exact fun hact' => hone hact' hact
  · by_cases hj : j = i
    · subst hj
      simp only [upd_same] at hold
      rcases holding_of_next hok hold with ⟨-, hd⟩ | ⟨hp, hsame⟩
      · exact .inl hd
      · simpa [hne, hsame] using h.locked j hp
    · obtain rfl := hother j hj
      simp only [upd_ne _ _ _ _ hne] at hold
      have hidle : ¬(s.call i).phase.Active := by simpa using h.one (!i) (.inr hold)
      rcases h.locked (!i) hold with hd | hended
      · exact .inl (by rw [lock_same hok hidle]; exact hd)
      · rw [Bool.not_not] at hended
        exact .inr (by simp [hended, next_ended])

theorem exclusive_act {T : Tools} {gz : Text} {s s' : Calls} {act : Act} (h : Exclusive gz s) (hc : Clean gz s act)
    (hs : s.step T gz act = some s') : Exclusive gz s' := by
  cases act with
  | step i a =>
    simp only [Calls.step] at hs
    cases hprog : (s.call i).prog with
    | ret b => simp [hprog] at hs
    | op o k =>
      simp only [hprog, Option.some.injEq] at hs
      subst hs
      exact exclusive_step h hprog (fun ho => hc (by simp [Call.nextOp, hprog, ho])) _
  | kill i =>
    cases hs
    exact exclusive_ended h
  | interrupt i rest =>
    obtain ⟨err, rfl⟩ := hc
    simp only [Calls.step] at hs
    split at hs <;> cases hs
    · exact exclusive_ended h
    · exact exclusive_ended h

/-- Both calls hold the lock, or both are about to write the `.incomplete` file. -/
def Clash (gz : Text) (s : Calls) : Prop :=
  (∀ i, (s.call i).phase = .holding) ∨ ∀ i, ∃ o, (s.call i).nextOp = some o ∧ incomplete gz ∈ o.writes

theorem not_clash {gz : Text} {s : Calls} (h : Exclusive gz s) : ¬Clash gz s := by
  have hone : ¬∀ i, (s.call i).phase = .holding := fun hall => h.one false (.inr (hall false)) (.inr (hall true))
  rintro (hall | hall)
  · exact hone hall
  · refine hone fun i => ?_
    obtain ⟨o, ho, hw⟩ := hall i
    have hob := h.obeys i
    cases hprog : (s.call i).prog with
    | ret b => simp [Call.nextOp, hprog] at ho
    | op o' k =>
      obtain rfl : o' = o := by simpa [Call.nextOp, hprog] using ho
      rw [hprog] at hob
      have hok := hob.1
      cases hph : (s.call i).phase with
      | holding => rfl
      | before => exact absurd hw (hph ▸ hok).2
      | ended => exact absurd hw (hph ▸ hok).2
      | passed => exact absurd hw (hph ▸ hok).1

/-- **At most one of two calls holds the lock and writes the `.incomplete` file**, in every run in which no
call tests the lock between the other's test and write. -/
theorem mutual_exclusion {T : Tools} {gz : Text} {files : Text → Option Bytes} {o : Bool → Opts} {l : Bool → DLine}
    {acts : List Act} {s : Calls} (hl : ∀ i, (l i).gzfile = gz)
    (hclean : Lts.Along (Calls.step T gz) (Clean gz) (Calls.init files o l) acts)
    (hrun : Lts.run (Calls.step T gz) (Calls.init files o l) acts = some s) : ¬Clash gz s :=
  not_clash (Lts.run_inv_along (fun _ _ _ h hc hs => exclusive_act h hc hs) (exclusive_init hl) hclean hrun)

/-- Two processes, 77 and 78. -/
def twoOpts (i : Bool) : Opts :=
  if i then { defaultOpts with pid := "78".toList, pidDigits := by decide } else defaultOpts

def steps (i : Bool) (n : Nat) : List Act := List.replicate n (.step i quiet)

theorem mutual_exclusion_zlib :
    ∃ s, Lts.run (Calls.step plainTools zlibPlain.gzfile) (Calls.init noFiles twoOpts fun _ => zlibPlain)
      (steps false 5 ++ steps true 3) = some s ∧ (s.call false).phase = .holding ∧ ¬Clash zlibPlain.gzfile s := by
  have hrun : ∃ s, Lts.run (Calls.step plainTools zlibPlain.gzfile) (Calls.init noFiles twoOpts fun _ => zlibPlain)
      (steps false 5 ++ steps true 3) = some s ∧ (s.call false).phase = .holding := ⟨_, rfl, rfl⟩
  obtain ⟨s, hs, hp⟩ := hrun
  exact ⟨s, hs, hp, mutual_exclusion (fun _ => rfl) (by decide +kernel) hs⟩

/-- Both test the lock before either writes it: both hold it, and both start curl for the same file. -/
theorem exclusion_fails :
    ∃ acts s, Lts.run (Calls.step plainTools zlibPlain.gzfile) (Calls.init noFiles twoOpts fun _ => zlibPlain) acts =
        some s ∧ (∀ i, (s.call i).phase = .holding) ∧
      ∀ i, (s.call i).nextOp = some (.curl false "http://zlib.net/zlib".toList (incomplete zlibPlain.gzfile)) := by
  refine ⟨steps true 2 ++ steps false 5 ++ steps true 3 ++ steps false 5 ++ steps true 5, ?_⟩
  have hrun : (Lts.run (Calls.step plainTools zlibPlain.gzfile) (Calls.init noFiles twoOpts fun _ => zlibPlain)
      (steps true 2 ++ steps false 5 ++ steps true 3 ++ steps false 5 ++ steps true 5)).any
      (fun s => (∀ i, (s.call i).phase = .holding) ∧ ∀ i, (s.call i).nextOp =
        some (.curl false "http://zlib.net/zlib".toList (incomplete zlibPlain.gzfile))) = true := by decide +kernel
  obtain ⟨s, hs, hboth⟩ := (Option.any_eq_true _ _).1 hrun
  exact ⟨s, hs, by simpa using hboth⟩

end T2Sde.Download
