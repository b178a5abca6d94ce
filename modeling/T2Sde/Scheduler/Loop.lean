import T2Sde.Lib.Words
import T2Sde.Lib.Run
/-!
# The parallel build scheduler: the main loop of `Emerge-Pkg` and `pkgloop_parallel`

The two scripts hold the same loop twice; it differs in how `targets` is first written
(`Script.workList`) and in leaving by `exit 0` or `return`.

| here | `scripts/Emerge-Pkg` | `scripts/Build-Target` |
| --- | --- | --- |
| `syncDeps`, `Plan.init` | the clean/sync loop :412-419 | :260-267 |
| `isReady`               | `is_ready` :421              | :200 |
| `runningCount`          | `running_count` :432         | :211 |
| `startTarget`           | `start_target` :440          | :219 |
| `endTarget`             | `end_target` :456            | :234 |
| `headStep`              | "If any failed" :488         | :281 |
| `launchStep`            | the launch loop :497         | :290 |
| `checkStep`             | `all_done`, cycle breaker :508-531 | :301-324 |
| `detectStep`            | the detection pass :542      | :335 |

The associative arrays are functions, `deplist` also carries its keys; a `for` over them walks the
keys in any order, which is a choice of the run (`Act.walk`). `dependencies` and `targets` stay the
texts the scripts edit. A job is a process of its own: it exits at any point of the loop
(`Act.jobExit`). Taken from the shell and the system: a new job gets a pid no job had before,
`wait -n` returns only after a running job has exited, an exited job is dead for `kill -0` and gives
its status to `wait`, and an assignment to the empty subscript (`state[""]`) ends the script
(`Pc.badSubscript`). Names have no glob characters (`PkgName`), so the patterns of `${s/pat/rep}`
are literal. The progress counter `i`/`stepi` and `Build-Tools` are left out.
-/
namespace T2Sde.Scheduler
open Shell

abbrev Name := Text
abbrev Pid := Nat

/-- The characters of package names. -/
def nameChar (c : Char) : Bool := c.isAlphanum || c == '+' || c == '.' || c == '_' || c == '-'

def PkgName (t : Name) : Prop := t ≠ [] ∧ ∀ c ∈ t, nameChar c = true

instance (t : Name) : Decidable (PkgName t) :=
  decidable_of_iff (t ≠ [] ∧ t.all nameChar = true) (by simp [PkgName])

/-- The values of the `state` array. -/
inductive TState
  | pending | running | done | failed
  deriving DecidableEq, Repr

/-- A forked `build`. -/
inductive Job
  | alive
  | exited (rc : Nat)
  deriving DecidableEq, Repr

inductive Pc
  /-- Top of the `while`. -/
  | head
  /-- In the launch loop, the keys still to be walked. -/
  | launch (ks : List Name)
  /-- At `all_done=1`. -/
  | check
  /-- At `wait -n`. -/
  | wait
  /-- In the detection pass, the keys still to be walked. -/
  | detect (ks : List Name)
  | exit (rc : Nat)
  /-- The shell gave up on an assignment to `pid_of[""]`. -/
  | badSubscript
  deriving DecidableEq, Repr

inductive Script
  | emergePkg | buildTarget
  deriving DecidableEq, Repr

/-- How the script first writes the list: `tr '\n' ' '` over the lines of the package list, or
`targets="$targets $pkg"` for each. -/
def Script.workList : Script → List Name → Text
  | .emergePkg, ws => ws.flatMap (· ++ [' '])
  | .buildTarget, ws => ws.flatMap (' ' :: ·)

/-- What the loop starts from. -/
structure Plan where
  script : Script
  /-- The keys of `deplist`: the scheduled targets. -/
  deplist : List Name
  /-- The dependency words of each target, scheduled or not, as read from its `.cache`. -/
  dependencies : Name → Text
  /-- The words of `targets`. -/
  order : List Name
  JOBS : Nat
  nodup : deplist.Nodup
  names : ∀ t ∈ deplist, PkgName t

structure St where
  deplist : List Name
  dependencies : Name → Text
  state : Name → Option TState
  pidOf : Name → Option Pid
  targetOf : Pid → Option Name
  targets : Text
  jobs : Pid → Option Job
  /-- The arguments of the `start_target` calls so far. -/
  started : List Name
  pc : Pc

/-- `deps="$deps $d"` for each scheduled `d`, and a blank at the end. -/
def syncDeps (P : Plan) (t : Name) : Text :=
  ((words (P.dependencies t)).filter (· ∈ P.deplist)).flatMap (' ' :: ·) ++ [' ']

def Plan.init (P : Plan) : St where
  deplist := P.deplist
  dependencies t := if t ∈ P.deplist then syncDeps P t else P.dependencies t
  state t := if t ∈ P.deplist then some .pending else none
  pidOf _ := none
  targetOf _ := none
  targets := P.script.workList P.order
  jobs _ := none
  started := []
  pc := .head

def isReady (s : St) (t : Name) : Bool := (words (s.dependencies t)).all fun d => s.state d == some .done

def runningCount (s : St) : Nat := s.deplist.countP fun t => s.state t == some .running

/-- `start_target t` from its fork on, the job getting pid `p`. -/
def forkTarget (s : St) (t : Name) (p : Pid) : St :=
  { s with
    jobs := upd s.jobs p (some .alive)
    started := s.started ++ [t]
    pidOf := upd s.pidOf t (some p)
    targetOf := upd s.targetOf p (some t)
    state := upd s.state t (some .running) }

/-- `start_target t`; `next` is where the caller goes on. For an empty `t` the job is forked, then
the assignment to `pid_of[""]` ends the script. -/
def startTarget (s : St) (t : Name) (p : Pid) (next : St → Pc) : St :=
  if t = [] then
    { s with jobs := upd s.jobs p (some .alive), started := s.started ++ [t], pc := .badSubscript }
  else { forkTarget s t p with pc := next (forkTarget s t p) }

/-- `end_target p rc`. -/
def endTarget (s : St) (p : Pid) (rc : Nat) : St :=
  let t := (s.targetOf p).getD []
  if rc = 0 then
    let keys := s.deplist.filter (· ≠ t)
    { s with
      state := upd s.state t (some .done)
      targets := replaceFirst (' ' :: t) [' '] (' ' :: s.targets ++ [' '])
      deplist := keys
      dependencies := fun d =>
        if d ∈ keys then replaceFirst (' ' :: t ++ [' ']) [' '] (s.dependencies d)
        else if d = t then [] else s.dependencies d }
  else { s with state := upd s.state t (some .failed) }

/-- The first pending word of `targets`; `first` is empty if there is none. -/
def firstPending (s : St) : Name :=
  ((words s.targets).find? fun t => s.state t == some .pending).getD []

/-- The choices of a run: the order of the next walk over `${!deplist[@]}`; a step of the script,
with the pid the next fork would give; the exit of a job. -/
inductive Act
  | walk (ks : List Name)
  | tick (p : Pid)
  | jobExit (p : Pid) (rc : Nat)
  deriving DecidableEq, Repr

/-- "If any failed, stop early". -/
def headStep (s : St) (ks : List Name) : St :=
  if s.deplist.any fun t => s.state t == some .failed then { s with pc := .exit 1 }
  else { s with pc := .launch ks }

/-- One key of the launch loop. -/
def launchStep (P : Plan) (s : St) (t : Name) (ks : List Name) (p : Pid) : Option St :=
  if runningCount s > P.JOBS then some { s with pc := .check }
  else if s.state t = some .pending ∧ isReady s t then
    if s.jobs p = none then
      some (startTarget s t p fun s => if runningCount s ≥ P.JOBS then .check else .launch ks)
    else none
  else some { s with pc := .launch ks }

def allDone (s : St) : Bool := s.deplist.all fun t => s.state t == some .done

/-- `all_done`, then the cycle breaker if no job runs. -/
def checkStep (s : St) (p : Pid) : Option St :=
  if allDone s then some { s with pc := .exit 0 }
  else if runningCount s = 0 then
    if s.jobs p = none then some (startTarget s (firstPending s) p fun _ => .wait) else none
  else some { s with pc := .wait }

/-- The pid and status with which target `t`, in state `running`, is found dead. -/
def deadJob (s : St) (t : Name) : Option (Pid × Nat) :=
  if s.state t = some .running then
    match s.pidOf t with
    | some p => match s.jobs p with
      | some (.exited rc) => some (p, rc)
      | _ => none
    | none => none
  else none

/-- One key of the detection pass. -/
def detectStep (s : St) (t : Name) (ks : List Name) : St :=
  match deadJob s t with
  | some (p, rc) => { endTarget s p rc with pc := .detect ks }
  | none => { s with pc := .detect ks }

def step (P : Plan) (s : St) : Act → Option St
  | .jobExit p rc =>
    if s.jobs p = some .alive then some { s with jobs := upd s.jobs p (some (.exited rc)) } else none
  | .walk ks =>
    if ks.isPerm s.deplist then
      match s.pc with
      | .head => some (headStep s ks)
      | .wait => if ks.any fun t => (deadJob s t).isSome then some { s with pc := .detect ks } else none
      | _ => none
    else none
  | .tick p =>
    match s.pc with
    | .launch [] => some { s with pc := .check }
    | .launch (t :: ks) => launchStep P s t ks p
    | .check => checkStep s p
    | .detect [] => some { s with pc := .head }
    | .detect (t :: ks) => some (detectStep s t ks)
    | _ => none

/-! ## What a step can do -/

/-- The steps of the loop, one constructor for each way a step can go. -/
inductive Fires (P : Plan) (s : St) : Act → St → Prop
  | jobExit {p rc} : s.jobs p = some .alive →
      Fires P s (.jobExit p rc) { s with jobs := upd s.jobs p (some (.exited rc)) }
  | abort {ks t} : s.pc = .head → t ∈ s.deplist → s.state t = some .failed →
      Fires P s (.walk ks) { s with pc := .exit 1 }
  | enter {ks} : s.pc = .head → ks.Perm s.deplist → (∀ t ∈ s.deplist, s.state t ≠ some .failed) →
      Fires P s (.walk ks) { s with pc := .launch ks }
  | waited {ks t p rc} : s.pc = .wait → ks.Perm s.deplist → t ∈ ks → deadJob s t = some (p, rc) →
      Fires P s (.walk ks) { s with pc := .detect ks }
  | launched {p} : s.pc = .launch [] → Fires P s (.tick p) { s with pc := .check }
  | full {t ks p} : s.pc = .launch (t :: ks) → runningCount s > P.JOBS → Fires P s (.tick p) { s with pc := .check }
  | start {t ks p} : s.pc = .launch (t :: ks) → runningCount s ≤ P.JOBS → s.state t = some .pending →
      isReady s t = true → s.jobs p = none →
      Fires P s (.tick p) (startTarget s t p fun s => if runningCount s ≥ P.JOBS then .check else .launch ks)
  | skip {t ks p} : s.pc = .launch (t :: ks) → ¬ (s.state t = some .pending ∧ isReady s t = true) →
      Fires P s (.tick p) { s with pc := .launch ks }
  | finish {p} : s.pc = .check → allDone s = true → Fires P s (.tick p) { s with pc := .exit 0 }
  | breaker {p} : s.pc = .check → allDone s = false → runningCount s = 0 → s.jobs p = none →
      Fires P s (.tick p) (startTarget s (firstPending s) p fun _ => .wait)
  | sleep {p} : s.pc = .check → allDone s = false → runningCount s ≠ 0 → Fires P s (.tick p) { s with pc := .wait }
  | detected {p} : s.pc = .detect [] → Fires P s (.tick p) { s with pc := .head }
  | reap {t ks q p rc} : s.pc = .detect (t :: ks) → deadJob s t = some (p, rc) →
      Fires P s (.tick q) { endTarget s p rc with pc := .detect ks }
  | pass {t ks q} : s.pc = .detect (t :: ks) → deadJob s t = none → Fires P s (.tick q) { s with pc := .detect ks }

theorem step_fires {P : Plan} {s s' : St} {a : Act} (h : step P s a = some s') : Fires P s a s' := by
  cases a with
  | jobExit p rc =>
    simp only [step] at h
    split at h
    · rename_i hp; cases h; exact .jobExit hp
    · cases h
  | walk ks =>
    simp only [step] at h
    split at h
    · rename_i hks
      have hperm := List.isPerm_iff.1 hks
      split at h
      · rename_i hpc
        simp only [headStep, Option.some.injEq] at h
        split at h <;> subst h
        · rename_i hf
          obtain ⟨t, ht, hft⟩ := List.any_eq_true.1 hf
          exact .abort hpc ht (by simpa using hft)
        · rename_i hf
          exact .enter hpc hperm (by simpa using hf)
      · rename_i hpc
        split at h
        · rename_i hd
          obtain ⟨t, ht, htd⟩ := List.any_eq_true.1 hd
          obtain ⟨⟨p, rc⟩, hpr⟩ := Option.isSome_iff_exists.1 htd
          cases h; exact .waited hpc hperm ht hpr
        · cases h
      · cases h
    · cases h
  | tick p =>
    simp only [step] at h
    split at h
    · rename_i hpc; cases h; exact .launched hpc
    · rename_i t ks hpc
      simp only [launchStep] at h
      split at h
      · rename_i hr; cases h; exact .full hpc hr
      · rename_i hr
        split at h
        · rename_i ht
          split at h
          · rename_i hp; cases h; exact .start hpc (by omega) ht.1 ht.2 hp
          · cases h
        · rename_i ht; cases h; exact .skip hpc ht
    · rename_i hpc
      simp only [checkStep] at h
      split at h
      · rename_i hd; cases h; exact .finish hpc hd
      · rename_i hd
        have hd' : allDone s = false := by simpa using hd
        split at h
        · rename_i hr
          split at h
          · rename_i hp; cases h; exact .breaker hpc hd' hr hp
          · cases h
        · rename_i hr; cases h; exact .sleep hpc hd' hr
    · rename_i hpc; cases h; exact .detected hpc
    · rename_i t ks hpc
      simp only [detectStep, Option.some.injEq] at h
      split at h <;> subst h
      · rename_i hd; exact .reap hpc hd
      · rename_i hd; exact .pass hpc hd
    · cases h

end T2Sde.Scheduler
