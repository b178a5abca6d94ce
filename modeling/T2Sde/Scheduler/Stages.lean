import Mathlib.Data.List.Dedup
import T2Sde.Lib.Read
import T2Sde.Scheduler.Safety
/-!
# The stages of a build (`scripts/Build-Target`)

`pkgloop` runs the scheduling loop once for each stage, over the packages that have the stage in their
line of `config/$config/packages` and no log of it yet.

| here | there |
| --- | --- |
| `stageLine`, `Input.targets`, `Input.plan` | `pkgloop_stage` :353-376 |
| `jobLine`, `jobFor` | `build` :184-195 |
| `pkgloopPackage`    | the ends of `pkgloop_package` :405-419 |
| `Config.maxstage`  | the stage loop :98-100 |
| `cleaned`           | "Removing old error logs" :75-88 |

The log files are two tables, `$stage-$pkg.log` and `$stage-$pkg.err`. What the action of a job (`Build-Pkg`)
leaves there is a choice of the run; it returns 0 only with a log. The fields of a line hold no backslash. The run
ends where the scheduling loop gives up on `pid_of[""]`. Left out are the download, the binary package, which is
made in the background, and `build_only_this_job`.

* `wordAt_name` — the name in a line is where both `read` and the arguments of `pkgloop_package` find it.
* `jobFor_own` — the job of a target builds the target, unless a point in its name matches another one
  (`clear_of_no_point`).
-/
namespace T2Sde.Stages
open Shell Scheduler

/-! ## The package list -/

/-- A line `X stages pri tree name …`. -/
structure PkgLine where
  stages : Text
  pri : Text
  tree : Text
  name : Name
  /-- Version, prefix and what follows. -/
  rest : Text
  len : stages.length = 10
  solid : ∀ c ∈ stages, isBlank c = false
  priWord : IsWord pri
  treeWord : IsWord tree
  nameOk : PkgName name

def PkgLine.text (l : PkgLine) : Text :=
  'X' :: ' ' :: (l.stages ++ ' ' :: (l.pri ++ ' ' :: (l.tree ++ ' ' :: (l.name ++ ' ' :: l.rest))))

def digit (k : Nat) : Char := Char.ofNat (48 + k)

/-- `^X ${STAGES:0:k}k`: `STAGES` is ten points. -/
def stageLine (k : Nat) (l : Text) : Bool := ['X', ' '].isPrefixOf l && (l.drop 2)[k]? == some (digit k)

/-- `[^ ]* ` -/
def afterField (s : Text) : Option Text := (s.dropWhile (· != ' ')).tail?

/-- `$pkg` in a pattern; a point stands for any character. -/
def afterName : Name → Text → Option Text
  | [], s => some s
  | _ :: _, [] => none
  | p :: ps, c :: s => if p = '.' ∨ p = c then afterName ps s else none

/-- `^X ${STAGES:0:k}k[^ ]* [^ ]* [^ ]* $pkg ` -/
def jobLine (k : Nat) (pkg : Name) (l : Text) : Bool :=
  stageLine k l &&
    ((((afterField (l.drop (k + 3))).bind afterField).bind afterField).bind (afterName pkg)).any (·.head? == some ' ')

/-- The package that the job of target `pkg` builds: the fifth field of the first line that matches, none if no
line does. -/
def jobFor (lines : List Text) (k : Nat) (pkg : Name) : Option Name :=
  let next := lines.filter (jobLine k pkg)
  if next = [] then none else some (wordAt 3 ((List.intercalate ['\n'] next).drop 2))

/-! ## The build -/

structure Config where
  SDECFG_DO_REBUILD_STAGE : Bool
  SDECFG_CROSSBUILD : Bool
  SDECFG_RETRY_BROKEN : Bool
  SDECFG_CONTINUE_ON_ERROR_AFTER : Nat
  SDECFG_PARALLEL : Nat

def Config.maxstage (c : Config) : Nat :=
  if c.SDECFG_CROSSBUILD then 2 else if c.SDECFG_DO_REBUILD_STAGE then 9 else 5

/-- Which `$stage-$pkg.log` and `$stage-$pkg.err` are there. -/
structure Files where
  log : Nat → Name → Bool
  err : Nat → Name → Bool

structure Input where
  config : Config
  lines : List PkgLine
  /-- The words of the `.cache`, the compiler and the C library. -/
  dependencies : Name → Text

def Input.texts (I : Input) : List Text := I.lines.map PkgLine.text

/-- The packages of a stage. -/
def Input.stageNames (I : Input) (k : Nat) : List Name := (I.texts.filter (stageLine k)).map (wordAt 4)

def Input.targets (I : Input) (F : Files) (k : Nat) : List Name := (I.stageNames k).filter (!F.log k ·)

/-- `rm -f` of the error logs, before the first stage. -/
def cleaned (c : Config) (F : Files) : Files :=
  { F with err := fun k n => F.err k n && !(c.SDECFG_RETRY_BROKEN || k ≤ c.SDECFG_CONTINUE_ON_ERROR_AFTER) }

/-- How a job ends: its action returns, with what is then there of the package's log and error log; or it is killed
or leaves by `set -e`. -/
inductive Outcome
  | action (rc : Nat) (log err : Bool) (logged : rc = 0 → log = true)
  | died (rc : Nat) (log err : Bool) (failed : rc ≠ 0)

/-- The status of the job, and the two files. -/
def pkgloopPackage (c : Config) (k : Nat) : Outcome → Nat × Bool × Bool
  | .action rc log err _ =>
    if rc ≠ 0 ∧ k ≤ c.SDECFG_CONTINUE_ON_ERROR_AFTER then (1, log, err)
    else if !log && !err then (1, log, true)
    else (0, log, err)
  | .died rc log err _ => (rc, log, err)

def Files.set (F : Files) (k : Nat) (n : Name) (log err : Bool) : Files where
  log j m := if j = k ∧ m = n then log else F.log j m
  err j m := if j = k ∧ m = n then err else F.err j m

/-- `build`, at its end. -/
def buildJob (I : Input) (k : Nat) (F : Files) (pkg : Name) (o : Outcome) : Nat × Files :=
  match jobFor I.texts k pkg with
  | none => (1, F)
  | some n =>
    let (rc, log, err) := pkgloopPackage I.config k o
    (rc, F.set k n log err)

/-! ## Facts about lines -/

theorem PkgLine.stagesWord (l : PkgLine) : IsWord l.stages := by
  refine ⟨fun h => ?_, l.solid⟩
  have := l.len
  simp [h] at this

theorem wordAt_front {u : Text} (hu : IsWord u) (s : Text) : wordAt 0 (u ++ ' ' :: s) = u := by
  obtain ⟨c, u, rfl⟩ := List.exists_cons_of_ne_nil hu.1
  have hc : isBlank c = false := hu.2 c List.mem_cons_self
  rw [wordAt, List.cons_append, List.dropWhile_cons_of_neg (by simp [hc]), ← List.cons_append,
    (takeWhile_word_append hu.2 (show AtBlank (' ' :: s) from rfl)).1]

/-- The name is the fourth word behind the `X`. -/
theorem wordAt_name (l : PkgLine) (s : Text) : wordAt 3 ((l.text ++ s).drop 2) = l.name := by
  have hb : isBlank ' ' = true := rfl
  simp only [PkgLine.text, List.cons_append, List.drop_succ_cons, List.drop_zero, List.append_assoc]
  rw [wordAt_word l.stagesWord hb, wordAt_word l.priWord hb, wordAt_word l.treeWord hb, wordAt_front l.nameOk.isWord]

theorem wordAt_text (l : PkgLine) : wordAt 4 l.text = l.name := by
  have hX : IsWord ['X'] := by decide
  have hb : isBlank ' ' = true := rfl
  have h := wordAt_name l []
  rw [List.append_nil] at h
  exact (wordAt_word hX hb 3 (l.text.drop 2)).trans h

theorem mem_stageNames {I : Input} {k : Nat} {n : Name} :
    n ∈ I.stageNames k ↔ ∃ l ∈ I.lines, stageLine k l.text = true ∧ l.name = n := by
  simp only [Input.stageNames, Input.texts, List.mem_map, List.mem_filter]
  constructor
  · rintro ⟨_, ⟨⟨l, hl, rfl⟩, hk⟩, rfl⟩
    exact ⟨l, hl, hk, (wordAt_text l).symm⟩
  · rintro ⟨l, hl, hk, rfl⟩
    exact ⟨_, ⟨⟨l, hl, rfl⟩, hk⟩, wordAt_text l⟩

theorem stageNames_ok {I : Input} {k : Nat} {n : Name} (h : n ∈ I.stageNames k) : PkgName n := by
  obtain ⟨l, -, -, rfl⟩ := mem_stageNames.1 h
  exact l.nameOk

def Input.plan (I : Input) (F : Files) (k : Nat) : Plan where
  script := .buildTarget
  deplist := (I.targets F k).dedup
  dependencies := I.dependencies
  order := I.targets F k
  JOBS := I.config.SDECFG_PARALLEL
  nodup := List.nodup_dedup _
  names _ ht := stageNames_ok (List.mem_of_mem_filter (List.mem_dedup.1 ht))

theorem mem_plan {I : Input} {F : Files} {k : Nat} {t : Name} :
    t ∈ (I.plan F k).deplist ↔ t ∈ I.stageNames k ∧ F.log k t = false := by
  simp [Input.plan, Input.targets]

/-! ## The job of a target -/

theorem afterField_word {u : Text} (hu : ∀ c ∈ u, isBlank c = false) (s : Text) :
    afterField (u ++ ' ' :: s) = some s := by
  have hne : ∀ c ∈ u, (c != ' ') = true := fun c hc => by
    have := hu c hc
    cases h : c != ' ' with
    | true => rfl
    | false => rw [bne_eq_false_iff_eq.1 h] at this; cases this
  rw [afterField, List.dropWhile_append_of_pos hne]
  rfl

theorem afterName_self (n : Name) (s : Text) : afterName n (n ++ s) = some s := by
  induction n with
  | nil => rfl
  | cons c n ih => simpa [afterName] using ih

/-- The pattern of a target, behind the three fields. -/
theorem jobLine_text (l : PkgLine) {k : Nat} (hk : k < 10) (pkg : Name) :
    jobLine k pkg l.text =
      (stageLine k l.text && (afterName pkg (l.name ++ ' ' :: l.rest)).any (·.head? == some ' ')) := by
  have hlen := l.len
  have hdrop : l.text.drop (k + 3) =
      l.stages.drop (k + 1) ++ ' ' :: (l.pri ++ ' ' :: (l.tree ++ ' ' :: (l.name ++ ' ' :: l.rest))) := by
    rw [PkgLine.text, show k + 3 = (k + 1) + 1 + 1 by omega, List.drop_succ_cons, List.drop_succ_cons,
      List.drop_append_of_le_length (by omega)]
  have hsolid : ∀ c ∈ l.stages.drop (k + 1), isBlank c = false := fun c hc => l.solid c (List.mem_of_mem_drop hc)
  rw [jobLine, hdrop, afterField_word hsolid, Option.bind_some, afterField_word l.priWord.2, Option.bind_some,
    afterField_word l.treeWord.2, Option.bind_some]

/-- No name is, as a pattern, another package's line. -/
def Input.Clear (I : Input) : Prop :=
  ∀ k < 10, ∀ l ∈ I.lines, ∀ m ∈ I.lines, jobLine k l.name m.text = true → m.name = l.name

instance (I : Input) : Decidable I.Clear := inferInstanceAs (Decidable (∀ k < 10, _))

theorem afterName_plain {p : Name} (hp : '.' ∉ p) {s t : Text} (h : afterName p s = some t) : s = p ++ t := by
  induction p generalizing s with
  | nil => simpa [afterName] using h
  | cons c p ih =>
    rw [List.mem_cons, not_or] at hp
    cases s with
    | nil => cases h
    | cons d s =>
      simp only [afterName, Ne.symm hp.1, false_or, Option.ite_none_right_eq_some] at h
      rw [h.1, ih hp.2 h.2, List.cons_append]

/-- Only a point can make a name another one's pattern. -/
theorem clear_of_no_point {I : Input} (h : ∀ l ∈ I.lines, '.' ∉ l.name) : I.Clear := by
  intro k hk l hl m hm hjob
  rw [jobLine_text m hk, Bool.and_eq_true] at hjob
  obtain ⟨t, ht, hhead⟩ := (Option.any_eq_true _ _).1 hjob.2
  have hsplit := afterName_plain (h l hl) ht
  cases t with
  | nil => simp at hhead
  | cons c t =>
    have hc : c = ' ' := by simpa using hhead
    subst hc
    have hm' := congrArg (List.takeWhile (!isBlank ·)) hsplit
    rwa [(takeWhile_word_append m.nameOk.isWord.2 (show AtBlank (' ' :: m.rest) from rfl)).1,
      (takeWhile_word_append l.nameOk.isWord.2 (show AtBlank (' ' :: t) from rfl)).1] at hm'

/-- The job of a target builds the target. -/
theorem jobFor_own {I : Input} (hI : I.Clear) {k : Nat} (hk : k < 10) {t : Name} (ht : t ∈ I.stageNames k) :
    jobFor I.texts k t = some t := by
  obtain ⟨l, hl, hstage, rfl⟩ := mem_stageNames.1 ht
  have hself : jobLine k l.name l.text = true := by
    rw [jobLine_text l hk, hstage, afterName_self]
    rfl
  have hmem : l.text ∈ I.texts.filter (jobLine k l.name) :=
    List.mem_filter.2 ⟨List.mem_map_of_mem hl, hself⟩
  obtain ⟨m, next, hnext⟩ := List.exists_cons_of_ne_nil (List.ne_nil_of_mem hmem)
  have hm : m ∈ I.texts.filter (jobLine k l.name) := hnext ▸ List.mem_cons_self
  obtain ⟨hmt, hjob⟩ := List.mem_filter.1 hm
  obtain ⟨m, hml, rfl⟩ := List.mem_map.1 hmt
  have hname : m.name = l.name := hI k hk l hl m hml hjob
  have hfront : ∃ s, List.intercalate ['\n'] (m.text :: next) = m.text ++ s := by
    cases next with
    | nil => exact ⟨[], by simp⟩
    | cons u us => exact ⟨_, by rw [List.intercalate_cons_cons, List.append_assoc]⟩
  obtain ⟨s, hs⟩ := hfront
  rw [jobFor, hnext, if_neg (List.cons_ne_nil _ _), hs, wordAt_name, hname]

end T2Sde.Stages
