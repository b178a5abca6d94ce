import T2Sde.Lib.Run
import T2Sde.Config.Set
/-!
# `scripts/Config` and the readers of the configuration

| here | there |
| --- | --- |
| `keyValue`     | `scripts/Config` :53-71, `key=value` |
| `Cycle.writes` | `scripts/Config` :199-270, one `-cycle` |
| `Run.writes`   | what a run writes between `flock` and its end |
| `Site`         | the reads of `config/$config/{config,packages}` |
| `Reader`       | `grep`, `sed`, `cat` or `.`: reads to the end of the file |

The configuration exists when the run starts. Its files are rewritten in place: `> file` empties a file,
and each later step adds to it. An exclusive lock waits until no read holds the shared lock, a shared lock
until `scripts/Config` does not hold the exclusive one. What `Create-PkgList`, `scripts/config.in` and the
dialog yield is taken from outside, and what `sed` writes where `sedSet` does not follow it. `flock` is there.
-/
namespace T2Sde.Config
open Shell

inductive File
  | config | packages
  deriving DecidableEq, Repr

/-- The steps of a run of `scripts/Config` that write. -/
inductive Write
  /-- `> f` -/
  | truncate (f : File)
  /-- `>> f`, and the output of a command behind `> f` -/
  | append (f : File) (t : Text)
  /-- `sed … config > .config` -/
  | setKey (sed : Text → Text)
  /-- The output of `cat .config` -/
  | appendTemp
  /-- `rm -f .config` -/
  | rmTemp

/-- The file that is written. -/
def Write.target : Write → Option File
  | .truncate f | .append f _ => some f
  | .appendTemp => some .config
  | .setKey _ | .rmTemp => none

/-! ## `key=value` -/

/-- What `key=value` arguments write; `other` is the output of `sed` for the arguments that `sedSet` does not follow. -/
def keyValue (other : Text → Text → Text) : List Text → List Write
  | [] => []
  | x :: xs =>
    if argVal x = [] then keyValue other xs
    else
      [.setKey fun t => (sedSet (keyOf x) (stripPrefix ['='] (argVal x)) t).getD (other x t), .truncate .config,
        .appendTemp, .rmTemp] ++ keyValue other xs

/-! ## A full configuration -/

/-- What one `-cycle` gets from outside. -/
structure Cycle where
  sdever : Text
  /-- `Create-PkgList` or its cache -/
  pkglist : Text
  /-- `scripts/config.in`: `export` lines and `pkgfilter` -/
  configIn : List Write
  /-- `pkgout` -/
  packages : Text
  id : Text
  /-- The menu position and the command, empty for the last cycle. -/
  menu : Text

def Cycle.writes (c : Cycle) : List Write :=
  [.truncate .config, .append .config ("#\n# T2 ".toList ++ c.sdever ++ " Config File\n#\n".toList),
    .truncate .packages, .append .packages c.pkglist] ++ c.configIn ++
  [.truncate .packages, .append .packages c.packages,
    .append .config ("export SDECFG_ID='".toList ++ c.id ++ "'\n".toList), .append .config c.menu]

/-- A run of `scripts/Config`. -/
inductive Run
  | keyValue (other : Text → Text → Text) (xs : List Text)
  | cycles (cs : List Cycle)

def Run.writes : Run → List Write
  | .keyValue other xs => Config.keyValue other xs
  | .cycles cs => cs.flatMap Cycle.writes

/-- The run does not write the file. -/
def Run.Leaves (r : Run) (f : File) : Prop := ∀ x ∈ r.writes, x.target ≠ some f

instance (r : Run) (f : File) : Decidable (r.Leaves f) := inferInstanceAs (Decidable (∀ x ∈ _, _))

/-- `key=value` does not write the package list. -/
theorem keyValue_leaves (other : Text → Text → Text) (xs : List Text) : (Run.keyValue other xs).Leaves .packages := by
  rw [Run.Leaves, Run.writes]
  induction xs with
  | nil => simp [keyValue]
  | cons x xs ih =>
    rw [keyValue]
    split
    · exact ih
    · intro w hw
      rcases List.mem_append.1 hw with hw | hw
      · simp only [List.mem_cons, List.not_mem_nil, or_false] at hw
        rcases hw with rfl | rfl | rfl | rfl <;> simp [Write.target]
      · exact ih w hw

/-! ## Readers -/

/-- The reads of the configuration. -/
inductive Site
  /-- `. config/$config/config`, `scripts/parse-config` :23 -/
  | parseConfig
  /-- `cat config/$config/packages`, `scripts/Emerge-Pkg` :118 -/
  | pkglist
  /-- `pkgs=$(sed …)`, `scripts/Build-Target` :71 -/
  | pkgCount
  /-- `pkgloop` with `build_only_this_job`, `scripts/Build-Target` :108 -/
  | onlyThisJob
  /-- Old lingering files, `scripts/Build-Target` :122 -/
  | lingering
  /-- `build`, `scripts/Build-Target` :188 -/
  | build
  /-- `pkgloop_stage`, `scripts/Build-Target` :373 -/
  | pkgloopStage
  /-- `target=`, `scripts/Download` :187 -/
  | target
  /-- `arch=`, `scripts/Download` :189 -/
  | arch
  /-- `required`, `scripts/Download` :807 -/
  | required
  /-- The extenders of a package, `scripts/Download` :876 -/
  | extender
  deriving DecidableEq, Repr

def Site.file : Site → File
  | .parseConfig | .target | .arch => .config
  | _ => .packages

/-- `flock -s 9` -/
def Site.locked : Site → Bool
  | .parseConfig | .pkglist => true
  | _ => false

inductive Reader
  | waiting
  /-- Under way: what it has got so far. -/
  | reading (got : Text)
  | finished (got : Text)

def Reader.underWay : Reader → Bool
  | .reading _ => true
  | _ => false

inductive Writer
  | waiting (ws : List Write)
  /-- It holds the lock. -/
  | writing (ws : List Write)
  | finished

/-- A run of `scripts/Config` and reads `ι` beside it. -/
structure Sys (ι : Type) where
  files : File → Text
  temp : Text
  writer : Writer
  /-- The reads that hold the shared lock. -/
  shared : List ι
  readers : ι → Reader
  /-- What finished runs have written. -/
  versions : List (File → Text)

inductive Act (ι : Type)
  | lock
  | write
  | unlock
  | start (i : ι)
  /-- A read(2) of up to `n + 1` characters. -/
  | read (i : ι) (n : Nat)

section
variable {ι : Type} [DecidableEq ι]

def Sys.write (s : Sys ι) : Write → Sys ι
  | .truncate f => { s with files := upd s.files f [] }
  | .append f t => { s with files := upd s.files f (s.files f ++ t) }
  | .setKey sed => { s with temp := sed (s.files .config) }
  | .appendTemp => { s with files := upd s.files .config (s.files .config ++ s.temp) }
  | .rmTemp => { s with temp := [] }

def Writer.holds : Writer → Bool
  | .writing _ => true
  | _ => false

def Writer.rest : Writer → List Write
  | .waiting ws | .writing ws => ws
  | .finished => []

def Sys.start (site : ι → Site) (s : Sys ι) (i : ι) : Option (Sys ι) :=
  match s.readers i with
  | .waiting =>
    if (site i).locked then
      if s.writer.holds then none
      else some { s with readers := upd s.readers i (.reading []), shared := i :: s.shared }
    else some { s with readers := upd s.readers i (.reading []) }
  | _ => none

/-- The next characters; at the end of the file the read is finished and its lock released. -/
def Sys.read (site : ι → Site) (s : Sys ι) (i : ι) (n : Nat) : Option (Sys ι) :=
  match s.readers i with
  | .reading got =>
    match ((s.files (site i).file).drop got.length).take (n + 1) with
    | [] => some { s with readers := upd s.readers i (.finished got), shared := s.shared.erase i }
    | t => some { s with readers := upd s.readers i (.reading (got ++ t)) }
  | _ => none

def Sys.step (site : ι → Site) (s : Sys ι) : Act ι → Option (Sys ι)
  | .lock =>
    match s.writer with
    | .waiting ws => if s.shared = [] then some { s with writer := .writing ws } else none
    | _ => none
  | .write =>
    match s.writer with
    | .writing (x :: ws) => some { s.write x with writer := .writing ws }
    | _ => none
  | .unlock =>
    match s.writer with
    | .writing [] => some { s with writer := .finished, versions := s.files :: s.versions }
    | _ => none
  | .start i => s.start site i
  | .read i n => s.read site i n

def Sys.init (files : File → Text) (r : Run) : Sys ι :=
  ⟨files, [], .waiting r.writes, [], fun _ => .waiting, [files]⟩

end

end T2Sde.Config
