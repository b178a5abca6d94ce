import T2Sde.Lib.Words
import Mathlib.Data.List.DropRight
/-!
# The generated wrappers (`misc/tools-source/fl_wrapper.c.sh`)

`add_wrapper` makes a C function of a parameter list. Which descriptor goes with a path is found by the name of the
parameter: one whose text ends with `atfd`. So a wrapper inspects the path that `getatpath` makes of it, whichever
operand it belongs to, and also if the path is absolute.

| here | there |
| --- | --- |
| `getatpath`    | `getatpath` :110-130 |
| `addWrapper`   | `add_wrapper`, the split of its line :141-147 |
| `Func.atcheck`, `Func.f2` | the check of the descriptors :149-156, :181 |
| `wrappers`     | the calls of `add_wrapper` :267-294 |
| `checkWriteAccess` | `check_write_access` :459-475 |
| `Func.run`  | the three bodies :158-264 |

* `f2_at` — the path of the wrappers with a descriptor.
* `at_paths` — **when it is the path of the target**.
-/
namespace T2Sde.Wrapper
open Shell

/-! ## Parameter lists -/

/-- A wrapper, as it is declared. -/
structure Func where
  ret : Text
  function : Text
  params : List Text
  deriving DecidableEq

/-- `sed 's/ *, */,/g'`, and a split at the commas; a line has no spaces at its ends. -/
def fields (line : Text) : List Text :=
  (line.splitOn ',').map fun x => (x.dropWhile (· == ' ')).rdropWhile (· == ' ')

def addWrapper (line : Text) : Func :=
  let fs := fields line
  { ret := fs.getD 0 [], function := fs.getD 1 [], params := fs.drop 2 }

/-- `${x##* }` -/
def lastWord (x : Text) : Text := x.rtakeWhile (· != ' ')

/-- The descriptors that are checked, by name. -/
def Func.atcheck (w : Func) : List Text :=
  w.params.filterMap fun x => if "atfd".toList.isSuffixOf x then some (lastWord x) else none

def wrappers : List Func :=
  ["int,   open,    const char* f, int a, ...",
    "int,   open64,  const char* f, int a, ...",
    "int,   openat,  int atfd, const char* f, int a, ...",
    "int,   openat64,int atfd, const char* f, int a, ...",
    "FILE*, fopen,   const char* f, const char* g",
    "FILE*, fopen64, const char* f, const char* g",
    "int,   creat,   const char* f, mode_t m",
    "int,   creat64, const char* f, mode_t m",
    "int,   mkdir,   const char* f, mode_t m",
    "int,   mkfifo,  const char* f, mode_t m",
    "int,   mknod,   const char* f, mode_t m, dev_t d",
    "int,   __xmknod, int ver, const char* f, mode_t m, dev_t* d",
    "int,   link,    const char* s, const char* f",
    "int,   linkat,  int atfd, const char* s, int atfd2, const char* f, int flags",
    "int,   symlink, const char* s, const char* f",
    "int,   symlinkat, const char* s, int atfd, const char* f",
    "int,   rename,  const char* s, const char* f",
    "int,   renameat,  int atfds, const char* s, int atfd, const char* f",
    "int,   renameat2, int atfds, const char* s, int atfd, const char* f, unsigned int flags",
    "int,   utime,   const char* f, const struct utimbuf* t",
    "int,   utimes,  const char* f, struct timeval* t",
    "int,   utimensat, int atfd, const char* f, const struct timespec t[2], int flags",
    "int,   execv,   const char* f, char* const a[]",
    "int,   execve,  const char* f, char* const a[], char* const e[]"].map fun line => addWrapper line.toList

/-! ## Paths -/

/-- A descriptor: `AT_FDCWD`, or one of a directory. -/
inductive Fd
  | cwd
  | dir (path : Text)
  deriving DecidableEq

def pathMax : Nat := 4096

/-- The path and its terminating zero fit in `atpath`. -/
def Fits (dir path : Text) : Prop := dir.length + 1 + path.length < pathMax

instance (dir path : Text) : Decidable (Fits dir path) := inferInstanceAs (Decidable (_ < _))

/-- None if the path runs out of its buffer. -/
def getatpath (dir path : Text) : Option Text := if Fits dir path then some (dir ++ '/' :: path) else none

/-- `f2`: the check of each descriptor starts from `f` again. -/
def Func.f2 (w : Func) (fds : Text → Fd) (f : Text) : Option Text :=
  w.atcheck.foldl (fun f2 name =>
    match fds name with
    | .cwd => f2
    | .dir dir => getatpath dir f) (some f)

/-! ## Calls -/

def O_WRONLY : BitVec 32 := 1
def O_RDWR : BitVec 32 := 2
def O_ACCMODE : BitVec 32 := 3
def O_CREAT : BitVec 32 := 0x40
def O_APPEND : BitVec 32 := 0x400

/-- `check_write_access` does not abort. -/
def checkWriteAccess (base file : Text) : Bool :=
  if file.head? = some '/' then
    let file := '/' :: file.dropWhile (· == '/')
    file == "/dev/null".toList || "/dev/fd/".toList.isPrefixOf file || "/tmp".toList.isPrefixOf file ||
      base.isPrefixOf file
  else true

inductive Event
  | abort
  | before (path : Text)
  | call
  | after (path : Text)
  deriving DecidableEq

def Func.named (front : String) (w : Func) : Bool := front.toList.isPrefixOf w.function

/-- What a wrapper does; `base` is `FLWRAPPER_BASEDIR` where it is set, `a` the flags of an open. -/
def Func.run (base : Option Text) (w : Func) (fds : Text → Fd) (f : Text) (a : BitVec 32) : Option (List Event) :=
  if w.named "exec" then some [.after f, .call]
  else
    (w.f2 fds f).map fun f2 =>
      let guarded := w.named "open" && base.any fun base =>
        a &&& (O_WRONLY ||| O_CREAT ||| O_APPEND) != 0 && !checkWriteAccess base f2
      if guarded then [.abort] else [.before f2, .call, .after f2]

/-! ## The wrappers with a descriptor -/

def atFunctions : List Text :=
  ["openat", "openat64", "linkat", "symlinkat", "renameat", "renameat2", "utimensat"].map String.toList

def atWrappers : List Func := wrappers.filter (atFunctions.contains ·.function)

/-- The descriptor of the target: the parameter in front of `f`. -/
def Func.target (w : Func) : Text := lastWord ((w.params.takeWhile fun x => lastWord x != ['f']).getLast?.getD [])

def absolute (path : Text) : Bool := path.head? == some '/'

/-- What the kernel resolves. -/
def kernelPath (fd : Fd) (path : Text) : Text :=
  if absolute path then path
  else match fd with
    | .cwd => path
    | .dir dir => dir ++ '/' :: path

def checked : Text := "atfd".toList

/-- What is inspected before the call and recorded after it is the path of the target. -/
def Attributed (w : Func) (fds : Text → Fd) (f : Text) (a : BitVec 32) : Prop :=
  let path := kernelPath (fds w.target) f
  w.run none fds f a = some [.before path, .call, .after path]

/-- The descriptors of `atfd` and of the target: both are `AT_FDCWD`, or the path is absolute and `atfd` is; or both
are of one directory, and the path is relative and fits. -/
def SameTarget (atfd target : Fd) (f : Text) : Prop :=
  match atfd, target with
  | .cwd, .cwd => True
  | .cwd, .dir _ => absolute f = true
  | .dir _, .cwd => False
  | .dir dir, .dir dir' => dir = dir' ∧ absolute f = false ∧ Fits dir f

/-- The descriptor that is checked is that of the target, but in `linkat`. -/
theorem at_shape : ∀ w ∈ atWrappers, w.atcheck = [checked] ∧ w.named "exec" = false ∧
    w.target = if w.function = "linkat".toList then "atfd2".toList else checked := by
  rw [atWrappers, wrappers]
  simp only [List.map_cons, List.map_nil]
  repeat rw [String.toList_ofList]
  decide +kernel

theorem f2_at {w : Func} (hw : w.atcheck = [checked]) (fds : Text → Fd) (f : Text) :
    w.f2 fds f = match fds checked with
      | .cwd => some f
      | .dir dir => getatpath dir f := by
  rw [Func.f2, hw, List.foldl_cons, List.foldl_nil]

theorem run_none {w : Func} (hw : w.named "exec" = false) (fds : Text → Fd) (f : Text) (a : BitVec 32) :
    w.run none fds f a = (w.f2 fds f).map fun f2 => [.before f2, .call, .after f2] := by
  simp [Func.run, hw]

theorem attributed_iff {w : Func} (hw : w.named "exec" = false) (fds : Text → Fd) (f : Text) (a : BitVec 32) :
    Attributed w fds f a ↔ w.f2 fds f = some (kernelPath (fds w.target) f) := by
  rw [Attributed, run_none hw]
  cases w.f2 fds f <;> simp

/-- A path in a directory is longer than the path. -/
theorem dir_path_ne (dir f : Text) : dir ++ '/' :: f ≠ f := by
  intro h
  have hlen := congrArg List.length h
  simp only [List.length_append, List.length_cons] at hlen
  omega

theorem getatpath_eq_iff {dir f path : Text} : getatpath dir f = some path ↔ Fits dir f ∧ dir ++ '/' :: f = path := by
  unfold getatpath
  split <;> simp_all

/-- **The wrappers with a descriptor** take the path of the target exactly if the descriptors and the path are so. -/
theorem at_paths (w : Func) (hw : w ∈ atWrappers) (fds : Text → Fd) (f : Text) (a : BitVec 32) :
    Attributed w fds f a ↔ SameTarget (fds checked) (fds w.target) f := by
  obtain ⟨hcheck, hexec, -⟩ := at_shape w hw
  rw [attributed_iff hexec, f2_at hcheck]
  unfold kernelPath SameTarget
  cases fds checked with
  | cwd =>
    cases fds w.target with
    | cwd => simp
    | dir dir =>
      cases absolute f with
      | true => simp
      | false => simp [Ne.symm (dir_path_ne dir f)]
  | dir dir =>
    simp only [getatpath_eq_iff]
    cases fds w.target with
    | cwd => simp [dir_path_ne]
    | dir dir' =>
      cases absolute f with
      | true => simp [dir_path_ne]
      | false => simp [and_comm]

/-- Two descriptors, of which `atfd` is the source. -/
def twoDirs (name : Text) : Fd := if name = checked then .dir "/src".toList else .dir "/dst".toList

def linkat : Func := addWrapper "int,   linkat,  int atfd, const char* s, int atfd2, const char* f, int flags".toList
def openat : Func := addWrapper "int,   openat,  int atfd, const char* f, int a, ...".toList

theorem openat_mem : openat ∈ atWrappers ∧ linkat ∈ atWrappers := by
  rw [atWrappers, wrappers, openat, linkat]
  simp only [List.map_cons, List.map_nil]
  repeat rw [String.toList_ofList]
  decide +kernel

theorem at_paths_openat : Attributed openat twoDirs "file".toList 0 ↔
    SameTarget (.dir "/src".toList) (.dir "/src".toList) "file".toList :=
  at_paths openat openat_mem.1 twoDirs "file".toList 0

/-- `linkat` makes the file in the other directory, and `openat` gets an absolute path. -/
theorem at_misattributed :
    linkat ∈ atWrappers ∧ openat ∈ atWrappers ∧
      linkat.run none twoDirs "file".toList 0 = some [.before "/src/file".toList, .call, .after "/src/file".toList] ∧
      ¬ Attributed linkat twoDirs "file".toList 0 ∧
      openat.run none twoDirs "/etc/passwd".toList 0 =
        some [.before "/src//etc/passwd".toList, .call, .after "/src//etc/passwd".toList] ∧
      ¬ Attributed openat twoDirs "/etc/passwd".toList 0 := by
  refine ⟨openat_mem.2, openat_mem.1, ?_⟩
  unfold Attributed openat linkat
  repeat rw [String.toList_ofList]
  decide +kernel

end T2Sde.Wrapper
