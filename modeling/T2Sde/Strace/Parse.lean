import T2Sde.Lib.Stdio
import T2Sde.Wrapper.Confined
/-!
# The log of `strace` (`misc/tools-source/fl_stparse.c`)

`fl_stparse` reads the log that `strace -f` has written and makes the two logs from it that the wrapper would have
written. It keeps the directory of each process in a table, and follows a `chdir` by going there itself.

| here | there |
| --- | --- |
| `Proc`, `maxprocs`                       | `procs_t`, `MAXPROCS` :17-22 |
| `newproc`, `getproc`, `setproc`, `freeproc` | :24-73 |
| `formats`, `action`                      | the formats :106-168, in their order |
| `State.fork` … `State.perform`           | what is done for a line :123-178 |
| `flStparse`                              | `main` |
| `Call`, `Entry.line`                     | what `strace` writes |

* `action_line` — which of the formats reads a line.
-/
namespace T2Sde.Strace
open Shell (Text)
open Lua (isSpace)
open Stdio Wrapper

/-! ## The table -/

/-- A place of the table; it is free if `pid` is 0. -/
structure Proc where
  pid : Int
  cwd : Text
  deriving DecidableEq, Repr

def maxprocs : Nat := 512

/-- Write over the first one with `q`. -/
def setFirst {α : Type} (q : α → Bool) (b : α) : List α → Option (List α)
  | [] => none
  | a :: l => if q a then some (b :: l) else (setFirst q b l).map (a :: ·)

def orAbort {α : Type} (message : Text) (x : Option α) : Except Text α := x.elim (.error message) .ok

def message (what : String) (pid : Int) : Text :=
  "fl_stparse: Can't ".toList ++ what.toList ++ " proc ".toList ++ decimal pid ++ "!\n".toList

def newproc (procs : List Proc) (pid : Int) (cwd : Text) : Except Text (List Proc) :=
  orAbort "fl_stparse: No more free procs in list!\n".toList (setFirst (·.pid == 0) ⟨pid, cwd⟩ procs)

def getproc (procs : List Proc) (pid : Int) : Except Text Proc :=
  orAbort (message "find" pid) (procs.find? (·.pid == pid))

def setproc (procs : List Proc) (pid : Int) (cwd : Text) : Except Text (List Proc) :=
  orAbort (message "set" pid) (setFirst (·.pid == pid) ⟨pid, cwd⟩ procs)

def freeproc (procs : List Proc) (pid : Int) : Except Text (List Proc) :=
  orAbort (message "free" pid) (setFirst (·.pid == pid) ⟨0, []⟩ procs)

/-! ## A line -/

/-- What a line asks for. -/
inductive Action
  | none
  | fork (pid newpid : Int)
  | exit (pid : Int)
  | chdir (pid : Int) (path : Text)
  | read (pid : Int) (path flags : Text)
  | write (pid : Int) (path : Text)
  deriving DecidableEq, Repr

def toFork : List Arg → Option Action
  | [.num pid, .num newpid] => some (.fork pid newpid)
  | _ => none

def toExit : List Arg → Option Action
  | [.num pid, .num _] => some (.exit pid)
  | _ => none

def toChdir : List Arg → Option Action
  | [.num pid, .str buf1] => some (.chdir pid buf1)
  | _ => none

def toOpen : List Arg → Option Action
  | [.num pid, .str buf1, .str buf2] => some (.read pid buf1 buf2)
  | _ => none

def toPath : List Arg → Option Action
  | [.num pid, .str buf1] => some (.write pid buf1)
  | _ => none

def toSecond : List Arg → Option Action
  | [.num pid, .str _, .str buf1] => some (.write pid buf1)
  | _ => none

def formats : List (String × (List Arg → Option Action)) :=
  [("%d fork() = %d", toFork), ("%d vfork() = %d", toFork),
    ("%d <... fork resumed> ) = %d", toFork), ("%d <... vfork resumed> ) = %d", toFork),
    ("%d _exit(%d", toExit), ("%d exit_group(%d", toExit),
    ("%d chdir(\"%[^\"]", toChdir),
    ("%d open(\"%[^\"]\", %s", toOpen),
    ("%d mkdir(\"%[^\"]\", ", toPath), ("%d utime(\"%[^\"]\", ", toPath),
    ("%d link(\"%[^\"]\", \"%[^\"]\"", toSecond), ("%d symlink(\"%[^\"]\", \"%[^\"]\"", toSecond),
    ("%d rename(\"%[^\"]\", \"%[^\"]\"", toSecond)]

def action (line : Text) : Action := (formats.findSome? fun f => f.2 (sscanf line f.1.toList)).getD .none

/-! ## The program -/

inductive LogFile
  | wlog | rlog
  deriving DecidableEq, Repr

/-- The table, the directory of the program itself, and what is written. -/
structure State where
  procs : List Proc
  cwd : Place
  out : List (LogFile × Text)
  deriving DecidableEq, Repr

def record (pid : Int) (path : Text) : Text := decimal pid ++ ": ".toList ++ path ++ ['\n']

/-- A path below a directory. -/
def under (cwd path : Text) : Text := (if cwd = ['/'] then [] else cwd) ++ '/' :: path

def State.fork (s : State) (pid newpid : Int) : Except Text State := do
  let p ← getproc s.procs pid
  let procs ← newproc s.procs newpid p.cwd
  return { s with procs }

def State.exit (s : State) (pid : Int) : Except Text State := do
  let procs ← freeproc s.procs pid
  return { s with procs }

/-- A `chdir` that fails leaves the directory as it is. -/
def go (chdir : Place → Text → Option Place) (cwd : Place) (p : Text) : Place := (chdir cwd p).getD cwd

def State.chdir (chdir : Place → Text → Option Place) (s : State) (pid : Int) (path : Text) : Except Text State := do
  let p ← getproc s.procs pid
  let cwd := go chdir (go chdir s.cwd p.cwd) path
  let procs ← setproc s.procs pid cwd.text
  return { s with procs, cwd }

def State.write (s : State) (log : LogFile) (pid : Int) (path : Text) : Except Text State :=
  if path.head? = some '/' then return { s with out := s.out ++ [(log, record pid path)] }
  else do
    let p ← getproc s.procs pid
    return { s with out := s.out ++ [(log, record pid (under p.cwd path))] }

def logOf (flags : Text) : LogFile := if "O_RDONLY".toList <:+: flags then .rlog else .wlog

def State.perform (chdir : Place → Text → Option Place) (s : State) : Action → Except Text State
  | .none => return s
  | .fork pid newpid => s.fork pid newpid
  | .exit pid => s.exit pid
  | .chdir pid path => s.chdir chdir pid path
  | .read pid path flags => if "O_DIRECTORY".toList <:+: flags then return s else s.write (logOf flags) pid path
  | .write pid path => s.write .wlog pid path

def stLoop (chdir : Place → Text → Option Place) (s : State) : List Text → Except Text State
  | [] => return s
  | line :: lines => do
    let s ← s.perform chdir (action line)
    stLoop chdir s lines

def bufSize : Nat := 1024

/-- The program in the directory `start`, with the log as its input. -/
def flStparse (chdir : Place → Text → Option Place) (start : Place) (input : Text) : Except Text State :=
  match gets bufSize input with
  | [] => .error "fl_stparse: Can't init using first line of input!\n".toList
  | line :: lines => match sscanf line "%d".toList with
    | [.num pid] => do
      let procs ← newproc (List.replicate maxprocs ⟨0, []⟩) pid start.text
      stLoop chdir ⟨procs, start, []⟩ (line :: lines)
    | _ => .error "fl_stparse: Can't init using first line of input!\n".toList

/-! ## What `strace` writes -/

def blanks (n : Nat) : Text := List.replicate n ' '

inductive OnePath
  | mkdir | utime
  deriving DecidableEq, Repr

def OnePath.name : OnePath → Text
  | .mkdir => "mkdir".toList
  | .utime => "utime".toList

inductive TwoPaths
  | link | symlink | rename
  deriving DecidableEq, Repr

def TwoPaths.name : TwoPaths → Text
  | .link => "link".toList
  | .symlink => "symlink".toList
  | .rename => "rename".toList

/-- What `strace` writes besides: calls that `fl_stparse` does not know, signals, the end of a process after its exit,
and the second half of a call. -/
inductive Other
  | execve | creat | mknod | signal | exited
  | resumedOpen | resumedCreat | resumedMkdir | resumedMknod | resumedLink | resumedSymlink | resumedRename
  | resumedUtime | resumedChdir | resumedExecve
  deriving DecidableEq, Repr

def Other.text : Other → Text
  | .execve => "execve(".toList
  | .creat => "creat(".toList
  | .mknod => "mknod(".toList
  | .signal => "--- ".toList
  | .exited => "+++ exited with ".toList
  | .resumedOpen => "<... open resumed> ".toList
  | .resumedCreat => "<... creat resumed> ".toList
  | .resumedMkdir => "<... mkdir resumed> ".toList
  | .resumedMknod => "<... mknod resumed> ".toList
  | .resumedLink => "<... link resumed> ".toList
  | .resumedSymlink => "<... symlink resumed> ".toList
  | .resumedRename => "<... rename resumed> ".toList
  | .resumedUtime => "<... utime resumed> ".toList
  | .resumedChdir => "<... chdir resumed> ".toList
  | .resumedExecve => "<... execve resumed> ".toList

/-- A call, or the part of it that is on one line. Of `chdir` the directory to which it led is known, if it did; the
text of a path is the one in the log. `rest` is what stands at the end of the line. -/
inductive Call
  | fork (v : Bool) (pad : Nat) (ret : Int) (rest : Text)
  | begun (v : Bool)
  | resumed (v : Bool) (gap pad : Nat) (ret : Int) (rest : Text)
  | exit (group : Bool) (status : Int) (rest : Text)
  | killed (rest : Text)
  | chdir (path : Text) (result : Option Place) (rest : Text)
  | openFile (path flags rest : Text)
  | onePath (c : OnePath) (path rest : Text)
  | twoPaths (c : TwoPaths) (old path rest : Text)
  | other (c : Other) (rest : Text)
  deriving DecidableEq, Repr

def forkName : Bool → Text
  | false => "fork".toList
  | true => "vfork".toList

def exitName : Bool → Text
  | false => "_exit(".toList
  | true => "exit_group(".toList

def Call.pieces : Call → List Text
  | .fork v pad ret rest => [forkName v, "()".toList, blanks pad, "= ".toList, decimal ret, rest]
  | .begun v => [forkName v, "( <unfinished ...>".toList]
  | .resumed v gap pad ret rest =>
    ["<... ".toList, forkName v, " resumed>".toList, blanks gap, ")".toList, blanks pad, "= ".toList, decimal ret, rest]
  | .exit group status rest => [exitName group, decimal status, rest]
  | .killed rest => ["+++ killed by ".toList, rest]
  | .chdir path _ rest => ["chdir(\"".toList, path, "\"".toList, rest]
  | .openFile path flags rest => ["open(\"".toList, path, "\", ".toList, flags, rest]
  | .onePath c path rest => [c.name, "(\"".toList, path, "\", ".toList, rest]
  | .twoPaths c old path rest => [c.name, "(\"".toList, old, "\", \"".toList, path, "\"".toList, rest]
  | .other c rest => [c.text, rest]

def Call.text (c : Call) : Text := c.pieces.flatten

/-- A line of the log. -/
structure Entry where
  pid : Int
  pad : Nat
  call : Call
  deriving DecidableEq, Repr

def Entry.line (e : Entry) : Text := decimal e.pid ++ blanks (e.pad + 1) ++ e.call.text

/-- The parts of a line are told from each other. -/
def Call.Parts : Call → Prop
  | .fork _ _ _ rest | .resumed _ _ _ _ rest | .exit _ _ rest => Stops Char.isDigit rest
  | .openFile _ flags rest => flags ≠ [] ∧ (∀ c ∈ flags, isSpace c = false) ∧ Stops (fun c => !isSpace c) rest
  | _ => True

/-- It fits into the buffer. -/
structure Entry.Ok (e : Entry) : Prop where
  parts : e.call.Parts
  line : '\n' ∉ e.line
  short : e.line.length + 1 < bufSize

/-- A path that is read as it stands in the log. -/
def Readable (path : Text) : Prop := path ≠ [] ∧ '"' ∉ path

def Call.Readable : Call → Prop
  | .chdir path _ _ | .openFile path _ _ | .onePath _ path _ => Strace.Readable path
  | .twoPaths _ old path _ => Strace.Readable old ∧ Strace.Readable path
  | _ => True

/-! ## What is read -/

/-- What a line says. -/
def Call.action (pid : Int) : Call → Action
  | .fork _ _ ret _ | .resumed _ _ _ ret _ => .fork pid ret
  | .exit _ _ _ => .exit pid
  | .chdir path _ _ => .chdir pid path
  | .openFile path flags _ => .read pid path flags
  | .onePath _ path _ | .twoPaths _ _ path _ => .write pid path
  | .begun _ | .killed _ | .other _ _ => .none

section
variable {pid : Int} {t : Text}

/-- A format behind the process and the blank. -/
def behind (f : String × (List Arg → Option Action)) : List Directive := (format f.1.toList).drop 2

/-- What a format makes of the text behind them. -/
def reading (pid : Int) (t : Text) (f : String × (List Arg → Option Action)) : Option Action :=
  f.2 (.num pid :: scan (behind f) t)

theorem formats_start : ∀ f ∈ formats, format f.1.toList = .num :: .blank :: behind f := by
  decide +kernel

/-- A process is not enough. -/
theorem formats_short : ∀ f ∈ formats, f.2 [.num pid] = none := by
  intro f hf
  simp only [formats, List.mem_cons, List.not_mem_nil, or_false] at hf
  rcases hf with rfl | rfl | rfl | rfl | rfl | rfl | rfl | rfl | rfl | rfl | rfl | rfl | rfl <;> rfl

theorem isSpace_blanks (n : Nat) : ∀ c ∈ blanks n, isSpace c = true := by
  intro c hc
  rw [List.eq_of_mem_replicate hc]
  rfl

theorem action_eq (pid : Int) (pad : Nat) (ht : Stops isSpace t) :
    action (decimal pid ++ blanks (pad + 1) ++ t) = (formats.findSome? (reading pid t)).getD .none := by
  have hread : ∀ f ∈ formats, f.2 (sscanf (decimal pid ++ blanks (pad + 1) ++ t) f.1.toList) = reading pid t f := by
    intro f hf
    rw [sscanf, formats_start f hf, List.append_assoc, scan_num, scan_blank (isSpace_blanks _) ht]
    · rfl
    · simp [Stops, blanks, List.replicate_succ]
  rw [action, ← List.head?_filterMap, List.filterMap_congr hread, List.head?_filterMap]

/-- The first format that reads the line. -/
theorem reads_at (k : Nat) {f : String × (List Arg → Option Action)} {a : Action}
    (hbefore : (formats.take k).findSome? (reading pid t) = none) (hf : formats[k]? = some f)
    (ha : reading pid t f = some a) : (formats.findSome? (reading pid t)).getD .none = a := by
  have hsplit : formats = formats.take k ++ f :: formats.drop (k + 1) := by
    obtain ⟨hk, hget⟩ := List.getElem?_eq_some_iff.1 hf
    rw [← hget, List.getElem_cons_drop, List.take_append_drop]
  rw [hsplit, List.findSome?_append, hbefore, Option.none_or, List.findSome?_cons_of_isSome (by rw [ha]; rfl), ha]
  rfl

theorem stops_key {key : Text} (hkey : key.head?.any (fun c => !isSpace c) = true) (t : Text) :
    Stops isSpace (key ++ t) := by
  cases key with
  | nil => simp at hkey
  | cons c key => simpa [Stops] using hkey

/-- The beginnings of lines, each with the number of its format; 13 is none. -/
def keys : List (Nat × Text) :=
  [(0, "fork()".toList), (1, "vfork()".toList), (2, "<... fork resumed>".toList), (3, "<... vfork resumed>".toList),
    (4, "_exit(".toList), (5, "exit_group(".toList), (6, "chdir(\"".toList), (7, "open(\"".toList),
    (8, "mkdir(\"".toList), (9, "utime(\"".toList), (10, "link(\"".toList), (11, "symlink(\"".toList),
    (12, "rename(\"".toList), (13, "fork( ".toList), (13, "vfork( ".toList), (13, "+++ killed by ".toList)]

/-- The formats in front are left. -/
theorem keys_told : ∀ x ∈ keys, ∀ f ∈ formats.take x.1, mismatch (behind f) x.2 = true := by
  decide +kernel

/-- What each format still asks for behind its beginning. -/
def rests : List (List Directive) :=
  [[.blank, .lit '=', .blank, .num], [.blank, .lit '=', .blank, .num],
    [.blank, .lit ')', .blank, .lit '=', .blank, .num], [.blank, .lit ')', .blank, .lit '=', .blank, .num],
    [.num], [.num],
    [.upTo '"'],
    [.upTo '"', .lit '"', .lit ',', .blank, .word],
    [.upTo '"', .lit '"', .lit ',', .blank], [.upTo '"', .lit '"', .lit ',', .blank],
    [.upTo '"', .lit '"', .lit ',', .blank, .lit '"', .upTo '"', .lit '"'],
    [.upTo '"', .lit '"', .lit ',', .blank, .lit '"', .upTo '"', .lit '"'],
    [.upTo '"', .lit '"', .lit ',', .blank, .lit '"', .upTo '"', .lit '"']]

/-- Behind its beginning a format goes on with the rest. -/
theorem keys_after : ∀ x ∈ (formats.zip keys).zip rests, after (behind x.1.1) x.1.2.2 = some x.2 := by
  decide +kernel

def others : List Other :=
  [.execve, .creat, .mknod, .signal, .exited, .resumedOpen, .resumedCreat, .resumedMkdir, .resumedMknod, .resumedLink,
    .resumedSymlink, .resumedRename, .resumedUtime, .resumedChdir, .resumedExecve]

theorem others_told : ∀ c ∈ others, ∀ f ∈ formats, mismatch (behind f) c.text = true := by
  decide +kernel

theorem reads_none {fs : List (String × (List Arg → Option Action))} (hfs : fs ⊆ formats) {key : Text}
    (hkey : ∀ f ∈ fs, mismatch (behind f) key = true) (t : Text) : fs.findSome? (reading pid (key ++ t)) = none := by
  rw [List.findSome?_eq_none_iff]
  intro f hf
  rw [reading, scan_mismatch (hkey f hf)]
  exact formats_short f (hfs hf)

/-- The line begins with `key`, and the format with the number `k` reads it. -/
theorem action_key (k : Nat) (key t : Text) {f : String × (List Arg → Option Action)} {g : List Directive} {a : Action}
    (pad : Nat) (hkey : key.head?.any (fun c => !isSpace c) = true) (hk : keys[k]? = some (k, key))
    (hf : formats[k]? = some f) (hg : rests[k]? = some g) (ha : f.2 (.num pid :: scan g t) = some a) :
    action (decimal pid ++ (blanks (pad + 1) ++ (key ++ t))) = a := by
  have hbefore := keys_told _ (List.mem_of_getElem? hk)
  have hzip : ((formats.zip keys).zip rests)[k]? = some ((f, (k, key)), g) := by
    rw [List.getElem?_zip_eq_some, List.getElem?_zip_eq_some]
    exact ⟨⟨hf, hk⟩, hg⟩
  have hafter : after (behind f) key = some g := keys_after _ (List.mem_of_getElem? hzip)
  rw [← List.append_assoc, action_eq pid pad (stops_key hkey t)]
  refine reads_at k (reads_none (List.take_subset k formats) hbefore t) hf ?_
  rw [reading, scan_after hafter, ha]

/-- No format reads it. -/
theorem action_none (key t : Text) (pad : Nat) (hkey : key.head?.any (fun c => !isSpace c) = true)
    (hbefore : ∀ f ∈ formats, mismatch (behind f) key = true) :
    action (decimal pid ++ (blanks (pad + 1) ++ (key ++ t))) = .none := by
  rw [← List.append_assoc, action_eq pid pad (stops_key hkey t), reads_none (List.Subset.refl _) hbefore]
  rfl

/-- What a call returned. -/
theorem scan_return (pad : Nat) (ret : Int) {rest : Text} (hrest : Stops Char.isDigit rest) :
    scan [.blank, .lit '=', .blank, .num] (blanks pad ++ ("= ".toList ++ (decimal ret ++ rest))) = [.num ret] := by
  rw [scan_blank (isSpace_blanks pad) (stops_key rfl _)]
  have hblank := @scan_blank [.num] (decimal ret ++ rest) [' '] (by decide)
    fun c hc => isSpace_digit (decimal_head ret hc)
  rw [scan_num ret hrest] at hblank
  exact hblank

theorem scan_resumed (gap pad : Nat) (ret : Int) {rest : Text} (hrest : Stops Char.isDigit rest) :
    scan [.blank, .lit ')', .blank, .lit '=', .blank, .num]
      (blanks gap ++ (")".toList ++ (blanks pad ++ ("= ".toList ++ (decimal ret ++ rest))))) = [.num ret] := by
  rw [scan_blank (isSpace_blanks gap) (stops_key rfl _)]
  exact scan_return pad ret hrest

theorem scan_open {path flags rest : Text} (hpath : Readable path) (hflags : flags ≠ [])
    (hword : ∀ c ∈ flags, isSpace c = false) (hrest : Stops (fun c => !isSpace c) rest) :
    scan [.upTo '"', .lit '"', .lit ',', .blank, .word] (path ++ ("\", ".toList ++ (flags ++ rest))) =
      [.str path, .str flags] := by
  have hfirst : Stops isSpace (flags ++ rest) := by
    obtain ⟨c, flags, rfl⟩ := List.exists_cons_of_ne_nil hflags
    exact stops_key (by simpa using hword c List.mem_cons_self) rest
  have hblank := @scan_blank [.word] (flags ++ rest) [' '] (by decide) hfirst
  rw [scan_word hflags hword hrest] at hblank
  have hquote := @scan_upTo [.lit '"', .lit ',', .blank, .word] path '"' hpath.1 hpath.2
    (", ".toList ++ (flags ++ rest))
  exact hquote.trans (congrArg (Arg.str path :: ·) hblank)

theorem scan_onePath {path : Text} (hpath : Readable path) (rest : Text) :
    scan [.upTo '"', .lit '"', .lit ',', .blank] (path ++ ("\", ".toList ++ rest)) = [.str path] :=
  scan_upTo hpath.1 hpath.2 _

theorem scan_twoPaths {old path : Text} (hold : Readable old) (hpath : Readable path) (rest : Text) :
    scan [.upTo '"', .lit '"', .lit ',', .blank, .lit '"', .upTo '"', .lit '"']
      (old ++ ("\", \"".toList ++ (path ++ ("\"".toList ++ rest)))) = [.str old, .str path] := by
  have hquote := @scan_upTo [.lit '"', .lit ',', .blank, .lit '"', .upTo '"', .lit '"'] old '"' hold.1 hold.2
    (", \"".toList ++ (path ++ ("\"".toList ++ rest)))
  have hnext : after [.lit '"', .lit ',', .blank, .lit '"', .upTo '"', .lit '"'] "\", \"".toList =
      some [.upTo '"', .lit '"'] := by decide +kernel
  have hsecond := @scan_upTo [.lit '"'] path '"' hpath.1 hpath.2 rest
  rw [← scan_after hnext] at hsecond
  exact hquote.trans (congrArg (Arg.str old :: ·) hsecond)

theorem stops_end {p : Char → Bool} {rest : Text} (h : Stops p rest) {c : Char} (hc : p c = false) :
    Stops p (rest ++ [c]) := by
  cases rest with
  | nil => simpa [Stops] using hc
  | cons x rest => simpa [Stops] using h

/-! ## A line of the log -/

theorem action_fork {v : Bool} {gap : Nat} {ret : Int} {rest : Text} (pad : Nat) (hrest : Stops Char.isDigit rest) :
    action (decimal pid ++ (blanks (pad + 1) ++
      (forkName v ++ ("()".toList ++ (blanks gap ++ ("= ".toList ++ (decimal ret ++ rest))))))) = .fork pid ret := by
  rw [← List.append_assoc (forkName v)]
  have hret := congrArg (fun x => toFork (.num pid :: x)) (scan_return gap ret hrest)
  cases v
  · exact action_key 0 "fork()".toList _ pad rfl rfl rfl rfl hret
  · exact action_key 1 "vfork()".toList _ pad rfl rfl rfl rfl hret

theorem action_resumed {v : Bool} {gap gap' : Nat} {ret : Int} {rest : Text} (pad : Nat)
    (hrest : Stops Char.isDigit rest) :
    action (decimal pid ++ (blanks (pad + 1) ++ ("<... ".toList ++ (forkName v ++ (" resumed>".toList ++ (blanks gap ++
      (")".toList ++ (blanks gap' ++ ("= ".toList ++ (decimal ret ++ rest)))))))))) = .fork pid ret := by
  rw [← List.append_assoc (forkName v), ← List.append_assoc "<... ".toList]
  have hret := congrArg (fun x => toFork (.num pid :: x)) (scan_resumed gap gap' ret hrest)
  cases v
  · exact action_key 2 "<... fork resumed>".toList _ pad rfl rfl rfl rfl hret
  · exact action_key 3 "<... vfork resumed>".toList _ pad rfl rfl rfl rfl hret

theorem action_exit {group : Bool} {status : Int} {rest : Text} (pad : Nat) (hrest : Stops Char.isDigit rest) :
    action (decimal pid ++ (blanks (pad + 1) ++ (exitName group ++ (decimal status ++ rest)))) = .exit pid := by
  have hstatus := congrArg (fun x => toExit (.num pid :: x)) (@scan_num [] _ status hrest)
  cases group
  · exact action_key 4 "_exit(".toList _ pad rfl rfl rfl rfl hstatus
  · exact action_key 5 "exit_group(".toList _ pad rfl rfl rfl rfl hstatus

theorem action_onePath {c : OnePath} {path : Text} (pad : Nat) (hpath : Readable path) (rest : Text) :
    action (decimal pid ++ (blanks (pad + 1) ++ (c.name ++ ("(\"".toList ++ (path ++ ("\", ".toList ++ rest)))))) =
      .write pid path := by
  rw [← List.append_assoc c.name]
  have hread := congrArg (fun x => toPath (.num pid :: x)) (scan_onePath hpath rest)
  cases c
  · exact action_key 8 "mkdir(\"".toList _ pad rfl rfl rfl rfl hread
  · exact action_key 9 "utime(\"".toList _ pad rfl rfl rfl rfl hread

theorem action_twoPaths {c : TwoPaths} {old path : Text} (pad : Nat) (hold : Readable old) (hpath : Readable path)
    (rest : Text) :
    action (decimal pid ++ (blanks (pad + 1) ++ (c.name ++ ("(\"".toList ++ (old ++ ("\", \"".toList ++
      (path ++ ("\"".toList ++ rest)))))))) = .write pid path := by
  rw [← List.append_assoc c.name]
  have hread := congrArg (fun x => toSecond (.num pid :: x)) (scan_twoPaths hold hpath rest)
  cases c
  · exact action_key 10 "link(\"".toList _ pad rfl rfl rfl rfl hread
  · exact action_key 11 "symlink(\"".toList _ pad rfl rfl rfl rfl hread
  · exact action_key 12 "rename(\"".toList _ pad rfl rfl rfl rfl hread

end

/-- **A line** is read by the format that is meant for it. -/
theorem action_line {e : Entry} (hparts : e.call.Parts) (hread : e.call.Readable) :
    action (e.line ++ ['\n']) = e.call.action e.pid := by
  obtain ⟨pid, pad, call⟩ := e
  rw [Entry.line, Call.text]
  cases call
  all_goals simp only [Call.pieces, List.flatten_cons, List.flatten_nil, List.append_nil, List.append_assoc]
  case fork v gap ret rest =>
    have hrest : Stops Char.isDigit (rest ++ ['\n']) := stops_end hparts (by decide)
    exact action_fork pad hrest
  case begun v =>
    rw [← List.append_assoc (forkName v)]
    cases v
    · exact action_none "fork( ".toList _ pad rfl (keys_told (13, "fork( ".toList) (List.mem_of_getElem? (i := 13) rfl))
    · exact action_none "vfork( ".toList _ pad rfl (keys_told _ (List.mem_of_getElem? (i := 14) rfl))
  case resumed v gap gap' ret rest =>
    have hrest : Stops Char.isDigit (rest ++ ['\n']) := stops_end hparts (by decide)
    exact action_resumed pad hrest
  case exit group status rest =>
    have hrest : Stops Char.isDigit (rest ++ ['\n']) := stops_end hparts (by decide)
    exact action_exit pad hrest
  case killed rest =>
    exact action_none "+++ killed by ".toList _ pad rfl (keys_told _ (List.mem_of_getElem? (i := 15) rfl))
  case chdir path result rest =>
    have hpath := @scan_upTo [] path '"' hread.1 hread.2 (rest ++ ['\n'])
    exact action_key 6 "chdir(\"".toList _ pad rfl rfl rfl rfl
      (congrArg (fun x => toChdir (.num pid :: x)) hpath)
  case openFile path flags rest =>
    obtain ⟨hflags, hword, hrest⟩ := hparts
    have hrest' : Stops (fun c => !isSpace c) (rest ++ ['\n']) := stops_end hrest (by decide)
    have hpath := scan_open hread hflags hword hrest'
    exact action_key 7 "open(\"".toList _ pad rfl rfl rfl rfl
      (congrArg (fun x => toOpen (.num pid :: x)) hpath)
  case onePath c path rest =>
    exact action_onePath pad hread _
  case twoPaths c old path rest =>
    exact action_twoPaths pad hread.1 hread.2 _
  case other c rest =>
    refine action_none c.text _ pad ?_ (others_told c ?_)
    · cases c <;> rfl
    · cases c <;> decide

end T2Sde.Strace
