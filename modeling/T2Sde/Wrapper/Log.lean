import T2Sde.Lib.Cut
import T2Sde.Wrapper.Generate
/-!
# The log of file accesses (`misc/tools-source/fl_wrapper.c.sh`, `misc/tools-source/fl_wrparse.c`)

A wrapper writes a line for each access: the names of the processes that led to it, the function, a tab, the path.
`fl_wrparse` cuts the line at the first blank or tab, `Build-Pkg` at the first tab.

| here | there |
| --- | --- |
| `Process.buffer`, `getpname` | `getpname` :358-382 |
| `addpname`, `cmdname`        | `addptree` :386-411 |
| `record`                     | `handle_file_access_after` :584 |
| `wrparse`                    | `main` (`fl_wrparse.c`) :102-110 |
| `cutLog`                     | `cut -f2-` (`Build-Pkg`) :720-721 |

* `mem_cmdname` — a blank of the process names is in front of the path.
* `log_roundTrip` — **when a line is read back**.
-/
namespace T2Sde.Wrapper
open Shell

/-! ## Process names -/

def nul : Char := Char.ofNat 0

/-- The text at a pointer. -/
def cstr (s : Text) : Text := s.takeWhile (· != nul)

theorem cstr_front {t : Text} (ht : nul ∉ t) (post : Text) : cstr (t ++ post) = t ++ cstr post := by
  apply List.takeWhile_append_of_pos
  intro c hc
  rw [bne_iff_ne]
  rintro rfl
  exact ht hc

theorem cstr_text {t : Text} (ht : nul ∉ t) (post : Text) : cstr (t ++ nul :: post) = t := by
  have hz : cstr (nul :: post) = [] := rfl
  rw [cstr_front ht, hz, List.append_nil]

/-- `basename` of `libgen.h` -/
def basename (path : Text) : Text :=
  if path = [] then ['.']
  else
    let trimmed := path.rdropWhile (· == '/')
    if trimmed = [] then ['/'] else trimmed.rtakeWhile (· != '/')

/-- A process, its command line if that can be read, and what is on the stack behind the name of its file. -/
structure Process where
  pid : Nat
  cmdline : Option Text
  behind : Text

/-- The buffer: at most 100 characters are read over the name of the file, and the last of them is a zero. -/
def Process.buffer (p : Process) (cmdline : Text) : Text :=
  let file := "/proc/".toList ++ (toString p.pid).toList ++ "/cmdline".toList ++ nul :: p.behind
  let read := cmdline.take 100
  if read = [] then file else read.dropLast ++ nul :: file.drop read.length

def getpname (p : Process) : Text :=
  match p.cmdline with
  | none => "unkown".toList
  | some cmdline =>
    let buffer := p.buffer cmdline
    let b := basename (cstr buffer)
    -- no argument is looked for if nothing was read
    let arg := if cmdline = [] then [] else cstr (buffer.drop ((cstr buffer).length + 1))
    if (b = "bash".toList ∨ b = "sh".toList ∨ b = "perl".toList) ∧ arg ≠ [] ∧ arg.head? ≠ some '-' then
      b ++ '(' :: basename arg ++ [')']
    else b

/-- One step of `addptree`: the text so far, and the last name. -/
def addpname (s : Text × Text) (p : Text) : Text × Text :=
  if s.2 ≠ p then (s.1 ++ (if s.1 = [] then [] else ['.']) ++ p, p) else (s.1 ++ ['*'], p)

/-- The processes from the one under `FLWRAPPER_BASEPID` to this one. -/
def cmdname (chain : List Process) : Text := ((chain.map getpname).foldl addpname ([], [])).1

/-! ## Lines -/

def line (cmdname func absfile : Text) : Text := cmdname ++ '.' :: func ++ ":\t".toList ++ absfile

/-- With its newline and its zero it fits in `buf`. -/
def LineFits (cmdname func absfile : Text) : Prop := (line cmdname func absfile ++ ['\n']).length < pathMax

instance (cmdname func absfile : Text) : Decidable (LineFits cmdname func absfile) :=
  inferInstanceAs (Decidable (_ < _))

/-- What is written to the log; `snprintf` cuts it off. -/
def record (cmdname func absfile : Text) : Text := (line cmdname func absfile ++ ['\n']).take (pathMax - 1)

/-- The file name of a line; `stripinfo` is `-s`. -/
def wrparseLine (stripinfo : Bool) (buf : Text) : Option Text :=
  let fn := if stripinfo then behindFirst (fun c => c == '\t' || c == ' ') buf else some buf
  fn.filter (· != [])

def wrparse (stripinfo : Bool) (log : Text) : List Text := (lines log).filterMap (wrparseLine stripinfo)

def cutLog (log : Text) : List Text := (lines log).map (cutRest '\t')

/-! ## The names in front of the path -/

/-- Every name is in the text, and nothing but names and separators; the last one, if it comes again, is there. -/
theorem mem_addpname (names : List Text) (s : Text × Text) (hlast : s.2 ⊆ s.1) {c : Char} (hc : c ≠ '.' ∧ c ≠ '*') :
    c ∈ (names.foldl addpname s).1 ↔ c ∈ s.1 ∨ ∃ p ∈ names, c ∈ p := by
  induction names generalizing s with
  | nil => simp
  | cons p names ih =>
    have hstep : (addpname s p).2 ⊆ (addpname s p).1 ∧ (c ∈ (addpname s p).1 ↔ c ∈ s.1 ∨ c ∈ p) := by
      unfold addpname
      split
      · refine ⟨List.subset_append_right _ _, ?_⟩
        split <;> simp [hc.1]
      next heq =>
        obtain rfl : s.2 = p := by simpa using heq
        refine ⟨List.subset_append_of_subset_left _ hlast, ?_⟩
        have hin : c ∈ s.2 → c ∈ s.1 := fun h => hlast h
        simp only [List.mem_append, List.mem_singleton, hc.2, or_false]
        exact ⟨.inl, fun h => h.elim id hin⟩
    rw [List.foldl_cons, ih _ hstep.1, hstep.2]
    simp [or_assoc]

theorem mem_cmdname (chain : List Process) {c : Char} (hc : c ≠ '.' ∧ c ≠ '*') :
    c ∈ cmdname chain ↔ ∃ p ∈ chain, c ∈ getpname p := by
  rw [cmdname, mem_addpname _ _ (List.Subset.refl _) hc]
  simp

/-- The functions have no blanks in their names. -/
theorem function_plain : ∀ w ∈ wrappers, ∀ c ∈ [' ', '\t', '\n'], c ∉ w.function := by
  have hall : ∀ w ∈ wrappers, [' ', '\t', '\n'].all (fun c => !w.function.contains c) = true := by
    rw [wrappers]
    simp only [List.map_cons, List.map_nil]
    repeat rw [String.toList_ofList]
    decide +kernel
  intro w hw c hc
  simpa using List.all_eq_true.1 (hall w hw) c hc

/-! ## Reading a line back -/

/-- A line is read as this path, by both. -/
def ReadBack (log path : Text) : Prop := wrparse true log = [path] ∧ cutLog log = [path]

theorem record_of_fits {cmdname func path : Text} (hfits : LineFits cmdname func path) :
    record cmdname func path = unlines [line cmdname func path] := by
  have hlength : (line cmdname func path ++ ['\n']).length ≤ pathMax - 1 := Nat.le_sub_one_of_lt hfits
  rw [record, List.take_of_length_le hlength]
  simp [unlines]

theorem lines_record {chain : List Process} {func path : Text} (hnames : ∀ p ∈ chain, '\n' ∉ getpname p)
    (hfunc : '\n' ∉ func) (hpath : '\n' ∉ path) (hfits : LineFits (cmdname chain) func path) :
    lines (record (cmdname chain) func path) = [line (cmdname chain) func path] := by
  have hcmd : '\n' ∉ cmdname chain := by
    rw [mem_cmdname chain (by decide)]
    rintro ⟨p, hp, hc⟩
    exact hnames p hp hc
  have hline : '\n' ∉ line (cmdname chain) func path := by
    simp [line, hcmd, hfunc, hpath]
  rw [record_of_fits hfits, lines_unlines (by simpa using hline)]

theorem line_eq (cmdname func path : Text) :
    line cmdname func path = (cmdname ++ '.' :: func ++ [':']) ++ '\t' :: path := by
  simp [line]

/-- What `strpbrk` looks for. -/
def sep (c : Char) : Bool := c == '\t' || c == ' '

theorem wrparseLine_eq (buf : Text) : wrparseLine true buf = (behindFirst sep buf).filter (· != []) := rfl

/-- The path is behind the first tab. -/
theorem read_plain {cmdname func path : Text} (hcmd : ∀ c ∈ cmdname, sep c = false) (hfunc : ∀ c ∈ func, sep c = false)
    (hne : path ≠ []) :
    wrparseLine true (line cmdname func path) = some path ∧ cutRest '\t' (line cmdname func path) = path := by
  have hfront : ∀ c ∈ cmdname ++ '.' :: func ++ [':'], sep c = false := by
    intro c hc
    simp only [List.mem_append, List.mem_cons, List.not_mem_nil, or_false] at hc
    rcases hc with (hc | rfl | hc) | rfl
    · exact hcmd c hc
    · rfl
    · exact hfunc c hc
    · rfl
  have htab : '\t' ∉ cmdname ++ '.' :: func ++ [':'] := fun hc => by simpa [sep] using hfront '\t' hc
  rw [line_eq]
  constructor
  · rw [wrparseLine_eq, behindFirst_append hfront, behindFirst_cons rfl]
    simp [hne]
  · exact cutRest_append htab path

/-- With a blank in a process name `fl_wrparse` takes more than the path. -/
theorem read_blank {cmdname func path : Text} (hcmd : ∃ c ∈ cmdname, sep c = true) :
    wrparseLine true (line cmdname func path) ≠ some path := by
  have hshape : line cmdname func path = cmdname ++ ('.' :: func ++ ':' :: '\t' :: path) := by simp [line]
  obtain ⟨u, hu⟩ := behindFirst_of_mem hcmd ('.' :: func ++ ':' :: '\t' :: path)
  rw [wrparseLine_eq, hshape, hu]
  intro h
  have h : u ++ ('.' :: func ++ ':' :: '\t' :: path) = path := by
    simpa using (Option.filter_eq_some_iff.1 h).1
  have hlen := congrArg List.length h
  simp only [List.length_append, List.length_cons] at hlen
  omega

theorem sep_cmdname (chain : List Process) :
    (∀ c ∈ cmdname chain, sep c = false) ↔ ∀ p ∈ chain, ' ' ∉ getpname p ∧ '\t' ∉ getpname p := by
  have hchars : (∀ c ∈ cmdname chain, sep c = false) ↔ ' ' ∉ cmdname chain ∧ '\t' ∉ cmdname chain := by
    constructor
    · exact fun h => ⟨fun hc => by simpa [sep] using h ' ' hc, fun hc => by simpa [sep] using h '\t' hc⟩
    · rintro ⟨hspace, htab⟩ c hc
      rw [sep, Bool.or_eq_false_iff, beq_eq_false_iff_ne, beq_eq_false_iff_ne]
      exact ⟨fun h => htab (h ▸ hc), fun h => hspace (h ▸ hc)⟩
  rw [hchars, mem_cmdname chain (by decide), mem_cmdname chain (by decide)]
  push Not
  exact ⟨fun h p hp => ⟨h.1 p hp, h.2 p hp⟩, fun h => ⟨fun p hp => (h p hp).1, fun p hp => (h p hp).2⟩⟩

/-- **A line of the log** is read back if no process that led to the access has a blank or a tab in its name. -/
theorem log_roundTrip (chain : List Process) (hnames : ∀ p ∈ chain, '\n' ∉ getpname p) (w : Func) (hw : w ∈ wrappers)
    (path : Text) (habs : absolute path = true) (hpath : '\n' ∉ path)
    (hfits : LineFits (cmdname chain) w.function path) :
    ReadBack (record (cmdname chain) w.function path) path ↔ ∀ p ∈ chain, ' ' ∉ getpname p ∧ '\t' ∉ getpname p := by
  have hfunc := function_plain w hw
  have hne : path ≠ [] := by
    rintro rfl
    simp [absolute] at habs
  rw [ReadBack, wrparse, cutLog, lines_record hnames (hfunc '\n' (by simp)) hpath hfits, ← sep_cmdname]
  constructor
  · rintro ⟨hparse, -⟩
    by_contra hblank
    have hcmd : ∃ c ∈ cmdname chain, sep c = true := by simpa using hblank
    apply read_blank hcmd
    cases hline : wrparseLine true (line (cmdname chain) w.function path) with
    | none => simp [hline] at hparse
    | some fn => simpa [hline] using hparse
  · intro hcmd
    have hplain : ∀ c ∈ w.function, sep c = false := by
      intro c hc
      rw [sep, Bool.or_eq_false_iff, beq_eq_false_iff_ne, beq_eq_false_iff_ne]
      exact ⟨fun h => hfunc '\t' (by simp) (h ▸ hc), fun h => hfunc ' ' (by simp) (h ▸ hc)⟩
    obtain ⟨hparse, hcut⟩ := read_plain hcmd hplain hne
    simp [hparse, hcut]

/-- A script, and a program with a blank in its name. -/
def script : Process := ⟨27, some ("bash".toList ++ nul :: "scripts/Build-Pkg".toList ++ [nul]), []⟩
def webContent : Process := ⟨31, some ("/usr/lib/Web Content".toList ++ [nul]), []⟩

def creat : Func := addWrapper "int,   creat,   const char* f, mode_t m".toList

theorem creat_mem : creat ∈ wrappers := by
  rw [wrappers, creat]
  simp only [List.map_cons, List.map_nil]
  repeat rw [String.toList_ofList]
  decide +kernel

theorem log_roundTrip_script :
    ReadBack (record (cmdname [script]) creat.function "/usr/bin/zcat".toList) "/usr/bin/zcat".toList ↔
      ∀ p ∈ [script], ' ' ∉ getpname p ∧ '\t' ∉ getpname p := by
  refine log_roundTrip [script] ?_ creat creat_mem "/usr/bin/zcat".toList ?_ ?_ ?_
  · unfold script
    repeat rw [String.toList_ofList]
    decide +kernel
  · decide +kernel
  · decide +kernel
  · unfold script creat
    repeat rw [String.toList_ofList]
    decide +kernel

/-- `fl_wrparse` reads another path, which does not exist. -/
theorem log_lost :
    wrparse true (record (cmdname [script, webContent]) creat.function "/usr/bin/zcat".toList) =
        ["Content.creat:\t/usr/bin/zcat".toList] ∧
      ¬ ReadBack (record (cmdname [script, webContent]) creat.function "/usr/bin/zcat".toList)
        "/usr/bin/zcat".toList := by
  unfold ReadBack script webContent creat
  repeat rw [String.toList_ofList]
  decide +kernel

end T2Sde.Wrapper
