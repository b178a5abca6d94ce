import T2Sde.Lib.Lua
/-!
# The package table (`scripts/config-functions.lua`)

The list of a configuration as the Lua table `packages`, and the calls that the target descriptions make on it.
A file is the list of its lines. A Lua error ends the call, `luabash` reports it and the shell goes on: what the
call has done so far stays (`Out.ok` is false then).

| here | there |
| --- | --- |
| `readLine`, `pkglistread`   | `pkglistread` :11-57 |
| `writeLine`, `pkglistwrite` | `pkglistwrite` :59-83 |
| `target`, `matching`        | the two regular expressions of `pkgswitch` :94-105, :123 |
| `switchArg`, `pkgswitch`    | `pkgswitch` :88-151 |
| `pkgcheck`                  | `pkgcheck` :165-188 |
| `selLine`, `pkgselParse`    | `pkgsel_parse` :201-232 |
| `pkgfilter`                 | `pkgfilter` (`config-functions.in`) :87-93 |
-/
namespace T2Sde.Packages
open Shell Pattern Lua

inductive Status
  | X | O
  /-- `-` -/
  | removed
  deriving DecidableEq, Repr

def Status.text : Status → Text
  | .X => ['X']
  | .O => ['O']
  | .removed => ['-']

structure Pkg where
  status : Status
  stages : Text
  priority : Text
  repository : Text
  name : Text
  ver : Text
  extraver : Text
  /-- `nil` if there is nothing but blanks. -/
  categories : Option Text
  flags : Text
  pkgAlias : Text
  defaultStatus : Status
  deriving DecidableEq, Repr

abbrev Table := List Pkg

def Pkg.live (p : Pkg) : Bool := p.status != .removed

/-! ## Reading and writing -/

def linePattern : Text :=
  "([XO]) *([0123456789?-]+) *([0123456789.]+) *(%S+) *(%S+) *(%S+) *(%S*) */ ".toList ++
    "([abcdefghijklmnopqrstuvwxyz0123456789/ ]+) *".toList ++
    "([abcdefghijklmnopqrstuvwxyzABCDEFGHIJKLMNOPQRSTUVWXYZ0123456789 ._-]*) 0".toList

/-- `string.match(pkg.categories, "(.*%S) *")` -/
def trimCategories (t : Text) : Option Text :=
  match strMatch "(.*%S) *".toList t with
  | .ok [c] => some c
  | _ => none

/-- A line of the list; without a match it is reported and dropped. -/
def readLine (line : Text) : Option Pkg :=
  match strMatch linePattern line with
  | .ok [status, stages, priority, repository, name, ver, extraver, categories, flags] =>
    let status := if status = ['X'] then Status.X else .O
    some {
      status, stages, priority, repository, name, ver, extraver
      categories := trimCategories categories
      flags
      pkgAlias := name
      defaultStatus := status }
  | _ => none

def pkglistread (lines : List Text) : Table := lines.filterMap readLine

/-- The fields up to the slash. -/
def Pkg.head (p : Pkg) : Text :=
  p.status.text ++ [' '] ++ p.stages ++ [' '] ++ p.priority ++ [' '] ++ p.repository ++ [' '] ++ p.pkgAlias ++ [' '] ++
    p.ver ++ (if p.extraver.length > 0 then ' ' :: p.extraver else []) ++ " / ".toList

/-- What stands between the slash and the final zero. -/
def body (categories flags : Text) : Text := categories ++ (if flags.length > 0 then ' ' :: flags else [])

def writeLine (p : Pkg) (categories : Text) : Text := p.head ++ body categories p.flags ++ " 0".toList

/-- The lines written, and whether the call came to its end; a `nil` among the categories is an error. -/
def pkglistwrite : Table → List Text × Bool
  | [] => ([], true)
  | p :: ps =>
    if p.live then
      match p.categories with
      | none => ([p.head], false)
      | some c => (writeLine p c :: (pkglistwrite ps).1, (pkglistwrite ps).2)
    else pkglistwrite ps

/-! ## Switching -/

/-- `string.gsub(t, "([+*-])", tr)` -/
def translate (t : Text) : Text :=
  t.flatMap fun c =>
    if c = '+' then "%+".toList else if c = '-' then "%-".toList else if c = '*' then ".*".toList else [c]

/-- The regular expressions of an argument. -/
structure Target where
  rep : Text
  pkg : Text
  deriving DecidableEq, Repr

def target (arg : Text) : Target :=
  let split : Text × Text :=
    match strMatch "(.*)/(.*)".toList arg with
    | .ok [rep, pkg] => (rep, pkg)
    | _ => (['*'], arg)
  ⟨'^' :: translate split.1 ++ ['$'], '^' :: translate split.2 ++ ['$']⟩

/-- `pkg_match`: without a wildcard the first match is the last. -/
def Target.single (g : Target) : Bool := !g.pkg.contains '*'

/-- `string.match(p.alias, pkg) and string.match(p.repository, rep)` -/
def matching (g : Target) (p : Pkg) : Res Unit :=
  match strMatch g.pkg p.pkgAlias with
  | .fail => .fail
  | .error => .error
  | .ok _ => (strMatch g.rep p.repository).map fun _ => ()

inductive Mode
  | X | O | removed
  /-- `=` -/
  | default
  deriving DecidableEq, Repr

def Mode.status (m : Mode) (p : Pkg) : Status :=
  match m with
  | .X => .X
  | .O => .O
  | .removed => .removed
  | .default => p.defaultStatus

/-- What a match does to an entry. -/
def Pkg.switch (m : Mode) (p : Pkg) : Pkg := if p.live then { p with status := m.status p } else p

/-- One argument; the result tells whether it came to its end. -/
def switchArg (m : Mode) (g : Target) : Table → Table × Bool
  | [] => ([], true)
  | p :: ps =>
    match matching g p with
    | .error => (p :: ps, false)
    | .fail => (p :: (switchArg m g ps).1, (switchArg m g ps).2)
    | .ok _ =>
      if g.single then (p.switch m :: ps, true)
      else (p.switch m :: (switchArg m g ps).1, (switchArg m g ps).2)

def pkgswitch (m : Mode) : List Text → Table → Table × Bool
  | [], t => (t, true)
  | arg :: args, t =>
    let x := switchArg m (target arg) t
    if x.2 then pkgswitch m args x.1 else x

inductive Check
  | no
  | yes
  /-- Mode `.` returns 0. -/
  | zero
  deriving DecidableEq, Repr

/-- What one entry and one name give in `pkgcheck`; `none` goes on with the loop. -/
def checkOne (mode : Text) (p : Pkg) (x : Text) : Option Check :=
  if p.pkgAlias = x then
    if mode = ['X'] then if p.status = .X then some .yes else none
    else if mode = ['O'] then if p.status = .O then some .yes else none
    else if mode = ['.'] then some .zero
    else none
  else none

/-- `string.gmatch(pattern, "[^|]+")` -/
def alternatives (pattern : Text) : List Text := (pattern.splitOnP (· == '|')).filter (!·.isEmpty)

def pkgcheck (pattern mode : Text) (t : Table) : Check :=
  (t.findSome? fun p => (alternatives pattern).findSome? (checkOne mode p)).getD .no

/-! ## Rule files -/

/-- `string.gsub(line, "#.*", "")` -/
def uncomment (line : Text) : Text := line.takeWhile (· != '#')

inductive Rule
  | switch (m : Mode) (pattern : Text)
  | include (file : Text)
  deriving DecidableEq, Repr

/-- What `pkgsel_parse` does with an action and a pattern. -/
def rule (action pattern : Text) : Option Rule :=
  if action = ['x'] || action = ['X'] then some (.switch .X pattern)
  else if action = ['o'] || action = ['O'] then some (.switch .O pattern)
  else if action = ['-'] then some (.switch .removed pattern)
  else if action = ['='] then some (.switch .default pattern)
  else if action = "include".toList then some (.include pattern)
  else none

/-- The rule of a line, comment removed. -/
def lineRule (line : Text) : Option Rule :=
  match strMatch "(%S+) +(%S+)".toList line with
  | .ok [action, pattern] => rule action pattern
  | _ => none

/-- What a rule file is seen to do: the calls of `pkgswitch` and the messages. -/
inductive Event
  | switch (m : Mode) (pattern : Text)
  | include (file : Text)
  | openError (file : Text)
  | syntaxError (line : Text)
  deriving DecidableEq, Repr

structure Out where
  packages : Table
  log : List Event
  ok : Bool
  deriving DecidableEq, Repr

/-- `not line == ""`, which compares the boolean `not line` with a text. -/
def saysSyntaxError (line : Text) : Bool := Val.bool (!(Val.str line).truthy) == Val.str []

/-- One line; `sub` is the recursive call. -/
def selLine (sub : Text → Table → Out) (line : Text) (t : Table) : Out :=
  match lineRule (uncomment line) with
  | some (.switch m pattern) =>
    let x := pkgswitch m [pattern] t
    ⟨x.1, [.switch m pattern], x.2⟩
  | some (.include file) =>
    let x := sub file t
    ⟨x.packages, .include file :: x.log, x.ok⟩
  | none => ⟨t, if saysSyntaxError (uncomment line) then [.syntaxError (uncomment line)] else [], true⟩

def selLines (sub : Text → Table → Out) : List Text → Table → Out
  | [], t => ⟨t, [], true⟩
  | line :: lines, t =>
    let x := selLine sub line t
    if x.ok then
      let y := selLines sub lines x.packages
      ⟨y.packages, x.log ++ y.log, y.ok⟩
    else x

/-- The files that exist. -/
abbrev Files := Text → Option (List Text)

/-- `pkgsel_parse`; a file stays open while it includes others, and `n` more can be opened. -/
def pkgselParse (files : Files) : Nat → Text → Table → Out
  | 0, file, t => ⟨t, [.openError file], true⟩
  | n + 1, file, t =>
    match files file with
    | none => ⟨t, [.openError file], true⟩
    | some lines => selLines (pkgselParse files n) lines t

/-! ## Histories -/

/-- The list is written, goes through a command, and is read again. -/
def pkgfilter (cmd : List Text → List Text) (t : Table) : Table := pkglistread (cmd (pkglistwrite t).1)

inductive Op
  | enable (args : List Text)
  | disable (args : List Text)
  | remove (args : List Text)
  | sel (file : Text)
  | filter (cmd : List Text → List Text)

def Op.apply (files : Files) (maxOpen : Nat) : Op → Table → Table
  | .enable args, t => (pkgswitch .X args t).1
  | .disable args, t => (pkgswitch .O args t).1
  | .remove args, t => (pkgswitch .removed args t).1
  | .sel file, t => (pkgselParse files maxOpen file t).packages
  | .filter cmd, t => pkgfilter cmd t

end T2Sde.Packages
