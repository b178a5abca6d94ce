import T2Sde.Lib.Words
import T2Sde.Lib.Run
/-!
# The dependency closure: `add_if_updated` and `dep4pkg`

| here | `scripts/Emerge-Pkg` |
| --- | --- |
| `addPkg`     | `add_pkg` :136 |
| `addIfReq`   | `add_if_req` :146 |
| `addUpdated` | the version, checksum and build tests :303-340 |
| `switched`   | "switch to alternative pkg" :272-293 |
| `visit`      | one word of the `for pkg` loop of `add_if_updated` :200-341 |
| `step`       | the loops of `add_if_updated` and `dep4pkg` :200, :344-352 |
| `Env.init`   | the calls of `add_if_updated` :355-366 |

`add_if_updated` and `dep4pkg` call each other: a call is a `Frame`, the calls under way a stack. The
order in which bash enumerates `deferred` is a choice of the run (`Act.walk`). `Env` is what the
script reads: its options, the package tree, the `.cache` files, the package list, the databases
under `/var/adm` (`installed`, the three tests on an installed package) and the answers typed at the
prompt. The list and the alternatives are read at the first word; nothing looks at them before, so
they are there from the start. A package directory lies in one repository (`package/*/$pkg`). The
messages, `esttime` and `pkgsimilar` are left out.
-/
namespace T2Sde.Emerge
open Shell

abbrev Name := Text

inductive DepTyp
  | dep | opt
  deriving DecidableEq, Repr

/-- The values of `deplist`: been here, optional and declined, to be built. -/
inductive Mark
  | n | o | y
  deriving DecidableEq, Repr

/-- The first column of the package list. -/
inductive Sel
  | X | O
  deriving DecidableEq, Repr

/-- `-deps=` -/
inductive Deps
  | none | fast | indirect | indirect2
  deriving DecidableEq, Repr

/-- A word of the argument list. -/
inductive Word
  | typ (t : DepTyp)
  | pkg (p : Name)
  deriving DecidableEq, Repr

structure Env where
  deps : Deps
  force : Bool
  updates : Bool
  rebuild : Bool
  considerChksum : Bool
  optional : Text
  stdin : List Text
  excludes : Name → Bool
  /-- There is a `package/*/$pkg/$pkg.desc`. -/
  desc : Name → Bool
  /-- The `[CV-GROUP]` lines of the tree: the directory, what follows the tag. -/
  groups : List (Name × Text)
  /-- The packages with a `.cache` file. -/
  cached : List Name
  /-- The `[DEP]` and `[OPT]` lines of a `.cache` file. -/
  cache : Name → List (DepTyp × Name)
  uncached : ∀ p, p ∉ cached → cache p = []
  /-- `cut -d' ' -f 2` leaves words. -/
  words : ∀ p, ∀ d ∈ cache p, IsWord d.2
  packages : Name → Option Sel
  /-- The package list after `scripts/Config -oldconfig`. -/
  reread : Name → Option Sel
  alternatives : Name → Option Name
  installed : Name → Bool
  newVersion : Name → Bool
  newChksum : Name → Bool
  broken : Name → Bool
  /-- `noautolist` -/
  vital : Name → Bool

def maxdepth : Int := 18

/-- The global variables. -/
structure Glob where
  deplist : Name → Option Mark
  dependencies : Name → Text
  packages : Name → Option Sel
  optional : Text
  stdin : List Text

/-- `${deps}` of `package/*/$pkg/$pkg.cache` with `tr '\n' ' '`. -/
def Env.depText (E : Env) (p : Name) : Text := (E.cache p).flatMap fun d => d.2 ++ [' ']

/-- The words that `dep4pkg` greps. -/
def Env.depWords (E : Env) (p : Name) : List Word := (E.cache p).flatMap fun d => [.typ d.1, .pkg d.2]

/-- `grep "^\[CV-GROUP\] $pkg" package/*/*/*.desc | cut -d / -f 3`; a dot matches any character. -/
def Env.cvGroup (E : Env) (p : Name) : List Name :=
  (E.groups.filter fun g => p.length ≤ g.2.length && (p.zip g.2).all fun c => c.1 == '.' || c.1 == c.2).map (·.1)

/-- `deferred[$pkg]=1` -/
def setKey (ks : List Name) (p : Name) : List Name := if p ∈ ks then ks else ks ++ [p]

/-- `[ "$deps" = indirect ]`, `[ "$deps" = indirect2 -a $depth -le $maxdepth ]` -/
def Env.defers (E : Env) (depth : Int) : Bool :=
  E.deps == .indirect || (E.deps == .indirect2 && decide (depth ≤ maxdepth))

def addPkg (E : Env) (depth : Int) (g : Glob) (deferred : List Name) (pkg : Name) : Glob × List Name :=
  ({ g with
      deplist := upd g.deplist pkg (some .y)
      dependencies := upd g.dependencies pkg (E.depText pkg) },
    if E.defers depth then setKey deferred pkg else deferred)

/-- The answer to "add optional dep?" and what asking leaves. -/
def askOptional (g : Glob) : Text × Glob :=
  if g.optional = "ask".toList then
    let answer := g.stdin.headD []
    (answer, { g with
      stdin := g.stdin.tail
      optional := if answer.getLast? = some '*' then answer else g.optional })
  else (g.optional, g)

def addIfReq (E : Env) (depth : Int) (g : Glob) (deferred : List Name) (pkg : Name) (typ : Option DepTyp) :
    Glob × List Name :=
  if E.installed pkg ∧ depth ≠ 0 ∧ E.vital pkg then (g, deferred)
  else if depth > 0 ∧ typ = some .opt then
    let (answer, g) := askOptional g
    if answer.head? = some 'y' then addPkg E depth g deferred pkg
    else ({ g with deplist := upd g.deplist pkg (some .o) }, deferred)
  else if depth > 0 ∧ E.installed pkg ∧ ¬ E.broken pkg ∧ ¬ E.updates then (g, deferred)
  else addPkg E depth g deferred pkg

def addUpdated (E : Env) (depth : Int) (typ : Option DepTyp) (g : Glob) (deferred : List Name) (pkg : Name) :
    Glob × List Name :=
  if ¬ E.installed pkg then addIfReq E depth g deferred pkg typ
  else if E.newVersion pkg then addIfReq E depth g deferred pkg none
  else if E.considerChksum ∧ E.newChksum pkg then addIfReq E depth g deferred pkg none
  else if E.broken pkg then
    if (E.force ∧ depth = 0) ∨ E.rebuild then addIfReq E depth g deferred pkg none else (g, deferred)
  else if E.force ∧ depth = 0 then addIfReq E depth g deferred pkg none
  else (g, deferred)

/-- The package to go on with for a listed `pkg`, if any. -/
def switched (E : Env) (depth : Int) (packages : Name → Option Sel) (pkg : Name) : Option Name :=
  if packages pkg = some .X then some pkg
  else
    match (E.alternatives pkg).filter fun alt => packages alt = some .X with
    | some alt => some alt
    | none => if E.force ∧ depth = 0 then some pkg else none

inductive Visit
  | next (g : Glob) (deferred : List Name)
  /-- `add_if_updated $pkgs` for the members of a group. -/
  | group (g : Glob) (pkgs : List Name)
  /-- "No such package", `exit 1`. -/
  | exit (g : Glob)

/-- `deplist[$pkg]=n`, unless there is a mark. -/
def beenHere (g : Glob) (pkg : Name) : Glob :=
  if g.deplist pkg = none then { g with deplist := upd g.deplist pkg (some .n) } else g

/-- "Package not cached, re-reading config" -/
def rereadConfig (E : Env) (depth : Int) (g : Glob) (pkg : Name) : Glob :=
  if g.packages pkg = none ∧ depth = 0 then
    { g with packages := fun p => (E.reread p).or (g.packages p) }
  else g

/-- Already scanned, and not an unselected optional dependency met as a hard one. -/
def skips (g : Glob) (typ : Option DepTyp) (pkg : Name) : Bool :=
  match g.deplist pkg with
  | none => false
  | some .o => typ == some .opt
  | some _ => true

def visit (E : Env) (depth : Int) (typ : Option DepTyp) (g : Glob) (deferred : List Name) (pkg : Name) : Visit :=
  if skips g typ pkg then .next g deferred
  else
    let g := beenHere g pkg
    if ¬ E.desc pkg then
      if depth = 0 then if E.cvGroup pkg ≠ [] then .group g (E.cvGroup pkg) else .exit g
      else .next g deferred
    else if E.excludes pkg then .next g deferred
    else
      let g := rereadConfig E depth g pkg
      if g.packages pkg = none then if depth = 0 then .exit g else .next g deferred
      else
        match switched E depth g.packages pkg with
        | some pkg => let (g, deferred) := addUpdated E depth typ g deferred pkg; .next g deferred
        | none => .next g deferred

/-- Where a call of `add_if_updated` is: the words left of the first loop, or the keys of
`deferred` left of the second. -/
inductive Phase
  | args (ws : List Word)
  | calls (ks : List Name)
  deriving DecidableEq, Repr

/-- A call of `add_if_updated` under way, with its local variables. -/
structure Frame where
  depth : Int
  typ : Option DepTyp
  deferred : List Name
  phase : Phase
  deriving DecidableEq, Repr

def Frame.call (depth : Int) (ws : List Word) : Frame := ⟨depth, none, [], .args ws⟩

structure St where
  glob : Glob
  /-- The innermost call first; below it the later calls of the main script. -/
  stack : List Frame
  exited : Bool

/-- What the script asks for: its arguments, the selected packages of each `-repository`, and for
`-system` the installed packages. -/
structure Request where
  args : List Name
  repositories : List (List Name)
  system : Option (List Name)

def Request.frames (r : Request) : List Frame :=
  (r.args :: r.repositories).map (fun ps => .call 0 (ps.map .pkg)) ++
    r.system.toList.map fun ps => .call (-1) (ps.map .pkg)

def Env.init (E : Env) (r : Request) : St where
  glob := ⟨fun _ => none, fun _ => [], E.packages, E.optional, E.stdin⟩
  stack := r.frames
  exited := false

/-- The choices of a run: a step of the script; the order of the next walk over `${!deferred[@]}`. -/
inductive Act
  | tick
  | walk (ks : List Name)
  deriving DecidableEq, Repr

def step (E : Env) (s : St) : Act → Option St
  | .tick =>
    if s.exited then none
    else
      match s.stack with
      | ⟨depth, _, deferred, .args (.typ t :: ws)⟩ :: fs =>
        some { s with stack := ⟨depth, some t, deferred, .args ws⟩ :: fs }
      | ⟨depth, typ, deferred, .args (.pkg p :: ws)⟩ :: fs =>
        match visit E depth typ s.glob deferred p with
        | .next g deferred => some { s with glob := g, stack := ⟨depth, typ, deferred, .args ws⟩ :: fs }
        | .group g pkgs =>
          some { s with
            glob := g, stack := .call depth (pkgs.map .pkg) :: ⟨depth, typ, deferred, .args ws⟩ :: fs }
        | .exit g => some { s with glob := g, exited := true }
      | ⟨depth, typ, deferred, .calls (k :: ks)⟩ :: fs =>
        some { s with stack := .call (depth + 2) (E.depWords k) :: ⟨depth, typ, deferred, .calls ks⟩ :: fs }
      | ⟨_, _, _, .calls []⟩ :: fs => some { s with stack := fs }
      | _ => none
  | .walk ks =>
    match s.stack with
    | ⟨depth, typ, deferred, .args []⟩ :: fs =>
      if ¬ s.exited ∧ ks.isPerm deferred then
        some { s with stack := ⟨depth, typ, deferred, .calls ks⟩ :: fs }
      else none
    | _ => none

/-- The script is through with all calls. -/
def St.finished (s : St) : Prop := s.stack = [] ∧ s.exited = false

/-- A tree with the given `.cache` files; the packages of `alts` are not selected and have an
alternative. -/
def treeEnv (deps : Deps) (caches : List (Name × List (DepTyp × Name))) (alts : List (Name × Name))
    (hwords : ∀ c ∈ caches, ∀ d ∈ c.2, IsWord d.2) : Env where
  deps := deps
  force := false
  updates := false
  rebuild := true
  considerChksum := false
  optional := "no".toList
  stdin := []
  excludes _ := false
  desc p := caches.any (·.1 = p)
  groups := []
  cached := caches.map (·.1)
  cache p := (caches.lookup p).getD []
  uncached p hp := by
    rw [List.lookup_eq_none_iff.2, Option.getD_none]
    intro c hc
    exact bne_iff_ne.2 fun h => hp (List.mem_map.2 ⟨c, hc, h.symm⟩)
  words p d hd := by
    cases h : caches.lookup p with
    | none => simp [h] at hd
    | some ds =>
      rw [h] at hd
      obtain ⟨l₁, l₂, heq, -⟩ := List.lookup_eq_some_iff.1 h
      exact hwords (p, ds) (by simp [heq]) d hd
  packages p := if alts.any (·.1 = p) then some .O else if caches.any (·.1 = p) then some .X else none
  reread p := if alts.any (·.1 = p) then some .O else if caches.any (·.1 = p) then some .X else none
  alternatives p := alts.lookup p
  installed _ := false
  newVersion _ := false
  newChksum _ := false
  broken _ := false
  vital _ := false

/-! ## What a step can do -/

/-- The steps of the closure, one constructor for each way a step can go. -/
inductive Fires (E : Env) (s : St) : Act → St → Prop
  | typ {depth typ deferred t ws fs} : s.exited = false → s.stack = ⟨depth, typ, deferred, .args (.typ t :: ws)⟩ :: fs →
      Fires E s .tick { s with stack := ⟨depth, some t, deferred, .args ws⟩ :: fs }
  | next {depth typ deferred p ws fs g deferred'} : s.exited = false →
      s.stack = ⟨depth, typ, deferred, .args (.pkg p :: ws)⟩ :: fs →
      visit E depth typ s.glob deferred p = .next g deferred' →
      Fires E s .tick { s with glob := g, stack := ⟨depth, typ, deferred', .args ws⟩ :: fs }
  | group {depth typ deferred p ws fs g pkgs} : s.exited = false →
      s.stack = ⟨depth, typ, deferred, .args (.pkg p :: ws)⟩ :: fs →
      visit E depth typ s.glob deferred p = .group g pkgs →
      Fires E s .tick { s with
        glob := g, stack := .call depth (pkgs.map .pkg) :: ⟨depth, typ, deferred, .args ws⟩ :: fs }
  | exit {depth typ deferred p ws fs g} : s.exited = false →
      s.stack = ⟨depth, typ, deferred, .args (.pkg p :: ws)⟩ :: fs →
      visit E depth typ s.glob deferred p = .exit g →
      Fires E s .tick { s with glob := g, exited := true }
  | walk {depth typ deferred ks fs} : s.exited = false → s.stack = ⟨depth, typ, deferred, .args []⟩ :: fs →
      ks.Perm deferred → Fires E s (.walk ks) { s with stack := ⟨depth, typ, deferred, .calls ks⟩ :: fs }
  | dep {depth typ deferred k ks fs} : s.exited = false → s.stack = ⟨depth, typ, deferred, .calls (k :: ks)⟩ :: fs →
      Fires E s .tick { s with
        stack := .call (depth + 2) (E.depWords k) :: ⟨depth, typ, deferred, .calls ks⟩ :: fs }
  | ret {depth typ deferred fs} : s.exited = false → s.stack = ⟨depth, typ, deferred, .calls []⟩ :: fs →
      Fires E s .tick { s with stack := fs }

theorem step_fires {E : Env} {s s' : St} {a : Act} (h : step E s a = some s') : Fires E s a s' := by
  cases a with
  | tick =>
    simp only [step] at h
    split at h
    · cases h
    · rename_i hx
      have hx : s.exited = false := by simpa using hx
      split at h
      · rename_i hs; cases h; exact .typ hx hs
      · rename_i hs
        split at h
        · rename_i hv; cases h; exact .next hx hs hv
        · rename_i hv; cases h; exact .group hx hs hv
        · rename_i hv; cases h; exact .exit hx hs hv
      · rename_i hs; cases h; exact .dep hx hs
      · rename_i hs; cases h; exact .ret hx hs
      · cases h
  | walk ks =>
    simp only [step] at h
    split at h
    · rename_i hs
      split at h
      · rename_i hw
        cases h
        exact .walk (by simpa using hw.1) hs (List.isPerm_iff.1 hw.2)
      · cases h
    · cases h

/-- Nothing but `exit 1` and the end of the last call stops the closure. -/
theorem exists_step {E : Env} {s : St} (hx : s.exited = false) (hs : s.stack ≠ []) : ∃ a s', step E s a = some s' := by
  match hst : s.stack with
  | [] => exact absurd hst hs
  | ⟨_, _, _, .args (.typ _ :: _)⟩ :: _ => exact ⟨.tick, _, by simp only [step, hx, hst]; rfl⟩
  | ⟨depth, typ, deferred, .args (.pkg p :: _)⟩ :: _ =>
    refine ⟨.tick, ?_⟩
    simp only [step, hx, hst]
    cases visit E depth typ s.glob deferred p <;> exact ⟨_, rfl⟩
  | ⟨_, _, deferred, .args []⟩ :: _ =>
    exact ⟨.walk deferred, _, by simp only [step, hst, hx, List.isPerm_iff.2 (List.Perm.refl _)]; rfl⟩
  | ⟨_, _, _, .calls []⟩ :: _ => exact ⟨.tick, _, by simp only [step, hx, hst]; rfl⟩
  | ⟨_, _, _, .calls (_ :: _)⟩ :: _ => exact ⟨.tick, _, by simp only [step, hx, hst]; rfl⟩

end T2Sde.Emerge
