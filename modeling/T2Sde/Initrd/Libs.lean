import T2Sde.Initrd.Depend
/-!
# Libraries of the initrd (`package/base/mkinitrd/mkinitrd.sh`)

`copy_dyn_libs` goes through the names of the libraries that a file needs, looks each of them up in the library
directories, copies it with its links and calls itself for the file. Of its variables only `magic`, `rlib`, `magic2`,
`x` and `y` are local: behind a call for a library, `lib` is a name that this call has left, so only the first directory
with a library is sure to be looked at.

| here | there |
| --- | --- |
| `Sysroot`      | what the tools say of the files below `$root`; `extralibs` :253-259 |
| `strip`        | `lib="${lib##*/}"` :269 |
| `rlib`         | :277-281 |
| `nextName`     | `lib` behind a link :299-303 |
| `links`        | the loop :294-304 |
| `dirTurn`      | one turn of the loop :275-312 |
| `copyDynLibs`  | `copy_dyn_libs` :261-314 |
| `copyPrograms` | the loops :318-338 |

* `dirTurn_grows`, `copyDynLibs_grows` — what a turn and a call add.
* `copyDynLibs_returns` — a call comes to its end.
* `initrd_closed` — **what is in the initrd finds its libraries there**.
-/
namespace T2Sde.Initrd
open Shell

/-! ## The program -/

/-- What the tools say of the files below `root`. -/
structure Sysroot where
  root : Text
  /-- What `lib*/` and `usr/lib*/` stand for, below `root`. -/
  dirs : List Text
  /-- `[ -e … ]` -/
  exists_ : Text → Bool
  /-- Nothing if it is no link. -/
  readlink : Text → Text
  /-- `elf_magic`; nothing if it fails. -/
  magic : Text → Text
  /-- The shared libraries and the interpreter of `readelf`. -/
  needed : Text → List Text
  extralibs : List Text
  slash : ∀ d ∈ dirs, ∃ u, d = u ++ ['/']

/-- What is done to the files below `$tmpdir`. -/
inductive Action
  | link (target path : Text)
  | copy (source path : Text)
  deriving DecidableEq, Repr

/-- The variables `added` and `lib`, and what was done. -/
structure Copied where
  added : List Text
  lib : Text
  image : List Action
  deriving DecidableEq, Repr

/-- `${s%/*}` -/
def dirname (s : Text) : Text := (uptoLast (·.head? == some '/') s).getD s

/-- `lib` behind a link to `x`. -/
def nextName (lib x : Text) : Text :=
  if x.head? = some '/' then x else if dirname lib ≠ [] ∧ dirname lib ≠ lib then dirname lib ++ '/' :: x else x

namespace Sysroot

variable (R : Sysroot)

/-- The library directories, each without `root` in front of it. -/
def xlibdirs : List Text := R.dirs ++ [[]]

def strip (lib : Text) : Text := if R.root ++ ['/'] <+: lib then base lib else lib

def words (file : Text) : List Text := R.needed file ++ R.extralibs

/-- The file below a directory. -/
def path (xlibdir lib : Text) : Text := R.root ++ xlibdir ++ lib

/-- The file whose kind is compared. -/
def rlib (xlibdir lib : Text) : Text :=
  let x := R.readlink (R.path xlibdir lib)
  if x.head? = some '/' then R.path xlibdir x else R.path xlibdir lib

/-- The links from a name on, at most `k`: the name that is no link, and what was done. -/
def links (xlibdir : Text) : Nat → Text → List Action → Option (Text × List Action)
  | 0, _, _ => none
  | k + 1, lib, image =>
    let x := R.readlink (R.path xlibdir lib)
    if x = [] then some (lib, image)
    else links xlibdir k (nextName lib x) (image ++ [.link x (xlibdir ++ lib)])

/-- One directory, for the name in `lib`. -/
def dirTurn (k : Nat) (call : Text → Copied → Option Copied) (magic : Text) (s : Copied) (xlibdir : Text) :
    Option Copied :=
  if R.exists_ (R.path xlibdir s.lib) ∧ magic = R.magic (R.rlib xlibdir s.lib) ∧ xlibdir ++ s.lib ∉ s.added then
    match R.links xlibdir k s.lib s.image with
    | none => none
    | some (lib, image) =>
      -- `cp` of a file that is not there ends the script
      if R.exists_ (R.path xlibdir lib) then
        call (R.path xlibdir lib)
          ⟨(xlibdir ++ s.lib) :: s.added, lib, image ++ [.copy (R.path xlibdir lib) (xlibdir ++ lib)]⟩
      else none
  else some s

/-- One name that is needed. -/
def libTurn (k : Nat) (call : Text → Copied → Option Copied) (file : Text) (s : Copied) (w : Text) : Option Copied :=
  -- `set -e`: `elf_magic` of a file that is no program ends the script
  if R.magic file = [] then none
  else R.xlibdirs.foldlM (R.dirTurn k call (R.magic file)) { s with lib := R.strip w }

/-- One call, with at most `n` calls inside one another. -/
def copyDynLibs (k : Nat) : Nat → Text → Copied → Option Copied
  | 0, _, _ => none
  | n + 1, file, s => (R.words file).foldlM (R.libTurn k (copyDynLibs k n) file) s

/-- A program that is there, with where it is copied. -/
def copyProgram (k n : Nat) (s : Copied) (p : Text × Text) : Option Copied :=
  R.copyDynLibs k n p.1 { s with image := s.image ++ [.copy p.1 p.2] }

def copyPrograms (k n : Nat) (programs : List (Text × Text)) (s : Copied) : Option Copied :=
  programs.foldlM (R.copyProgram k n) s

/-- The library `n` of the directory is one for `file`. -/
def Matches (file xlibdir n : Text) : Prop :=
  R.exists_ (R.path xlibdir n) = true ∧ R.magic file = R.magic (R.rlib xlibdir n)

end Sysroot

/-- Where a link leads, from its own path. -/
def target (path x : Text) : Text := if x.head? = some '/' then x else dirname path ++ '/' :: x

/-- A path of the initrd leads to a file that was copied. -/
inductive Resolves (image : List Action) : Text → Text → Prop
  | copied {source path : Text} (h : .copy source path ∈ image) : Resolves image path source
  | linked {x path source : Text} (h : .link x path ∈ image) (hrest : Resolves image (target path x) source) :
    Resolves image path source

/-- Names of libraries, and what holds of the files with these names: a link is relative, it is what it points to, and
there are at most `k` of them. -/
structure Tame (R : Sysroot) (names : List Text) (k : Nat) : Prop where
  words : ∀ file, ∀ w ∈ R.words file, R.strip w ∈ names
  slash : ∀ n ∈ names, '/' ∈ n → dirname n ≠ []
  plain : ∀ n ∈ names, '/' ∉ n → R.exists_ (R.path [] n) = false
  relative : ∀ d ∈ R.xlibdirs, ∀ n ∈ names, (R.readlink (R.path d n)).head? ≠ some '/'
  follows : ∀ d ∈ R.xlibdirs, ∀ n ∈ names, R.readlink (R.path d n) ≠ [] →
    nextName n (R.readlink (R.path d n)) ∈ names ∧
      R.exists_ (R.path d (nextName n (R.readlink (R.path d n)))) = R.exists_ (R.path d n) ∧
      R.magic (R.path d (nextName n (R.readlink (R.path d n)))) = R.magic (R.path d n)
  ends : ∀ d ∈ R.xlibdirs, ∀ n ∈ names, R.exists_ (R.path d n) → ∀ image, R.links d k n image ≠ none

/-! ## Paths -/

theorem dirname_of_not_mem {s : Text} (h : '/' ∉ s) : dirname s = s := by
  have hnone : uptoLast (·.head? == some '/') s = none := by
    rw [uptoLast_eq_none]
    rintro u c v rfl
    rw [List.head?_cons, beq_eq_false_iff_ne]
    rintro ⟨⟩
    exact h (by simp)
  rw [dirname, hnone, Option.getD_none]

theorem dirname_append {s : Text} (h : '/' ∈ s) (u : Text) : dirname (u ++ s) = u ++ dirname s := by
  cases hlast : uptoLast (·.head? == some '/') s with
  | none =>
    obtain ⟨v, w, rfl⟩ := List.append_of_mem h
    have hno := uptoLast_eq_none.1 hlast v '/' w rfl
    simp at hno
  | some x => rw [dirname, dirname, uptoLast_append hlast, hlast, Option.getD_some, Option.getD_some]

theorem dirname_ne {s : Text} (h : '/' ∈ s) : dirname s ≠ s := by
  cases hlast : uptoLast (·.head? == some '/') s with
  | none =>
    obtain ⟨v, w, rfl⟩ := List.append_of_mem h
    have hno := uptoLast_eq_none.1 hlast v '/' w rfl
    simp at hno
  | some x =>
    obtain ⟨c, v, rfl, -, -⟩ := uptoLast_eq_some hlast
    rw [dirname, hlast, Option.getD_some]
    exact fun heq => by simpa using congrArg List.length heq

/-! ## Links -/

/-- An action that does below `$tmpdir` what is so below `root`. -/
def Mirrors (R : Sysroot) : Action → Prop
  | .link x p => R.readlink (R.root ++ p) = x ∧ x ≠ []
  | .copy source p => source = R.root ++ p ∧ R.readlink source = []

section
variable {R : Sysroot} {names : List Text} {k : Nat} {d : Text}

theorem Resolves.mono {image image' : List Action} (h : ∀ a ∈ image, a ∈ image') {p source : Text}
    (hr : Resolves image p source) : Resolves image' p source := by
  induction hr with
  | copied hmem => exact .copied (h _ hmem)
  | linked hmem _ ih => exact .linked (h _ hmem) ih

theorem Sysroot.path_eq (d n : Text) : R.path d n = R.root ++ (d ++ n) := List.append_assoc _ _ _

/-- The script follows a link as the initrd will. -/
theorem Tame.target_eq (h : Tame R names k) (hd : d ∈ R.xlibdirs) {n : Text} (hn : n ∈ names)
    (hex : R.exists_ (R.path d n) = true) {x : Text} (hx : x.head? ≠ some '/') :
    target (d ++ n) x = d ++ nextName n x := by
  rw [target, nextName, if_neg hx, if_neg hx]
  by_cases hslash : '/' ∈ n
  · rw [if_pos ⟨h.slash n hn hslash, dirname_ne hslash⟩, dirname_append hslash, List.append_assoc]
  · rw [if_neg (by simp [dirname_of_not_mem hslash])]
    rcases List.mem_append.1 hd with hd | hd
    · obtain ⟨u, rfl⟩ := R.slash d hd
      have hempty : dirname ('/' :: n) = [] := by
        have hnone : uptoLast (·.head? == some '/') n = none := by
          rw [uptoLast_eq_none]
          rintro u c v rfl
          rw [List.head?_cons, beq_eq_false_iff_ne]
          rintro ⟨⟩
          exact hslash (by simp)
        rw [dirname, uptoLast_cons hnone (by simp), Option.getD_some]
      rw [List.append_assoc, List.singleton_append, dirname_append List.mem_cons_self, hempty, List.append_nil,
        List.append_assoc, List.singleton_append]
    · obtain rfl := List.mem_singleton.1 hd
      rw [h.plain n hn hslash] at hex
      cases hex

/-- What the links from a name on lead to. -/
structure Followed (R : Sysroot) (names : List Text) (d n : Text) (image : List Action) (n' : Text)
    (image' : List Action) : Prop where
  name : n' ∈ names
  exists_ : R.exists_ (R.path d n') = R.exists_ (R.path d n)
  magic : R.magic (R.path d n') = R.magic (R.path d n)
  last : R.readlink (R.path d n') = []
  keeps : ∀ a ∈ image, a ∈ image'
  links : ∀ a ∈ image', a ∉ image → Mirrors R a ∧ ∀ source p, a ≠ .copy source p
  resolves : ∀ image'', (∀ a ∈ image', a ∈ image'') → Action.copy (R.path d n') (d ++ n') ∈ image'' →
    Resolves image'' (d ++ n) (R.path d n')

theorem Tame.links_followed (h : Tame R names k) (hd : d ∈ R.xlibdirs) {j : Nat} {n n' : Text} (hn : n ∈ names)
    (hex : R.exists_ (R.path d n) = true) {image image' : List Action}
    (hlinks : R.links d j n image = some (n', image')) : Followed R names d n image n' image' := by
  induction j generalizing n image with
  | zero => cases hlinks
  | succ j ih =>
    rw [Sysroot.links] at hlinks
    by_cases hlink : R.readlink (R.path d n) = []
    · simp only [if_pos hlink] at hlinks
      obtain ⟨rfl, rfl⟩ := Prod.mk.inj (Option.some.inj hlinks)
      exact ⟨hn, rfl, rfl, hlink, fun a ha => ha, fun a ha hnew => absurd ha hnew, fun _ _ hcopy => .copied hcopy⟩
    · simp only [if_neg hlink] at hlinks
      obtain ⟨hnext, hex', hmagic⟩ := h.follows d hd n hn hlink
      obtain ⟨hname, hexists, hmagic', hlast, hkeeps, hnew, hresolves⟩ := ih hnext (hex'.trans hex) hlinks
      refine ⟨hname, hexists.trans hex', hmagic'.trans hmagic, hlast,
        fun a ha => hkeeps a (List.mem_append_left _ ha), fun a ha hold => ?_, fun image'' hsub hcopy => ?_⟩
      · by_cases hmem : a ∈ image ++ [.link (R.readlink (R.path d n)) (d ++ n)]
        · obtain rfl : a = .link (R.readlink (R.path d n)) (d ++ n) := by simpa [hold] using hmem
          exact ⟨⟨by rw [R.path_eq], hlink⟩, by simp⟩
        · exact hnew a ha hmem
      · refine .linked (hsub _ (hkeeps _ (List.mem_append_right _ List.mem_cons_self))) ?_
        rw [h.target_eq hd hn hex (h.relative d hd n hn)]
        exact hresolves image'' hsub hcopy

theorem Tame.rlib_eq (h : Tame R names k) (hd : d ∈ R.xlibdirs) {n : Text} (hn : n ∈ names) :
    R.rlib d n = R.path d n := if_neg (h.relative d hd n hn)

end

/-! ## What a call adds -/

/-- The libraries of a file are marked, as far as there is one of its kind. -/
def Satisfied (R : Sysroot) (added : List Text) (file : Text) : Prop :=
  ∀ w ∈ R.words file, (∃ d ∈ R.xlibdirs, R.Matches file d (R.strip w)) →
    ∃ d ∈ R.xlibdirs, R.Matches file d (R.strip w) ∧ d ++ R.strip w ∈ added

/-- From one state to a later one. -/
structure Grows (R : Sysroot) (s s' : Copied) : Prop where
  added : ∀ key ∈ s.added, key ∈ s'.added
  image : ∀ a ∈ s.image, a ∈ s'.image
  placed : ∀ key ∈ s'.added, key ∉ s.added → ∃ source, Resolves s'.image key source
  closed : ∀ source p, .copy source p ∈ s'.image → .copy source p ∉ s.image → Satisfied R s'.added source
  mirrors : ∀ a ∈ s'.image, a ∉ s.image → Mirrors R a

section
variable {R : Sysroot} {names : List Text} {k : Nat} {s s' s'' : Copied}

theorem Satisfied.mono {added added' : List Text} (h : ∀ key ∈ added, key ∈ added') {file : Text}
    (hs : Satisfied R added file) : Satisfied R added' file := by
  intro w hw hex
  obtain ⟨d, hd, hmatches, hadded⟩ := hs w hw hex
  exact ⟨d, hd, hmatches, h _ hadded⟩

theorem Grows.refl (s : Copied) : Grows R s s :=
  ⟨fun _ h => h, fun _ h => h, fun _ h h' => absurd h h', fun _ _ h h' => absurd h h', fun _ h h' => absurd h h'⟩

theorem Grows.trans (h : Grows R s s') (h' : Grows R s' s'') : Grows R s s'' where
  added key hkey := h'.added key (h.added key hkey)
  image a ha := h'.image a (h.image a ha)
  placed key hkey hnew := by
    by_cases hmid : key ∈ s'.added
    · obtain ⟨source, hr⟩ := h.placed key hmid hnew
      exact ⟨source, hr.mono h'.image⟩
    · exact h'.placed key hkey hmid
  closed source p hcopy hnew := by
    by_cases hmid : Action.copy source p ∈ s'.image
    · exact (h.closed source p hmid hnew).mono h'.added
    · exact h'.closed source p hcopy hmid
  mirrors a ha hnew := by
    by_cases hmid : a ∈ s'.image
    · exact h.mirrors a hmid hnew
    · exact h'.mirrors a ha hmid

/-- What a call for a file has to do. -/
def Calls (R : Sysroot) (names : List Text) (call : Text → Copied → Option Copied) : Prop :=
  ∀ file s s', R.magic file ≠ [] → s.lib ∈ names → call file s = some s' →
    Grows R s s' ∧ Satisfied R s'.added file ∧ s'.lib ∈ names

/-- **One directory.** -/
theorem dirTurn_grows (h : Tame R names k) {call : Text → Copied → Option Copied} (hcall : Calls R names call)
    {file d : Text} (hmagic : R.magic file ≠ []) (hd : d ∈ R.xlibdirs) (hlib : s.lib ∈ names)
    (hturn : R.dirTurn k call (R.magic file) s d = some s') :
    Grows R s s' ∧ s'.lib ∈ names ∧ (R.Matches file d s.lib → d ++ s.lib ∈ s'.added) ∧
      (¬ R.Matches file d s.lib → s' = s) := by
  rw [Sysroot.dirTurn] at hturn
  split at hturn
  next hnew =>
    obtain ⟨hex, hkind, hkey⟩ := hnew
    split at hturn
    next => cases hturn
    next lib image hlinks =>
      split at hturn
      next hthere =>
        obtain ⟨hname, hexists, hmagic', hlast, hkeeps, hlinks', hresolves⟩ := h.links_followed hd hlib hex hlinks
        have hmagic'' : R.magic (R.path d lib) = R.magic file := by
          rw [hmagic', hkind, h.rlib_eq hd hlib]
        obtain ⟨hgrows, hsat, hlib'⟩ := hcall _ _ _ (hmagic'' ▸ hmagic) hname hturn
        have hcopy := hgrows.image (.copy (R.path d lib) (d ++ lib)) (List.mem_append_right _ List.mem_cons_self)
        refine ⟨⟨?_, ?_, ?_, ?_, ?_⟩, hlib', fun _ => hgrows.added _ List.mem_cons_self, fun hno => ?_⟩
        · exact fun key hkey => hgrows.added key (List.mem_cons_of_mem _ hkey)
        · exact fun a ha => hgrows.image a (List.mem_append_left _ (hkeeps a ha))
        · intro key hkey' hold
          by_cases hsame : key = d ++ s.lib
          · subst hsame
            exact ⟨_, hresolves s'.image (fun a ha => hgrows.image a (List.mem_append_left _ ha)) hcopy⟩
          · exact hgrows.placed key hkey' (by simp [hsame, hold])
        · intro source p hcopy' hold
          by_cases hmid : Action.copy source p ∈ image ++ [.copy (R.path d lib) (d ++ lib)]
          · rcases List.mem_append.1 hmid with hmem | hmem
            · exact absurd rfl ((hlinks' _ hmem hold).2 source p)
            · obtain ⟨rfl, rfl⟩ : source = R.path d lib ∧ p = d ++ lib := by simpa using hmem
              exact hsat
          · exact hgrows.closed source p hcopy' hmid
        · intro a ha hold
          by_cases hmid : a ∈ image ++ [.copy (R.path d lib) (d ++ lib)]
          · rcases List.mem_append.1 hmid with hmem | hmem
            · exact (hlinks' a hmem hold).1
            · obtain rfl := List.mem_singleton.1 hmem
              exact ⟨R.path_eq d lib, hlast⟩
          · exact hgrows.mirrors a ha hmid
        · exact absurd ⟨hex, hkind⟩ hno
      next => cases hturn
  next hold =>
    obtain rfl := Option.some.inj hturn
    refine ⟨.refl s, hlib, fun hmatches => ?_, fun _ => rfl⟩
    by_contra hkey
    exact hold ⟨hmatches.1, hmatches.2, hkey⟩

/-- All directories: the first one with a library for the file marks it. -/
theorem dirTurns_grows (h : Tame R names k) {call : Text → Copied → Option Copied} (hcall : Calls R names call)
    {file : Text} (hmagic : R.magic file ≠ []) {ds : List Text} (hds : ∀ d ∈ ds, d ∈ R.xlibdirs)
    (hlib : s.lib ∈ names) (hturns : ds.foldlM (R.dirTurn k call (R.magic file)) s = some s') :
    Grows R s s' ∧ s'.lib ∈ names ∧
      ((∃ d ∈ ds, R.Matches file d s.lib) → ∃ d ∈ ds, R.Matches file d s.lib ∧ d ++ s.lib ∈ s'.added) := by
  induction ds generalizing s with
  | nil =>
    obtain rfl := Option.some.inj hturns
    exact ⟨.refl s, hlib, by simp⟩
  | cons d ds ih =>
    obtain ⟨hd, hds⟩ := List.forall_mem_cons.1 hds
    rw [List.foldlM_cons] at hturns
    obtain ⟨mid, hmid, hturns⟩ := Option.bind_eq_some_iff.1 hturns
    obtain ⟨hgrows, hlib', hmarks, hstays⟩ := dirTurn_grows h hcall hmagic hd hlib hmid
    obtain ⟨hgrows', hlib'', hrest⟩ := ih hds hlib' hturns
    refine ⟨hgrows.trans hgrows', hlib'', fun hex => ?_⟩
    by_cases hmatches : R.Matches file d s.lib
    · exact ⟨d, List.mem_cons_self, hmatches, hgrows'.added _ (hmarks hmatches)⟩
    · -- `lib` is as it was, so the directories behind this one are asked for the same name
      obtain rfl := hstays hmatches
      obtain ⟨d', hd', hmatches'⟩ := hex
      rcases List.mem_cons.1 hd' with rfl | hd'
      · exact absurd hmatches' hmatches
      · obtain ⟨d'', hd'', hfound⟩ := hrest ⟨d', hd', hmatches'⟩
        exact ⟨d'', List.mem_cons_of_mem _ hd'', hfound⟩

/-- All names. -/
theorem libTurns_grows (h : Tame R names k) {call : Text → Copied → Option Copied} (hcall : Calls R names call)
    {file : Text} (hmagic : R.magic file ≠ []) {ws : List Text} (hws : ∀ w ∈ ws, w ∈ R.words file)
    (hturns : ws.foldlM (R.libTurn k call file) s = some s') :
    Grows R s s' ∧ (s.lib ∈ names → s'.lib ∈ names) ∧ ∀ w ∈ ws, (∃ d ∈ R.xlibdirs, R.Matches file d (R.strip w)) →
      ∃ d ∈ R.xlibdirs, R.Matches file d (R.strip w) ∧ d ++ R.strip w ∈ s'.added := by
  induction ws generalizing s with
  | nil =>
    obtain rfl := Option.some.inj hturns
    exact ⟨.refl s, id, by simp⟩
  | cons w ws ih =>
    obtain ⟨hw, hws⟩ := List.forall_mem_cons.1 hws
    rw [List.foldlM_cons] at hturns
    obtain ⟨mid, hmid, hturns⟩ := Option.bind_eq_some_iff.1 hturns
    rw [Sysroot.libTurn, if_neg hmagic] at hmid
    obtain ⟨hgrows, hlib, hfound⟩ := dirTurns_grows (s := { s with lib := R.strip w }) h hcall hmagic (fun d hd => hd)
      (h.words file w hw) hmid
    obtain ⟨hgrows', hlib', hrest⟩ := ih hws hturns
    have hgrows : Grows R s mid := ⟨hgrows.added, hgrows.image, hgrows.placed, hgrows.closed, hgrows.mirrors⟩
    refine ⟨hgrows.trans hgrows', fun _ => hlib' hlib, List.forall_mem_cons.2 ⟨fun hex => ?_, hrest⟩⟩
    obtain ⟨d, hd, hmatches, hadded⟩ := hfound hex
    exact ⟨d, hd, hmatches, hgrows'.added _ hadded⟩

/-- **A call for a file.** -/
theorem copyDynLibs_grows (h : Tame R names k) {n : Nat} {file : Text} (hmagic : R.magic file ≠ [])
    (hcalls : R.copyDynLibs k n file s = some s') :
    Grows R s s' ∧ Satisfied R s'.added file ∧ (s.lib ∈ names → s'.lib ∈ names) := by
  induction n generalizing file s s' with
  | zero => cases hcalls
  | succ n ih =>
    rw [Sysroot.copyDynLibs] at hcalls
    have hcall : Calls R names (R.copyDynLibs k n) := by
      intro file s s' hmagic hlib hcall
      obtain ⟨hgrows, hsat, hlib'⟩ := ih hmagic hcall
      exact ⟨hgrows, hsat, hlib' hlib⟩
    obtain ⟨hgrows, hlib, hsat⟩ := libTurns_grows h hcall hmagic (fun w hw => hw) hcalls
    exact ⟨hgrows, hsat, hlib⟩

/-! ## That a call returns -/

/-- A fold whose steps return, with what they keep. -/
theorem foldlM_keeps {σ κ : Type} {f : σ → κ → Option σ} {P : σ → Prop} {l : List κ}
    (h : ∀ s, P s → ∀ x ∈ l, ∃ s', f s x = some s' ∧ P s') {s : σ} (hs : P s) :
    ∃ s', l.foldlM f s = some s' ∧ P s' := by
  induction l generalizing s with
  | nil => exact ⟨s, rfl, hs⟩
  | cons x l ih =>
    obtain ⟨hx, hl⟩ : (∀ s, P s → ∃ s', f s x = some s' ∧ P s') ∧ ∀ s, P s → ∀ y ∈ l, ∃ s', f s y = some s' ∧ P s' :=
      ⟨fun s hs => h s hs x List.mem_cons_self, fun s hs y hy => h s hs y (List.mem_cons_of_mem _ hy)⟩
    obtain ⟨mid, hmid, hkept⟩ := hx s hs
    obtain ⟨s', hs', hkept'⟩ := ih hl hkept
    exact ⟨s', by rw [List.foldlM_cons, hmid]; exact hs', hkept'⟩

/-- What can be marked. -/
def keys (R : Sysroot) (names : List Text) : List Text := R.xlibdirs.flatMap fun d => names.map (d ++ ·)

/-- Each call inside another one has a library less before it. -/
theorem copyDynLibs_returns (h : Tame R names k) {n : Nat} {file : Text} (hmagic : R.magic file ≠ [])
    (hn : Search.left (keys R names) s.added < n) : ∃ s', R.copyDynLibs k n file s = some s' := by
  induction n generalizing file s with
  | zero => omega
  | succ n ih =>
    have hdir (s : Copied) (hs : s.lib ∈ names ∧ Search.left (keys R names) s.added < n + 1) (d : Text)
        (hd : d ∈ R.xlibdirs) : ∃ s', R.dirTurn k (R.copyDynLibs k n) (R.magic file) s d = some s' ∧
          s'.lib ∈ names ∧ Search.left (keys R names) s'.added < n + 1 := by
      obtain ⟨hlib, hleft⟩ := hs
      rw [Sysroot.dirTurn]
      split
      next hnew =>
        obtain ⟨hex, hkind, hkey⟩ := hnew
        cases hlinks : R.links d k s.lib s.image with
        | none => exact absurd hlinks (h.ends d hd _ hlib hex _)
        | some r =>
          obtain ⟨lib, image⟩ := r
          have hfollowed := h.links_followed hd hlib hex hlinks
          have hmagic' : R.magic (R.path d lib) ≠ [] := by
            rw [hfollowed.magic, ← h.rlib_eq hd hlib, ← hkind]
            exact hmagic
          have hmem : d ++ s.lib ∈ keys R names :=
            List.mem_flatMap.2 ⟨d, hd, List.mem_map.2 ⟨s.lib, hlib, rfl⟩⟩
          have hless := Search.left_cons hmem hkey
          obtain ⟨s', hs'⟩ := ih (s := ⟨(d ++ s.lib) :: s.added, lib, image ++ [.copy (R.path d lib) (d ++ lib)]⟩)
            hmagic' (by simp only; omega)
          obtain ⟨hgrows, -, hlib'⟩ := copyDynLibs_grows h hmagic' hs'
          have hmono := Search.left_mono (U := keys R names) hgrows.added
          simp only
          rw [if_pos (hfollowed.exists_.trans hex)]
          exact ⟨s', hs', hlib' hfollowed.name, by simp only at hmono; omega⟩
      next => exact ⟨s, rfl, hlib, hleft⟩
    have hlib (s : Copied) (hs : Search.left (keys R names) s.added < n + 1) (w : Text) (hw : w ∈ R.words file) :
        ∃ s', R.libTurn k (R.copyDynLibs k n) file s w = some s' ∧ Search.left (keys R names) s'.added < n + 1 := by
      rw [Sysroot.libTurn, if_neg hmagic]
      obtain ⟨s', hs', -, hleft⟩ := foldlM_keeps hdir (s := { s with lib := R.strip w }) ⟨h.words file w hw, hs⟩
      exact ⟨s', hs', hleft⟩
    obtain ⟨s', hs', -⟩ := foldlM_keeps hlib hn
    exact ⟨s', hs'⟩

/-! ## The initrd -/

/-- What holds between two programs, with the keys that were there at first. -/
structure Complete (R : Sysroot) (added : List Text) (programs : List (Text × Text)) (s : Copied) : Prop where
  placed : ∀ key ∈ s.added, key ∈ added ∨ ∃ source, Resolves s.image key source
  closed : ∀ source p, .copy source p ∈ s.image → Satisfied R s.added source
  mirrors : ∀ a ∈ s.image, Mirrors R a ∨ ∃ p ∈ programs, a = .copy p.1 p.2

theorem copyProgram_complete (h : Tame R names k) {n : Nat} (hn : (keys R names).length < n) {added : List Text}
    {programs : List (Text × Text)} {p : Text × Text} (hp : p ∈ programs) (hmagic : R.magic p.1 ≠ [])
    (hs : Complete R added programs s) :
    ∃ s', R.copyProgram k n s p = some s' ∧ Complete R added programs s' := by
  have hleft : Search.left (keys R names) s.added < n := by
    have hle : Search.left (keys R names) s.added ≤ (keys R names).length := List.length_filter_le _ _
    omega
  obtain ⟨s', hs'⟩ := copyDynLibs_returns (s := { s with image := s.image ++ [.copy p.1 p.2] }) h hmagic hleft
  obtain ⟨hgrows, hsat, -⟩ := copyDynLibs_grows h hmagic hs'
  refine ⟨s', hs', fun key hkey => ?_, fun source q hcopy => ?_, fun a ha => ?_⟩
  · by_cases hold : key ∈ s.added
    · exact (hs.placed key hold).imp_right fun ⟨source, hr⟩ =>
        ⟨source, hr.mono fun a ha => hgrows.image a (List.mem_append_left _ ha)⟩
    · exact .inr (hgrows.placed key hkey hold)
  · by_cases hold : Action.copy source q ∈ s.image ++ [.copy p.1 p.2]
    · rcases List.mem_append.1 hold with hmem | hmem
      · exact (hs.closed source q hmem).mono hgrows.added
      · obtain ⟨rfl, rfl⟩ : source = p.1 ∧ q = p.2 := by simpa using hmem
        exact hsat
    · exact hgrows.closed source q hcopy hold
  · by_cases hold : a ∈ s.image ++ [.copy p.1 p.2]
    · rcases List.mem_append.1 hold with hmem | hmem
      · exact hs.mirrors a hmem
      · exact .inr ⟨p, hp, List.mem_singleton.1 hmem⟩
    · exact .inl (hgrows.mirrors a ha hold)

end

/-- **The initrd is closed**: for each file in it and each library that it needs, if one of its kind is in a library
directory, then the path of such a one leads to a file in the initrd. All links and libraries are at the paths they have
below `root`. -/
theorem initrd_closed {R : Sysroot} {names : List Text} {k : Nat} (h : Tame R names k)
    (programs : List (Text × Text)) (hprograms : ∀ p ∈ programs, R.magic p.1 ≠ []) (added : List Text)
    (hadded : ∀ d ∈ R.xlibdirs, ∀ n ∈ names, R.exists_ (R.path d n) → d ++ n ∉ added) :
    ∃ n s, R.copyPrograms k n programs ⟨added, [], []⟩ = some s ∧
      (∀ source p, .copy source p ∈ s.image → ∀ w ∈ R.words source,
        (∃ d ∈ R.xlibdirs, R.Matches source d (R.strip w)) →
          ∃ d ∈ R.xlibdirs, R.Matches source d (R.strip w) ∧ ∃ lib, Resolves s.image (d ++ R.strip w) lib) ∧
      ∀ a ∈ s.image, Mirrors R a ∨ ∃ p ∈ programs, a = .copy p.1 p.2 := by
  have hstart : Complete R added programs ⟨added, [], []⟩ :=
    ⟨fun key hkey => .inl hkey, fun _ _ hcopy => absurd hcopy List.not_mem_nil, fun _ ha => absurd ha List.not_mem_nil⟩
  obtain ⟨s, hs, hcomplete⟩ := foldlM_keeps (f := R.copyProgram k ((keys R names).length + 1)) (l := programs)
    (fun s hs p hp => copyProgram_complete h (Nat.lt_succ_self _) hp (hprograms p hp) hs) hstart
  refine ⟨_, s, hs, fun source p hcopy w hw hex => ?_, hcomplete.mirrors⟩
  obtain ⟨d, hd, hmatches, hkey⟩ := hcomplete.closed source p hcopy w hw hex
  refine ⟨d, hd, hmatches, ?_⟩
  rcases hcomplete.placed _ hkey with hold | hplaced
  · exact absurd hold (hadded d hd _ (h.words source w hw) hmatches.1)
  · exact hplaced

/-- A program with one library, which is there by a link. -/
def linked : Sysroot where
  root := "/t".toList
  dirs := ["/lib/".toList]
  exists_ f := f = "/t/lib/z".toList ∨ f = "/t/lib/z1".toList
  readlink f := if f = "/t/lib/z".toList then "z1".toList else []
  magic _ := "ELF64".toList
  needed f := if f = "/t/sbin/kmod".toList then ["z".toList] else []
  extralibs := []
  slash _ hd := ⟨"/lib".toList, List.mem_singleton.1 hd⟩

theorem linked_tame : Tame linked ["z".toList, "z1".toList] 2 where
  words file w hw := by
    rw [Sysroot.words, show linked.extralibs = [] from rfl, List.append_nil, linked] at hw
    dsimp only at hw
    split at hw
    next =>
      obtain rfl := List.mem_singleton.1 hw
      decide +kernel
    next => exact absurd hw List.not_mem_nil
  slash := by decide +kernel
  plain := by decide +kernel
  relative := by decide +kernel
  follows := by decide +kernel
  ends d hd n hn hex image := by
    rcases List.mem_cons.1 hd with rfl | hd
    · rcases List.mem_cons.1 hn with rfl | hn
      · exact Option.some_ne_none ("z1".toList, image ++ [.link "z1".toList "/lib/z".toList])
      · obtain rfl := List.mem_singleton.1 hn
        exact Option.some_ne_none ("z1".toList, image)
    · obtain rfl := List.mem_singleton.1 hd
      exact absurd hex (by revert n; decide +kernel)

theorem initrd_closed_linked :
    ∃ n s, linked.copyPrograms 2 n [("/t/sbin/kmod".toList, "/sbin/kmod".toList)] ⟨[], [], []⟩ = some s ∧
      (∀ source p, .copy source p ∈ s.image → ∀ w ∈ linked.words source,
        (∃ d ∈ linked.xlibdirs, linked.Matches source d (linked.strip w)) →
          ∃ d ∈ linked.xlibdirs, linked.Matches source d (linked.strip w) ∧
            ∃ lib, Resolves s.image (d ++ linked.strip w) lib) ∧
      ∀ a ∈ s.image, Mirrors linked a ∨ ∃ p ∈ [("/t/sbin/kmod".toList, "/sbin/kmod".toList)], a = .copy p.1 p.2 :=
  initrd_closed linked_tame _ (fun _ _ => List.cons_ne_nil _ _) [] (fun _ _ _ _ _ => List.not_mem_nil)

end T2Sde.Initrd
