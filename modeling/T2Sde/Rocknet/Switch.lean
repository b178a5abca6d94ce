import Mathlib.Data.List.Perm.Basic
import Mathlib.Data.Set.Insert
import T2Sde.Lib.Between
import T2Sde.Rocknet.Order
import T2Sde.Rocknet.Section
/-!
# The interfaces that are up (`package/network/rocknet`)

`rocknet` reads the whole configuration and adds code for the sections that are for the profile and the interface it
was called with. A section without a profile is for all of them. `ifup` and `ifdown` look the entry of their arguments
up first; `ifswitch` takes down what is listed, one by one, and ends with the first `ifdown` that fails.

| here | there |
| --- | --- |
| `headIface`, `headProf`, `publicAuto` | rocknet_base.sh :11-25, :28-29 |
| `taken`          | `public_interface` :27-52 |
| `events`         | the loop of rocknet.sh :92-111 |
| `evalCode`       | `eval` of a piece :117, if it is one of rocknet_base.sh :56-57 |
| `rocknet`        | a run for a profile, an interface or `auto`, and a mode |
| `ifAction`       | ifup.sh :42-61, for a profile that is given |
| `takeDown`, `ifswitch` | ifswitch.sh :11-27 |

* `chosen_regular`, `chosen_auto` — the sections that a run is for.
* `perform_follows` — what a command does to the list.
* `registry_follows` — **the list follows the commands**.
-/
namespace T2Sde.Rocknet
open Shell

/-! ## The programs -/

/-- `${x%(*}` -/
def headIface (x : Text) : Text := stripSuffix ['(', '*'] x

/-- `${x#*(}`, then without the first `)`, with a blank for each comma. -/
def headProf (x : Text) : Text := replaceAll [','] [' '] (replaceOnce [')'] [] (stripPrefix ['*', '('] x))

/-- `auto_if`, of all arguments. -/
def publicAuto (profile : Text) (args : List Text) : List Text :=
  args.flatMap fun x =>
    if headIface x = headProf x then [headIface x]
    else ((words (headProf x)).filter (· = profile)).map fun _ => headIface x

def autoName : Text := "auto".toList
def defaultName : Text := "default".toList
/-- To `ifup` and `ifdown` this is no profile. -/
def forceName : Text := "-force".toList

/-- The interface is the one of the run, or it fits what is `auto`. -/
def wanted (interface : Text) (autoIf : List Text) (iface : Text) : Bool :=
  if interface = autoName then autoIf.any (fits · iface) else decide (iface = interface)

/-- `if` and `prof`, if the section is not ignored. -/
def taken (profile interface : Text) (autoIf : List Text) (arg : Text) : Option (Text × Text) :=
  let iface := headIface arg
  let prof := headProf arg
  let all := decide (iface = prof)
  if (all || decide (profile ∈ words prof)) && wanted interface autoIf iface then
    some (iface, if all then defaultName else prof)
  else none

/-- What is kept while the file is read, but the pieces. -/
structure Reading where
  ignore : Nat
  globals : Bool
  autoIf : List Text

def Reading.first : Reading := ⟨0, true, [['*']]⟩

/-- `"$command $if\($prof\)"` -/
def pieceCode (command iface prof : Text) : Text := command ++ ' ' :: (iface ++ '\\' :: '(' :: (prof ++ ['\\', ')']))

def registerName : Text := "register".toList
def unregisterName : Text := "unregister".toList

/-- The first two words of a piece of code. -/
def codeWord (n : Nat) (code : Text) : Text := (readFields 2 (unescape code).1).getD n []

structure Network where
  /-- The lines of the configuration. -/
  file : List Text
  /-- What the statement of a line adds, for a profile and an interface, if it is one of another package. -/
  other : Text → Text → Nat → List (Mode × Nat × Nat × Text)
  /-- The list is not their business. -/
  quiet : ∀ profile interface n, ∀ p ∈ other profile interface n,
    codeWord 0 p.2.2.2 ≠ registerName ∧ codeWord 0 p.2.2.2 ≠ unregisterName

section
variable (N : Network) (profile interface : Text)

def isInterface (s : Statement) : Bool := decide (s.cmd = Rocknet.interface)

/-- `$1` -/
def firstArg (s : Statement) : Text := (words s.para).headD []

def found (r : Reading) (s : Statement) : Option (Text × Text) := taken profile interface r.autoIf (firstArg s)

def nextReading (r : Reading) : Option Statement → Reading
  | none => r
  | some s =>
    if isInterface s then ⟨if (found profile interface r s).isSome then 0 else 1, false, r.autoIf⟩
    else if (r.ignore = 0 ∨ r.globals) ∧ s.cmd = autoName then { r with autoIf := publicAuto profile (words s.para) }
    else r

/-- What the statement of a line adds. -/
def lineEvents (r : Reading) (lineno : Nat) : Option Statement → List Event
  | none => []
  | some s =>
    if isInterface s then
      match found profile interface r s with
      | none => [.ignored 1]
      | some (iface, prof) =>
        [.ignored 0, .addcode .up 9 9 (pieceCode registerName iface prof),
          .addcode .down 9 9 (pieceCode unregisterName iface prof)]
    else if (r.ignore = 0 ∨ r.globals) ∧ s.cmd ≠ autoName then
      (N.other profile interface lineno).map fun p => .addcode p.1 p.2.1 p.2.2.1 p.2.2.2
    else []

def events : Reading → Nat → List (Option Statement) → List Event
  | _, _, [] => []
  | r, n, s :: ss =>
    .line :: (lineEvents N profile interface r n s ++ events (nextReading profile interface r s) (n + 1) ss)

/-- What the loop of rocknet gets. -/
def Network.lines : List (Option Statement) := (logical (N.file.map stripComment)).map statement

/-- `register` and `unregister`; the list stays as it is for all other code. -/
def evalCode (file : Option Text) (code : Text) : Option Text :=
  if codeWord 0 code = registerName then register file (codeWord 1 code)
  else if codeWord 0 code = unregisterName then unregister file (codeWord 1 code)
  else file

def rocknet (mode : Mode) (file : Option Text) : Option Text :=
  (executed (readConfig mode (events N profile interface .first 1 N.lines))).foldl evalCode file

end

def Mode.text : Mode → Text
  | .up => "up".toList
  | .down => "down".toList

/-- `interface(profile)` -/
def entryText (iface prof : Text) : Text := iface ++ '(' :: prof ++ [')']

/-- `ifup` and `ifdown` without `-force`: the list, and whether rocknet was called. -/
def ifAction (N : Network) (mode : Mode) (iface prof : Text) (file : Option Text) : Option Text × Bool :=
  if refused mode.text false file (entryText iface prof) then (file, false) else (rocknet N prof iface mode file, true)

/-- `${x/(*)/}` -/
def ifaceOf (x : Text) : Text := replaceOnce ['(', '*', ')'] [] x

/-- `${x/*(/}`, then `${profile%)}` -/
def profileOf (x : Text) : Text := stripSuffix [')'] (replaceOnce ['*', '('] [] x)

/-- The loop of `ifswitch`; with `set -e` an `ifdown` that fails ends it. -/
def takeDown (N : Network) : List Text → Option Text → Option Text × Bool
  | [], file => (file, true)
  | x :: xs, file =>
    match ifAction N .down (ifaceOf x) (profileOf x) file with
    | (file, false) => (file, false)
    | (file, true) => takeDown N xs file

/-- `thenUp` is the call behind the loop. -/
def ifswitch (N : Network) (thenUp : Option Text → Option Text × Bool) (file : Option Text) : Option Text × Bool :=
  match takeDown N (words (replaceAll [','] [' '] (content file))) file with
  | (file, false) => (file, false)
  | (file, true) => thenUp file

/-! ## Sections -/

/-- What stands behind `interface`: a name alone, or with one profile. -/
structure Sect where
  entry : Entry
  bare : Bool
  iface : entry.iface ≠ [] ∧ entry.iface ≠ autoName
  profile : entry.profile ≠ [] ∧ entry.profile ≠ forceName
  default : bare = true → entry.profile = defaultName
  named : bare = false → entry.iface ≠ entry.profile

def Sect.arg (s : Sect) : Text := if s.bare then s.entry.iface else s.entry.text

/-- The section is for the profile. -/
def Sect.Covers (s : Sect) (profile : Text) : Prop := s.bare = true ∨ s.entry.profile = profile

instance (s : Sect) (profile : Text) : Decidable (s.Covers profile) := inferInstanceAs (Decidable (_ ∨ _))

/-- The sections of a configuration. No two of them are for one interface and one profile, and no entry ends like
another one. -/
structure Regular (N : Network) (ss : List Sect) : Prop where
  args : (N.lines.filterMap fun s => (s.filter isInterface).map firstArg) = ss.map Sect.arg
  apart : ss.Pairwise fun s t => s.entry.iface = t.entry.iface →
    s.bare = false ∧ t.bare = false ∧ s.entry.profile ≠ t.entry.profile
  ends : ∀ s ∈ ss, ∀ t ∈ ss, s.entry.Ends t.entry → s.entry = t.entry

/-- `if` and `prof` of the sections that a run is for. -/
def chosen (profile interface : Text) : Reading → List (Option Statement) → List (Text × Text)
  | _, [] => []
  | r, s :: ss => (s.filter isInterface).toList.flatMap (fun s => (found profile interface r s).toList) ++
      chosen profile interface (nextReading profile interface r s) ss

/-! ## Commands -/

inductive Command where
  | up (e : Entry)
  | down (e : Entry)
  | switch (profile : Text)
  | switchTo (e : Entry)

def Network.perform (N : Network) (file : Option Text) : Command → Option Text × Bool
  | .up e => ifAction N .up e.iface e.profile file
  | .down e => ifAction N .down e.iface e.profile file
  | .switch profile => ifswitch N (fun file => (rocknet N profile autoName .up file, true)) file
  | .switchTo e => ifswitch N (ifAction N .up e.iface e.profile) file

/-- The list after all of them. -/
def Network.performAll (N : Network) (file : Option Text) (cmds : List Command) : Option Text :=
  cmds.foldl (fun file c => (N.perform file c).1) file

/-- A name as it may stand in an entry. -/
def Name (t : Text) : Prop := ∀ c ∈ t, nameChar c = true

/-- The arguments of a command: an entry that has a section, or a profile. -/
def Command.Names (ss : List Sect) : Command → Prop
  | .up e | .down e | .switchTo e => ∃ s ∈ ss, s.entry = e
  | .switch profile => profile ≠ [] ∧ Name profile

/-- The entries of the sections that are for a profile, as `auto` has them. -/
def Network.automatic (N : Network) (profile : Text) : Set Entry :=
  {e | (e.iface, e.profile) ∈ chosen profile autoName .first N.lines}

/-- What is up after a command. -/
def Network.after (N : Network) (up : Set Entry) : Command → Set Entry
  | .up e => insert e up
  | .down e => up \ {e}
  | .switch profile => N.automatic profile
  | .switchTo e => {e}

/-! ## Texts -/

theorem nameChar_name {c : Char} (h : nameChar c = true) : c ≠ ')' ∧ c ≠ '\\' ∧ isBlank c = false := by
  have hother : ∀ d ∈ ")\\ \t\n".toList, nameChar d = false := by decide
  have hne : ∀ d ∈ ")\\ \t\n".toList, c ≠ d := by
    rintro d hd rfl
    rw [hother c hd] at h
    exact absurd h (by decide)
  refine ⟨hne _ (by decide), hne _ (by decide), ?_⟩
  simp [isBlank, hne ' ' (by decide), hne '\t' (by decide), hne '\n' (by decide)]

section
variable {t : Text} (h : Name t)
include h

theorem Name.not_mem {d : Char} (hd : nameChar d = false) : d ∉ t := fun hmem => by
  rw [h d hmem] at hd
  exact absurd hd (by decide)

theorem Name.isWord (hne : t ≠ []) : IsWord t := ⟨hne, fun c hc => (nameChar_name (h c hc)).2.2⟩

theorem Name.commas : replaceAll [','] [' '] t = t := by
  rw [replaceAll_char (by decide)]
  refine (List.flatMap_congr fun c hc => if_neg (nameChar_plain (h c hc)).1).trans ?_
  rw [List.flatMap_singleton']

theorem Name.headIface_eq : headIface t = t := stripSuffix_from_not (by decide) (h.not_mem (by decide))

theorem Name.headProf_eq : headProf t = t := by
  have honce : replaceOnce [')'] [] t = t := by
    rw [replaceOnce_eq_self_iff (verbatim_char (by decide)) (List.cons_ne_nil _ _)]
    exact fun hin => h.not_mem (d := ')') (by decide) (hin.subset List.mem_cons_self)
  rw [headProf, stripPrefix_upTo_not (by decide) (h.not_mem (by decide)), honce, h.commas]

end

section
variable (e : Entry)

theorem Entry.name_iface : Name e.iface := fun c hc => e.plain c (List.mem_append_left _ hc)

theorem Entry.name_profile : Name e.profile := fun c hc => e.plain c (List.mem_append_right _ hc)

theorem Entry.text_eq : e.text = e.iface ++ '(' :: (e.profile ++ [')']) := by simp [Entry.text]

theorem Entry.behind : '(' ∉ e.profile ++ [')'] := by
  rw [List.mem_append, List.mem_singleton]
  rintro (h | h)
  · exact e.name_profile.not_mem (by decide) h
  · exact absurd h (by decide)

theorem Entry.headIface_text : headIface e.text = e.iface := by
  rw [Entry.text_eq]
  exact stripSuffix_from (by decide) e.iface e.behind

theorem replaceOnce_last {t : Text} (h : ')' ∉ t) : replaceOnce [')'] [] (t ++ [')']) = t := by
  have hw : Verbatim [')'] := verbatim_char (by decide)
  induction t with
  | nil =>
    rw [List.nil_append, replaceOnce_verbatim hw, if_pos (List.prefix_refl _)]
    rfl
  | cons c t ih =>
    have hc : ¬ [')'] <+: c :: (t ++ [')']) := by
      rintro hp
      exact h ((List.cons_prefix_cons.1 hp).1 ▸ List.mem_cons_self)
    rw [List.cons_append, replaceOnce_verbatim hw, if_neg hc, ih fun hmem => h (List.mem_cons_of_mem c hmem)]

theorem Entry.headProf_text : headProf e.text = e.profile := by
  rw [headProf, Entry.text_eq, stripPrefix_upTo (by decide) (e.name_iface.not_mem (by decide)),
    replaceOnce_last (e.name_profile.not_mem (by decide)), e.name_profile.commas]

theorem Entry.ifaceOf_text : ifaceOf e.text = e.iface := by
  rw [ifaceOf, Entry.text_eq]
  exact replaceOnce_within (by decide) (by decide) (e.name_iface.not_mem (by decide)) e.profile

theorem Entry.profileOf_text : profileOf e.text = e.profile := by
  rw [profileOf, Entry.text_eq, replaceOnce_upTo (by decide) e.iface e.behind]
  exact stripSuffix_append (verbatim_char (by decide)) e.profile

theorem Entry.isWord_text : IsWord e.text := by
  refine ⟨by simp [Entry.text], fun c hc => ?_⟩
  rcases Entry.mem_text hc with h | rfl | rfl
  · exact (nameChar_name h).2.2
  · decide
  · decide

end

/-! ## The sections that a run is for -/

/-- What a run has for a section that it takes. -/
def Sect.pair (s : Sect) : Text × Text := (s.entry.iface, s.entry.profile)

section
variable {profile interface : Text}

theorem taken_arg (s : Sect) (autoIf : List Text) :
    taken profile interface autoIf s.arg =
      if s.Covers profile ∧ wanted interface autoIf s.entry.iface = true then some s.pair else none := by
  cases hbare : s.bare with
  | true =>
    have harg : s.arg = s.entry.iface := by rw [Sect.arg, if_pos hbare]
    have hcovers : s.Covers profile := .inl hbare
    rw [taken, harg, s.entry.name_iface.headIface_eq, s.entry.name_iface.headProf_eq, Sect.pair, s.default hbare]
    simp [hcovers]
  | false =>
    have harg : s.arg = s.entry.text := by simp [Sect.arg, hbare]
    have hcovers : s.Covers profile ↔ profile = s.entry.profile := by simp [Sect.Covers, hbare, eq_comm]
    rw [taken, harg, s.entry.headIface_text, s.entry.headProf_text,
      words_of_isWord (s.entry.name_profile.isWord s.profile.1), Sect.pair]
    simp [s.named hbare, hcovers]

/-- The sections that are taken are some of all sections; those for one interface do not depend on what is `auto`. -/
theorem chosen_sections {ls : List (Option Statement)} {ss : List Sect}
    (hargs : (ls.filterMap fun s => (s.filter isInterface).map firstArg) = ss.map Sect.arg) (r : Reading) :
    ∃ ts, ts.Sublist ss ∧ chosen profile interface r ls = ts.map Sect.pair ∧ (∀ s ∈ ts, s.Covers profile) ∧
      (interface ≠ autoName → ts = ss.filter fun s => decide (s.Covers profile ∧ s.entry.iface = interface)) := by
  induction ls generalizing ss r with
  | nil =>
    obtain rfl : ss = [] := List.map_eq_nil_iff.1 hargs.symm
    exact ⟨[], List.Sublist.refl [], rfl, fun s hs => absurd hs List.not_mem_nil, fun _ => rfl⟩
  | cons l ls ih =>
    rw [List.filterMap_cons] at hargs
    rw [chosen]
    cases hl : l.filter isInterface with
    | none =>
      rw [hl] at hargs
      exact ih hargs _
    | some s =>
      rw [hl] at hargs
      obtain ⟨t, ss, rfl, ht, hargs⟩ := List.map_eq_cons_iff.1 hargs.symm
      obtain ⟨ts, hsub, hchosen, hcovers, hone⟩ := ih hargs.symm (nextReading profile interface r l)
      have hfound : found profile interface r s = taken profile interface r.autoIf t.arg := by rw [found, ht]
      rw [hchosen, Option.toList_some, List.flatMap_singleton, hfound, taken_arg]
      by_cases htaken : t.Covers profile ∧ wanted interface r.autoIf t.entry.iface = true
      · rw [if_pos htaken]
        refine ⟨t :: ts, hsub.cons_cons t, rfl, ?_, fun hauto => ?_⟩
        · exact List.forall_mem_cons.2 ⟨htaken.1, hcovers⟩
        · have hiface : t.entry.iface = interface := by simpa [wanted, hauto] using htaken.2
          rw [List.filter_cons_of_pos (by simpa using ⟨htaken.1, hiface⟩), ← hone hauto]
      · rw [if_neg htaken]
        refine ⟨ts, hsub.cons t, rfl, hcovers, fun hauto => ?_⟩
        have hno : ¬ (t.Covers profile ∧ t.entry.iface = interface) := by simpa [wanted, hauto] using htaken
        rw [List.filter_cons_of_neg (by simpa using hno), ← hone hauto]

end

section
variable {N : Network} {ss : List Sect} (hN : Regular N ss)
include hN

/-- A run for one entry takes its section and no other. -/
theorem chosen_regular {s : Sect} (hs : s ∈ ss) :
    chosen s.entry.profile s.entry.iface .first N.lines = [s.pair] := by
  obtain ⟨ts, hsub, hchosen, hcovers, hone⟩ := @chosen_sections s.entry.profile s.entry.iface _ _ hN.args .first
  obtain rfl := hone s.iface.2
  rw [hchosen]
  have hmem : s ∈ ss.filter fun t => decide (t.Covers s.entry.profile ∧ t.entry.iface = s.entry.iface) :=
    List.mem_filter.2 ⟨hs, by simp [Sect.Covers]⟩
  have hiface : ∀ t ∈ ss.filter fun t => decide (t.Covers s.entry.profile ∧ t.entry.iface = s.entry.iface),
      t.entry.iface = s.entry.iface := fun t ht => (of_decide_eq_true (List.mem_filter.1 ht).2).2
  -- two of them are for one interface, and so for two profiles
  have hno : (ss.filter fun t => decide (t.Covers s.entry.profile ∧ t.entry.iface = s.entry.iface)).Pairwise
      fun _ _ => False := by
    refine (hN.apart.sublist hsub).imp_of_mem fun {t u} ht hu hst => ?_
    obtain ⟨htbare, hubare, hne⟩ := hst ((hiface t ht).trans (hiface u hu).symm)
    have ht := (hcovers t ht).resolve_left (by simp [htbare])
    have hu := (hcovers u hu).resolve_left (by simp [hubare])
    exact hne (ht.trans hu.symm)
  generalize (ss.filter fun t => decide (t.Covers s.entry.profile ∧ t.entry.iface = s.entry.iface)) = ts at hmem hno
  match ts, hmem, hno with
  | [t], hmem, _ => rw [List.mem_singleton.1 hmem, List.map_singleton]
  | t :: u :: ts, _, hno => exact absurd (List.rel_of_pairwise_cons hno List.mem_cons_self) id

/-- The sections of an automatic run are all different. -/
theorem chosen_auto (profile : Text) :
    ∃ es : List Entry, chosen profile autoName .first N.lines = es.map (fun e => (e.iface, e.profile)) ∧ es.Nodup ∧
      ∀ e ∈ es, ∃ s ∈ ss, s.entry = e := by
  obtain ⟨ts, hsub, hchosen, hcovers, -⟩ := chosen_sections hN.args .first
  refine ⟨ts.map Sect.entry, ?_, ?_, ?_⟩
  · rw [hchosen, List.map_map]
    rfl
  · have hapart := hN.apart.sublist hsub
    refine List.pairwise_map.2 (hapart.imp_of_mem fun {s t} hs ht hst => ?_)
    intro heq
    obtain ⟨-, -, hne⟩ := hst (by rw [heq])
    exact hne (by rw [heq])
  · intro e he
    obtain ⟨s, hs, rfl⟩ := List.mem_map.1 he
    exact ⟨s, hsub.subset hs, rfl⟩

end

/-! ## A run -/

/-- What a run does to the list for each section. -/
def Mode.command : Mode → Text
  | .up => registerName
  | .down => unregisterName

def Mode.op : Mode → Entry → Op
  | .up => .register
  | .down => .unregister

/-- The code is for the list. -/
def listing (code : Text) : Bool := decide (codeWord 0 code = registerName ∨ codeWord 0 code = unregisterName)

theorem command_word (mode : Mode) : IsWord mode.command ∧ '\\' ∉ mode.command := by
  cases mode <;> exact ⟨⟨by decide, by decide⟩, by decide⟩

theorem codeWord_zero (mode : Mode) (iface prof : Text) :
    codeWord 0 (pieceCode mode.command iface prof) = mode.command := by
  obtain ⟨hword, hback⟩ := command_word mode
  rw [codeWord, pieceCode, unescape_append hback, unescape_cons (by decide), readFields, skip_word hword,
    takeWhile_word hword.2 (by rfl), List.getD_cons_zero, text_plain]

theorem codeWord_one (mode : Mode) (e : Entry) : codeWord 1 (pieceCode mode.command e.iface e.profile) = e.text := by
  obtain ⟨hword, hback⟩ := command_word mode
  have hread : (unescape (pieceCode mode.command e.iface e.profile)).1 =
      plain mode.command ++ (' ', false) :: (plain e.iface ++ ('(', true) :: (plain e.profile ++ [(')', true)])) := by
    rw [pieceCode, unescape_append hback, unescape_cons (by decide),
      unescape_append (e.name_iface.not_mem (by decide)), unescape,
      unescape_append (e.name_profile.not_mem (by decide)), unescape, unescape]
  have hsettled : Settled (unescape (pieceCode mode.command e.iface e.profile)).1 := by
    rw [hread]
    intro x hx hesc
    simp only [plain, List.mem_append, List.mem_cons, List.mem_map, List.not_mem_nil, or_false] at hx
    rcases hx with ⟨c, -, rfl⟩ | rfl | ⟨c, -, rfl⟩ | rfl | ⟨c, -, rfl⟩ | rfl
    · simp at hesc
    · simp at hesc
    · simp at hesc
    · exact ⟨rfl, by decide⟩
    · simp at hesc
    · exact ⟨rfl, by decide⟩
  have htext : text (unescape (pieceCode mode.command e.iface e.profile)).1 = mode.command ++ ' ' :: e.text := by
    rw [hread, Entry.text_eq]
    simp [text, plain, Function.comp_def]
  rw [codeWord, (hsettled.readFields 2).1 1 (by decide), htext, wordAt_words, words_append_blank (by rfl),
    words_of_isWord hword, words_of_isWord e.isWord_text]
  rfl

theorem evalCode_piece (mode : Mode) (e : Entry) (w : World) :
    evalCode w.file (pieceCode mode.command e.iface e.profile) = (w.apply (mode.op e)).file := by
  rw [evalCode, codeWord_zero, codeWord_one]
  cases mode with
  | up => exact if_pos rfl
  | down => exact (if_neg (by decide)).trans (if_pos rfl)

theorem foldl_listing (codes : List Text) (file : Option Text) :
    codes.foldl evalCode file = (codes.filter listing).foldl evalCode file := by
  induction codes generalizing file with
  | nil => rfl
  | cons code codes ih =>
    rw [List.foldl_cons, ih]
    by_cases h : listing code = true
    · rw [List.filter_cons_of_pos h, List.foldl_cons]
    · obtain ⟨hreg, hunreg⟩ := not_or.1 fun hor => h (decide_eq_true hor)
      rw [List.filter_cons_of_neg h, evalCode, if_neg hreg, if_neg hunreg]

/-- Each action is run once. -/
theorem executed_perm (mode : Mode) (es : List Event) :
    (executed (readConfig mode es)).Perm ((actions mode 0 0 es).map Action.code) := by
  rw [executed_eq, (readConfig_eq mode es).1]
  refine ((ids_perm mode _).map _).trans (List.Perm.of_eq ?_)
  refine List.ext_getElem (by simp) fun i hi hi' => ?_
  have hlt : i < (actions mode 0 0 es).length := by simpa using hi
  simp [List.getElem?_eq_getElem hlt]

theorem actions_quiet {mode : Mode} {ps : List (Mode × Nat × Nat × Text)}
    (h : ∀ p ∈ ps, codeWord 0 p.2.2.2 ≠ registerName ∧ codeWord 0 p.2.2.2 ≠ unregisterName) (l i : Nat)
    (es : List Event) :
    ((actions mode l i (ps.map (fun p => .addcode p.1 p.2.1 p.2.2.1 p.2.2.2) ++ es)).map Action.code).filter listing =
      ((actions mode l i es).map Action.code).filter listing := by
  induction ps with
  | nil => rfl
  | cons p ps ih =>
    obtain ⟨hp, hps⟩ := List.forall_mem_cons.1 h
    have hno : ¬ listing p.2.2.2 = true := by simpa [listing] using hp
    rw [List.map_cons, List.cons_append, actions]
    split
    · rw [List.map_cons, List.filter_cons_of_neg hno, ih hps]
    · exact ih hps

section
variable (N : Network) (profile interface : Text) (mode : Mode)

theorem listing_piece (p : Text × Text) : listing (pieceCode mode.command p.1 p.2) = true := by
  rw [listing, codeWord_zero]
  cases mode <;> decide

/-- A section that is taken adds one piece for each mode; behind it nothing is ignored. -/
theorem actions_interface (r : Reading) (n l i : Nat) {s : Statement} (hs : isInterface s = true) (es : List Event) :
    ((actions mode l i (lineEvents N profile interface r n (some s) ++ es)).map Action.code).filter listing =
      (found profile interface r s).toList.map (fun p => pieceCode mode.command p.1 p.2) ++
        ((actions mode l (nextReading profile interface r (some s)).ignore es).map Action.code).filter listing := by
  rw [lineEvents, if_pos hs, nextReading, if_pos hs]
  cases found profile interface r s with
  | none => rfl
  | some p =>
    have hpiece := listing_piece mode p
    cases mode with
    | up =>
      simp only [Mode.command] at hpiece ⊢
      simp [actions, hpiece]
    | down =>
      simp only [Mode.command] at hpiece ⊢
      simp [actions, hpiece]

/-- Any other statement adds nothing for the list, and what is ignored stays so. -/
theorem actions_other (r : Reading) (n l : Nat) {s : Statement} (hs : ¬ isInterface s = true) (es : List Event) :
    ((actions mode l r.ignore (lineEvents N profile interface r n (some s) ++ es)).map Action.code).filter listing =
      ((actions mode l (nextReading profile interface r (some s)).ignore es).map Action.code).filter listing := by
  have hkeep : (nextReading profile interface r (some s)).ignore = r.ignore := by
    rw [nextReading, if_neg hs]
    split <;> rfl
  rw [lineEvents, if_neg hs, hkeep]
  split
  · exact actions_quiet (N.quiet profile interface n) l r.ignore es
  · rfl

/-- Of what is added, one piece is for the list for each section that is taken. -/
theorem actions_events (r : Reading) (n l : Nat) (ls : List (Option Statement)) :
    ((actions mode l r.ignore (events N profile interface r n ls)).map Action.code).filter listing =
      (chosen profile interface r ls).map fun p => pieceCode mode.command p.1 p.2 := by
  induction ls generalizing r n l with
  | nil => rfl
  | cons s ls ih =>
    rw [events, actions, chosen]
    cases s with
    | none => exact ih r (n + 1) (l + 1)
    | some s =>
      by_cases hs : isInterface s = true
      · have hfilter : (some s).filter isInterface = some s := by rw [Option.filter_some, if_pos hs]
        rw [actions_interface N profile interface mode r n (l + 1) r.ignore hs, ih, hfilter, Option.toList_some,
          List.flatMap_singleton, List.map_append]
      · have hfilter : (some s).filter isInterface = none := by rw [Option.filter_some, if_neg hs]
        rw [actions_other N profile interface mode r n (l + 1) hs, ih, hfilter]
        rfl

/-- The list after a run. -/
theorem rocknet_eq (file : Option Text) :
    ∃ codes : List Text,
      codes.Perm ((chosen profile interface .first N.lines).map fun p => pieceCode mode.command p.1 p.2) ∧
      rocknet N profile interface mode file = codes.foldl evalCode file := by
  refine ⟨_, ?_, foldl_listing _ file⟩
  rw [← actions_events N profile interface mode .first 1 0]
  exact (executed_perm mode _).filter listing

end

theorem Entry.pair_inj {e f : Entry} (h : (e.iface, e.profile) = (f.iface, f.profile)) : e = f := by
  obtain ⟨iface, profile, _⟩ := e
  obtain ⟨iface', profile', _⟩ := f
  obtain ⟨rfl, rfl⟩ := Prod.mk.inj h
  rfl

theorem registers {w : World} (hw : w.Ok) (es : List Entry) :
    ∃ w' : World, w'.Ok ∧ w'.active = w.active ++ es ∧
      (es.map fun e => pieceCode Mode.up.command e.iface e.profile).foldl evalCode w.file = w'.file := by
  induction es generalizing w with
  | nil => exact ⟨w, hw, (List.append_nil _).symm, rfl⟩
  | cons e es ih =>
    obtain ⟨w', hok, hactive, hfile⟩ := ih hw.register (w := w.apply (.register e))
    refine ⟨w', hok, ?_, ?_⟩
    · rw [hactive]
      exact List.append_assoc w.active [e] es
    · rw [List.map_cons, List.foldl_cons, evalCode_piece]
      exact hfile

section
variable {N : Network} {ss : List Sect} (hN : Regular N ss)
include hN

theorem rocknet_one {s : Sect} (hs : s ∈ ss) (mode : Mode) (w : World) :
    rocknet N s.entry.profile s.entry.iface mode w.file = (w.apply (mode.op s.entry)).file := by
  obtain ⟨codes, hperm, hrun⟩ := rocknet_eq N s.entry.profile s.entry.iface mode w.file
  rw [chosen_regular hN hs, List.map_singleton, List.perm_singleton] at hperm
  rw [hrun, hperm]
  exact evalCode_piece mode s.entry w

/-- An automatic run adds its sections, in some order. -/
theorem rocknet_auto (profile : Text) {w : World} (hw : w.Ok) :
    ∃ w' : World, ∃ es, w'.Ok ∧ rocknet N profile autoName .up w.file = w'.file ∧ w'.active = w.active ++ es ∧
      es.Nodup ∧ (∀ e, e ∈ es ↔ e ∈ N.automatic profile) ∧ ∀ e ∈ es, ∃ s ∈ ss, s.entry = e := by
  obtain ⟨fs, hchosen, hnodup, hsect⟩ := chosen_auto hN profile
  obtain ⟨codes, hperm, hrun⟩ := rocknet_eq N profile autoName .up w.file
  rw [hchosen, List.map_map] at hperm
  obtain ⟨es, rfl, hes⟩ : ∃ es : List Entry,
      codes = es.map (fun e => pieceCode Mode.up.command e.iface e.profile) ∧ es.Perm fs :=
    (congrFun₂ (List.eq_map_comp_perm fun e : Entry => pieceCode Mode.up.command e.iface e.profile) codes fs).mpr hperm
  obtain ⟨w', hok, hactive, hfile⟩ := registers hw es
  refine ⟨w', es, hok, hrun.trans hfile, hactive, hes.nodup_iff.2 hnodup, fun e => ?_,
    fun e he => hsect e (hes.mem_iff.1 he)⟩
  rw [hes.mem_iff, Network.automatic, Set.mem_ofPred_eq, hchosen, List.mem_map]
  constructor
  · exact fun he => ⟨e, he, rfl⟩
  · rintro ⟨f, hf, heq⟩
    obtain rfl := Entry.pair_inj heq
    exact hf

end

/-! ## What the commands do -/

/-- The list is right, and has sections only, each once. -/
structure Follows (ss : List Sect) (w : World) : Prop where
  ok : w.Ok
  nodup : w.active.Nodup
  sections : ∀ e ∈ w.active, ∃ s ∈ ss, s.entry = e

theorem follows_start (ss : List Sect) : Follows ss start where
  ok := rfl
  nodup := List.nodup_nil
  sections _ he := absurd he List.not_mem_nil

theorem follows_empty {ss : List Sect} {w : World} (hok : w.Ok) (hactive : w.active = []) : Follows ss w where
  ok := hok
  nodup := by rw [hactive]; exact List.nodup_nil
  sections e he := by rw [hactive] at he; exact absurd he List.not_mem_nil

section
variable {N : Network} {ss : List Sect} (hN : Regular N ss) {w : World} (hw : Follows ss w)
include hN hw

/-- What is taken out takes nothing with it, and what is found is there. -/
theorem Follows.fair {s : Sect} (hs : s ∈ ss) : Fair w (.unregister s.entry) ∧ Fair w (.check s.entry) := by
  have hends : ∀ f ∈ w.active, s.entry.Ends f → f = s.entry := by
    intro f hf hends
    obtain ⟨t, ht, rfl⟩ := hw.sections f hf
    exact (hN.ends s hs t ht hends).symm
  refine ⟨hends, ?_⟩
  by_cases he : s.entry ∈ w.active
  · exact .inl he
  · refine .inr fun f hf hfends => he ?_
    rwa [← hends f hf hfends]

/-- `ifup` adds an entry that is not listed, and leaves the list as it is for one that is. -/
theorem ifAction_up {s : Sect} (hs : s ∈ ss) :
    ∃ w', Follows ss w' ∧ (ifAction N .up s.entry.iface s.entry.profile w.file).1 = w'.file ∧
      ∀ e, e ∈ w'.active ↔ e = s.entry ∨ e ∈ w.active := by
  have hrefused := (refused_iff hw.ok (hw.fair hN hs).2).1
  by_cases he : s.entry ∈ w.active
  · refine ⟨w, hw, ?_, fun e => ?_⟩
    · exact congrArg Prod.fst (if_pos (hrefused.2 he))
    · exact (or_iff_right_of_imp fun heq => heq ▸ he).symm
  · refine ⟨w.apply (.register s.entry), ⟨hw.ok.register, ?_, ?_⟩, ?_, fun e => ?_⟩
    · exact List.nodup_append.2 ⟨hw.nodup, List.nodup_singleton _, fun a ha b hb heq =>
        he (by rwa [← List.mem_singleton.1 hb, ← heq])⟩
    · intro e hmem
      rcases List.mem_append.1 hmem with hmem | hmem
      · exact hw.sections e hmem
      · exact ⟨s, hs, (List.mem_singleton.1 hmem).symm⟩
    · exact (congrArg Prod.fst (if_neg fun h => he (hrefused.1 h))).trans (rocknet_one hN hs .up w)
    · exact List.mem_append.trans (or_comm.trans (or_congr_left List.mem_singleton))

/-- `ifdown` takes out an entry that is listed; for one that is not it fails. -/
theorem ifAction_down {s : Sect} (hs : s ∈ ss) :
    ∃ w', Follows ss w' ∧
      ifAction N .down s.entry.iface s.entry.profile w.file = (w'.file, decide (s.entry ∈ w.active)) ∧
      w'.active = w.active.filter (· ≠ s.entry) := by
  have hrefused := (refused_iff hw.ok (hw.fair hN hs).2).2
  by_cases he : s.entry ∈ w.active
  · refine ⟨w.apply (.unregister s.entry), ⟨hw.ok.apply (hw.fair hN hs).1, hw.nodup.filter _, ?_⟩, ?_, rfl⟩
    · exact fun e hmem => hw.sections e (List.mem_filter.1 hmem).1
    · rw [ifAction, decide_eq_true he]
      exact (if_neg fun h => hrefused.1 h he).trans (congrArg (·, true) (rocknet_one hN hs .down w))
  · refine ⟨w, hw, ?_, ?_⟩
    · rw [ifAction, decide_eq_false he]
      exact if_pos (hrefused.2 he)
    · refine (List.filter_eq_self.2 fun e hmem => ?_).symm
      simpa using fun heq : e = s.entry => he (heq ▸ hmem)

/-- The loop takes down all that is listed. -/
theorem takeDown_all {es : List Entry} (hes : w.active = es) :
    ∃ w' : World, w'.Ok ∧ takeDown N (es.map Entry.text) w.file = (w'.file, true) ∧ w'.active = [] := by
  induction es generalizing w with
  | nil => exact ⟨w, hw.ok, rfl, hes⟩
  | cons e es ih =>
    have he : e ∈ w.active := hes ▸ List.mem_cons_self
    obtain ⟨s, hs, rfl⟩ := hw.sections e he
    obtain ⟨w', hw', hdown, hactive⟩ := ifAction_down hN hw hs
    have hnodup := hw.nodup
    rw [hes] at hnodup
    have hrest : w'.active = es := by
      rw [hactive, hes, List.filter_cons_of_neg (by simp), List.filter_eq_self]
      intro f hf
      simpa using fun heq : f = s.entry => (List.nodup_cons.1 hnodup).1 (heq ▸ hf)
    obtain ⟨w'', hok, hloop, hempty⟩ := ih hw' hrest
    refine ⟨w'', hok, ?_, hempty⟩
    rw [List.map_cons, takeDown, Entry.ifaceOf_text, Entry.profileOf_text, hdown, decide_eq_true he]
    exact hloop

end

/-- The words of the list, with a blank for each comma. -/
theorem words_listed {w : World} (hw : w.Ok) :
    words (replaceAll [','] [' '] (content w.file)) = w.active.map Entry.text := by
  have hflat : replaceAll [','] [' '] (entries w.active) = w.active.flatMap fun e => e.text ++ [' '] := by
    rw [replaceAll_char (by decide), entries, List.flatMap_assoc]
    refine List.flatMap_congr fun e _ => ?_
    rw [List.flatMap_append]
    refine congrArg₂ (· ++ ·) ?_ rfl
    refine (List.flatMap_congr fun c hc => if_neg fun heq : c = ',' => e.comma (heq ▸ hc)).trans ?_
    exact List.flatMap_singleton' _
  have hwords : ∀ t ∈ w.active.map Entry.text, IsWord t := by
    intro t ht
    obtain ⟨e, -, rfl⟩ := List.mem_map.1 ht
    exact e.isWord_text
  have hback := words_flatMap_append hwords
  rw [List.flatMap_map] at hback
  rw [hw.content_eq, hflat, hback]

section
variable {N : Network} {ss : List Sect} (hN : Regular N ss) {w : World} (hw : Follows ss w)
include hN hw

theorem ifswitch_eq (thenUp : Option Text → Option Text × Bool) :
    ∃ w' : World, w'.Ok ∧ w'.active = [] ∧ ifswitch N thenUp w.file = thenUp w'.file := by
  obtain ⟨w', hok, hloop, hempty⟩ := takeDown_all hN hw rfl
  refine ⟨w', hok, hempty, ?_⟩
  rw [ifswitch, words_listed hw.ok, hloop]

/-- **One command.** -/
theorem perform_follows {c : Command} (hc : c.Names ss) :
    ∃ w', Follows ss w' ∧ (N.perform w.file c).1 = w'.file ∧
      ∀ e, e ∈ w'.active ↔ e ∈ N.after {e | e ∈ w.active} c := by
  cases c with
  | up e =>
    obtain ⟨s, hs, rfl⟩ := hc
    exact ifAction_up hN hw hs
  | down e =>
    obtain ⟨s, hs, rfl⟩ := hc
    obtain ⟨w', hw', hdown, hactive⟩ := ifAction_down hN hw hs
    refine ⟨w', hw', congrArg Prod.fst hdown, fun e => ?_⟩
    rw [hactive, List.mem_filter, decide_eq_true_iff]
    rfl
  | switch profile =>
    obtain ⟨w', hok, hempty, hswitch⟩ := ifswitch_eq hN hw fun file => (rocknet N profile autoName .up file, true)
    obtain ⟨w'', es, hok', hrun, hactive, hnodup, hmem, hsect⟩ := rocknet_auto hN profile hok
    rw [hempty, List.nil_append] at hactive
    refine ⟨w'', ⟨hok', hactive ▸ hnodup, hactive ▸ hsect⟩, ?_, hactive ▸ hmem⟩
    rw [Network.perform, hswitch, hrun]
  | switchTo e =>
    obtain ⟨s, hs, rfl⟩ := hc
    obtain ⟨w', hok, hempty, hswitch⟩ := ifswitch_eq hN hw (ifAction N .up s.entry.iface s.entry.profile)
    obtain ⟨w'', hw'', hup, hactive⟩ := ifAction_up hN (follows_empty hok hempty) hs
    refine ⟨w'', hw'', ?_, fun e => ?_⟩
    · rw [Network.perform, hswitch, hup]
    · rw [hactive, hempty]
      simp [Network.after]

theorem switch_ends (profile : Text) : (N.perform w.file (.switch profile)).2 = true := by
  obtain ⟨w', -, -, hswitch⟩ := ifswitch_eq hN hw fun file => (rocknet N profile autoName .up file, true)
  rw [Network.perform, hswitch]

end

/-! ## All commands -/

/-- What is listed is what is up, and stays so. -/
theorem performAll_follows {N : Network} {ss : List Sect} (hN : Regular N ss) {cmds : List Command}
    (hcmds : ∀ c ∈ cmds, c.Names ss) {w : World} (hw : Follows ss w) :
    ∃ w', Follows ss w' ∧ N.performAll w.file cmds = w'.file ∧
      ∀ e, e ∈ w'.active ↔ e ∈ cmds.foldl N.after {e | e ∈ w.active} := by
  induction cmds generalizing w with
  | nil => exact ⟨w, hw, rfl, fun e => Iff.rfl⟩
  | cons c cmds ih =>
    obtain ⟨hc, hcmds⟩ := List.forall_mem_cons.1 hcmds
    obtain ⟨w', hw', hfile, hmem⟩ := perform_follows hN hw hc
    obtain ⟨w'', hw'', hfile', hmem'⟩ := ih hcmds hw'
    have hset : {e | e ∈ w'.active} = N.after {e | e ∈ w.active} c := Set.ext hmem
    refine ⟨w'', hw'', ?_, ?_⟩
    · rw [Network.performAll, List.foldl_cons, hfile]
      exact hfile'
    · rw [List.foldl_cons, ← hset]
      exact hmem'

def lanSect : Sect :=
  ⟨⟨"lan".toList, "default".toList, by decide⟩, true, by decide, by decide, by decide, by decide⟩

def wlanSect : Sect := ⟨wlan, false, by decide, by decide, by decide, by decide⟩

/-- The address of `lan` is set by line 3. -/
def addressLine (_profile _interface : Text) (n : Nat) : List (Mode × Nat × Nat × Text) :=
  if n = 3 then [(.up, 5, 5, "ip addr add 10.0.0.1 dev lan".toList)] else []

theorem address_quiet (profile interface : Text) (n : Nat) : ∀ p ∈ addressLine profile interface n,
    codeWord 0 p.2.2.2 ≠ registerName ∧ codeWord 0 p.2.2.2 ≠ unregisterName := by
  intro p hp
  rw [addressLine] at hp
  split at hp
  · rw [List.mem_singleton.1 hp]
    exact ⟨by decide, by decide⟩
  · exact absurd hp List.not_mem_nil

def homeNetwork : Network :=
  ⟨["auto wlan(home)".toList, "interface lan # the wire".toList, "\tip 10.0.0.1".toList,
    "interface wlan(home)".toList], addressLine, address_quiet⟩

theorem home_regular : Regular homeNetwork [lanSect, wlanSect] where
  args := by decide +kernel
  apart := by
    refine List.pairwise_cons.2 ⟨fun t ht h => ?_, List.pairwise_singleton _ _⟩
    rw [List.mem_singleton.1 ht] at h
    exact absurd h (by decide)
  ends := by
    intro s hs t ht hends
    simp only [List.mem_cons, List.not_mem_nil, or_false] at hs ht
    rcases hs with rfl | rfl <;> rcases ht with rfl | rfl
    · rfl
    · exact absurd hends.2 (by decide)
    · exact absurd hends.2 (by decide)
    · rfl

def homeCommands : List Command := [.up lanSect.entry, .up lanSect.entry, .switch "home".toList, .down wlanSect.entry]

theorem home_named : ∀ c ∈ homeCommands, c.Names [lanSect, wlanSect] := by
  have hlan : ∃ s ∈ [lanSect, wlanSect], s.entry = lanSect.entry := ⟨_, List.mem_cons_self, rfl⟩
  have hwlan : ∃ s ∈ [lanSect, wlanSect], s.entry = wlanSect.entry :=
    ⟨_, List.mem_cons_of_mem _ List.mem_cons_self, rfl⟩
  intro c hc
  simp only [homeCommands, List.mem_cons, List.not_mem_nil, or_false] at hc
  rcases hc with rfl | rfl | rfl | rfl
  · exact hlan
  · exact hlan
  · exact ⟨by decide, show ∀ c ∈ "home".toList, nameChar c = true by decide⟩
  · exact hwlan

end T2Sde.Rocknet
