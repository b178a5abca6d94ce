import Mathlib
import T2Sde.Config.Choice
import T2Sde.Config.Set
import T2Sde.Config.Menus
/-!
# A cycle of the configuration (`scripts/Config -oldconfig`)

A cycle sources the old file, runs `scripts/config.in` and writes a new file. What the scripts look at is what they have
set themselves, and what the old file says of the options to come: a second cycle can give another file than the first.

| here | there |
| --- | --- |
| `Script`         | the calls, assignments and tests of `config.in` and of what it sources |
| `Script.run`     | `. scripts/config.in` :227 |
| `starts`         | `export SDECFG_…`, `. config`, `expert=0`, `SDECFG_ID` :190, :204, :210, :227 |
| `cycleFrom`, `cycle` | :204-228, with `-oldconfig` |

* `value_idem` — an option that is given the value it got last time gets it again.
* `lockstep` — two runs that agree on what is known write the same lines.
* `cycle_settles` — **a cycle that changes nothing the scripts look at too early is the last one to change the file**.
* `option_takes` — **a new value of an option is taken, and changes nothing before it**.
-/
namespace T2Sde.Config
open Shell

/-! ## Scripts -/

/-- What is done with an option; `bool` and `text` are `set_data` and a line of the dialog. -/
inductive How
  | const (value : Text)
  | setData (default : Text)
  | choice (default : Text) (choices : List (Text × Text))

def How.call (name : Text) : How → Call
  | .const v => .const name v
  | .setData default => .setData name default
  | .choice default choices => .choice name default choices

/-- A script, along the tests that it makes. -/
inductive Script
  | done
  | option (name : Text) (how : (Text → Text) → How) (rest : Script)
  | assign (name : Text) (value : (Text → Text) → Text) (rest : Script)
  | test (cond : (Text → Text) → Bool) (yes no : Script)

namespace Script

/-- What comes behind an `if` comes behind each of its branches. -/
def append : Script → Script → Script
  | done, q => q
  | option name how rest, q => option name how (rest.append q)
  | assign name value rest, q => assign name value (rest.append q)
  | test cond yes no, q => test cond (yes.append q) (no.append q)

/-- `expert_begin` -/
def expertBegin (rest : Script) : Script := assign "expert".toList (fun v => Menus.arith (v "exprt".toList) 1) rest

/-- `expert_end` -/
def expertEnd (rest : Script) : Script := assign "expert".toList (fun v => Menus.arith (v "exprt".toList) (-1)) rest

def run : Script → Session → Session
  | done, w => w
  | option name how rest, w => rest.run (w.call paramDefault ((how w.vars).call name))
  | assign name value rest, w => rest.run { w with vars := upd w.vars name (value w.vars) }
  | test cond yes no, w => if cond w.vars then yes.run w else no.run w

/-- The lines that are written, as names and values. -/
def entries : Script → Session → List (Text × Text)
  | done, _ => []
  | option name how rest, w =>
    let w' := w.call paramDefault ((how w.vars).call name)
    (name, w'.vars name) :: rest.entries w'
  | assign name value rest, w => rest.entries { w with vars := upd w.vars name (value w.vars) }
  | test cond yes no, w => if cond w.vars then yes.entries w else no.entries w

/-- The options of a script, whatever the tests say. -/
def options : Script → List Text
  | done => []
  | option name _ rest => name :: rest.options
  | assign _ _ rest => rest.options
  | test _ yes no => yes.options ++ no.options

def assigned : Script → List Text
  | done => []
  | option _ _ rest => rest.assigned
  | assign name _ rest => name :: rest.assigned
  | test _ yes no => yes.assigned ++ no.assigned

end Script

/-! ## A cycle -/

/-- What a cycle is given: the version, the variables of its environment and the scripts. -/
structure Setup where
  sdever : Text
  env : Text → Text
  script : Script

/-- The variables with which `config.in` begins, when the old file has left these. -/
def Setup.begun (u : Setup) (vars : Text → Text) : Text → Text :=
  upd (upd vars "expert".toList ['0']) "SDECFG_ID".toList u.sdever

/-- The variables behind `. config/$config/config`. -/
def Setup.starts (u : Setup) (file : Text) : Option (Text → Text) :=
  (source file ⟨fun y => some (u.env y), fun _ => true⟩).map fun s y => (s.vars y).getD []

/-- `echo -e "#\n# T2 $sdever Config File\n#"` -/
def Setup.header (u : Setup) : Text := "#\n# T2 ".toList ++ u.sdever ++ " Config File\n#\n".toList

/-- The new file, from the variables of the old one. -/
def Setup.cycleFrom (u : Setup) (vars : Text → Text) : Text :=
  let w := u.script.run ⟨u.begun vars, u.header⟩
  w.config ++ exportLine "SDECFG_ID".toList (w.vars "SDECFG_ID".toList)

def Setup.cycle (u : Setup) (file : Text) : Option Text := (u.starts file).map u.cycleFrom

/-! ## What may be looked at -/

/-- No option, an option that the old and the new file agree on, or one that has been set in this run. -/
def Known (kept set : List Text) (y : Text) : Prop := ¬ IsKey y ∨ y ∈ kept ∨ y ∈ set

/-- It looks at nothing else. -/
def Reads {α : Type} (f : (Text → Text) → α) (known : Text → Prop) : Prop :=
  ∀ v v', (∀ y, known y → v y = v' y) → f v = f v'

/-- The defaults are words that the shell takes as they are, and there is something to choose. -/
def How.Fine : How → Prop
  | .const _ => True
  | .setData default => Harmless default
  | .choice _ choices => choices ≠ [] ∧ ∀ c ∈ choices, c.1 ≠ [] ∧ Harmless c.1

instance decidableFine : (h : How) → Decidable h.Fine
  | .const _ => inferInstanceAs (Decidable True)
  | .setData default => inferInstanceAs (Decidable (Harmless default))
  | .choice _ _ => inferInstanceAs (Decidable (_ ∧ _))

/-- Along this run, only what is known is looked at, and an option that is not is set once. -/
def Script.Ordered (kept : List Text) : List Text → Session → Script → Prop
  | _, _, .done => True
  | set, w, .option name how rest =>
    IsKey name ∧ Known kept set "SDECFG_EXPERT".toList ∧ Reads how (Known kept set) ∧ (how w.vars).Fine ∧
      (Known kept set name ∨ name ∉ rest.options) ∧
      rest.Ordered kept (name :: set) (w.call paramDefault ((how w.vars).call name))
  | set, w, .assign name value rest =>
    Reads value (Known kept set) ∧
      rest.Ordered kept (name :: set) { w with vars := upd w.vars name (value w.vars) }
  | set, w, .test cond yes no =>
    Reads cond (Known kept set) ∧ if cond w.vars then yes.Ordered kept set w else no.Ordered kept set w

/-! ## The value of an option -/

/-- What the variable gets, from its own value and the one that is forced on it. -/
def How.value (asked : Bool) (forced own : Text) : How → Text
  | .const v => v
  | .setData default => if forced ≠ [] then forced else if asked ∧ own ≠ [] then own else default
  | .choice default choices => if forced ≠ [] then forced else chosen asked own default choices

theorem chosen_idem {choices : List (Text × Text)} (asked : Bool) (own default : Text) (hne : choices ≠ []) :
    chosen asked (chosen asked own default choices) default choices = chosen asked own default choices := by
  have hlisted := chosen_listed asked own default hne
  cases asked with
  | false => simp [chosen]
  | true =>
    obtain ⟨x, hx⟩ : ∃ x, x = chosen true own default choices := ⟨_, rfl⟩
    rw [← hx] at hlisted ⊢
    rw [chosen, if_pos ⟨rfl, hlisted⟩]

/-- **An option keeps what it got.** -/
theorem value_idem {h : How} (hfine : h.Fine) (asked : Bool) (forced own : Text) :
    h.value asked forced (h.value asked forced own) = h.value asked forced own := by
  cases h with
  | const v => rfl
  | setData default =>
    simp only [How.value]
    split
    · rfl
    · by_cases ho : asked = true ∧ own ≠ []
      · simp only [if_pos ho]
      · simp only [if_neg ho]
        exact ite_self _
  | choice default choices =>
    simp only [How.value]
    split
    · rfl
    · exact chosen_idem asked own default hfine.1

section
variable {name : Text} (hn : IsKey name)
include hn

/-- `set_data` behind the variables that hide others. -/
theorem setData_vars (w : Session) (default : Text) :
    (setData paramDefault w name default).vars name =
      setValue paramDefault (upd (upd w.vars ['q'] ['\'']) "set_name".toList (forcing name)) name default name := by
  have hs : name ≠ "set_name".toList := hn.ne (by decide)
  have hq : name ≠ ['q'] := hn.ne (by decide)
  have hi : name ≠ "item".toList := hn.ne (by decide)
  have hl : name ∉ [['q'], "set_name".toList] := by simpa using ⟨hq, hs⟩
  simp only [setData, leave, if_neg hl, upd_ne _ _ _ _ hi]
  rfl

theorem setData_forced (w : Session) (default : Text) (hset : w.vars (forcing name) ≠ []) :
    (setData paramDefault w name default).vars name = w.vars (forcing name) := by
  have hm : name ≠ "menumode".toList := hn.ne (by decide)
  have hforced : (upd (upd w.vars ['q'] ['\'']) "set_name".toList (forcing name)) (forcing name) =
      w.vars (forcing name) := by
    rw [upd_ne _ _ _ _ (forcing_ne (by decide)), upd_ne _ _ _ _ (forcing_ne (by decide))]
  rw [setData_vars hn, setValue, upd_same, hforced, if_pos hset]
  simp only [upd_ne _ _ _ _ hm, upd_same]

theorem call_value (w : Session) {h : How} (hfine : h.Fine) :
    (w.call paramDefault (h.call name)).vars name = h.value (asked w.vars) (w.vars (forcing name)) (w.vars name) := by
  cases h with
  | const v => exact const_value hn w v
  | setData default =>
    by_cases hset : w.vars (forcing name) = []
    · simp only [How.value, hset, ne_eq, not_true_eq_false, if_false]
      exact setData_free hn w.vars w.config hset hfine
    · rw [How.value, if_pos hset]
      exact setData_forced hn w default hset
  | choice default choices =>
    by_cases hset : w.vars (forcing name) = []
    · simp only [How.value, hset, ne_eq, not_true_eq_false, if_false]
      exact choice_vars hn w default hfine.1 hfine.2 hset
    · have hd : name ≠ "defval".toList := hn.ne (by decide)
      have hl : name ∉ ["defval".toList] := by simpa using hd
      have hkeep : unlisted w.vars name default choices (forcing name) = w.vars (forcing name) :=
        unlisted_same _ _ _ (forcing_ne (by decide)) (.inl (forcing_ne hn.not_forcing)) hd
      rw [How.value, if_pos hset]
      simp only [How.call, Session.call, choice, leave, if_neg hl]
      exact (setData_forced hn ⟨unlisted w.vars name default choices, w.config⟩ _ (hkeep.trans_ne hset)).trans hkeep

end

/-! ## Two runs that agree -/

theorem upd_congr {v v' : Text → Text} {x y : Text} (a : Text) (h : y ≠ x → v y = v' y) :
    upd v x a y = upd v' x a y := by
  by_cases hy : y = x
  · rw [hy, upd_same, upd_same]
  · rw [upd_ne _ _ _ _ hy, upd_ne _ _ _ _ hy, h hy]

section
variable {name : Text} (hn : IsKey name) {v v' : Text → Text} (hv : ∀ y, ¬ IsKey y → v y = v' y)
include hn hv

/-- **A call that gives the option the same value** does the same with all that is no option. -/
theorem setValue_agree {default : Text} (hset : v "set_name".toList = forcing name)
    (hexpert : v "SDECFG_EXPERT".toList = v' "SDECFG_EXPERT".toList)
    (hname : setValue paramDefault v name default name = setValue paramDefault v' name default name) {y : Text}
    (hy : ¬ IsKey y) : setValue paramDefault v name default y = setValue paramDefault v' name default y := by
  have hm : name ≠ "menumode".toList := hn.ne (by decide)
  have hset' : v' "set_name".toList = forcing name := (hv _ (by decide)).symm.trans hset
  have hforced : v' (forcing name) = v (forcing name) := (hv _ fun h => h.not_forcing (List.prefix_append _ _)).symm
  have hasked : asked v' = asked v := (asked_congr hexpert (hv _ (by decide))).symm
  unfold setValue at hname ⊢
  rw [hset, hset', hforced, hasked] at hname ⊢
  by_cases hf : v (forcing name) ≠ []
  · simp only [if_pos hf, upd_same]
    have hboth : asked (upd (upd v "data".toList (v (forcing name))) name (v (forcing name))) =
        asked (upd (upd v' "data".toList (v (forcing name))) name (v (forcing name))) :=
      asked_congr (upd_congr _ fun _ => upd_congr _ fun _ => hexpert)
        (upd_congr _ fun _ => upd_congr _ fun _ => hv _ (by decide))
    rw [hboth]
    exact upd_congr _ fun _ => upd_congr _ fun _ => upd_congr _ fun _ => hv y hy
  · simp only [if_neg hf] at hname ⊢
    by_cases ha : asked v = true
    · simp only [if_pos ha, upd_ne _ _ _ _ hm, upd_same] at hname ⊢
      rw [hname]
      exact upd_congr _ fun _ => upd_congr _ fun _ => upd_congr _ fun _ => hv y hy
    · simp only [if_neg ha, upd_same]
      exact upd_congr _ fun _ => upd_congr _ fun _ => upd_congr _ fun _ => hv y hy

theorem setData_agree {config config' default : Text}
    (hexpert : v "SDECFG_EXPERT".toList = v' "SDECFG_EXPERT".toList)
    (hname : (setData paramDefault ⟨v, config⟩ name default).vars name =
      (setData paramDefault ⟨v', config'⟩ name default).vars name) {y : Text} (hy : ¬ IsKey y) :
    (setData paramDefault ⟨v, config⟩ name default).vars y =
      (setData paramDefault ⟨v', config'⟩ name default).vars y := by
  rw [setData_vars hn, setData_vars hn] at hname
  have hown : ∀ z, (z ≠ "set_name".toList → z ≠ ['q'] → v z = v' z) →
      upd (upd v ['q'] ['\'']) "set_name".toList (forcing name) z =
        upd (upd v' ['q'] ['\'']) "set_name".toList (forcing name) z :=
    fun z hz => upd_congr _ fun h => upd_congr _ fun h' => hz h h'
  simp only [setData, leave]
  split
  · exact hv y hy
  · refine upd_congr _ fun _ => setValue_agree hn (fun z hz => hown z fun _ _ => hv z hz) (upd_same _ _ _)
      (hown _ fun _ _ => hexpert) hname hy

omit hv in
/-- What `choice` takes away before it, it takes from both. -/
theorem unlisted_agree {default : Text} {choices : List (Text × Text)} {y : Text} (hy : v y = v' y)
    (hdef : y ≠ "defval".toList) (hname : y = name → v name = v' name) :
    unlisted v name default choices y = unlisted v' name default choices y := by
  have hd : name ≠ "defval".toList := hn.ne (by decide)
  by_cases heq : y = name
  · rw [heq, unlisted_name hn, unlisted_name hn, hname heq]
  · rw [unlisted_same v default choices hdef (.inl heq) hd, unlisted_same v' default choices hdef (.inl heq) hd, hy]

theorem call_agree {config config' : Text} (h : How) (hexpert : v "SDECFG_EXPERT".toList = v' "SDECFG_EXPERT".toList)
    (hname : (Session.call paramDefault ⟨v, config⟩ (h.call name)).vars name =
      (Session.call paramDefault ⟨v', config'⟩ (h.call name)).vars name) {y : Text} (hy : ¬ IsKey y) :
    (Session.call paramDefault ⟨v, config⟩ (h.call name)).vars y =
      (Session.call paramDefault ⟨v', config'⟩ (h.call name)).vars y := by
  cases h with
  | const value =>
    simp only [How.call, Session.call, const, leave]
    split
    · exact hv y hy
    · exact upd_congr _ fun _ => upd_congr _ fun h => upd_congr _ fun h' => hv y hy
  | setData default => exact setData_agree hn hv hexpert hname hy
  | choice default choices =>
    have hd : name ∉ ["defval".toList] := by simpa using hn.ne (x := "defval".toList) (by decide)
    have hdefval :
        unlisted v name default choices "defval".toList = unlisted v' name default choices "defval".toList := by
      rw [unlisted_defval hn, unlisted_defval hn]
    have hrest : ∀ z, ¬ IsKey z → unlisted v name default choices z = unlisted v' name default choices z := by
      intro z hz
      by_cases hzd : z = "defval".toList
      · rw [hzd, hdefval]
      · exact unlisted_agree hn (hv z hz) hzd fun h => absurd (h ▸ hn) hz
    simp only [How.call, Session.call, choice, leave, if_neg hd, hdefval] at hname ⊢
    split
    · exact hv y hy
    · refine setData_agree hn hrest ?_ hname hy
      refine unlisted_agree hn hexpert (by decide) fun h => ?_
      rw [← h, hexpert]

end

/-! ## The lines -/

/-- The line of a call. -/
theorem call_config {name : Text} (hn : IsKey name) (w : Session) (h : How) :
    (w.call paramDefault (h.call name)).config =
      w.config ++ exportLine name (escape ((w.call paramDefault (h.call name)).vars name)) := by
  cases h with
  | const value =>
    have hv : ['v'] ≠ name := Ne.symm (hn.ne (by decide))
    simp only [How.call, Session.call, const_value hn]
    rw [const, upd_ne _ _ _ _ hv, upd_same, upd_same, requote_eq]
  | setData default => exact setData_config hn paramDefault w default
  | choice default choices =>
    have hd : name ∉ ["defval".toList] := by simpa using hn.ne (x := "defval".toList) (by decide)
    simp only [How.call, Session.call, choice, leave, if_neg hd]
    exact setData_config hn paramDefault _ _

/-- As entries of a configuration. -/
def assigns (es : List (Text × Text)) : List Entry := es.map fun e => .assign e.1 e.2

theorem configText_append (es es' : List Entry) : configText (es ++ es') = configText es ++ configText es' :=
  List.flatMap_append

theorem exportLine_eq (name v : Text) : exportLine name (escape v) = configText [.assign name v] := by
  rw [configText_cons]
  exact (List.append_nil _).symm.trans (body_assign name v []).symm

section
variable {kept set : List Text} {w : Session}

theorem mem_options {p : Script} {w : Session} {e : Text × Text} (h : e ∈ p.entries w) : e.1 ∈ p.options := by
  induction p generalizing w with
  | done => cases h
  | option name how rest ih =>
    rcases List.mem_cons.1 h with rfl | h
    · exact List.mem_cons_self
    · exact List.mem_cons_of_mem name (ih h)
  | assign name value rest ih => exact ih h
  | test cond yes no ihyes ihno =>
    rw [Script.entries] at h
    rw [Script.options, List.mem_append]
    split at h
    · exact .inl (ihyes h)
    · exact .inr (ihno h)

theorem isKey_entries {p : Script} (h : p.Ordered kept set w) : ∀ e ∈ p.entries w, IsKey e.1 := by
  induction p generalizing set w with
  | done => exact fun _ he => nomatch he
  | option name how rest ih =>
    obtain ⟨hn, -, -, -, -, hrest⟩ := h
    exact List.forall_mem_cons.2 ⟨hn, ih hrest⟩
  | assign name value rest ih => exact ih h.2
  | test cond yes no ihyes ihno =>
    obtain ⟨-, h⟩ := h
    rw [Script.entries]
    split at h
    next hc => simpa only [if_pos hc] using ihyes h
    next hc => simpa only [if_neg hc] using ihno h

/-- What a run has written. -/
theorem run_config {p : Script} (h : ∀ e ∈ p.entries w, IsKey e.1) :
    (p.run w).config = w.config ++ configText (assigns (p.entries w)) := by
  induction p generalizing w with
  | done => exact (List.append_nil _).symm
  | option name how rest ih =>
    obtain ⟨hn, hrest⟩ := List.forall_mem_cons.1 h
    rw [Script.run, ih hrest, call_config hn, exportLine_eq, List.append_assoc, ← configText_append]
    rfl
  | assign name value rest ih => exact ih h
  | test cond yes no ihyes ihno =>
    rw [Script.entries] at h
    rw [Script.run, Script.entries]
    split at h
    next hc => simpa only [if_pos hc] using ihyes h
    next hc => simpa only [if_neg hc] using ihno h

/-- A variable without a line. -/
theorem foldl_assigns {es : List (Text × Text)} (s : Variables) {y : Text} (h : ∀ e ∈ es, e.1 ≠ y) :
    ((assigns es).foldl Entry.run s).vars y = s.vars y := by
  induction es generalizing s with
  | nil => rfl
  | cons e es ih =>
    obtain ⟨he, hes⟩ := List.forall_mem_cons.1 h
    exact (ih (s.set e.1 e.2) hes).trans (upd_ne _ _ _ _ he.symm)

theorem known_cons {name y : Text} : Known kept (name :: set) y ↔ y = name ∨ Known kept set y := by
  simp only [Known, List.mem_cons]
  tauto

theorem name_call (h : How) (name : Text) : (h.call name).name = name := by
  cases h <;> rfl

section
variable {name : Text} (hn : IsKey name) {v : Session} {h : How} (hexpert : Known kept set "SDECFG_EXPERT".toList)
  (hsync : ∀ y, Known kept set y → w.vars y = v.vars y)
include hn hexpert hsync

/-- The option has the same value before the call, or in one of the runs the one that the other gives to it. -/
theorem option_value (hfine : h.Fine)
    (hown : w.vars name = v.vars name ∨ v.vars name = (w.call paramDefault (h.call name)).vars name) :
    (w.call paramDefault (h.call name)).vars name = (v.call paramDefault (h.call name)).vars name := by
  have hasked : asked v.vars = asked w.vars :=
    (asked_congr (hsync _ hexpert) (hsync _ (.inl (by decide)))).symm
  have hforced : v.vars (forcing name) = w.vars (forcing name) :=
    (hsync _ (.inl fun h => h.not_forcing (List.prefix_append _ _))).symm
  rw [call_value hn v hfine, hasked, hforced]
  rcases hown with hown | hown
  · rw [call_value hn w hfine, hown]
  · rw [hown, call_value hn w hfine, value_idem hfine]

theorem option_agree (hname : (w.call paramDefault (h.call name)).vars name =
    (v.call paramDefault (h.call name)).vars name) {y : Text} (hy : Known kept (name :: set) y) :
    (w.call paramDefault (h.call name)).vars y = (v.call paramDefault (h.call name)).vars y := by
  by_cases heq : y = name
  · rw [heq, hname]
  · have hk := (known_cons.1 hy).resolve_left heq
    by_cases hkey : IsKey y
    · have hne : y ≠ (h.call name).name := by rwa [name_call]
      rw [call_other _ _ hkey hne, call_other _ _ hkey hne, hsync y hk]
    · exact call_agree hn (fun z hz => hsync z (.inl hz)) h (hsync _ hexpert) hname hkey

end

/-- **Lockstep**: a run that begins with what another one has written writes the same. -/
theorem lockstep {p : Script} (h : p.Ordered kept set w) {v : Session} (s : Variables)
    (hsync : ∀ y, Known kept set y → w.vars y = v.vars y)
    (hpend : ∀ y, ¬ Known kept set y → v.vars y = (((assigns (p.entries w)).foldl Entry.run s).vars y).getD []) :
    p.entries v = p.entries w ∧ ∀ y, Known kept set y → (p.run w).vars y = (p.run v).vars y := by
  induction p generalizing set w v s with
  | done => exact ⟨rfl, hsync⟩
  | option name how rest ih =>
    obtain ⟨hn, hexpert, hreads, hfine, honce, hrest⟩ := h
    have hhow : how v.vars = how w.vars := (hreads _ _ hsync).symm
    have hown : w.vars name = v.vars name ∨
        v.vars name = (w.call paramDefault ((how w.vars).call name)).vars name := by
      by_cases hk : Known kept set name
      · exact .inl (hsync name hk)
      · -- no later line is of this option
        have hlast : ∀ e ∈ rest.entries (w.call paramDefault ((how w.vars).call name)), e.1 ≠ name := by
          rintro e he rfl
          exact honce.resolve_left hk (mem_options he)
        have hfound := hpend name hk
        rw [Script.entries, assigns, List.map_cons, List.foldl_cons, ← assigns, foldl_assigns _ hlast] at hfound
        exact .inr (hfound.trans (congrArg (·.getD []) (upd_same s.vars name _)))
    have hname := option_value hn hexpert hsync hfine hown
    have hstep := ih hrest (s.set name ((w.call paramDefault ((how w.vars).call name)).vars name))
      (fun y hy => option_agree hn hexpert hsync hname hy) (fun y hy => by
        obtain ⟨hne, hk⟩ := not_or.1 (fun h => hy (known_cons.2 h))
        have hkey : IsKey y := not_not.1 fun hkey => hk (.inl hkey)
        rw [call_other _ _ hkey (by rwa [name_call])]
        exact hpend y hk)
    rw [Script.entries, Script.entries, Script.run, Script.run, hhow, hstep.1, hname]
    exact ⟨rfl, fun y hy => hstep.2 y (known_cons.2 (.inr hy))⟩
  | assign name value rest ih =>
    obtain ⟨hreads, hrest⟩ := h
    have hvalue : value v.vars = value w.vars := (hreads _ _ hsync).symm
    have hstep := ih hrest (v := { v with vars := upd v.vars name (value v.vars) }) s (fun y hy => by
        rw [hvalue]
        exact upd_congr _ fun hne => hsync y ((known_cons.1 hy).resolve_left hne)) (fun y hy => by
        obtain ⟨hne, hk⟩ := not_or.1 (fun h => hy (known_cons.2 h))
        exact (upd_ne _ _ _ _ hne).trans (hpend y hk))
    exact ⟨hstep.1, fun y hy => hstep.2 y (known_cons.2 (.inr hy))⟩
  | test cond yes no ihyes ihno =>
    obtain ⟨hreads, h⟩ := h
    rw [Script.entries] at hpend
    rw [Script.entries, Script.entries, Script.run, Script.run, ← hreads _ _ hsync]
    split at h
    next hc =>
      simp only [if_pos hc] at hpend ⊢
      exact ihyes h s hsync hpend
    next hc =>
      simp only [if_neg hc] at hpend ⊢
      exact ihno h s hsync hpend

end

/-! ## Cycles -/

section
variable (u : Setup) (vars : Text → Text)

/-- The entries of the new file. -/
def Setup.written : List Entry :=
  [.comment [], .comment (" T2 ".toList ++ u.sdever ++ " Config File".toList), .comment []] ++
    assigns (u.script.entries ⟨u.begun vars, u.header⟩) ++
    [.assign "SDECFG_ID".toList ((u.script.run ⟨u.begun vars, u.header⟩).vars "SDECFG_ID".toList)]

/-- What the theorems ask of a cycle: only what is known is looked at, and the version and the id can be written. -/
structure Setup.Orderly (kept : List Text) : Prop where
  sdever : '\n' ∉ u.sdever
  env : ∀ y, ¬ IsKey y → vars y = u.env y
  ordered : u.script.Ordered kept ["SDECFG_ID".toList] ⟨u.begun vars, u.header⟩
  id : '\'' ∉ (u.script.run ⟨u.begun vars, u.header⟩).vars "SDECFG_ID".toList

variable {u vars} {kept : List Text}

theorem header_eq (u : Setup) : u.header = configText
    [.comment [], .comment (" T2 ".toList ++ u.sdever ++ " Config File".toList), .comment []] := by
  have hfront : "#\n# T2 ".toList = '#' :: '\n' :: '#' :: " T2 ".toList := rfl
  have hback : " Config File\n#\n".toList = " Config File".toList ++ ['\n', '#', '\n'] := rfl
  have hlines : ∀ t, configText [.comment [], .comment t, .comment []] =
      '#' :: '\n' :: '#' :: (t ++ ['\n', '#', '\n']) := by
    intro t
    rw [configText_cons, configText_cons, configText_cons]
    rfl
  rw [hlines]
  refine (congrArg₂ (fun a b => a ++ u.sdever ++ b) hfront hback).trans ?_
  simp only [List.cons_append, List.append_assoc]

theorem cycleFrom_eq (h : u.Orderly vars kept) : u.cycleFrom vars = configText (u.written vars) := by
  rw [Setup.cycleFrom, Setup.written, configText_append, configText_append, ← header_eq, ← exportLine_eq,
    escape_plain h.id, run_config (isKey_entries h.ordered)]

theorem starts_cycleFrom (h : u.Orderly vars kept) : u.starts (u.cycleFrom vars) = some fun y =>
    (((u.written vars).foldl Entry.run ⟨fun y => some (u.env y), fun _ => true⟩).vars y).getD [] := by
  have hok : ∀ e ∈ u.written vars, e.Ok := by
    have hver : '\n' ∉ " T2 ".toList ++ u.sdever ++ " Config File".toList := by
      simp only [List.mem_append, not_or]
      exact ⟨⟨by decide, h.sdever⟩, by decide⟩
    simp only [Setup.written, assigns, List.forall_mem_append, List.forall_mem_cons, List.forall_mem_map]
    have hid : IsName "SDECFG_ID".toList := by decide
    exact ⟨⟨⟨List.not_mem_nil, hver, List.not_mem_nil, List.forall_mem_nil _⟩,
      fun e he => (isKey_entries h.ordered e he).isName⟩, hid, List.forall_mem_nil _⟩
  rw [Setup.starts, cycleFrom_eq h, source_configText hok]
  rfl

/-- What the next cycle finds. -/
theorem written_next (h : u.Orderly vars kept) {v : Text → Text} (hv : u.starts (u.cycleFrom vars) = some v) (y : Text)
    (hy : y ≠ "SDECFG_ID".toList) : v y =
      (((assigns (u.script.entries ⟨u.begun vars, u.header⟩)).foldl Entry.run
        ⟨fun y => some (u.env y), fun _ => true⟩).vars y).getD [] := by
  have heq := Option.some.inj (hv.symm.trans (starts_cycleFrom h))
  rw [heq, Setup.written, List.foldl_append, List.foldl_append]
  exact congrArg (fun o : Option Text => o.getD []) (upd_ne _ _ _ _ hy)

/-- What the next cycle begins with. -/
theorem begun_next (h : u.Orderly vars kept)
    (hkept : ∀ v, u.starts (u.cycleFrom vars) = some v → ∀ k ∈ kept, v k = vars k) {v : Text → Text}
    (hv : u.starts (u.cycleFrom vars) = some v) (y : Text) :
    (Known kept ["SDECFG_ID".toList] y → u.begun vars y = u.begun v y) ∧
      (¬ Known kept ["SDECFG_ID".toList] y → u.begun v y =
        (((assigns (u.script.entries ⟨u.begun vars, u.header⟩)).foldl Entry.run
          ⟨fun y => some (u.env y), fun _ => true⟩).vars y).getD []) := by
  have hpoint := written_next h hv
  constructor
  · intro hk
    refine upd_congr _ fun hid => upd_congr _ fun _ => ?_
    rcases hk with hkey | hk | hk
    · have hnone : ∀ e ∈ u.script.entries ⟨u.begun vars, u.header⟩, e.1 ≠ y := by
        rintro e he rfl
        exact hkey (isKey_entries h.ordered e he)
      rw [h.env y hkey, hpoint y hid, foldl_assigns _ hnone]
      rfl
    · exact (hkept v hv y hk).symm
    · exact absurd (List.mem_singleton.1 hk) hid
  · intro hk
    have hid : y ≠ "SDECFG_ID".toList := fun heq => hk (.inr (.inr (List.mem_singleton.2 heq)))
    have hexpert : y ≠ "expert".toList := fun heq => hk (.inl (by rw [heq]; decide))
    rw [Setup.begun, upd_ne _ _ _ _ hid, upd_ne _ _ _ _ hexpert, hpoint y hid]

end

/-- **The configuration settles**: a cycle that leaves alone what the scripts look at before they set it is the last one
to change the file. -/
theorem cycle_settles (u : Setup) (vars : Text → Text) (kept : List Text) (h : u.Orderly vars kept)
    (hkept : ∀ v, u.starts (u.cycleFrom vars) = some v → ∀ k ∈ kept, v k = vars k) (n : Nat) :
    (fun file => file.bind u.cycle)^[n] (some (u.cycleFrom vars)) = some (u.cycleFrom vars) := by
  refine Function.iterate_fixed ?_ n
  obtain ⟨v, hv⟩ : ∃ v, u.starts (u.cycleFrom vars) = some v := ⟨_, starts_cycleFrom h⟩
  have hstep := lockstep h.ordered (v := ⟨u.begun v, u.header⟩) ⟨fun y => some (u.env y), fun _ => true⟩
    (fun y => (begun_next h hkept hv y).1) (fun y => (begun_next h hkept hv y).2)
  have hid := hstep.2 "SDECFG_ID".toList (.inr (.inr (List.mem_singleton.2 rfl)))
  have hkeys := isKey_entries h.ordered
  have hsame : u.cycleFrom v = u.cycleFrom vars := by
    rw [Setup.cycleFrom, Setup.cycleFrom, run_config hkeys, run_config (hstep.1 ▸ hkeys), hstep.1, hid]
  change u.cycle (u.cycleFrom vars) = some (u.cycleFrom vars)
  rw [Setup.cycle, hv, Option.map_some, hsame]

/-! ## A new value -/

/-- What the shell keeps of a value for an option that is asked for. -/
def How.Admits (x : Text) : How → Prop
  | .const v => x = v
  | .setData _ => x ≠ []
  | .choice _ choices => listed choices x = true

/-- The lines before the turn of an option, the session then and what is done; none if its turn does not come, or if it
is assigned before. -/
def Script.turn (name : Text) : Script → Session → Option (List (Text × Text) × Session × How)
  | .done, _ => none
  | .option n how rest, w =>
    if n = name then some ([], w, how w.vars)
    else
      let w' := w.call paramDefault ((how w.vars).call n)
      (rest.turn name w').map fun t => ((n, w'.vars n) :: t.1, t.2)
  | .assign n value rest, w => if n = name then none else rest.turn name { w with vars := upd w.vars n (value w.vars) }
  | .test cond yes no, w => if cond w.vars then yes.turn name w else no.turn name w

theorem value_admitted {h : How} {x : Text} (hx : h.Admits x) : h.value true [] x = x := by
  cases h with
  | const v => exact Eq.symm hx
  | setData default => simp [How.value, show x ≠ [] from hx]
  | choice default choices =>
    simp only [How.value, ne_eq, not_true_eq_false, if_false]
    exact if_pos ⟨rfl, hx⟩

/-- A script leaves the other options as they are. -/
theorem run_other {p : Script} {w : Session} {y : Text} (hy : IsKey y) (ho : y ∉ p.options) (ha : y ∉ p.assigned) :
    (p.run w).vars y = w.vars y := by
  induction p generalizing w with
  | done => rfl
  | option name how rest ih =>
    obtain ⟨hne, ho⟩ := not_or.1 (List.mem_cons.not.1 ho)
    rw [Script.run, ih ho ha, call_other _ _ hy (by rwa [name_call])]
  | assign name value rest ih =>
    obtain ⟨hne, ha⟩ := not_or.1 (List.mem_cons.not.1 ha)
    exact (ih ho ha).trans (upd_ne _ _ _ _ hne)
  | test cond yes no ihyes ihno =>
    rw [Script.options, List.mem_append, not_or] at ho
    rw [Script.assigned, List.mem_append, not_or] at ha
    rw [Script.run]
    split
    · exact ihyes ho.1 ha.1
    · exact ihno ho.2 ha.2

/-- Another value of the option, up to its turn. -/
theorem takes_turn {kept set : List Text} {w v : Session} {name x : Text} (hn : IsKey name)
    (hnew : ¬ Known kept set name) {p : Script} (h : p.Ordered kept set w) {pre : List (Text × Text)} {wn : Session}
    {how : How} (hturn : p.turn name w = some (pre, wn, how)) (hasked : asked wn.vars = true)
    (hfree : wn.vars (forcing name) = []) (hx : how.Admits x) (hsync : ∀ y, y ≠ name → w.vars y = v.vars y)
    (hname : v.vars name = x) : ∃ rest, p.entries v = pre ++ (name, x) :: rest := by
  have hknown : ∀ {set}, ¬ Known kept set name → ∀ y, Known kept set y → y ≠ name := by
    rintro set hnot y hk rfl
    exact hnot hk
  induction p generalizing set w v pre with
  | done => cases hturn
  | option n how' rest ih =>
    obtain ⟨hkey, hexpert, hreads, hfine, -, hrest⟩ := h
    have hsyncK : ∀ y, Known kept set y → w.vars y = v.vars y := fun y hk => hsync y (hknown hnew y hk)
    have hhow : how' v.vars = how' w.vars := (hreads _ _ hsyncK).symm
    rw [Script.turn] at hturn
    by_cases heq : n = name
    · subst heq
      obtain ⟨rfl, rfl, rfl⟩ : pre = [] ∧ wn = w ∧ how = how' w.vars := by simpa [eq_comm] using hturn
      have hforced : v.vars (forcing n) = [] :=
        (hsyncK _ (.inl fun h => h.not_forcing (List.prefix_append _ _))).symm.trans hfree
      have hasked' : asked v.vars = true :=
        (asked_congr (hsyncK _ hexpert) (hsyncK _ (.inl (by decide)))).symm.trans hasked
      have hvalue := call_value hn v hfine
      rw [hforced, hasked', hname, value_admitted hx] at hvalue
      exact ⟨_, by rw [Script.entries, hhow, hvalue]; rfl⟩
    · rw [if_neg heq] at hturn
      obtain ⟨⟨lines, wn', how''⟩, hlines, ht⟩ := Option.map_eq_some_iff.1 hturn
      cases ht
      have hsame := option_value hkey hexpert hsyncK hfine (.inl (hsync n heq))
      have hnew' : ¬ Known kept (n :: set) name := fun hk => (known_cons.1 hk).elim (fun h => heq h.symm) hnew
      have hother : ∀ y, IsKey y → y ≠ n → ∀ v : Session,
          (v.call paramDefault ((how' w.vars).call n)).vars y = v.vars y :=
        fun y hy hne v => call_other _ v hy (by rwa [name_call])
      obtain ⟨rest', hrest'⟩ := ih hnew' hrest hlines
        (v := v.call paramDefault ((how' w.vars).call n)) (fun y hy => by
          by_cases hyn : y = n
          · rw [hyn, hsame]
          · by_cases hyk : IsKey y
            · rw [hother y hyk hyn, hother y hyk hyn, hsync y hy]
            · exact option_agree hkey hexpert hsyncK hsame (.inl hyk))
        ((hother name hn (fun h => heq h.symm) v).trans hname)
      exact ⟨rest', by rw [Script.entries, hhow, hrest', hsame]; rfl⟩
  | assign n value rest ih =>
    obtain ⟨hreads, hrest⟩ := h
    have hvalue : value v.vars = value w.vars := (hreads _ _ fun y hk => hsync y (hknown hnew y hk)).symm
    rw [Script.turn] at hturn
    by_cases heq : n = name
    · rw [if_pos heq] at hturn
      cases hturn
    · rw [if_neg heq] at hturn
      have hnew' : ¬ Known kept (n :: set) name := fun hk => (known_cons.1 hk).elim (fun h => heq h.symm) hnew
      refine ih hnew' hrest hturn (v := { v with vars := upd v.vars n (value v.vars) }) (fun y hy => ?_) ?_
      · rw [hvalue]
        exact upd_congr _ fun _ => hsync y hy
      · exact (upd_ne _ _ _ _ (fun h => heq h.symm)).trans hname
  | test cond yes no ihyes ihno =>
    obtain ⟨hreads, h⟩ := h
    have hcond : cond v.vars = cond w.vars := (hreads _ _ fun y hk => hsync y (hknown hnew y hk)).symm
    rw [Script.turn] at hturn
    rw [Script.entries, hcond]
    split at h
    next hc =>
      rw [if_pos hc] at hturn ⊢
      exact ihyes hnew h hturn hsync hname
    next hc =>
      rw [if_neg hc] at hturn ⊢
      exact ihno hnew h hturn hsync hname

/-- **A new value** in the file is the one that the next cycle writes, if the option is asked for and the value can be
chosen; what is written before its turn is what was written before. -/
theorem option_takes (u : Setup) (file file' : Text) (vars : Text → Text) (hvars : u.starts file = some vars)
    (kept : List Text) (h : u.Orderly vars kept) {name x : Text} (hn : IsKey name) (hid : name ≠ "SDECFG_ID".toList)
    (hkept : name ∉ kept) (hset : ∀ s, source file' s = (source file s).map (·.set name x))
    {pre : List (Text × Text)} {wn : Session} {how : How}
    (hturn : u.script.turn name ⟨u.begun vars, u.header⟩ = some (pre, wn, how)) (hasked : asked wn.vars = true)
    (hfree : wn.vars (forcing name) = []) (hx : how.Admits x) :
    ∃ vars' rest, u.starts file' = some vars' ∧
      u.script.entries ⟨u.begun vars', u.header⟩ = pre ++ (name, x) :: rest := by
  have hvars' : u.starts file' = some (upd vars name x) := by
    obtain ⟨s, hs, rfl⟩ := Option.map_eq_some_iff.1 hvars
    rw [Setup.starts, hset, hs]
    refine congrArg some (funext fun y => ?_)
    by_cases hy : y = name
    · subst hy
      exact (congrArg (fun o : Option Text => o.getD []) (upd_same _ _ _)).trans (upd_same _ _ _).symm
    · rw [upd_ne _ _ _ _ hy]
      exact congrArg (fun o : Option Text => o.getD []) (upd_ne _ _ _ _ hy)
  have hnew : ¬ Known kept ["SDECFG_ID".toList] name := by
    rintro (hk | hk | hk)
    · exact hk hn
    · exact hkept hk
    · exact hid (List.mem_singleton.1 hk)
  have hexpert : name ≠ "expert".toList := hn.ne (by decide)
  obtain ⟨rest, hrest⟩ := takes_turn hn hnew h.ordered hturn hasked hfree hx
    (v := ⟨u.begun (upd vars name x), u.header⟩)
    (fun y hy => upd_congr _ fun _ => upd_congr _ fun _ => (upd_ne _ _ _ _ hy).symm)
    ((upd_ne _ _ _ _ hid).trans ((upd_ne _ _ _ _ hexpert).trans (upd_same _ _ _)))
  exact ⟨_, rest, hvars', hrest⟩

/-! ## A small `config.in` -/

def targets : List (Text × Text) := [("generic".toList, "Generic".toList), ("embedded".toList, "Embedded".toList)]

/-- An expert section. -/
def smallTail : Script :=
  .expertBegin <| .option "SDECFG_STATIC".toList (fun _ => .setData ['0']) <| .expertEnd .done

def smallRest : Script :=
  (Script.test (fun v => v "SDECFG_TARGET".toList = "embedded".toList)
    (.option "SDECFG_LIBC".toList (fun _ => .choice "musl".toList libcs) .done) .done).append smallTail

def smallScript : Script :=
  .option "SDECFG_TARGET".toList (fun _ => .choice "generic".toList targets) <|
  .assign "SDECFG_ID".toList (fun v => v "SDECFG_ID".toList ++ '-' :: v "SDECFG_TARGET".toList) smallRest

def smallSetup : Setup where
  sdever := "24.6".toList
  env := upd (fun _ => []) "SDECFG_EXPERT".toList ['0']
  script := smallScript

def smallKept : List Text := ["SDECFG_EXPERT".toList]

section
variable (w : Session)

theorem ordered_smallTail (set : List Text) : smallTail.Ordered smallKept set w :=
  ⟨fun _ _ h => congrArg (Menus.arith · 1) (h _ (.inl (by decide))),
    by decide, .inr (.inl (by decide)), fun _ _ _ => rfl, (by decide : (How.setData ['0']).Fine), .inr (by decide),
    fun _ _ h => congrArg (Menus.arith · (-1)) (h _ (.inl (by decide))), trivial⟩

theorem fine_targets : (How.choice "generic".toList targets).Fine := by decide

theorem ordered_smallScript : smallScript.Ordered smallKept ["SDECFG_ID".toList] w := by
  refine ⟨by decide, .inr (.inl (by decide)), fun _ _ _ => rfl, fine_targets, .inr (by decide), fun v v' h => ?_,
    fun v v' h => ?_, ?_⟩
  · dsimp only
    rw [h _ (.inr (.inr (by decide))), h "SDECFG_TARGET".toList (.inr (.inr (by decide)))]
  · dsimp only
    rw [h "SDECFG_TARGET".toList (.inr (.inr (by decide)))]
  · split
    · exact ⟨by decide, .inr (.inl (by decide)), fun _ _ _ => rfl,
        (by decide : (How.choice "musl".toList libcs).Fine), .inr (by decide), ordered_smallTail _ _⟩
    · exact ordered_smallTail _ _

/-- The id ends in the target. -/
theorem id_smallScript (hfree : w.vars (forcing "SDECFG_TARGET".toList) = []) : ∃ t, listed targets t = true ∧
    (smallScript.run w).vars "SDECFG_ID".toList = w.vars "SDECFG_ID".toList ++ '-' :: t := by
  obtain ⟨w₁, hw₁⟩ : ∃ w₁,
      w₁ = w.call paramDefault ((How.choice "generic".toList targets).call "SDECFG_TARGET".toList) := ⟨_, rfl⟩
  have hrun : smallScript.run w = smallRest.run { w₁ with
      vars := upd w₁.vars "SDECFG_ID".toList
        (w₁.vars "SDECFG_ID".toList ++ '-' :: w₁.vars "SDECFG_TARGET".toList) } := by
    rw [hw₁]
    rfl
  have hother : w₁.vars "SDECFG_ID".toList = w.vars "SDECFG_ID".toList := by
    rw [hw₁]
    exact call_other paramDefault w (by decide) (by decide)
  refine ⟨w₁.vars "SDECFG_TARGET".toList, ?_, ?_⟩
  · have hvalue := call_value (by decide : IsKey "SDECFG_TARGET".toList) w fine_targets
    rw [hw₁, hvalue, How.value, if_neg (not_not.2 hfree)]
    exact chosen_listed _ _ _ fine_targets.1
  · rw [hrun, run_other (by decide) (by decide) (by decide), ← hother]
    dsimp only
    rw [upd_same]

end

theorem orderly_small {vars : Text → Text} (h : ∀ y, ¬ IsKey y → vars y = smallSetup.env y) :
    smallSetup.Orderly vars smallKept where
  sdever := by decide
  env := h
  ordered := ordered_smallScript _
  id := by
    have hfree : smallSetup.begun vars (forcing "SDECFG_TARGET".toList) = [] := by
      rw [Setup.begun, upd_ne _ _ _ _ (by decide), upd_ne _ _ _ _ (by decide), h _ (by decide)]
      decide
    have hver : smallSetup.begun vars "SDECFG_ID".toList = "24.6".toList := upd_same _ _ _
    obtain ⟨t, ht, heq⟩ := id_smallScript ⟨smallSetup.begun vars, smallSetup.header⟩ hfree
    obtain ⟨c, hc, rfl⟩ := listed_iff.1 ht
    have hplain : ∀ c ∈ targets, '\'' ∉ "24.6".toList ++ '-' :: c.1 := by decide
    exact fun h => hplain c hc (hver ▸ heq ▸ h)

/-- What a user has chosen: a target, and a value that only an expert would be asked for. -/
def userVars : Text → Text :=
  upd (upd smallSetup.env "SDECFG_TARGET".toList "embedded".toList) "SDECFG_STATIC".toList ['1']

theorem orderly_user : smallSetup.Orderly userVars smallKept := by
  refine orderly_small fun y hy => ?_
  have hne : ∀ x, IsKey x → y ≠ x := by
    rintro x hx rfl
    exact hy hx
  rw [userVars, upd_ne _ _ _ _ (hne _ (by decide)), upd_ne _ _ _ _ (hne _ (by decide))]

theorem cycle_settles_user :
    (fun file => file.bind smallSetup.cycle)^[2] (some (smallSetup.cycleFrom userVars)) =
      some (smallSetup.cycleFrom userVars) := by
  refine cycle_settles smallSetup userVars smallKept orderly_user (fun v hv k hk => ?_) 2
  have hnone : ∀ e ∈ smallScript.entries ⟨smallSetup.begun userVars, smallSetup.header⟩, e.1 ≠ "SDECFG_EXPERT".toList :=
    fun e he heq => absurd (heq ▸ mem_options he) (by decide)
  obtain rfl := List.mem_singleton.1 hk
  have hv' := (written_next orderly_user hv "SDECFG_EXPERT".toList (by decide)).trans
    (congrArg (fun o : Option Text => o.getD []) (foldl_assigns _ hnone))
  exact hv'.trans (by decide)

/-- A configuration that names the target. -/
def targetFile (t : Text) : Text := configText [.assign "SDECFG_TARGET".toList t]

theorem source_targetFile (t : Text) (s : Variables) :
    source (targetFile t) s = some (s.set "SDECFG_TARGET".toList t) :=
  have hes : ∀ e ∈ [Entry.assign "SDECFG_TARGET".toList t], e.Ok :=
    List.forall_mem_singleton.2 (by decide : IsName "SDECFG_TARGET".toList)
  source_configText hes s

def targetVars : Text → Text := upd smallSetup.env "SDECFG_TARGET".toList "generic".toList

theorem starts_targetFile : smallSetup.starts (targetFile "generic".toList) = some targetVars := by
  rw [Setup.starts, source_targetFile]
  refine congrArg some (funext fun y => ?_)
  by_cases hy : y = "SDECFG_TARGET".toList
  · subst hy
    rfl
  · rw [targetVars, upd_ne _ _ _ _ hy]
    exact congrArg (fun o : Option Text => o.getD []) (upd_ne _ _ _ _ hy)

theorem option_takes_target : ∃ vars' rest, smallSetup.starts (targetFile "embedded".toList) = some vars' ∧
    smallScript.entries ⟨smallSetup.begun vars', smallSetup.header⟩ =
      [] ++ ("SDECFG_TARGET".toList, "embedded".toList) :: rest := by
  have hasked : asked (smallSetup.begun targetVars) = true := by
    have hzero : (String.ofList ['0']).toInt? = some 0 := Int.toInt?_repr 0
    have hexpert : smallSetup.begun targetVars "SDECFG_EXPERT".toList = ['0'] := by decide
    have hblock : smallSetup.begun targetVars "expert".toList = ['0'] := by decide
    rw [asked, hexpert, hblock, hzero]
    rfl
  refine option_takes smallSetup (targetFile "generic".toList) (targetFile "embedded".toList) targetVars
    starts_targetFile smallKept ?_ (by decide) (by decide) (by decide) ?_ rfl hasked (by decide)
    (by decide : listed targets _ = true)
  · exact orderly_small fun y hy => upd_ne _ _ _ _ fun h => hy (by rw [h]; decide)
  · intro s
    rw [source_targetFile, source_targetFile, Option.map_some, Variables.set_set]

end T2Sde.Config
