import T2Sde.Lib.Quote
/-!
# The lines of the configuration (`scripts/config-functions.in`)

`const`, `set_data` and `choice` give a variable its value and write a line `export NAME='…'` for it, in which a `'` of
the value is `'\''`. `data`, `item` and `menumode` are global; `q`, `v`, `set_name` and `defval` are local and hide the
variables of the caller. What `eval` makes of a default between double quotes is taken from outside. The names of the
configuration begin with `SDECFG_`.

| here | there |
| --- | --- |
| `requote` | `${v//$q/$q\\$q$q}` :136, :164 |
| `const`   | `const` :133-140 |
| `asked`   | `[ $SDECFG_EXPERT -eq 1 -o $expert -eq 0 ]` :151, :154 |
| `setValue`, `setData` | `set_data` :144-166 |
| `choice`  | `choice` :169-188 |

* `Written` — one call adds a line, and sourcing it gives the variable the value it has.
* `config_values_survive` — **each of the three does that, for every value**.
* `source_calls` — what is written by a sequence of calls gives every variable its last value.
-/
namespace T2Sde.Config
open Shell

/-- The variables, an unset one as an empty one, and the file. -/
structure Session where
  vars : Text → Text
  config : Text

def requote (q v : Text) : Text := replaceAll q (q ++ ['\\'] ++ q ++ q) v

/-- `echo "export NAME='…'" >> config` -/
def exportLine (name quoted : Text) : Text := "export ".toList ++ name ++ "='".toList ++ quoted ++ "'\n".toList

/-- The variables behind the function: the local ones as they were. -/
def leave (local' : List Text) (own before : Text → Text) : Text → Text :=
  fun y => if y ∈ local' then before y else own y

/-- `const $1 $2` -/
def const (w : Session) (name value : Text) : Session :=
  let own := upd w.vars ['q'] ['\'']
  let own := upd own ['v'] (requote (own ['q']) value)
  let own := upd own name value
  { vars := leave [['q'], ['v']] own w.vars
    config := w.config ++ exportLine name (own ['v']) }

/-- Both are compared, and one that is no number makes the test fail. -/
def asked (vars : Text → Text) : Bool :=
  match (String.ofList (vars "SDECFG_EXPERT".toList)).toInt?, (String.ofList (vars "expert".toList)).toInt? with
  | some e, some x => e == 1 || x == 0
  | _, _ => false

section
variable (eval : (Text → Text) → Text → Option Text)

/-- The branches of `set_data`; `eval` gives what it assigns that reads the text between double quotes, nothing where
it fails. -/
def setValue (own : Text → Text) (name default : Text) : Text → Text :=
  if own (own "set_name".toList) ≠ [] then
    let own := upd own "data".toList (own (own "set_name".toList))
    let own := upd own name (own "data".toList)
    upd own "menumode".toList (if asked own then ['2'] else ['0'])
  else if asked own then
    let own := upd own "data".toList
      ((eval own ("$\x7b".toList ++ name ++ ":-".toList ++ default ++ "\x7d".toList)).getD (own "data".toList))
    let own := upd own name (own "data".toList)
    upd own "menumode".toList ['1']
  else
    let own := upd own "data".toList default
    let own := upd own name (own "data".toList)
    upd own "menumode".toList ['0']

/-- `set_data $1 $2` -/
def setData (w : Session) (name default : Text) : Session :=
  let own := upd w.vars ['q'] ['\'']
  let own := upd own "set_name".toList ("SDECFGSET_".toList ++ stripPrefix "SDECFG_".toList name)
  let own := setValue eval own name default
  let own := upd own "item".toList name
  { vars := leave [['q'], "set_name".toList] own w.vars
    config := w.config ++ exportLine name (requote (own ['q']) (own "data".toList)) }

/-- The choices are pairs of a value and a text. -/
def listed (choices : List (Text × Text)) (x : Text) : Bool := choices.any (·.1 == x)

/-- `choice` before its `set_data`: a default and a value that are not among the choices go. -/
def unlisted (own : Text → Text) (name default : Text) (choices : List (Text × Text)) : Text → Text :=
  let own := upd own "defval".toList default
  let own' := if default ≠ [] ∧ listed choices default = false then upd own "defval".toList [] else own
  if listed choices (own name) = false then upd own' name [] else own'

/-- `choice $1 $2 …` -/
def choice (w : Session) (name default : Text) (choices : List (Text × Text)) : Session :=
  let own := unlisted w.vars name default choices
  let defval := own "defval".toList
  let first := (choices.head?.map (·.1)).getD []
  let w' := setData eval { w with vars := own } name (if defval ≠ [] then defval else first)
  { w' with vars := leave ["defval".toList] w'.vars w.vars }

end

/-! ## One line -/

/-- The name of a variable of the configuration. -/
structure IsKey (name : Text) : Prop where
  isName : IsName name
  front : "SDECFG_".toList <+: name

instance (name : Text) : Decidable (IsKey name) :=
  decidable_of_iff (IsName name ∧ "SDECFG_".toList <+: name) ⟨fun h => ⟨h.1, h.2⟩, fun h => ⟨h.1, h.2⟩⟩

/-- The call adds one line, and the line gives the variable the value it has after the call. -/
def Written (name : Text) (w w' : Session) : Prop :=
  ∃ line, w'.config = w.config ++ line ∧
    ∀ rest s, source (line ++ rest) s = source rest (s.set name (w'.vars name))

theorem requote_eq (v : Text) : requote ['\''] v = escape v := replaceAll_char (by decide) v

theorem IsKey.ne {name x : Text} (h : IsKey name) (hx : ¬ "SDECFG_".toList <+: x) : name ≠ x := by
  rintro rfl
  exact hx h.front

section
variable {name : Text} (hn : IsKey name)
include hn

theorem const_value (w : Session) (v : Text) : (const w name v).vars name = v := by
  simp [const, leave, hn.ne (x := ['q']) (by decide), hn.ne (x := ['v']) (by decide)]

theorem written_const (w : Session) (v : Text) : Written name w (const w name v) := by
  have hv : ['v'] ≠ name := Ne.symm (hn.ne (by decide))
  have hconfig : (const w name v).config = w.config ++ exportLine name (escape v) := by
    simp only [const]
    rw [upd_ne _ _ _ _ hv, upd_same, upd_same, requote_eq]
  refine ⟨exportLine name (escape v), hconfig, fun rest s => ?_⟩
  rw [const_value hn]
  exact source_export hn.isName v rest s

variable (eval : (Text → Text) → Text → Option Text)

theorem setValue_name (own : Text → Text) (default : Text) :
    setValue eval own name default "data".toList = setValue eval own name default name := by
  have hd : "data".toList ≠ name := Ne.symm (hn.ne (by decide))
  have hm : name ≠ "menumode".toList := hn.ne (by decide)
  have hdm : "data".toList ≠ "menumode".toList := by decide
  unfold setValue
  split
  · rw [upd_ne _ _ _ _ hdm, upd_ne _ _ _ _ hd, upd_ne _ _ _ _ hm, upd_same, upd_same]
  · split <;> rw [upd_ne _ _ _ _ hdm, upd_ne _ _ _ _ hd, upd_ne _ _ _ _ hm, upd_same, upd_same]

theorem setValue_q (own : Text → Text) (default : Text) : setValue eval own name default ['q'] = own ['q'] := by
  have hq : ['q'] ≠ name := Ne.symm (hn.ne (by decide))
  have hqd : ['q'] ≠ "data".toList := by decide
  have hqm : ['q'] ≠ "menumode".toList := by decide
  unfold setValue
  split
  · rw [upd_ne _ _ _ _ hqm, upd_ne _ _ _ _ hq, upd_ne _ _ _ _ hqd]
  · split <;> rw [upd_ne _ _ _ _ hqm, upd_ne _ _ _ _ hq, upd_ne _ _ _ _ hqd]

/-- The line is written from what the variable has. -/
theorem setData_config (w : Session) (default : Text) :
    (setData eval w name default).config =
      w.config ++ exportLine name (escape ((setData eval w name default).vars name)) := by
  have h₁ : name ≠ ['q'] := hn.ne (by decide)
  have h₂ : name ≠ "set_name".toList := hn.ne (by decide)
  have h₃ : name ≠ "item".toList := hn.ne (by decide)
  have hqs : ['q'] ≠ "set_name".toList := by decide
  have hqi : ['q'] ≠ "item".toList := by decide
  have hdi : "data".toList ≠ "item".toList := by decide
  have hl : name ∉ [['q'], "set_name".toList] := by simpa using ⟨h₁, h₂⟩
  simp only [setData, leave, if_neg hl]
  rw [upd_ne _ _ _ _ h₃, upd_ne _ _ _ _ hqi, upd_ne _ _ _ _ hdi, setValue_q hn, upd_ne _ _ _ _ hqs, upd_same,
    requote_eq, setValue_name hn]

theorem written_setData (w : Session) (default : Text) : Written name w (setData eval w name default) := by
  exact ⟨_, setData_config hn eval w default, source_export hn.isName _⟩

theorem written_choice (w : Session) (default : Text) (choices : List (Text × Text)) :
    Written name w (choice eval w name default choices) := by
  have hd : name ∉ ["defval".toList] := by simpa using hn.ne (x := "defval".toList) (by decide)
  unfold choice
  extract_lets own defval first w'
  obtain ⟨line, hline, hread⟩ : Written name { w with vars := own } w' := written_setData hn eval _ _
  refine ⟨line, hline, fun rest s => ?_⟩
  simp only [hread, leave, if_neg hd]

end

/-- **Each value survives the file.** -/
theorem config_values_survive {name : Text} (hn : IsKey name) (w : Session) :
    (∀ v, (const w name v).vars name = v ∧ Written name w (const w name v)) ∧
    (∀ eval default, Written name w (setData eval w name default)) ∧
    (∀ eval default choices, Written name w (choice eval w name default choices)) :=
  ⟨fun v => ⟨const_value hn w v, written_const hn w v⟩, fun eval => written_setData hn eval w,
    fun eval => written_choice hn eval w⟩

theorem value_with_quotes_survives :
    let v := "it's `$x` \"\\\n".toList
    let w := const ⟨fun _ => [], []⟩ "SDECFG_C_FLAGS".toList v
    w.vars "SDECFG_C_FLAGS".toList = v ∧ Written "SDECFG_C_FLAGS".toList ⟨fun _ => [], []⟩ w :=
  (config_values_survive (by decide) ⟨fun _ => [], []⟩).1 _

/-! ## The other variables -/

section
variable {name : Text} (eval : (Text → Text) → Text → Option Text)

/-- A call leaves the other variables of the configuration as they are. -/
theorem const_other (w : Session) (v : Text) {y : Text} (hy : IsKey y) (hne : y ≠ name) :
    (const w name v).vars y = w.vars y := by
  simp [const, leave, upd_ne _ _ _ _ hne, hy.ne (x := ['q']) (by decide), hy.ne (x := ['v']) (by decide)]

theorem setValue_other (own : Text → Text) (default : Text) {y : Text} (hy : IsKey y) (hne : y ≠ name) :
    setValue eval own name default y = own y := by
  have hd : y ≠ "data".toList := hy.ne (by decide)
  have hm : y ≠ "menumode".toList := hy.ne (by decide)
  unfold setValue
  split
  · rw [upd_ne _ _ _ _ hm, upd_ne _ _ _ _ hne, upd_ne _ _ _ _ hd]
  · split <;> rw [upd_ne _ _ _ _ hm, upd_ne _ _ _ _ hne, upd_ne _ _ _ _ hd]

theorem setData_other (w : Session) (default : Text) {y : Text} (hy : IsKey y) (hne : y ≠ name) :
    (setData eval w name default).vars y = w.vars y := by
  have hq : y ≠ ['q'] := hy.ne (by decide)
  have hs : y ≠ "set_name".toList := hy.ne (by decide)
  have hi : y ≠ "item".toList := hy.ne (by decide)
  have hl : y ∉ [['q'], "set_name".toList] := by simpa using ⟨hq, hs⟩
  simp only [setData, leave, if_neg hl]
  rw [upd_ne _ _ _ _ hi, setValue_other eval _ _ hy hne, upd_ne _ _ _ _ hs, upd_ne _ _ _ _ hq]

theorem unlisted_other (own : Text → Text) (default : Text) (choices : List (Text × Text)) {y : Text} (hy : IsKey y)
    (hne : y ≠ name) : unlisted own name default choices y = own y := by
  have hd : y ≠ "defval".toList := hy.ne (by decide)
  unfold unlisted
  split <;> split <;> simp only [upd_ne _ _ _ _ hne, upd_ne _ _ _ _ hd]

theorem choice_other (w : Session) (default : Text) (choices : List (Text × Text)) {y : Text} (hy : IsKey y)
    (hne : y ≠ name) : (choice eval w name default choices).vars y = w.vars y := by
  have hl : y ∉ ["defval".toList] := by simpa using hy.ne (x := "defval".toList) (by decide)
  simp only [choice, leave, if_neg hl]
  rw [setData_other eval _ _ hy hne]
  exact unlisted_other _ _ _ hy hne

end

/-! ## The file -/

inductive Call
  | const (name value : Text)
  | setData (name default : Text)
  | choice (name default : Text) (choices : List (Text × Text))

def Call.name : Call → Text
  | .const name _ | .setData name _ | .choice name _ _ => name

section
variable (eval : (Text → Text) → Text → Option Text)

def Session.call (w : Session) : Call → Session
  | .const name v => Config.const w name v
  | .setData name default => Config.setData eval w name default
  | .choice name default choices => Config.choice eval w name default choices

theorem written_call (w : Session) {c : Call} (h : IsKey c.name) : Written c.name w (w.call eval c) := by
  cases c with
  | const name v => exact written_const h w v
  | setData name default => exact written_setData h eval w default
  | choice name default choices => exact written_choice h eval w default choices

theorem call_other (w : Session) {c : Call} {y : Text} (hy : IsKey y) (hne : y ≠ c.name) :
    (w.call eval c).vars y = w.vars y := by
  cases c with
  | const name v => exact const_other w v hy hne
  | setData name default => exact setData_other eval w default hy hne
  | choice name default choices => exact choice_other eval w default choices hy hne

theorem calls_other (calls : List Call) (w : Session) {y : Text} (hy : IsKey y)
    (hne : y ∉ calls.map Call.name) : (calls.foldl (Session.call eval) w).vars y = w.vars y := by
  induction calls generalizing w with
  | nil => rfl
  | cons c calls ih =>
    rw [List.map_cons, List.mem_cons, not_or] at hne
    rw [List.foldl_cons, ih _ hne.2, call_other eval w hy hne.1]

/-- The named variables are set and exported. -/
def taken (s : Variables) (names : List Text) (vars : Text → Text) : Variables where
  vars y := if y ∈ names then some (vars y) else s.vars y
  exported y := if y ∈ names then true else s.exported y

theorem taken_set (s : Variables) (names : List Text) (vars : Text → Text) {name v : Text}
    (h : name ∉ names → v = vars name) : taken (s.set name v) names vars = taken s (name :: names) vars := by
  have hpt : ∀ y, (if y ∈ names then some (vars y) else upd s.vars name (some v) y) =
      if y ∈ name :: names then some (vars y) else s.vars y := by
    intro y
    by_cases hy : y ∈ names
    · simp [hy]
    · by_cases hyn : y = name
      · subst hyn
        simp [hy, h hy]
      · simp [hy, hyn]
  have hex : ∀ y, (if y ∈ names then true else upd s.exported name true y) =
      if y ∈ name :: names then true else s.exported y := by
    intro y
    by_cases hyn : y = name <;> simp [hyn]
  rw [taken, taken, Variables.mk.injEq]
  exact ⟨funext hpt, funext hex⟩

/-- **What the calls have written sets each variable to the value that it has after all of them.** -/
theorem source_calls {calls : List Call} (h : ∀ c ∈ calls, IsKey c.name) (w : Session) :
    ∃ text, (calls.foldl (Session.call eval) w).config = w.config ++ text ∧
      ∀ rest s, source (text ++ rest) s =
        source rest (taken s (calls.map Call.name) (calls.foldl (Session.call eval) w).vars) := by
  induction calls generalizing w with
  | nil => exact ⟨[], by simp, fun rest s => by simp [taken]⟩
  | cons c calls ih =>
    obtain ⟨hc, h⟩ := List.forall_mem_cons.1 h
    obtain ⟨line, hline, hread⟩ := written_call eval w hc
    obtain ⟨text, htext, hrest⟩ := ih h (w.call eval c)
    refine ⟨line ++ text, by rw [List.foldl_cons, htext, hline, List.append_assoc], fun rest s => ?_⟩
    have hlast : c.name ∉ calls.map Call.name →
        (w.call eval c).vars c.name = (calls.foldl (Session.call eval) (w.call eval c)).vars c.name :=
      fun hnot => (calls_other eval calls _ hc hnot).symm
    rw [List.append_assoc, hread, hrest, List.foldl_cons, List.map_cons, taken_set _ _ _ hlast]

end

end T2Sde.Config
