import T2Sde.Lib.Cut
import T2Sde.Config.Write
/-!
# The value of a choice (`scripts/config-functions.in`)

A subshell goes through the choices and prints `unset` commands for a default and for a value that it has not met. What
is left goes to `set_data`, which takes the value, or the default where there is no value or where it is not asked.

| here | there |
| --- | --- |
| `scanChoices`, `generated` | the subshell :179-186 |
| `evalUnset`    | `eval $(…)` :179 |
| `paramDefault` | `eval "data=\"\${NAME:-WORD}\""` :155 |

* `evalUnset_generated` — what the commands do is `unlisted`.
* `choice_vars` — the value after the call.
* `choice_valid` — **the value is listed, is written, and comes again**.
-/
namespace T2Sde.Config
open Shell

/-! ## The commands -/

/-- `dval` and `name`, through the loop. -/
def scanChoices (value : Text) : List (Text × Text) → Text × Text → Text × Text
  | [], s => s
  | c :: choices, s => scanChoices value choices (if s.1 = c.1 then [] else s.1, if value = c.1 then [] else s.2)

def generated (value name default : Text) (choices : List (Text × Text)) : Text :=
  let s := scanChoices value choices (default, name)
  (if s.1 ≠ [] then "unset defval;\n".toList else []) ++ if s.2 ≠ [] then "unset ".toList ++ s.2 ++ ['\n'] else []

def unsetCommand (own : Text → Text) (command : Text) : Text → Text :=
  match words command with
  | [u, x] => if u = "unset".toList then upd own x [] else own
  | _ => own

/-- The words of the output are joined by blanks. -/
def evalUnset (own : Text → Text) (t : Text) : Text → Text :=
  (([' '].intercalate (words t)).splitOn ';').foldl unsetCommand own

/-! ## The default -/

/-- Nothing that the shell reads between double quotes and braces. -/
def Harmless (v : Text) : Prop := ∀ c ∈ v, "\"$\x60\\'\x7b\x7d".toList.contains c = false

instance (v : Text) : Decidable (Harmless v) := inferInstanceAs (Decidable (∀ c ∈ v, _))

/-- `"${NAME:-WORD}"` for such a word -/
def paramDefault (own : Text → Text) (t : Text) : Option Text :=
  let body := t.drop 2
  let name := body.takeWhile fun c => c.isAlphanum || c == '_'
  let word := (body.drop (name.length + 2)).dropLast
  if t = "$\x7b".toList ++ name ++ ":-".toList ++ word ++ "\x7d".toList ∧ IsName name ∧ Harmless word then
    some (if own name ≠ [] then own name else word)
  else none

/-! ## The value -/

/-- The default if it is listed, else the first choice. -/
def fallback (default : Text) (choices : List (Text × Text)) : Text :=
  if listed choices default then default else (choices.head?.map (·.1)).getD []

def chosen (visible : Bool) (value default : Text) (choices : List (Text × Text)) : Text :=
  if visible ∧ listed choices value then value else fallback default choices

section
variable {name value default : Text} {choices : List (Text × Text)} {own : Text → Text}

theorem listed_iff {x : Text} : listed choices x = true ↔ ∃ c ∈ choices, c.1 = x := by
  simp [listed]

theorem listed_cons (c : Text × Text) (x : Text) : listed (c :: choices) x = (c.1 == x || listed choices x) := rfl

/-- A text goes as soon as it is met. -/
theorem scanChoices_eq (choices : List (Text × Text)) (dval name : Text) :
    scanChoices value choices (dval, name) =
      (if listed choices dval then [] else dval, if listed choices value then [] else name) := by
  induction choices generalizing dval name with
  | nil => rfl
  | cons c choices ih =>
    rw [scanChoices, ih, listed_cons, listed_cons]
    refine Prod.ext ?_ ?_
    · by_cases h : dval = c.1
      · simp [h]
      · have hne : (c.1 == dval) = false := by simpa using Ne.symm h
        simp only [if_neg h, hne, Bool.false_or]
    · by_cases h : value = c.1
      · simp [h]
      · have hne : (c.1 == value) = false := by simpa using Ne.symm h
        simp only [if_neg h, hne, Bool.false_or]

theorem isWord_name (hn : IsName name) : IsWord name := by
  refine ⟨hn.ne_nil, fun c hc => ?_⟩
  rw [Bool.eq_false_iff]
  intro hb
  have hbare := hn.bare c hc
  rcases (by simpa [isBlank] using hb : (c = ' ' ∨ c = '\t') ∨ c = '\n') with (rfl | rfl) | rfl <;>
    exact absurd hbare (by decide)

theorem semicolon_name (hn : IsName name) : ';' ∉ name := fun h => absurd (hn.bare _ h) (by decide)

/-- The words of the second command. -/
theorem words_unset (hn : IsName name) {b : Text} (hb : AtBlank b) (hblank : words b = []) :
    words ("unset ".toList ++ name ++ b) = ["unset".toList, name] := by
  have hsplit : "unset ".toList ++ name ++ b = "unset".toList ++ (' ' :: (name ++ b)) := by simp
  rw [hsplit, words_word_append (by decide) (by exact rfl), words_space_cons,
    words_word_append (isWord_name hn) hb, hblank]

theorem unsetCommand_name (hn : IsName name) (own : Text → Text) :
    unsetCommand own ("unset ".toList ++ name) = upd own name [] := by
  have hwords := words_unset hn (b := []) trivial rfl
  rw [List.append_nil] at hwords
  rw [unsetCommand, hwords]
  exact if_pos rfl

theorem join_unset (name : Text) : [' '].intercalate ["unset".toList, name] = "unset ".toList ++ name := by
  rw [List.intercalate_cons_of_ne_nil (by simp), List.intercalate_singleton]
  rfl

theorem semicolon_unset (hn : IsName name) : ';' ∉ "unset ".toList ++ name := by
  rw [List.mem_append, not_or]
  exact ⟨by decide, semicolon_name hn⟩

theorem evalUnset_name (hn : IsName name) (own : Text → Text) :
    evalUnset own ("unset ".toList ++ name ++ ['\n']) = upd own name [] := by
  rw [evalUnset, words_unset hn (by exact rfl) rfl, join_unset, splitOn_single (semicolon_unset hn)]
  exact unsetCommand_name hn own

theorem unsetCommand_defval (own : Text → Text) :
    unsetCommand own "unset defval".toList = upd own "defval".toList [] := by
  have hwords : words "unset defval".toList = ["unset".toList, "defval".toList] := by decide +kernel
  rw [unsetCommand, hwords]
  exact if_pos rfl

theorem evalUnset_defval (own : Text → Text) :
    evalUnset own "unset defval;\n".toList = upd own "defval".toList [] := by
  have hcommands : ([' '].intercalate (words "unset defval;\n".toList)).splitOn ';' = ["unset defval".toList, []] := by
    decide +kernel
  rw [evalUnset, hcommands]
  exact unsetCommand_defval own

theorem evalUnset_both (hn : IsName name) (own : Text → Text) :
    evalUnset own ("unset defval;\n".toList ++ ("unset ".toList ++ name ++ ['\n'])) =
      upd (upd own "defval".toList []) name [] := by
  have hsplit : "unset defval;\n".toList ++ ("unset ".toList ++ name ++ ['\n']) =
      "unset".toList ++ (' ' :: ("defval;".toList ++ ('\n' :: ("unset ".toList ++ name ++ ['\n'])))) := by simp
  have hwords : words ("unset defval;\n".toList ++ ("unset ".toList ++ name ++ ['\n'])) =
      ["unset".toList, "defval;".toList, "unset".toList, name] := by
    rw [hsplit, words_word_append (by decide) (by exact rfl), words_space_cons,
      words_word_append (by decide) (by exact rfl), words_blank_cons rfl, words_unset hn (by exact rfl) rfl]
  have hjoin : [' '].intercalate ["unset".toList, "defval;".toList, "unset".toList, name] =
      "unset defval".toList ++ ';' :: (' ' :: ("unset ".toList ++ name)) := by
    rw [List.intercalate_cons_of_ne_nil (by simp), List.intercalate_cons_of_ne_nil (by simp), join_unset]
    rfl
  have hfree : ';' ∉ ' ' :: ("unset ".toList ++ name) := by
    rw [List.mem_cons, not_or]
    exact ⟨by decide, semicolon_unset hn⟩
  have hspace : ∀ own, unsetCommand own (' ' :: ("unset ".toList ++ name)) = upd own name [] := by
    intro own
    rw [← unsetCommand_name hn, unsetCommand, words_space_cons, unsetCommand]
  rw [evalUnset, hwords, hjoin, splitOn_cons (by decide), splitOn_single hfree, List.foldl_cons, List.foldl_cons,
    List.foldl_nil, unsetCommand_defval, hspace]

/-- **The commands** take away what is not listed. -/
theorem evalUnset_generated (hn : IsKey name) (own : Text → Text) (default : Text) (choices : List (Text × Text)) :
    evalUnset (upd own "defval".toList default) (generated (own name) name default choices) =
      unlisted own name default choices := by
  have hname := hn.isName
  have hown : upd own "defval".toList default name = own name := upd_ne _ _ _ _ (hn.ne (by decide))
  rw [generated, scanChoices_eq, unlisted, hown]
  by_cases hd : default ≠ [] ∧ listed choices default = false
  · by_cases hv : listed choices (own name) = false
    · simp only [hd.2, hv, Bool.false_eq_true, if_false, hd.1, hname.ne_nil, ne_eq, not_false_eq_true, if_true,
        and_self]
      exact evalUnset_both hname _
    · simp only [hd.2, hv, Bool.false_eq_true, if_false, hd.1, ne_eq, not_false_eq_true, if_true, and_self]
      simp only [Bool.not_eq_false] at hv
      simp only [not_true_eq_false, if_false, List.append_nil]
      exact evalUnset_defval _
  · have hnone : (if listed choices default = true then [] else default) = [] := by
      by_cases h : listed choices default = true
      · exact if_pos h
      · rw [if_neg h]
        by_contra hne
        exact hd ⟨hne, by simpa using h⟩
    rw [hnone, if_neg hd]
    by_cases hv : listed choices (own name) = false
    · simp only [hv, Bool.false_eq_true, if_false, hname.ne_nil, ne_eq, not_true_eq_false, not_false_eq_true, if_true,
        List.nil_append]
      exact evalUnset_name hname _
    · simp only [Bool.not_eq_false] at hv
      simp only [hv, if_true, ne_eq, not_true_eq_false, if_false, List.nil_append, Bool.true_eq_false]
      rfl

/-! ## The value after the call -/

theorem unlisted_name (hn : IsKey name) (own : Text → Text) (default : Text) (choices : List (Text × Text)) :
    unlisted own name default choices name = if listed choices (own name) then own name else [] := by
  have hd : name ≠ "defval".toList := hn.ne (by decide)
  rw [unlisted, upd_ne _ _ _ _ hd]
  cases listed choices (own name) with
  | false => simp
  | true =>
    simp only [Bool.true_eq_false, if_false, if_true]
    split <;> simp only [upd_ne _ _ _ _ hd]

theorem unlisted_defval (hn : IsKey name) (own : Text → Text) (default : Text) (choices : List (Text × Text)) :
    unlisted own name default choices "defval".toList =
      if default ≠ [] ∧ listed choices default = false then [] else default := by
  have hd : "defval".toList ≠ name := Ne.symm (hn.ne (by decide))
  rw [unlisted]
  split <;> split <;> simp only [upd_ne _ _ _ _ hd, upd_same]

theorem unlisted_same (own : Text → Text) (default : Text) (choices : List (Text × Text)) {y : Text}
    (hy : y ≠ "defval".toList) (h : y ≠ name ∨ listed choices (own name) = true) (hd : name ≠ "defval".toList) :
    unlisted own name default choices y = own y := by
  rw [unlisted, upd_ne _ _ _ _ hd]
  rcases h with h | h
  · split <;> split <;> simp only [upd_ne _ _ _ _ hy, upd_ne _ _ _ _ h]
  · rw [h]
    simp only [Bool.true_eq_false, if_false]
    split <;> simp only [upd_ne _ _ _ _ hy]

/-- `set_data` is given the fallback. -/
theorem defval_eq (hn : IsKey name) (own : Text → Text) (default : Text) (hvals : ∀ c ∈ choices, c.1 ≠ []) :
    (if unlisted own name default choices "defval".toList ≠ [] then unlisted own name default choices "defval".toList
      else (choices.head?.map (·.1)).getD []) = fallback default choices := by
  rw [unlisted_defval hn, fallback]
  have hnil : listed choices [] = false := by
    rw [Bool.eq_false_iff, ne_eq, listed_iff]
    rintro ⟨c, hc, h⟩
    exact hvals c hc h
  by_cases hd : default = []
  · simp [hd, hnil]
  · cases h : listed choices default <;> simp [hd]

theorem fallback_listed (default : Text) (hne : choices ≠ []) : listed choices (fallback default choices) = true := by
  rw [fallback]
  split
  · assumption
  · obtain ⟨c, choices, rfl⟩ := List.exists_cons_of_ne_nil hne
    exact listed_iff.2 ⟨c, List.mem_cons_self, rfl⟩

theorem chosen_listed (visible : Bool) (value default : Text) (hne : choices ≠ []) :
    listed choices (chosen visible value default choices) = true := by
  rw [chosen]
  split
  next h => exact h.2
  · exact fallback_listed default hne

theorem paramDefault_eq (hn : IsName name) (own : Text → Text) {word : Text} (hword : Harmless word) :
    paramDefault own ("$\x7b".toList ++ name ++ ":-".toList ++ word ++ "\x7d".toList) =
      some (if own name ≠ [] then own name else word) := by
  have hbody : ("$\x7b".toList ++ name ++ ":-".toList ++ word ++ "\x7d".toList).drop 2 =
      name ++ (":-".toList ++ (word ++ "\x7d".toList)) := by
    simp
  have hname : (name ++ (":-".toList ++ (word ++ "\x7d".toList))).takeWhile (fun c => c.isAlphanum || c == '_') =
      name := by
    rw [List.takeWhile_append_of_pos fun c hc => by simpa using hn.2 c hc]
    exact List.append_nil name
  have hrest : ((name ++ (":-".toList ++ (word ++ "\x7d".toList))).drop (name.length + 2)).dropLast = word := by
    rw [← List.drop_drop, List.drop_left]
    exact List.dropLast_concat
  simp only [paramDefault, hbody, hname, hrest]
  exact if_pos ⟨trivial, hn, hword⟩

/-- The variable that would force the option. -/
def forcing (name : Text) : Text := "SDECFGSET_".toList ++ stripPrefix "SDECFG_".toList name

theorem forcing_ne {x : Text} (hx : ¬ "SDECFGSET_".toList <+: x) : forcing name ≠ x := by
  rintro rfl
  exact hx (List.prefix_append _ _)

/-- The names of the configuration have another start. -/
theorem IsKey.not_forcing (hn : IsKey name) : ¬ "SDECFGSET_".toList <+: name := by
  intro h
  have hfront : "SDECFG_".toList <+: "SDECFGSET_".toList := List.prefix_of_prefix_length_le hn.front h (by decide)
  exact absurd hfront (by decide)

theorem asked_congr {f g : Text → Text} (hexpert : f "SDECFG_EXPERT".toList = g "SDECFG_EXPERT".toList)
    (hblock : f "expert".toList = g "expert".toList) : asked f = asked g := by
  rw [asked, asked, hexpert, hblock]

/-- The branch that is not forced. -/
theorem setValue_free (hn : IsKey name) (own : Text → Text) {word : Text} (hset : own (own "set_name".toList) = [])
    (hword : Harmless word) :
    setValue paramDefault own name word name = if asked own ∧ own name ≠ [] then own name else word := by
  have hm : name ≠ "menumode".toList := hn.ne (by decide)
  rw [setValue, if_neg (not_not.2 hset), paramDefault_eq hn.isName own hword]
  cases asked own with
  | false =>
    simp only [Bool.false_eq_true, if_false, false_and]
    rw [upd_ne _ _ _ _ hm, upd_same, upd_same]
  | true =>
    simp only [if_true, true_and, Option.getD_some]
    rw [upd_ne _ _ _ _ hm, upd_same, upd_same]

theorem setData_free (hn : IsKey name) (vars : Text → Text) (config : Text) {word : Text}
    (hset : vars (forcing name) = []) (hword : Harmless word) :
    (setData paramDefault ⟨vars, config⟩ name word).vars name =
      if asked vars ∧ vars name ≠ [] then vars name else word := by
  have hq : name ≠ ['q'] := hn.ne (by decide)
  have hs : name ≠ "set_name".toList := hn.ne (by decide)
  have hi : name ≠ "item".toList := hn.ne (by decide)
  have hl : name ∉ [['q'], "set_name".toList] := by simpa using ⟨hq, hs⟩
  have hfq : forcing name ≠ ['q'] := forcing_ne (by decide)
  have hfs : forcing name ≠ "set_name".toList := forcing_ne (by decide)
  obtain ⟨own, hown⟩ : ∃ own, own = upd (upd vars ['q'] ['\'']) "set_name".toList (forcing name) := ⟨_, rfl⟩
  have hsame : own name = vars name := by rw [hown, upd_ne _ _ _ _ hs, upd_ne _ _ _ _ hq]
  have hforced : own (own "set_name".toList) = [] := by
    rw [hown, upd_same, upd_ne _ _ _ _ hfs, upd_ne _ _ _ _ hfq, hset]
  have hasked : asked own = asked vars := by
    apply asked_congr
    · rw [hown, upd_ne _ _ _ _ (by decide), upd_ne _ _ _ _ (by decide)]
    · rw [hown, upd_ne _ _ _ _ (by decide), upd_ne _ _ _ _ (by decide)]
  have hvalue := setValue_free hn own hforced hword
  rw [hsame, hasked, hown] at hvalue
  simp only [setData, leave, if_neg hl, upd_ne _ _ _ _ hi]
  exact hvalue

theorem choice_vars (hn : IsKey name) (w : Session) (default : Text) (hne : choices ≠ [])
    (hvals : ∀ c ∈ choices, c.1 ≠ [] ∧ Harmless c.1) (hset : w.vars (forcing name) = []) :
    (choice paramDefault w name default choices).vars name = chosen (asked w.vars) (w.vars name) default choices := by
  have hd : name ≠ "defval".toList := hn.ne (by decide)
  have hl : name ∉ ["defval".toList] := by simpa using hd
  have hfd : forcing name ≠ "defval".toList := forcing_ne (by decide)
  have hnames : ∀ c ∈ choices, c.1 ≠ [] := fun c hc => (hvals c hc).1
  have hharmless : Harmless (fallback default choices) := by
    obtain ⟨c, hc, heq⟩ := listed_iff.1 (fallback_listed default hne)
    exact heq ▸ (hvals c hc).2
  have hset' : unlisted w.vars name default choices (forcing name) = [] := by
    rw [unlisted_same _ _ _ hfd (.inl (forcing_ne hn.not_forcing)) hd, hset]
  simp only [choice, leave, if_neg hl, defval_eq hn w.vars default hnames]
  rw [setData_free hn _ _ hset' hharmless, unlisted_name hn, chosen]
  by_cases hv : listed choices (w.vars name) = true
  · have hasked : asked (unlisted w.vars name default choices) = asked w.vars :=
      asked_congr (unlisted_same _ _ _ (by decide) (.inr hv) hd) (unlisted_same _ _ _ (by decide) (.inr hv) hd)
    have hne : w.vars name ≠ [] := by
      obtain ⟨c, hc, heq⟩ := listed_iff.1 hv
      exact heq ▸ hnames c hc
    rw [hasked]
    simp [hv, hne]
  · simp [hv]

end

/-- **The value is listed**: the old one if it can be asked for, else the default, else the first. It is the one that is
written, and it comes again. -/
theorem choice_valid {name : Text} {choices : List (Text × Text)} (hn : IsKey name) (w : Session) (default : Text)
    (hne : choices ≠ []) (hvals : ∀ c ∈ choices, c.1 ≠ [] ∧ Harmless c.1) (hset : w.vars (forcing name) = []) :
    let w' := choice paramDefault w name default choices
    listed choices (w'.vars name) = true ∧
      w'.vars name = chosen (asked w.vars) (w.vars name) default choices ∧
      Written name w w' ∧
      ∀ w₂ : Session, w₂.vars name = w'.vars name → asked w₂.vars = asked w.vars → w₂.vars (forcing name) = [] →
        (choice paramDefault w₂ name default choices).vars name = w'.vars name := by
  have hvalue := choice_vars hn w default hne hvals hset
  refine ⟨by rw [hvalue]; exact chosen_listed _ _ _ hne, hvalue, written_choice hn _ w default choices, ?_⟩
  intro w₂ hname hasked hset₂
  rw [choice_vars hn w₂ default hne hvals hset₂, hname, hasked, hvalue]
  cases asked w.vars with
  | false => simp [chosen]
  | true =>
    have hlisted := chosen_listed true (w.vars name) default hne
    rw [chosen, if_pos ⟨rfl, hlisted⟩]

/-- The old value is no longer in the list. -/
def oldSession : Session where
  vars := upd (upd (upd (fun _ => []) "SDECFG_EXPERT".toList ['0']) "expert".toList ['0']) "SDECFG_LIBC".toList
    "dietlibc".toList
  config := []

def libcs : List (Text × Text) := [("musl".toList, "Musl".toList), ("glibc".toList, "GNU".toList)]

theorem choice_libc :
    (choice paramDefault oldSession "SDECFG_LIBC".toList "glibc".toList libcs).vars "SDECFG_LIBC".toList =
      "glibc".toList := by
  have hvalid := @choice_valid "SDECFG_LIBC".toList libcs (by decide) oldSession "glibc".toList (by decide) (by decide)
    (by decide +kernel)
  have hold : listed libcs (oldSession.vars "SDECFG_LIBC".toList) = false := by decide +kernel
  have hfallback : fallback "glibc".toList libcs = "glibc".toList := by decide +kernel
  apply hvalid.2.1.trans
  rw [chosen, if_neg fun h => absurd (hold ▸ h.2) Bool.false_ne_true, hfallback]

end T2Sde.Config
