import T2Sde.Packages.Switch
/-!
# Rule files: the filter and the parser

Two matchers read the lines of a `pkgsel` file: the `grep` of `config.in`, which keeps the valid lines, and the Lua
pattern of `pkgsel_parse`. The Lua pattern takes the first two words with nothing but spaces between them
(`firstPair`), wherever they stand; a tab is no space for it. The message about a syntax error is never given.

| here | there |
| --- | --- |
| `kept`       | the filter `^[-xXoO=][ \t]\+[a-zA-Z0-9_/*+.-]` (`scripts/config.in`) :261 |
| `keptRule`   | what a kept line says |

* `lineRule_eq` — the rule of a line is that of its first pair.
* `raises_iff` — a line ends the parser with an error if a pattern is malformed for the table (`Raises`).
* `rules_agree` — **when filter and parser agree**.
-/
namespace T2Sde.Packages
open Shell Pattern Lua

/-! ## The filter -/

def actionChar (c : Char) : Bool := "-xXoO=".toList.contains c
def gapChar (c : Char) : Bool := " \t".toList.contains c
def patternChar (c : Char) : Bool := isAlnum c || "_/*+.-".toList.contains c

def filterItems : List Item := [.chr actionChar .one, .chr gapChar .plus, .chr patternChar .one]

/-- `grep "$filter"` prints the line. -/
def kept (line : Text) : Bool :=
  match run line filterItems [] line with
  | .ok _ => true
  | _ => false

/-- What stands between the action and the pattern. -/
def gap (line : Text) : Text := (line.drop 1).takeWhile gapChar

/-- The word behind the gap. -/
def keptPattern (line : Text) : Text := (((uncomment line).drop 1).dropWhile gapChar).takeWhile wordChar

def keptRule (line : Text) : Option Rule := if kept line then rule (line.take 1) (keptPattern line) else none

/-- Something is left when the comment is gone. -/
def Nonblank (line : Text) : Prop := ∃ c ∈ uncomment line, wordChar c = true

theorem not_gap_of_word {c : Char} (h : wordChar c = true) : gapChar c = false := by
  by_contra hg
  have hc : c = ' ' ∨ c = '\t' := by simpa [gapChar, or_iff_not_imp_left] using hg
  rcases hc with rfl | rfl <;> revert h <;> decide

theorem not_space_of_word {c : Char} (h : wordChar c = true) : space c = false := by
  by_contra hs
  obtain rfl := space_iff.1 (by simpa using hs)
  revert h
  decide

theorem not_word_of_gap {c : Char} (h : gapChar c = true) : wordChar c = false := by
  by_contra hw
  rw [not_gap_of_word (by simpa using hw)] at h
  simp at h

theorem word_of_action {c : Char} (h : actionChar c = true) : wordChar c = true := by
  have hall : ("-xXoO=".toList.all fun x => wordChar x) = true := by decide
  exact List.all_eq_true.1 hall c (by simpa [actionChar] using h)

theorem word_of_pattern {c : Char} (h : patternChar c = true) : wordChar c = true := by
  rcases Bool.or_eq_true_iff.1 h with h | h
  · have hs : isSpace c = false := by
      simp only [isAlnum, isLower, isUpper, isDigit, between, Bool.or_eq_true, Bool.and_eq_true,
        decide_eq_true_eq] at h
      rw [Bool.eq_false_iff]
      intro hs
      simp only [isSpace, between, Bool.or_eq_true, beq_iff_eq, Bool.and_eq_true, decide_eq_true_eq] at hs
      rcases hs with rfl | hs
      · revert h; decide
      · have h1 : 'a'.toNat = 97 := rfl
        have h2 : 'A'.toNat = 65 := rfl
        have h3 : '0'.toNat = 48 := rfl
        have h4 : '\x0d'.toNat = 13 := rfl
        omega
    show escClass 'S' c = true
    have hS : escClass 'S' c = !isSpace c := rfl
    rw [hS, hs]
    rfl
  · have hall : ("_/*+.-".toList.all fun x => wordChar x) = true := by decide
    exact List.all_eq_true.1 hall c (by simpa using h)

/-- The parts of a line that is kept. -/
structure KeptParts (line : Text) where
  action : Char
  gap : Text
  first : Char
  rest : Text
  line_eq : line = action :: (gap ++ first :: rest)
  isAction : actionChar action = true
  gap_ne : gap ≠ []
  isGap : ∀ c ∈ gap, gapChar c = true
  isPattern : patternChar first = true

theorem kept_parts {line : Text} (h : kept line = true) : Nonempty (KeptParts line) := by
  unfold kept at h
  cases hr : run line filterItems [] line with
  | fail => simp [hr] at h
  | error => simp [hr] at h
  | ok a =>
    obtain ⟨x, s, hline, hx, hs⟩ := one_sound hr
    rw [run_plus_dropWhile] at hs
    · split at hs
      · simp at hs
      · rename_i hne
        obtain ⟨c, rest, hdrop, hc, -⟩ := one_sound hs
        refine ⟨⟨x, s.takeWhile gapChar, c, rest, ?_, hx, hne, fun d hd => List.mem_takeWhile_imp hd, hc⟩⟩
        rw [← hdrop, List.takeWhile_append_dropWhile, hline]
    · intro c t hc
      rw [run_one, if_neg]
      intro hp
      rw [not_gap_of_word (word_of_pattern hp)] at hc
      simp at hc

/-! ## The pattern of the parser -/

/-- Two words at the front with nothing but spaces between them. -/
def pairAt (s : Text) : Option (Text × Text) :=
  let r := s.dropWhile wordChar
  let r' := r.dropWhile space
  if s.takeWhile wordChar = [] then none
  else if r.takeWhile space = [] then none
  else if r'.takeWhile wordChar = [] then none
  else some (s.takeWhile wordChar, r'.takeWhile wordChar)

/-- The first such pair. -/
def firstPair : Text → Option (Text × Text)
  | [] => none
  | c :: s => (pairAt (c :: s)).or (firstPair s)

def lastWordItems : List Item := [.opening, .chr wordChar .plus, .closing]

def pairItems : List Item :=
  .opening :: .chr wordChar .plus :: .closing :: .chr space .plus :: lastWordItems

theorem items_pair : items "(%S+) +(%S+)".toList = pairItems := by
  have htoks : toks "(%S+) +(%S+)".toList =
      [.opening, .chr (.esc 'S') .plus, .closing, .chr (.lit ' ') .plus, .opening, .chr (.esc 'S') .plus,
        .closing] := by
    decide
  rw [items, htoks]
  rfl

theorem run_lastWord {src : Text} {caps : List Cap} (hcaps : caps.length < maxCaptures) (s : Text) :
    run src lastWordItems caps s =
      if s.takeWhile wordChar = [] then .fail
      else .ok (.text (s.takeWhile wordChar) :: caps, s.dropWhile wordChar) := by
  split
  · rename_i hnil
    rw [lastWordItems, run_opening _ hcaps]
    cases s with
    | nil => rfl
    | cons c s =>
      rw [run_plus, if_neg]
      intro hc
      rw [List.takeWhile_cons_of_pos hc] at hnil
      simp at hnil
  · rename_i hne
    conv_lhs => rw [← List.takeWhile_append_dropWhile (p := wordChar) (l := s)]
    exact run_capture hcaps hne (fun c hc => List.mem_takeWhile_imp hc) (stops_dropWhile _ s) (by simp)

theorem run_pair (src s : Text) :
    (run src pairItems [] s).map Prod.fst =
      match pairAt s with
      | some (a, p) => .ok [.text p, .text a]
      | none => .fail := by
  -- a word never goes on with a space, and a gap never with a word: each repetition has one choice
  have hspace : ∀ w c t, wordChar c = true →
      run src (.chr space .plus :: lastWordItems) (.text w :: []) (c :: t) = .fail := by
    intro w c t hc
    rw [run_plus, not_space_of_word hc]
    rfl
  have hword : ∀ w c t, space c = true → run src lastWordItems (.text w :: []) (c :: t) = .fail := by
    intro w c t hc
    rw [run_lastWord (by simp [maxCaptures]), if_pos]
    obtain rfl := space_iff.1 hc
    rfl
  rw [pairItems, run_capture_dropWhile (by simp [maxCaptures]) hspace, pairAt]
  split
  · rfl
  · rw [run_plus_dropWhile (hword _)]
    split
    · rfl
    · rw [run_lastWord (by simp [maxCaptures])]
      split
      · rfl
      · rfl

theorem search_pair (src s : Text) :
    (search src pairItems s).map Hit.caps =
      match firstPair s with
      | some (a, p) => .ok [.text a, .text p]
      | none => .fail := by
  induction s with
  | nil => rfl
  | cons c s ih =>
    have hrun := run_pair src (c :: s)
    rw [search, firstPair]
    cases hp : pairAt (c :: s) with
    | none =>
      rw [hp] at hrun
      cases hr : run src pairItems [] (c :: s) with
      | fail => exact ih
      | error => simp [hr, Res.map] at hrun
      | ok x => simp [hr, Res.map] at hrun
    | some x =>
      rw [hp] at hrun
      cases hr : run src pairItems [] (c :: s) with
      | fail => simp [hr, Res.map] at hrun
      | error => simp [hr, Res.map] at hrun
      | ok y =>
        simp only [hr, Res.map, Res.ok.injEq] at hrun
        simp [Res.map, hrun]

/-- **The rule of a line** is that of its first pair. -/
theorem lineRule_eq (line : Text) : lineRule line = (firstPair line).bind fun x => rule x.1 x.2 := by
  have hs := search_pair line line
  obtain ⟨pattern, hpattern⟩ : ∃ pattern, "(%S+) +(%S+)".toList = '(' :: pattern := ⟨_, rfl⟩
  rw [← items_pair, hpattern] at hs
  rw [lineRule, hpattern]
  cases hf : firstPair line with
  | none =>
    rw [hf] at hs
    cases hx : search line (items ('(' :: pattern)) line with
    | fail => simp [strMatch, hx]
    | error => simp [strMatch, hx]
    | ok h => simp [hx, Res.map] at hs
  | some x =>
    rw [hf] at hs
    cases hx : search line (items ('(' :: pattern)) line with
    | fail => simp [hx, Res.map] at hs
    | error => simp [hx, Res.map] at hs
    | ok h =>
      obtain ⟨start, caps, rest⟩ := h
      simp only [hx, Res.map, Res.ok.injEq] at hs
      subst hs
      have ht := @texts_of_text start rest [x.1, x.2] (by simp)
      simp only [List.map_cons, List.map_nil] at ht
      simp [strMatch, hx, ht]

/-! ## Lines -/

/-- The mode that an action names. -/
def actionMode (a : Text) : Option Mode :=
  if a = ['x'] ∨ a = ['X'] then some .X
  else if a = ['o'] ∨ a = ['O'] then some .O
  else if a = ['-'] then some .removed
  else if a = ['='] then some .default
  else none

/-- Between the action and the pattern there are spaces only. -/
def Spaced (line : Text) : Prop := ∀ c ∈ gap line, space c = true

/-- The first pair behind the action says the same once more. -/
def Repeats (line : Text) : Prop :=
  ∃ a, firstPair ((uncomment line).drop 1) = some (a, keptPattern line) ∧ actionMode a = actionMode (line.take 1)

/-- The first pair is an action and a pattern, or an `include`. -/
def Known (line : Text) : Prop :=
  ∃ a p, firstPair (uncomment line) = some (a, p) ∧ (a = "include".toList ∨ actionMode a ≠ none)

theorem rule_eq (a p : Text) : rule a p =
    match actionMode a with
    | some m => some (.switch m p)
    | none => if a = "include".toList then some (.include p) else none := by
  unfold rule actionMode
  by_cases h1 : a = ['x'] ∨ a = ['X']
  · simp [h1]
  by_cases h2 : a = ['o'] ∨ a = ['O']
  · simp [h1, h2]
  by_cases h3 : a = ['-']
  · simp [h3]
  by_cases h4 : a = ['=']
  · simp [h4]
  rw [if_neg (by simpa using h1), if_neg (by simpa using h2), if_neg h3, if_neg h4, if_neg h1, if_neg h2, if_neg h3,
    if_neg h4]

theorem rule_eq_switch {a p p' : Text} {m : Mode} :
    rule a p = some (.switch m p') ↔ actionMode a = some m ∧ p = p' := by
  rw [rule_eq]
  cases actionMode a with
  | some m' => simp
  | none =>
    by_cases h : a = "include".toList
    · simp [h]
    · rw [if_neg h]
      simp

theorem known_iff {line : Text} : Known line ↔ (lineRule (uncomment line)).isSome = true := by
  rw [lineRule_eq]
  unfold Known
  cases firstPair (uncomment line) with
  | none => simp
  | some x =>
    obtain ⟨a, p⟩ := x
    rw [Option.bind_some, rule_eq]
    cases hm : actionMode a with
    | some m => simp [hm]
    | none =>
      constructor
      · rintro ⟨_, _, ⟨⟩, h | h⟩
        · rw [if_pos h]
          rfl
        · exact absurd hm h
      · intro h
        refine ⟨a, p, rfl, .inl ?_⟩
        by_contra hne
        rw [if_neg hne] at h
        simp at h

theorem actionMode_of_actionChar {c : Char} (h : actionChar c = true) : ∃ m, actionMode [c] = some m := by
  have hc : c = '-' ∨ c = 'x' ∨ c = 'X' ∨ c = 'o' ∨ c = 'O' ∨ c = '=' := by
    simpa [actionChar, or_iff_not_imp_left] using h
  rcases hc with rfl | rfl | rfl | rfl | rfl | rfl <;> exact ⟨_, rfl⟩

section
variable {line : Text} (q : KeptParts line)

theorem KeptParts.head_ne : q.action ≠ '#' ∧ q.first ≠ '#' ∧ ∀ c ∈ q.gap, c ≠ '#' := by
  refine ⟨?_, ?_, ?_⟩
  · intro h
    have := q.isAction
    rw [h] at this
    revert this; decide
  · intro h
    have := q.isPattern
    rw [h] at this
    revert this; decide
  · rintro c hc rfl
    have := q.isGap _ hc
    revert this; decide

theorem KeptParts.uncomment_eq : uncomment line = q.action :: (q.gap ++ q.first :: uncomment q.rest) := by
  obtain ⟨h1, h2, h3⟩ := q.head_ne
  conv_lhs => rw [q.line_eq]
  unfold uncomment
  rw [List.takeWhile_cons_of_pos (by simpa using h1), List.takeWhile_append_of_pos (by simpa using h3),
    List.takeWhile_cons_of_pos (by simpa using h2)]

theorem KeptParts.first_word : wordChar q.first = true := word_of_pattern q.isPattern

theorem KeptParts.take_one : line.take 1 = [q.action] := by
  conv_lhs => rw [q.line_eq]
  rfl

theorem KeptParts.gap_eq : Packages.gap line = q.gap := by
  unfold Packages.gap
  conv_lhs => rw [q.line_eq]
  rw [List.drop_one, List.tail_cons, List.takeWhile_append_of_pos q.isGap,
    List.takeWhile_cons_of_neg (by simp [not_gap_of_word q.first_word]), List.append_nil]

theorem KeptParts.keptPattern_eq : keptPattern line = q.first :: (uncomment q.rest).takeWhile wordChar := by
  unfold keptPattern
  rw [q.uncomment_eq, List.drop_one, List.tail_cons, List.dropWhile_append_of_pos q.isGap,
    List.dropWhile_cons_of_neg (by simp [not_gap_of_word q.first_word]), List.takeWhile_cons_of_pos q.first_word]

/-- The action and the pattern are a pair exactly if there are spaces between them. -/
theorem KeptParts.pairAt_eq :
    pairAt (uncomment line) = if ∀ c ∈ q.gap, space c = true then some ([q.action], keptPattern line) else none := by
  obtain ⟨g, gs, hg⟩ := List.exists_cons_of_ne_nil q.gap_ne
  have hgw : wordChar g = false := not_word_of_gap (q.isGap g (by simp [hg]))
  have htake : (uncomment line).takeWhile wordChar = [q.action] := by
    rw [q.uncomment_eq, List.takeWhile_cons_of_pos (word_of_action q.isAction), hg, List.cons_append,
      List.takeWhile_cons_of_neg (by simp [hgw])]
  have hdrop : (uncomment line).dropWhile wordChar = q.gap ++ q.first :: uncomment q.rest := by
    rw [q.uncomment_eq, List.dropWhile_cons_of_pos (word_of_action q.isAction), hg, List.cons_append,
      List.dropWhile_cons_of_neg (by simp [hgw])]
  rw [pairAt, htake, hdrop, if_neg (by simp)]
  by_cases hsp : ∀ c ∈ q.gap, space c = true
  · have hfirst : ¬ space q.first = true := by simp [not_space_of_word q.first_word]
    rw [List.takeWhile_append_of_pos hsp, List.dropWhile_append_of_pos hsp, List.dropWhile_cons_of_neg hfirst,
      List.takeWhile_cons_of_pos q.first_word, q.keptPattern_eq, if_neg (by simp [hg]), if_neg (by simp), if_pos hsp]
  · rw [if_neg hsp]
    have hne : q.gap.dropWhile space ≠ [] := fun h => hsp (List.dropWhile_eq_nil_iff.1 h)
    obtain ⟨d, ds, hd⟩ := List.exists_cons_of_ne_nil hne
    have hdg : d ∈ q.gap := (List.dropWhile_sublist _).subset (hd ▸ List.mem_cons_self)
    have hrest : (q.gap ++ q.first :: uncomment q.rest).dropWhile space = d :: (ds ++ q.first :: uncomment q.rest) := by
      rw [List.dropWhile_append, hd]
      rfl
    rw [hrest, List.takeWhile_cons_of_neg (by simp [not_word_of_gap (q.isGap d hdg)]), if_pos rfl, ite_self]

end

theorem kept_nonblank {line : Text} (h : kept line = true) : Nonblank line := by
  obtain ⟨q⟩ := kept_parts h
  refine ⟨q.action, ?_, word_of_action q.isAction⟩
  rw [q.uncomment_eq]
  exact List.mem_cons_self

/-- A kept line says a switch. -/
theorem keptRule_kept {line : Text} (h : kept line = true) :
    ∃ m, actionMode (line.take 1) = some m ∧ keptRule line = some (.switch m (keptPattern line)) := by
  obtain ⟨q⟩ := kept_parts h
  obtain ⟨m, hm⟩ := actionMode_of_actionChar q.isAction
  refine ⟨m, by rw [q.take_one, hm], ?_⟩
  rw [keptRule, if_pos h, q.take_one, rule_eq, hm]

/-- **A kept line** is read as it says exactly if spaces stand between action and pattern, or it repeats itself. -/
theorem lineRule_kept {line : Text} (h : kept line = true) :
    lineRule (uncomment line) = keptRule line ↔ Spaced line ∨ Repeats line := by
  obtain ⟨q⟩ := kept_parts h
  obtain ⟨m, hm, hrule⟩ := keptRule_kept h
  have hfirst : firstPair (uncomment line) =
      (pairAt (uncomment line)).or (firstPair ((uncomment line).drop 1)) := by
    rw [q.uncomment_eq]
    rfl
  have hspaced : Spaced line ↔ ∀ c ∈ q.gap, space c = true := by rw [Spaced, q.gap_eq]
  rw [hrule, lineRule_eq, hfirst, q.pairAt_eq]
  by_cases hs : ∀ c ∈ q.gap, space c = true
  · rw [if_pos hs, Option.some_or, Option.bind_some, rule_eq_switch]
    rw [q.take_one] at hm
    simp [hm, hspaced.2 hs]
  · rw [if_neg hs, Option.none_or]
    have hns : ¬ Spaced line := fun h => hs (hspaced.1 h)
    simp only [hns, false_or, Repeats, hm]
    cases firstPair ((uncomment line).drop 1) with
    | none => simp
    | some x =>
      obtain ⟨a, p⟩ := x
      rw [Option.bind_some, rule_eq_switch]
      simp [and_comm]

/-! ## Errors -/

/-- The loop of `pkgswitch` comes to an entry at which the matcher finds the pattern malformed. -/
def Malformed (g : Target) (t : Table) : Prop :=
  ∃ (i : Nat) (e : Pkg), t[i]? = some e ∧ matching g e = .error ∧
    ∀ j < i, ∀ x : Pkg, t[j]? = some x → matching g x = .ok () → g.single = false

/-- The line, or one in a file that it includes, has such a pattern. -/
inductive Raises (files : Files) (t : Table) : Nat → Text → Prop
  | malformed {n : Nat} {line pattern : Text} {m : Mode} (hline : lineRule (uncomment line) = some (.switch m pattern))
      (hbad : Malformed (target pattern) t) : Raises files t n line
  | included {n : Nat} {line file line' : Text} {lines : List Text}
      (hline : lineRule (uncomment line) = some (.include file)) (hfile : files file = some lines)
      (hmem : line' ∈ lines) (hbad : Raises files t n line') : Raises files t (n + 1) line

theorem malformed_nil (g : Target) : ¬ Malformed g [] := by
  rintro ⟨i, e, he, -⟩
  simp at he

theorem malformed_cons {g : Target} {p : Pkg} {ps : Table} :
    Malformed g (p :: ps) ↔ matching g p = .error ∨ (matching g p = .ok () → g.single = false) ∧ Malformed g ps := by
  constructor
  · rintro ⟨i, e, he, herr, hbefore⟩
    cases i with
    | zero =>
      obtain rfl := Option.some.inj he
      exact .inl herr
    | succ i =>
      refine .inr ⟨hbefore 0 (Nat.succ_pos i) p rfl, i, e, by simpa using he, herr, ?_⟩
      intro j hj x hx
      exact hbefore (j + 1) (by omega) x (by simpa using hx)
  · rintro (herr | ⟨hp, i, e, he, herr, hbefore⟩)
    · exact ⟨0, p, rfl, herr, by simp⟩
    · refine ⟨i + 1, e, by simpa using he, herr, ?_⟩
      intro j hj x hx hok
      cases j with
      | zero =>
        obtain rfl := Option.some.inj hx
        exact hp hok
      | succ j => exact hbefore j (by omega) x (by simpa using hx) hok

theorem switchArg_ok (m : Mode) (g : Target) (t : Table) : (switchArg m g t).2 = false ↔ Malformed g t := by
  induction t with
  | nil => simp [switchArg, malformed_nil]
  | cons p ps ih =>
    rw [switchArg, malformed_cons]
    cases hm : matching g p with
    | error => simp
    | fail => simp [ih]
    | ok u =>
      cases hs : g.single with
      | true => simp
      | false => simp [ih]

theorem Malformed.of_kept {g : Target} {t t' : Table} (hk : Kept t t') (h : Malformed g t') : Malformed g t := by
  obtain ⟨i, e', he', herr, hbefore⟩ := h
  obtain ⟨e, he, hl⟩ := hk.entry_of he'
  refine ⟨i, e, he, by rw [← hl.matching, herr], ?_⟩
  intro j hj x hx hok
  obtain ⟨x', hx', hlx⟩ := hk.entry hx
  exact hbefore j hj x' hx' (by rw [hlx.matching, hok])

theorem Malformed.kept {g : Target} {t t' : Table} (hk : Kept t t') (h : Malformed g t) : Malformed g t' := by
  obtain ⟨i, e, he, herr, hbefore⟩ := h
  obtain ⟨e', he', hl⟩ := hk.entry he
  refine ⟨i, e', he', by rw [hl.matching, herr], ?_⟩
  intro j hj x' hx' hok
  obtain ⟨x, hx, hlx⟩ := hk.entry_of hx'
  exact hbefore j hj x hx (by rw [← hlx.matching, hok])

/-- Whether a pattern is malformed for a table is decided by the names. -/
theorem malformed_kept {g : Target} {t t' : Table} (hk : Kept t t') : Malformed g t' ↔ Malformed g t :=
  ⟨.of_kept hk, .kept hk⟩

/-- A file ends with an error if one of its lines does. -/
theorem selLines_error {sub : Text → Table → Out} {t : Table} {R : Text → Prop}
    (hsub : ∀ f t, Kept t (sub f t).packages)
    (hR : ∀ line t', Kept t t' → ((selLine sub line t').ok = false ↔ R line)) (lines : List Text) {t' : Table}
    (hk : Kept t t') : (selLines sub lines t').ok = false ↔ ∃ line ∈ lines, R line := by
  induction lines generalizing t' with
  | nil => simp [selLines]
  | cons line lines ih =>
    have hline := hR line t' hk
    rw [selLines, List.exists_mem_cons_iff, ← hline]
    cases hok : (selLine sub line t').ok with
    | false => simp [hok]
    | true => simpa using ih (hk.trans (selLine_kept hsub line t'))

section
variable {sub : Text → Table → Out} {line : Text} {t : Table}

theorem selLine_none (h : lineRule (uncomment line) = none) : selLine sub line t = ⟨t, [], true⟩ := by
  rw [selLine, h]
  rfl

theorem selLine_switch {m : Mode} {pattern : Text} (h : lineRule (uncomment line) = some (.switch m pattern)) :
    selLine sub line t = ⟨(pkgswitch m [pattern] t).1, [.switch m pattern], (pkgswitch m [pattern] t).2⟩ := by
  rw [selLine, h]

theorem selLine_include {file : Text} (h : lineRule (uncomment line) = some (.include file)) :
    selLine sub line t = ⟨(sub file t).packages, .include file :: (sub file t).log, (sub file t).ok⟩ := by
  rw [selLine, h]

end

theorem pkgswitch_one_ok (m : Mode) (pattern : Text) (t : Table) :
    (pkgswitch m [pattern] t).2 = false ↔ Malformed (target pattern) t := by
  rw [← switchArg_ok m, pkgswitch]
  cases h : (switchArg m (target pattern) t).2 with
  | true => simp [pkgswitch]
  | false => simp [h]

section
variable {files : Files} {n : Nat} {t : Table} {line : Text}

theorem raises_none (h : lineRule (uncomment line) = none) : ¬ Raises files t n line := by
  intro hr
  cases hr with
  | malformed hline => simp [h] at hline
  | included hline => simp [h] at hline

theorem raises_switch {m : Mode} {pattern : Text} (h : lineRule (uncomment line) = some (.switch m pattern)) :
    Raises files t n line ↔ Malformed (target pattern) t := by
  refine ⟨fun hr => ?_, .malformed h⟩
  cases hr with
  | malformed hline hbad =>
    obtain ⟨-, rfl⟩ : m = _ ∧ pattern = _ := by simpa [h] using hline
    exact hbad
  | included hline => simp [h] at hline

theorem raises_include {file : Text} (h : lineRule (uncomment line) = some (.include file)) :
    Raises files t n line ↔
      ∃ k lines, n = k + 1 ∧ files file = some lines ∧ ∃ line' ∈ lines, Raises files t k line' := by
  constructor
  · intro hr
    cases hr with
    | malformed hline => simp [h] at hline
    | included hline hfile hmem hbad =>
      obtain rfl : file = _ := by simpa [h] using hline
      exact ⟨_, _, rfl, hfile, _, hmem, hbad⟩
  · rintro ⟨k, lines, rfl, hfile, line', hmem, hbad⟩
    exact .included h hfile hmem hbad

end

/-- **Errors**: a line ends with an error exactly if it, or one that it includes, has a malformed pattern. -/
theorem raises_iff (files : Files) (n : Nat) (t : Table) (line : Text) {t' : Table} (hk : Kept t t') :
    (selLine (pkgselParse files n) line t').ok = false ↔ Raises files t n line := by
  induction n generalizing line t' with
  | zero =>
    rcases hr : lineRule (uncomment line) with _ | ⟨m, pattern⟩ | ⟨file⟩
    · simp [selLine_none hr, raises_none hr]
    · rw [selLine_switch hr, raises_switch hr, pkgswitch_one_ok, malformed_kept hk]
    · simp [selLine_include hr, raises_include hr, pkgselParse]
  | succ n ih =>
    rcases hr : lineRule (uncomment line) with _ | ⟨m, pattern⟩ | ⟨file⟩
    · simp [selLine_none hr, raises_none hr]
    · rw [selLine_switch hr, raises_switch hr, pkgswitch_one_ok, malformed_kept hk]
    · rw [selLine_include hr, raises_include hr]
      cases hf : files file with
      | none => simp [pkgselParse, hf]
      | some lines =>
        have hlines := selLines_error (pkgselParse_kept files n) (fun line t' hk => ih line hk) lines hk
        simp only [pkgselParse, hf]
        rw [hlines]
        simp

/-! ## Agreement -/

/-- The loop comes to line `j`, with the table as the lines before have left it. -/
structure Comes (sub : Text → Table → Out) (lines : List Text) (t : Table) (j : Nat) (t' : Table) : Prop where
  ok : (selLines sub (lines.take j) t).ok = true
  packages : (selLines sub (lines.take j) t).packages = t'

/-- The line is applied with this mode to this pattern. -/
def Applied (sub : Text → Table → Out) (line : Text) (t : Table) (m : Mode) (pattern : Text) : Prop :=
  selLine sub line t = ⟨(pkgswitch m [pattern] t).1, [.switch m pattern], true⟩

/-- The line is applied, or it includes a file, or it is reported. -/
def Treated (sub : Text → Table → Out) (line : Text) (t : Table) : Prop :=
  (∃ m pattern, Applied sub line t m pattern) ∨
    (∃ file, selLine sub line t = ⟨(sub file t).packages, .include file :: (sub file t).log, true⟩) ∨
    selLine sub line t = ⟨t, [.syntaxError (uncomment line)], true⟩

/-- Filter and parser agree on the lines of a file. -/
structure Agrees (files : Files) (n : Nat) (lines : List Text) (t : Table) : Prop where
  kept : ∀ j line m pattern, lines[j]? = some line → keptRule line = some (.switch m pattern) →
    ∃ t', Comes (pkgselParse files n) lines t j t' ∧ Applied (pkgselParse files n) line t' m pattern
  nonblank : ∀ j line, lines[j]? = some line → Nonblank line →
    ∃ t', Comes (pkgselParse files n) lines t j t' ∧ Treated (pkgselParse files n) line t'

/-- The condition: separators, actions and patterns of the lines. -/
structure Plain (files : Files) (n : Nat) (lines : List Text) (t : Table) : Prop where
  spaced : ∀ line ∈ lines, kept line = true → Spaced line ∨ Repeats line
  known : ∀ line ∈ lines, Nonblank line → Known line
  sound : ∀ line ∈ lines, ¬ Raises files t n line

theorem word_of_pairAt {s : Text} {x : Text × Text} (h : pairAt s = some x) : ∃ c ∈ s, wordChar c = true := by
  have hne : s.takeWhile wordChar ≠ [] := by
    intro hnil
    simp [pairAt, hnil] at h
  obtain ⟨d, ds, hd⟩ := List.exists_cons_of_ne_nil hne
  have hmem : d ∈ s.takeWhile wordChar := hd ▸ List.mem_cons_self
  exact ⟨d, (List.takeWhile_sublist _).subset hmem, List.mem_takeWhile_imp hmem⟩

theorem word_of_firstPair {s : Text} {x : Text × Text} (h : firstPair s = some x) : ∃ c ∈ s, wordChar c = true := by
  induction s with
  | nil => simp [firstPair] at h
  | cons c s ih =>
    rw [firstPair] at h
    cases hp : pairAt (c :: s) with
    | none =>
      rw [hp, Option.none_or] at h
      obtain ⟨d, hd, hw⟩ := ih h
      exact ⟨d, List.mem_cons_of_mem _ hd, hw⟩
    | some y => exact word_of_pairAt hp

theorem nonblank_of_rule {line : Text} (h : lineRule (uncomment line) ≠ none) : Nonblank line := by
  rw [lineRule_eq] at h
  cases hf : firstPair (uncomment line) with
  | none => simp [hf] at h
  | some x => exact word_of_firstPair hf

theorem Treated.ok {sub : Text → Table → Out} {line : Text} {t : Table} (h : Treated sub line t) :
    (selLine sub line t).ok = true := by
  rcases h with ⟨m, pattern, h⟩ | ⟨file, h⟩ | h
  · rw [h]
  · rw [h]
  · rw [h]

/-- Nothing is reported. -/
theorem Treated.rule {sub : Text → Table → Out} {line : Text} {t : Table} (h : Treated sub line t) :
    lineRule (uncomment line) ≠ none := by
  intro hr
  have hline : selLine sub line t = ⟨t, [], true⟩ := selLine_none hr
  rcases h with ⟨m, pattern, h⟩ | ⟨file, h⟩ | h
  · simp [Applied, hline] at h
  · simp [hline] at h
  · simp [hline] at h

theorem Applied.rule {sub : Text → Table → Out} {line : Text} {t : Table} {m : Mode} {pattern : Text}
    (h : Applied sub line t m pattern) : lineRule (uncomment line) = some (.switch m pattern) := by
  rcases hr : lineRule (uncomment line) with _ | ⟨m', pattern'⟩ | ⟨file⟩
  · simp [Applied, selLine_none hr] at h
  · simp only [Applied, selLine_switch hr, Out.mk.injEq, List.cons.injEq, Event.switch.injEq] at h
    obtain ⟨-, ⟨⟨rfl, rfl⟩, -⟩, -⟩ := h
    rfl
  · simp [Applied, selLine_include hr] at h

section
variable {files : Files} {n : Nat} {lines : List Text} {t : Table}

theorem Plain.comes (h : Plain files n lines t) (j : Nat) :
    ∃ t', Comes (pkgselParse files n) lines t j t' ∧ Kept t t' := by
  refine ⟨_, ⟨?_, rfl⟩, selLines_kept (pkgselParse_kept files n) _ t⟩
  by_contra hok
  obtain ⟨line, hmem, hbad⟩ := (selLines_error (pkgselParse_kept files n)
    (fun line _ hk => raises_iff files n t line hk) (lines.take j) (Kept.refl t)).1 (by simpa using hok)
  exact h.sound line (List.mem_of_mem_take hmem) hbad

theorem Plain.line_ok (h : Plain files n lines t) {line : Text} (hmem : line ∈ lines) {t' : Table} (hk : Kept t t') :
    (selLine (pkgselParse files n) line t').ok = true := by
  by_contra hok
  exact h.sound line hmem ((raises_iff files n t line hk).1 (by simpa using hok))

theorem Plain.agrees (h : Plain files n lines t) : Agrees files n lines t := by
  constructor
  · intro j line m pattern hj hrule
    have hmem := List.mem_of_getElem? hj
    have hkept : Packages.kept line = true := by
      by_contra hk
      simp [keptRule, hk] at hrule
    have hline := ((lineRule_kept hkept).2 (h.spaced line hmem hkept)).trans hrule
    obtain ⟨t', hc, hk⟩ := h.comes j
    have hok := h.line_ok hmem hk
    refine ⟨t', hc, ?_⟩
    rw [selLine_switch hline] at hok
    rw [Applied, selLine_switch hline]
    exact congrArg _ hok
  · intro j line hj hblank
    have hmem := List.mem_of_getElem? hj
    obtain ⟨t', hc, hk⟩ := h.comes j
    have hok := h.line_ok hmem hk
    refine ⟨t', hc, ?_⟩
    have hknown := known_iff.1 (h.known line hmem hblank)
    rcases hr : lineRule (uncomment line) with _ | ⟨m, pattern⟩ | ⟨file⟩
    · simp [hr] at hknown
    · rw [selLine_switch hr] at hok
      refine .inl ⟨m, pattern, ?_⟩
      rw [Applied, selLine_switch hr]
      exact congrArg _ hok
    · rw [selLine_include hr] at hok
      refine .inr (.inl ⟨file, ?_⟩)
      rw [selLine_include hr]
      exact congrArg _ hok

theorem Agrees.plain (h : Agrees files n lines t) : Plain files n lines t := by
  constructor
  · intro line hmem hkept
    obtain ⟨j, hj⟩ := List.getElem?_of_mem hmem
    obtain ⟨m, -, hrule⟩ := keptRule_kept hkept
    obtain ⟨t', -, happ⟩ := h.kept j line m _ hj hrule
    exact (lineRule_kept hkept).1 (happ.rule.trans hrule.symm)
  · intro line hmem hblank
    obtain ⟨j, hj⟩ := List.getElem?_of_mem hmem
    obtain ⟨t', -, htreated⟩ := h.nonblank j line hj hblank
    exact known_iff.2 (Option.isSome_iff_ne_none.2 htreated.rule)
  · intro line hmem hbad
    obtain ⟨j, hj⟩ := List.getElem?_of_mem hmem
    have hblank : Nonblank line := nonblank_of_rule (by
      cases hbad with
      | malformed hline => simp [hline]
      | included hline => simp [hline])
    obtain ⟨t', hc, htreated⟩ := h.nonblank j line hj hblank
    have hk : Kept t t' := hc.packages ▸ selLines_kept (pkgselParse_kept files n) _ t
    have herr := (raises_iff files n t line hk).2 hbad
    simp [htreated.ok] at herr

end

/-- **Filter and parser**: a kept line is applied as it says, and no line with a rule or a word in it is passed over,
exactly if spaces (not tabs) stand behind the actions, all actions are known, and no pattern is malformed. -/
theorem rules_agree (files : Files) (n : Nat) (lines : List Text) (t : Table) :
    Agrees files n lines t ↔ Plain files n lines t :=
  ⟨Agrees.plain, Plain.agrees⟩

/-- A tab behind the action: the filter keeps the line, the parser passes over it, and so it does with an unknown
action. -/
theorem rules_tab :
    let lines := ["X\tzlib".toList, "enable zlib".toList]
    let t := pkglistread ["O -1---5---9 122.100 base zlib 1.2.11 / base/library 0".toList]
    keptRule "X\tzlib".toList = some (.switch .X "zlib".toList) ∧
      pkgcheck "zlib".toList ['O'] t = .yes ∧
      selLines (pkgselParse (fun _ => none) 0) lines t = ⟨t, [], true⟩ ∧
      ¬ Agrees (fun _ => none) 0 lines t := by
  have htab : lineRule (uncomment "X\tzlib".toList) = none := by decide
  have hword : lineRule (uncomment "enable zlib".toList) = none := by decide
  refine ⟨by decide, by decide +kernel, ?_, fun h => ?_⟩
  · simp only [selLines, selLine_none htab, selLine_none hword, if_true, List.append_nil]
  · have hknown := known_iff.1 (h.plain.known _ List.mem_cons_self (kept_nonblank (by decide)))
    rw [htab] at hknown
    simp at hknown

end T2Sde.Packages
