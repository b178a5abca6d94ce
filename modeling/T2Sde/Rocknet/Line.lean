import T2Sde.Lib.Read
import T2Sde.Rocknet.Registry
/-!
# A line of the configuration (`package/network/rocknet/rocknet.sh`, `stone_mod_network.sh`)

The comment is cut off, `read` takes the backslashes away, and `sed` puts some of them back. The loop that writes the
file does not cut the comment off: what it takes for the arguments reaches to the end of the line.

| here | there |
| --- | --- |
| `stripComment` | `sed` stone_mod_network.sh:47, rocknet.sh:111 |
| `statement`    | `read` and what is done with it :33-36, :72-75, rocknet.sh:92-96 |
| `profOf`       | `prof=` :38, :87 |
| `indented`     | `echo -en` :54, :94 |

* `Clear` — no comment starts in the text.
* `line_cases` — **what is read of a line with its comment and without it**.
* `pass_reads`, `tag_reads` — what is written is read as it was.
-/
namespace T2Sde.Rocknet
open Shell

/-! ## The programs -/

def stripFrom : Text → Text
  | [] => []
  | c :: s => if (c = ' ' ∨ c = '\t') ∧ s.head? = some '#' then [] else c :: stripFrom s

/-- `sed 's,\(^\|[ \t]\)#.*$,,'` -/
def stripComment (line : Text) : Text := if line.head? = some '#' then [] else stripFrom line

structure Statement where
  cmd : Text
  para : Text
  deriving DecidableEq, Repr

def underscored (s : Text) : Text := s.map fun c => if c = '-' then '_' else c

/-- `sed 's,[\*\?],\\&,g'`; in the brackets the backslash is a character. -/
def escapeMarks (s : Text) : Text := s.flatMap fun c => if c = '*' ∨ c = '?' ∨ c = '\\' then ['\\', c] else [c]

/-- `read netcmd para`, and the two as they are made by each of the loops. -/
def statement (m : List ReadChar) : Option Statement :=
  let fields := readFields 1 m
  let netcmd := fields.getD 0 []
  if netcmd = [] then none else some ⟨underscored netcmd, escapeMarks (echoN (fields.getD 1 []))⟩

/-- `sed 's,[(),],_,g'` -/
def profOf (para : Text) : Text := (echoN para).map fun c => if c = '(' ∨ c = ',' ∨ c = ')' then '_' else c

def interface : Text := "interface".toList

/-- The line of a statement. -/
def Statement.text (s : Statement) : Text := s.cmd ++ ' ' :: s.para

/-- What rocknet and `read_section` read of a line. -/
def clean (line : Text) : Option Statement := statement (unescape (stripComment line)).1

/-- What `write_section` reads of it. -/
def raw (line : Text) : Option Statement := statement (unescape line).1

def indented (globals : Bool) (t : Text) : Text := if globals then t else '\t' :: t

/-! ## Comments -/

/-- No comment starts in the text; `b` says that one could at its first character. -/
def Clear : Bool → Text → Prop
  | _, [] => True
  | b, c :: s => ¬ (b = true ∧ c = '#') ∧ Clear (isBlank c) s

instance decidableClear : (b : Bool) → (s : Text) → Decidable (Clear b s)
  | _, [] => isTrue trivial
  | _, c :: s =>
    have : Decidable (Clear (isBlank c) s) := decidableClear (isBlank c) s
    inferInstanceAs (Decidable (_ ∧ _))

/-- The backslashes of a line: it does not run into the next one, no blank is escaped in the statement, no comment
starts where a backslash is taken away, and the statement's name has none. -/
structure Sane (line : Text) : Prop where
  ends : runsOn line = false
  ends' : runsOn (stripComment line) = false
  blanks : ∀ x ∈ (unescape (stripComment line)).1, x.2 = true → isBlank x.1 = false
  clear : Clear true (text (unescape (stripComment line)).1)
  name : '\\' ∉ (readFields 1 (unescape (stripComment line)).1).getD 0 []

instance (line : Text) : Decidable (Sane line) :=
  decidable_of_iff (runsOn line = false ∧ runsOn (stripComment line) = false ∧
      (∀ x ∈ (unescape (stripComment line)).1, x.2 = true → isBlank x.1 = false) ∧
      Clear true (text (unescape (stripComment line)).1) ∧
      '\\' ∉ (readFields 1 (unescape (stripComment line)).1).getD 0 [])
    ⟨fun ⟨h₁, h₂, h₃, h₄, h₅⟩ => ⟨h₁, h₂, h₃, h₄, h₅⟩, fun ⟨h₁, h₂, h₃, h₄, h₅⟩ => ⟨h₁, h₂, h₃, h₄, h₅⟩⟩

/-- Whether a comment could start behind the text. -/
def opensAt (b : Bool) (s : Text) : Bool := (s.getLast?.map isBlank).getD b

theorem clear_append {b : Bool} {s t : Text} : Clear b (s ++ t) ↔ Clear b s ∧ Clear (opensAt b s) t := by
  induction s generalizing b with
  | nil => simp [Clear, opensAt]
  | cons c s ih =>
    have hlast : opensAt b (c :: s) = opensAt (isBlank c) s := by
      rw [opensAt, opensAt, List.getLast?_cons]
      cases s.getLast? <;> rfl
    rw [List.cons_append, Clear, Clear, ih, hlast, and_assoc]

/-- What is taken off a line: nothing, or a hash and what is behind it, with the blank in front. -/
def Comment (s rest : Text) : Prop :=
  rest = [] ∨ (s = [] ∧ rest.head? = some '#') ∨ ∃ b v, (b = ' ' ∨ b = '\t') ∧ rest = b :: '#' :: v

theorem stripFrom_spec (s : Text) :
    ∃ rest, s = stripFrom s ++ rest ∧ (rest = [] ∨ ∃ b v, (b = ' ' ∨ b = '\t') ∧ rest = b :: '#' :: v) := by
  induction s with
  | nil => exact ⟨[], rfl, .inl rfl⟩
  | cons c s ih =>
    obtain ⟨rest, hs, hrest⟩ := ih
    rw [stripFrom]
    by_cases h : (c = ' ' ∨ c = '\t') ∧ s.head? = some '#'
    · obtain ⟨v, rfl⟩ : ∃ v, s = '#' :: v := by
        cases s with
        | nil => simp at h
        | cons d v => exact ⟨v, by simpa using h.2⟩
      rw [if_pos h]
      exact ⟨c :: '#' :: v, rfl, .inr ⟨c, v, h.1, rfl⟩⟩
    · rw [if_neg h]
      exact ⟨rest, by rw [List.cons_append, ← hs], hrest⟩

theorem stripComment_spec (l : Text) : ∃ rest, l = stripComment l ++ rest ∧ Comment (stripComment l) rest := by
  rw [stripComment]
  by_cases h : l.head? = some '#'
  · rw [if_pos h]
    exact ⟨l, rfl, .inr (.inl ⟨rfl, h⟩)⟩
  · rw [if_neg h]
    obtain ⟨rest, hl, hrest⟩ := stripFrom_spec l
    exact ⟨rest, hl, hrest.imp_right .inr⟩

theorem stripFrom_append {b : Bool} {s rest : Text} (hs : Clear b s)
    (hrest : rest = [] ∨ ∃ b v, (b = ' ' ∨ b = '\t') ∧ rest = b :: '#' :: v) : stripFrom (s ++ rest) = s := by
  induction s generalizing b with
  | nil =>
    rcases hrest with rfl | ⟨b, v, hb, rfl⟩
    · rfl
    · exact if_pos ⟨hb, rfl⟩
  | cons c s ih =>
    rw [List.cons_append, stripFrom, ih hs.2, if_neg]
    rintro ⟨hc, hhead⟩
    have hblank : isBlank c = true := by rcases hc with rfl | rfl <;> rfl
    cases s with
    | nil =>
      rcases hrest with rfl | ⟨b, v, hb, rfl⟩
      · simp at hhead
      · rcases hb with rfl | rfl <;> simp at hhead
    | cons d s =>
      obtain rfl : d = '#' := by simpa using hhead
      exact hs.2.1 ⟨hblank, rfl⟩

/-! ## Clear texts -/

theorem clear_map {f : Char → Char} (hblank : ∀ c, isBlank (f c) = isBlank c) (hhash : ∀ c, f c = '#' ↔ c = '#')
    {b : Bool} (s : Text) : Clear b (s.map f) ↔ Clear b s := by
  induction s generalizing b with
  | nil => exact Iff.rfl
  | cons c s ih => rw [List.map_cons, Clear, Clear, ih, hblank, hhash]

/-- Behind the blanks in front, one more could have been. -/
theorem clear_dropWhile {b : Bool} {s : Text} (hs : Clear b s) (hb : b = true ∨ AtBlank s) :
    Clear true (s.dropWhile isBlank) := by
  induction s generalizing b with
  | nil => trivial
  | cons c s ih =>
    cases hc : isBlank c with
    | true =>
      rw [List.dropWhile_cons_of_pos hc]
      exact ih (hc ▸ hs.2) (.inl rfl)
    | false =>
      obtain rfl : b = true := hb.resolve_right (by simp [AtBlank, hc])
      rw [List.dropWhile_cons_of_neg (by simp [hc])]
      exact hs

theorem clear_true {b : Bool} {s : Text} (hs : AtBlank s) (h : Clear b s) : Clear true s := by
  cases s with
  | nil => trivial
  | cons c s =>
    have hc : isBlank c = true := hs
    refine ⟨?_, h.2⟩
    rintro ⟨-, rfl⟩
    exact absurd hc (by decide)

theorem stripFrom_noBlank {u : Text} (hu : ∀ c ∈ u, isBlank c = false) (s : Text) :
    stripFrom (u ++ s) = u ++ stripFrom s := by
  induction u with
  | nil => rfl
  | cons c u ih =>
    have hc : ¬ (c = ' ' ∨ c = '\t') := by
      rintro (rfl | rfl)
      · exact absurd (hu ' ' List.mem_cons_self) (by decide)
      · exact absurd (hu '\t' List.mem_cons_self) (by decide)
    rw [List.cons_append, stripFrom, if_neg fun h => hc h.1, ih fun d hd => hu d (List.mem_cons_of_mem _ hd)]
    rfl

theorem atBlank_stripFrom (s : Text) : AtBlank (stripFrom (' ' :: s)) := by
  rw [stripFrom]
  split
  · trivial
  · exact rfl

/-! ## Marks -/

/-- What is read of a text when its marks have been escaped. -/
def marked (s : Text) : List ReadChar := s.map fun c => (c, decide (c = '*' ∨ c = '?' ∨ c = '\\'))

theorem escapeMarks_cons (c : Char) (s : Text) :
    escapeMarks (c :: s) = (if c = '*' ∨ c = '?' ∨ c = '\\' then ['\\', c] else [c]) ++ escapeMarks s :=
  List.flatMap_cons

theorem unescape_escapeMarks (s : Text) : unescape (escapeMarks s) = (marked s, false) := by
  induction s with
  | nil => rfl
  | cons c s ih =>
    rw [escapeMarks_cons, marked, List.map_cons]
    split
    next h =>
      rw [decide_eq_true h, List.cons_append, List.singleton_append, unescape, ih]
      rfl
    next h =>
      rw [decide_eq_false h, List.singleton_append, unescape_cons fun hc => h (.inr (.inr hc)), ih]
      rfl

theorem text_marked (s : Text) : text (marked s) = s := by
  simp [text, marked, Function.comp_def]

theorem bare_marked (s : Text) : Bare (marked s) := by
  refine bare_of_escaped fun x hx hesc => ?_
  obtain ⟨c, -, rfl⟩ := List.mem_map.1 hx
  rcases of_decide_eq_true hesc with h | h | h <;> rw [h] <;> rfl

theorem head_escapeMarks (s : Text) : (escapeMarks s).head? = some '#' ↔ s.head? = some '#' := by
  cases s with
  | nil => exact Iff.rfl
  | cons c s =>
    rw [escapeMarks_cons]
    split
    next h => rcases h with rfl | rfl | rfl <;> simp
    next h => rfl

theorem stripFrom_escapeMarks (s : Text) : stripFrom (escapeMarks s) = escapeMarks (stripFrom s) := by
  induction s with
  | nil => rfl
  | cons c s ih =>
    by_cases h : c = '*' ∨ c = '?' ∨ c = '\\'
    · have hnot : isBlank c = false := by rcases h with rfl | rfl | rfl <;> rfl
      have hpair : ∀ d ∈ ['\\', c], isBlank d = false := by simpa [isBlank] using hnot
      have hplain : stripFrom (c :: s) = c :: stripFrom s :=
        stripFrom_noBlank (u := [c]) (by simpa using hnot) s
      rw [escapeMarks_cons, if_pos h, stripFrom_noBlank hpair, ih, hplain, escapeMarks_cons, if_pos h]
    · rw [escapeMarks_cons, if_neg h, List.singleton_append, stripFrom, stripFrom, ih]
      simp only [head_escapeMarks]
      split
      · rfl
      · rw [escapeMarks_cons, if_neg h, List.singleton_append]

theorem clear_escapeMarks {b : Bool} (s : Text) : Clear b (escapeMarks s) ↔ Clear b s := by
  induction s generalizing b with
  | nil => exact Iff.rfl
  | cons c s ih =>
    rw [escapeMarks_cons]
    split
    next h =>
      have hhash : c ≠ '#' := by rcases h with rfl | rfl | rfl <;> decide
      simp [Clear, ih, hhash]
    next h => simp [Clear, ih]

/-! ## What is read -/

section
variable {m : List ReadChar} {u z : Text} {b : Char}

theorem underscored_underscored (u : Text) : underscored (underscored u) = underscored u := by
  rw [underscored, underscored, List.map_map]
  refine List.map_congr_left fun c _ => ?_
  by_cases hc : c = '-'
  · simp [hc]
  · simp [hc]

theorem echoN_of_mem {c : Char} (hc : c ∉ "-neE".toList) {s : Text} (h : c ∈ s) : echoN s = s := by
  rw [echoN, if_neg]
  rintro ⟨hhead, -, hall⟩
  obtain ⟨d, t, rfl⟩ := List.exists_cons_of_ne_nil (List.ne_nil_of_mem h)
  obtain rfl : d = '-' := by simpa using hhead
  rcases List.mem_cons.1 h with rfl | hmem
  · exact hc (by decide)
  · exact hc (List.mem_cons_of_mem _ (hall c hmem))

theorem echoN_cases (s : Text) : echoN s = s ∨ echoN s = [] := by
  rw [echoN]
  split
  · exact .inr rfl
  · exact .inl rfl

/-- The first word is the statement, and what is behind it the arguments. -/
theorem statement_bare (hm : Bare m) (hu : IsWord u) (hz : AtBlank z) (h : (text m).dropWhile isBlank = u ++ z) :
    statement m = some ⟨underscored u, escapeMarks (echoN (trim z))⟩ := by
  obtain ⟨htake, hdrop⟩ := takeWhile_word_append hu.2 hz
  have hskip : Bare (skip m) := hm.sublist (List.dropWhile_sublist _)
  have hrest : Bare ((skip m).dropWhile (!separates ·)) := hskip.sublist (List.dropWhile_sublist _)
  have hfirst : text ((skip m).takeWhile (!separates ·)) = u := by
    rw [hskip.text_takeWhile, hm.text_skip, h, htake]
  have hlast : lastField ((skip m).dropWhile (!separates ·)) = trim z := by
    rw [hrest.lastField_eq, hskip.text_dropWhile, hm.text_skip, h, hdrop]
  simp only [statement, readFields, List.getD_cons_zero, List.getD_cons_succ]
  rw [hfirst, hlast, if_neg hu.1]

theorem statement_none (h : skip m = []) : statement m = none := by
  simp only [statement, readFields, h]
  rfl

/-- A word in front of a blank. -/
theorem takeWhile_append_sep {p : ReadChar → Bool} {x : ReadChar} (hx : p x = false) (m r : List ReadChar) :
    (m ++ x :: r).takeWhile p = m.takeWhile p ∧ (m ++ x :: r).dropWhile p = m.dropWhile p ++ x :: r := by
  induction m with
  | nil => simp [hx]
  | cons y m ih => cases hy : p y <;> simp [hy, ih]

/-- With a comment behind the arguments. -/
theorem lastField_comment (hm : Bare m) (hb : isBlank b = true) (w : List ReadChar) :
    ∃ v, (text m).dropWhile isBlank = [] ∧ lastField (m ++ (b, false) :: ('#', false) :: w) = '#' :: v ∨
      lastField (m ++ (b, false) :: ('#', false) :: w) = (text m).dropWhile isBlank ++ b :: '#' :: v := by
  have hsep : separates (b, false) = true := by simpa [separates] using hb
  have hhash : IsWord ['#'] := ⟨by simp, by simp [isBlank]⟩
  have htrim : ∀ s : Text, ∃ v, trimEnd ('#' :: s) = '#' :: v := by
    intro s
    rw [← List.singleton_append, trimEnd_append]
    split
    · exact ⟨[], by simpa using trimEnd_append_word (s := []) hhash⟩
    · exact ⟨trimEnd s, rfl⟩
  obtain ⟨v, hv⟩ := htrim (text w)
  rw [← hm.text_skip]
  by_cases hnil : skip m = []
  · have hskip : skip (m ++ (b, false) :: ('#', false) :: w) = ('#', false) :: w := by
      rw [skip, List.dropWhile_append, if_pos (by simpa [skip] using hnil), List.dropWhile_cons_of_pos hsep,
        List.dropWhile_cons_of_neg (by simp [separates, isBlank])]
    simp only [lastField, hskip, hnil]
    split
    · exact ⟨_, .inl ⟨rfl, by rw [List.takeWhile_cons_of_pos (by simp [separates, isBlank]), text_cons]⟩⟩
    · exact ⟨v, .inl ⟨rfl, hv⟩⟩
  · have hskip : skip (m ++ (b, false) :: ('#', false) :: w) = skip m ++ (b, false) :: ('#', false) :: w := by
      rw [skip, List.dropWhile_append, if_neg (by simpa [skip] using hnil)]
      rfl
    simp only [lastField, hskip]
    rw [(takeWhile_append_sep (by simp [hsep]) _ _).2, if_neg, text_append, text_cons, text_cons]
    · refine ⟨v, .inr ?_⟩
      have hbehind : trimEnd (b :: '#' :: text w) = b :: '#' :: v := by
        rw [← List.singleton_append, trimEnd_append, hv, if_neg (by simp)]
        rfl
      rw [trimEnd_append, hbehind, if_neg (by simp)]
    · -- the hash is no blank
      intro h
      have hall := List.dropWhile_eq_nil_iff.1 h ('#', false) (by simp)
      exact absurd hall (by decide)

end

/-! ## A line with its comment and without it -/

/-- The reading with the comment, where the arguments are `z` without it. -/
def Commented (z q : Text) : Prop := '#' ∈ q ∧ ¬ Clear true q ∧ trim (stripFrom (' ' :: q)) = trim z

theorem statement_hash {m w : List ReadChar} (h : skip m = ('#', false) :: w) {r : Statement}
    (hr : statement m = some r) : r.cmd.head? = some '#' := by
  simp only [statement, readFields, h, List.getD_cons_zero] at hr
  rw [List.takeWhile_cons_of_pos (by decide), text_cons, if_neg (by simp)] at hr
  obtain rfl := Option.some.inj hr
  rfl

theorem statement_commented {m w : List ReadChar} {u z : Text} {b : Char} (hm : Bare m) (hb' : b = ' ' ∨ b = '\t')
    (hu : IsWord u) (hz : AtBlank z) (hclear : Clear true z) (h : (text m).dropWhile isBlank = u ++ z) :
    ∃ q, statement (m ++ (b, false) :: ('#', false) :: w) = some ⟨underscored u, escapeMarks q⟩ ∧ Commented z q := by
  have hb : isBlank b = true := by rcases hb' with rfl | rfl <;> rfl
  obtain ⟨htake, hdrop⟩ := takeWhile_word_append hu.2 hz
  have hskip : Bare (skip m) := hm.sublist (List.dropWhile_sublist _)
  have hrest : Bare ((skip m).dropWhile (!separates ·)) := hskip.sublist (List.dropWhile_sublist _)
  have hne : skip m ≠ [] := by
    intro hnil
    have htext := hm.text_skip
    rw [hnil, h, text_nil] at htext
    exact hu.1 (List.append_eq_nil_iff.1 htext.symm).1
  have happend : skip (m ++ (b, false) :: ('#', false) :: w) = skip m ++ (b, false) :: ('#', false) :: w := by
    rw [skip, List.dropWhile_append, if_neg (by simpa [skip] using hne)]
    rfl
  have hsep : (!separates (b, false)) = false := by simpa [separates] using hb
  obtain ⟨hfirst, hbehind⟩ := takeWhile_append_sep (p := (!separates ·)) hsep (skip m) (('#', false) :: w)
  have htext : text ((skip m).dropWhile (!separates ·)) = z := by
    rw [hskip.text_dropWhile, hm.text_skip, h, hdrop]
  have hfields : statement (m ++ (b, false) :: ('#', false) :: w) =
      some ⟨underscored u, escapeMarks (echoN
        (lastField ((skip m).dropWhile (!separates ·) ++ (b, false) :: ('#', false) :: w)))⟩ := by
    simp only [statement, readFields, List.getD_cons_zero, List.getD_cons_succ]
    rw [happend, hfirst, hbehind, hskip.text_takeWhile, hm.text_skip, h, htake, if_neg hu.1]
  obtain ⟨v, hv⟩ := lastField_comment hrest hb w
  rw [htext] at hv
  have hmem : '#' ∈ lastField ((skip m).dropWhile (!separates ·) ++ (b, false) :: ('#', false) :: w) := by
    rcases hv with ⟨-, hv⟩ | hv <;> simp [hv]
  refine ⟨_, by rw [hfields, echoN_of_mem (by decide) hmem], hmem, ?_, ?_⟩
  · rcases hv with ⟨-, hv⟩ | hv
    · rw [hv]
      exact fun hc => hc.1 ⟨rfl, rfl⟩
    · rw [hv, clear_append]
      exact fun hc => hc.2.2.1 ⟨hb, rfl⟩
  · rcases hv with ⟨hnil, hv⟩ | hv
    · rw [hv, trim, trim, hnil, stripFrom, if_pos ⟨.inl rfl, rfl⟩]
      rfl
    · have hstart : Clear true (z.dropWhile isBlank) := clear_dropWhile hclear (.inl rfl)
      have hcut : stripFrom ((' ' :: z.dropWhile isBlank) ++ b :: '#' :: v) = ' ' :: z.dropWhile isBlank := by
        exact stripFrom_append (b := false) ⟨by simp, hstart⟩ (.inr ⟨b, v, hb', rfl⟩)
      rw [hv, ← List.cons_append, hcut, trim_blank rfl, trim, List.dropWhile_idempotent, trim]

/-- **What is read of a line.** -/
theorem line_cases {l : Text} (h : Sane l) :
    clean l = none ∧ (∀ r, raw l = some r → r.cmd.head? = some '#') ∨
      ∃ u z, IsWord u ∧ '\\' ∉ u ∧ u.head? ≠ some '#' ∧ AtBlank z ∧ Clear true z ∧
        clean l = some ⟨underscored u, escapeMarks (echoN (trim z))⟩ ∧
        (stripComment l = l ∨
          stripComment l ≠ l ∧ ∃ q, raw l = some ⟨underscored u, escapeMarks q⟩ ∧ Commented z q) := by
  obtain ⟨rest, hl, hrest⟩ := stripComment_spec l
  have hm : Bare (unescape (stripComment l)).1 := bare_of_escaped h.blanks
  have htext := clear_dropWhile h.clear (.inl rfl)
  have hraw : (unescape l).1 = (unescape (stripComment l)).1 ++ (unescape rest).1 := by
    conv_lhs => rw [hl, unescape_append_ends h.ends']
  by_cases hnil : skip (unescape (stripComment l)).1 = []
  · refine .inl ⟨statement_none hnil, fun r hr => ?_⟩
    have hskip : skip (unescape l).1 = skip (unescape rest).1 := by
      rw [hraw, skip, List.dropWhile_append, if_pos (by simpa [skip] using hnil)]
      rfl
    have hash : ∀ v, unescape ('#' :: v) = (('#', false) :: (unescape v).1, (unescape v).2) :=
      unescape_cons (by decide)
    rcases hrest with rfl | ⟨-, hhead⟩ | ⟨b, v, hb, rfl⟩
    · rw [raw, statement_none hskip] at hr
      cases hr
    · obtain ⟨v, rfl⟩ : ∃ v, rest = '#' :: v := by
        cases rest with
        | nil => cases hhead
        | cons c v => exact ⟨v, by simpa using hhead⟩
      refine statement_hash (w := (unescape v).1) (hskip.trans ?_) hr
      rw [hash, skip, List.dropWhile_cons_of_neg (by decide)]
    · refine statement_hash (w := (unescape v).1) (hskip.trans ?_) hr
      have hback : b ≠ '\\' := by rcases hb with rfl | rfl <;> decide
      have hblank : isBlank b = true := by rcases hb with rfl | rfl <;> rfl
      rw [unescape_cons hback, skip_blank hblank, hash, skip, List.dropWhile_cons_of_neg (by decide)]
  · right
    set v := (text (unescape (stripComment l)).1).dropWhile isBlank with hv
    have hsplit : v.takeWhile (!isBlank ·) ++ v.dropWhile (!isBlank ·) = v := List.takeWhile_append_dropWhile
    have hz : AtBlank (v.dropWhile (!isBlank ·)) := by
      have hhead := List.head?_dropWhile_not (!isBlank ·) v
      cases hs : v.dropWhile (!isBlank ·) with
      | nil => trivial
      | cons c s =>
        rw [hs] at hhead
        simpa [AtBlank] using hhead
    have hne : v.takeWhile (!isBlank ·) ≠ [] := by
      have hhead := List.head?_dropWhile_not isBlank (text (unescape (stripComment l)).1)
      rw [← hv] at hhead
      cases hs : v with
      | nil => exact absurd (List.map_eq_nil_iff.1 (hm.text_skip.trans (hv.symm.trans hs))) hnil
      | cons c s =>
        rw [hs] at hhead
        have hc : isBlank c = false := hhead
        rw [List.takeWhile_cons_of_pos (by simp [hc])]
        exact List.cons_ne_nil _ _
    have hu : IsWord (v.takeWhile (!isBlank ·)) :=
      ⟨hne, fun c hc => by simpa using List.mem_takeWhile_imp hc⟩
    rw [← hsplit, clear_append] at htext
    have hclearz := clear_true hz htext.2
    refine ⟨_, _, hu, ?_, ?_, hz, hclearz, statement_bare hm hu hz (by rw [← hv, hsplit]), ?_⟩
    · have hname := h.name
      have hskip : Bare (skip (unescape (stripComment l)).1) := hm.sublist (List.dropWhile_sublist _)
      rwa [readFields, List.getD_cons_zero, hskip.text_takeWhile, hm.text_skip, ← hv] at hname
    · intro hhead
      cases hs : v.takeWhile (!isBlank ·) with
      | nil => exact hne hs
      | cons c s =>
        rw [hs] at hhead htext
        exact htext.1.1 ⟨rfl, by simpa using hhead⟩
    · rcases hrest with rfl | ⟨hX, -⟩ | ⟨b, w, hb, rfl⟩
      · exact .inl (by rw [← List.append_nil (stripComment l), ← hl])
      · rw [hX] at hnil
        exact absurd rfl hnil
      · refine .inr ⟨?_, ?_⟩
        · intro heq
          rw [heq] at hl
          simpa using congrArg List.length hl
        · have hback : b ≠ '\\' := by rcases hb with rfl | rfl <;> decide
          rw [raw, hraw, unescape_cons hback, unescape_cons (by decide)]
          exact statement_commented hm hb hu hz hclearz (by rw [← hv, hsplit])

/-! ## A line that is written -/

/-- What rocknet reads of a line that has been written. -/
def Reads (t : Text) (o : Option Statement) : Prop := runsOn (stripComment t) = false ∧ clean t = o

theorem reads_written {u : Text} (hu : IsWord u) (hback : '\\' ∉ u) (hhead : u.head? ≠ some '#') (q : Text) (g : Bool) :
    Reads (indented g (u ++ ' ' :: escapeMarks q))
      (some ⟨underscored u, escapeMarks (echoN (trim (stripFrom (' ' :: q))))⟩) := by
  have hmarks : stripFrom (' ' :: escapeMarks q) = escapeMarks (stripFrom (' ' :: q)) := by
    rw [← stripFrom_escapeMarks, escapeMarks_cons, if_neg (by decide), List.singleton_append]
  obtain ⟨c, s, hs⟩ := List.exists_cons_of_ne_nil hu.1
  have hstrip : stripComment (indented g (u ++ ' ' :: escapeMarks q)) =
      indented g u ++ escapeMarks (stripFrom (' ' :: q)) := by
    cases g with
    | true =>
      rw [indented, if_pos rfl, stripComment, List.head?_append_of_ne_nil _ hu.1, if_neg hhead,
        stripFrom_noBlank hu.2, hmarks]
      rfl
    | false =>
      rw [indented, if_neg (by simp), stripComment, if_neg (by simp), stripFrom, stripFrom_noBlank hu.2, hmarks,
        List.head?_append_of_ne_nil _ hu.1, if_neg fun h => hhead h.2]
      rfl
  have hback' : '\\' ∉ indented g u := by
    cases g <;> simpa [indented] using hback
  have hread : unescape (indented g u ++ escapeMarks (stripFrom (' ' :: q))) =
      (plain (indented g u) ++ marked (stripFrom (' ' :: q)), false) := by
    rw [unescape_append hback', unescape_escapeMarks]
  have hbare : Bare (plain (indented g u) ++ marked (stripFrom (' ' :: q))) := by
    intro x hx
    rcases List.mem_append.1 hx with hx | hx
    · exact bare_plain _ x hx
    · exact bare_marked _ x hx
  have htext : (text (plain (indented g u) ++ marked (stripFrom (' ' :: q)))).dropWhile isBlank =
      u ++ stripFrom (' ' :: q) := by
    rw [text_append, text_plain, text_marked, hs]
    have hc : isBlank c = false := hu.2 c (hs ▸ List.mem_cons_self)
    cases g with
    | true => rw [indented, if_pos rfl, List.cons_append, List.dropWhile_cons_of_neg (by simp [hc])]
    | false =>
      rw [indented, if_neg (by simp), List.cons_append, List.dropWhile_cons_of_pos (by rfl), List.cons_append,
        List.dropWhile_cons_of_neg (by simp [hc])]
  refine ⟨by rw [runsOn, hstrip, hread], ?_⟩
  rw [clean, hstrip, hread]
  exact statement_bare hbare hu (atBlank_stripFrom q) htext

/-- What stands behind a hash is not read again. -/
theorem reads_hash {t : Text} (h : t.head? = some '#') (g : Bool) : Reads (indented g t) none := by
  have hstrip : stripComment (indented g t) = [] := by
    cases g with
    | true => exact if_pos h
    | false => rw [indented, if_neg (by simp), stripComment, if_neg (by simp), stripFrom, if_pos ⟨.inr rfl, h⟩]
  rw [Reads, clean, hstrip]
  exact ⟨rfl, rfl⟩

section
variable {l : Text} {s r : Statement}

theorem isWord_underscored {u : Text} (hu : IsWord u) : IsWord (underscored u) := by
  refine ⟨by simpa [underscored] using hu.1, fun c hc => ?_⟩
  obtain ⟨d, hd, rfl⟩ := List.mem_map.1 hc
  split
  · rfl
  · exact hu.2 d hd

theorem mem_underscored {u : Text} {c : Char} (hc : c ≠ '_') (h : c ∈ underscored u) : c ∈ u := by
  obtain ⟨d, hd, hdc⟩ := List.mem_map.1 h
  split at hdc
  · exact absurd hdc.symm hc
  · exact hdc ▸ hd

theorem head_underscored {u : Text} (h : u.head? ≠ some '#') : (underscored u).head? ≠ some '#' := by
  cases u with
  | nil => exact h
  | cons c u =>
    intro hhead
    have hc : (if c = '-' then '_' else c) = '#' := Option.some.inj hhead
    split at hc
    · exact absurd hc (by decide)
    · exact h (congrArg some hc)

theorem clear_trim {z : Text} (h : Clear true z) : Clear true (trim z) := by
  obtain ⟨t, ht⟩ : trim z <+: z.dropWhile isBlank := List.rdropWhile_prefix _ _
  have hall := clear_dropWhile h (.inl rfl)
  rw [← ht, clear_append] at hall
  exact hall.1

theorem clear_echoN {b : Bool} {z : Text} (h : Clear b z) : Clear b (echoN z) := by
  rcases echoN_cases z with he | he <;> rw [he]
  · exact h
  · trivial

/-- A statement that has been read is read again. -/
theorem tag_reads (h : Sane l) (hs : clean l = some s) (g : Bool) : Reads (indented g s.text) (some s) := by
  rcases line_cases h with ⟨hnone, -⟩ | ⟨u, z, hu, hback, hhead, hz, hclear, hclean, -⟩
  · rw [hnone] at hs
    cases hs
  rw [hclean] at hs
  obtain rfl := Option.some.inj hs
  have hwritten := reads_written (isWord_underscored hu) (fun hm => hback (mem_underscored (by decide) hm))
    (head_underscored hhead) (echoN (trim z)) g
  have hecho := clear_echoN (clear_trim hclear)
  have hcut : stripFrom (' ' :: echoN (trim z)) = ' ' :: echoN (trim z) := by
    have happend := stripFrom_append (b := false) (s := ' ' :: echoN (trim z)) ⟨by simp, hecho⟩ (.inl rfl)
    rwa [List.append_nil] at happend
  have hagain : echoN (trim (echoN (trim z))) = echoN (trim z) := by
    rcases echoN_cases (trim z) with he | he
    · rw [he, trim_trim, he]
    · rw [he]
      rfl
  rw [underscored_underscored, hcut, trim_blank rfl, hagain] at hwritten
  exact hwritten

/-- **A line that is passed through is read as it was.** -/
theorem pass_reads (h : Sane l) (hr : raw l = some r) (g : Bool) : Reads (indented g r.text) (clean l) := by
  rcases line_cases h with ⟨hnone, hhash⟩ | ⟨u, z, hu, hback, hhead, hz, hclear, hclean, hcase⟩
  · rw [hnone]
    have hcmd := hhash r hr
    refine reads_hash ?_ g
    rw [Statement.text, List.head?_append, hcmd]
    rfl
  rcases hcase with hplain | ⟨-, q, hraw, -, -, hcut⟩
  · have heq : clean l = some r := by rw [clean, hplain, ← raw, hr]
    rw [heq]
    exact tag_reads h heq g
  · rw [hraw] at hr
    obtain rfl := Option.some.inj hr
    have hwritten := reads_written (isWord_underscored hu) (fun hm => hback (mem_underscored (by decide) hm))
      (head_underscored hhead) q g
    rw [underscored_underscored, hcut] at hwritten
    rwa [hclean]

theorem clean_none (h : Sane l) (hr : raw l = none) : clean l = none := by
  rcases line_cases h with ⟨hnone, -⟩ | ⟨u, z, -, -, -, -, -, -, hplain | ⟨-, q, hraw, -⟩⟩
  · exact hnone
  · rw [clean, hplain, ← raw, hr]
  · rw [hraw] at hr
    cases hr

end

/-! ## The name of an interface -/

/-- The name, if the statement is of an interface. -/
def prof (s : Statement) : Option Text := if s.cmd = interface then some (profOf s.para) else none

theorem clear_profOf {b : Bool} (s : Text) : Clear b (profOf s) ↔ Clear b (echoN s) := by
  rw [profOf]
  refine clear_map (fun c => ?_) (fun c => ?_) _
  · split
    next h => rcases h with rfl | rfl | rfl <;> rfl
    next h => rfl
  · split
    next h => rcases h with rfl | rfl | rfl <;> decide
    next h => rfl

/-- The names that are looked for. -/
theorem clear_prof {l : Text} (h : Sane l) {p : Text} (hp : (clean l).bind prof = some p) : Clear true p := by
  rcases line_cases h with ⟨hnone, -⟩ | ⟨u, z, hu, hback, hhead, hz, hclear, hclean, -⟩
  · rw [hnone] at hp
    cases hp
  rw [hclean, Option.bind_some, prof] at hp
  split at hp
  · obtain rfl := Option.some.inj hp
    rw [clear_profOf]
    exact clear_echoN ((clear_escapeMarks _).2 (clear_echoN (clear_trim hclear)))
  · cases hp

theorem mem_escapeMarks {c : Char} {q : Text} (h : c ∈ q) : c ∈ escapeMarks q := by
  refine List.mem_flatMap.2 ⟨c, h, ?_⟩
  split <;> simp

/-- The name with its comment is none of those. -/
theorem not_clear_prof {z q : Text} (h : Commented z q) : ¬ Clear true (profOf (escapeMarks q)) := by
  rw [clear_profOf, echoN_of_mem (by decide) (mem_escapeMarks h.1), clear_escapeMarks]
  exact h.2.1

/-- What the loop that writes takes for the name. -/
theorem raw_prof {l : Text} (h : Sane l) :
    ((raw l).bind prof = none ↔ (clean l).bind prof = none) ∧
      ∀ p, Clear true p → ((raw l).bind prof = some p ↔ (clean l).bind prof = some p ∧ stripComment l = l) := by
  rcases line_cases h with ⟨hnone, hhash⟩ | ⟨u, z, -, -, -, -, hclear, hclean, hplain | ⟨hne, q, hraw, hq⟩⟩
  · have hraw : (raw l).bind prof = none := by
      cases hr : raw l with
      | none => rfl
      | some r =>
        rw [Option.bind_some, prof, if_neg]
        intro hcmd
        have hhead := hhash r hr
        rw [hcmd] at hhead
        exact absurd hhead (by decide)
    simp [hraw, hnone]
  · have heq : raw l = clean l := by rw [clean, hplain, ← raw]
    simp [heq, hplain]
  · have hnot : ∀ p, Clear true p → profOf (escapeMarks q) ≠ p := by
      rintro p hp rfl
      exact not_clear_prof hq hp
    rw [hraw, hclean, Option.bind_some, Option.bind_some, prof, prof]
    by_cases hcmd : underscored u = interface
    · rw [if_pos hcmd, if_pos hcmd]
      refine ⟨by simp, fun p hp => ?_⟩
      simp [hnot p hp, hne]
    · simp [hcmd]

end T2Sde.Rocknet
