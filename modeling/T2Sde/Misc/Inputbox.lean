import Mathlib.Data.List.DropRight
import T2Sde.Misc.Menubox
/-!
# The text of an input box (`misc/confdialog/inputbox.c`)

The text is in a buffer of `MAX_LEN + 1` bytes, and a window of it in the field; `scroll` and `input_x` say where the
window begins and where the cursor is in it. What the shell takes for the value depends on the button.

| here | there |
| --- | --- |
| `strcpy`, `strlen`, `poke`, `peeks` | accesses to `instr`, none outside of `dialog_input_result` :33 |
| `start`       | :109-130 |
| `backspace`   | :145-164 |
| `insert`      | :165-184 |
| `prevButton`, `nextButton`, `buttonKey` | :187-240 |
| `turn`        | one turn of the loop :132-241 |
| `shownText`   | `fprintf(stderr, dialog_input_result)` (`misc/confdialog/confdialog.c`) :222 |
| `textAction`  | `text_action` (`scripts/config-functions.in`) :257-262 |

* `insert_shows`, `backspace_shows` — what a key does to the buffer and to the field, as an `Editor` has it.
* `inputbox_edits` — **the box is an editor of a text**: no access is outside, and the field shows the window.
* `text_action_ok` — **the value is the text, or nothing behind the button that says `Ok`**.
-/
namespace T2Sde.Inputbox
open Shell (Text)
open Menubox (keyDown keyUp keyLeft keyRight esc tab)

/-! ## The buffer and the field -/

def MAX_LEN : Nat := 2048

def nul : Char := '\x00'

def strlen (instr : Text) : Nat := (instr.takeWhile (· != nul)).length

/-- `instr[i] = c` -/
def poke (instr : Text) (i : Nat) (c : Char) : Option Text := if i < instr.length then some (instr.set i c) else none

/-- The `n` characters from `instr[i]` on. -/
def peeks (instr : Text) (i n : Nat) : Option Text :=
  if i + n ≤ instr.length then some ((instr.drop i).take n) else none

def strcpy (instr src : Text) : Option Text :=
  if src.length < instr.length then some (src ++ nul :: instr.drop (src.length + 1)) else none

/-- Characters are drawn from the cell `x` on. -/
def paint (field : Text) (x : Nat) (cs : Text) : Text := field.take x ++ cs ++ field.drop (x + cs.length)

/-- The variables of the loop, the button that is drawn as the selected one, and the cells of the field. -/
structure State where
  instr : Text
  input_x : Nat
  scroll : Nat
  button : Int
  selected : Int
  field : Text
  deriving DecidableEq, Repr

/-- What is there when the loop begins. -/
def start (box_width : Nat) (init : Text) : Option State := do
  let instr ← strcpy (List.replicate (MAX_LEN + 1) nul) init
  let blank := List.replicate box_width ' '
  let input_x := strlen instr
  if box_width ≤ input_x then
    let scroll := input_x - box_width + 1
    let shown ← peeks instr scroll (box_width - 1)
    some ⟨instr, box_width - 1, scroll, -1, 0, paint blank 0 shown⟩
  else
    let shown ← peeks instr 0 input_x
    some ⟨instr, input_x, 0, -1, 0, paint blank 0 shown⟩

/-! ## The keys -/

def keyBackspace : Int := 0o407

def enter : Int := '\n'.toNat

/-- `isprint` in the C locale -/
def isprint (key : Int) : Prop := 32 ≤ key ∧ key < 127

instance (key : Int) : Decidable (isprint key) := inferInstanceAs (Decidable (_ ∧ _))

/-- The window one box further back, with the cursor behind the text. -/
def scrollBack (box_width : Nat) (s : State) : Option State := do
  let scroll := if s.scroll < box_width - 1 then 0 else s.scroll - (box_width - 1)
  let shown ← peeks s.instr scroll box_width
  let shown := shown.map fun c => if c = nul then ' ' else c
  some { s with scroll := scroll, field := paint s.field 0 shown, input_x := strlen s.instr - scroll }

def backspace (box_width : Nat) (s : State) : Option State :=
  if s.input_x ≠ 0 ∨ s.scroll ≠ 0 then do
    let s ← if s.input_x = 0 then scrollBack box_width s else some { s with input_x := s.input_x - 1 }
    let instr ← poke s.instr (s.scroll + s.input_x) nul
    some { s with instr := instr, field := paint s.field s.input_x [' '] }
  else some s

def insert (box_width : Nat) (s : State) (key : Char) : Option State :=
  if s.scroll + s.input_x < MAX_LEN then do
    let instr ← poke s.instr (s.scroll + s.input_x) key
    let instr ← poke instr (s.scroll + s.input_x + 1) nul
    if s.input_x = box_width - 1 then
      let shown ← peeks instr (s.scroll + 1) (box_width - 1)
      some { s with instr := instr, scroll := s.scroll + 1, field := paint s.field 0 shown }
    else some { s with instr := instr, input_x := s.input_x + 1, field := paint s.field s.input_x [key] }
  else some s

/-- The button, and the one that is drawn as selected. -/
def prevButton : Int × Int → Int × Int
  | (-1, _) => (1, 1)
  | (0, _) => (-1, 0)
  | (1, _) => (0, 0)
  | b => b

def nextButton : Int × Int → Int × Int
  | (-1, _) => (1, 0)
  | (0, _) => (1, 1)
  | (1, _) => (-1, 0)
  | b => b

/-- A dialog that goes on, or what it returns. -/
inductive Outcome (σ : Type)
  | shows (s : σ)
  | returns (code : Int) (s : σ)
  deriving DecidableEq, Repr

/-- The second `switch`: other buttons, or what is returned. -/
def buttonKey (b : Int × Int) (key : Int) : (Int × Int) ⊕ Int :=
  if key = 'O'.toNat ∨ key = 'o'.toNat then .inr 0
  else if key = keyUp ∨ key = keyLeft then .inl (prevButton b)
  else if key = tab ∨ key = keyDown ∨ key = keyRight then .inl (nextButton b)
  else if key = ' '.toNat ∨ key = enter then .inr (if b.1 = -1 then 0 else b.1)
  else if key = 'X'.toNat ∨ key = 'x'.toNat ∨ key = esc then .inr (-1)
  else .inl b

def pressed (s : State) (key : Int) : Outcome State :=
  match buttonKey (s.button, s.selected) key with
  | .inl b => .shows { s with button := b.1, selected := b.2 }
  | .inr code => .returns code s

def turn (box_width : Nat) (s : State) (key : Int) : Option (Outcome State) :=
  if s.button ≠ -1 ∨ key = tab ∨ key = keyUp ∨ key = keyDown then some (pressed s key)
  else if key = keyLeft ∨ key = keyRight then some (.shows s)
  else if key = keyBackspace ∨ key = 127 then (backspace box_width s).map .shows
  else if isprint key then (insert box_width s (Char.ofNat key.toNat)).map .shows
  else some (pressed s key)

def run (box_width : Nat) : State → List Int → Option (Outcome State)
  | s, [] => some (.shows s)
  | s, key :: keys =>
    match turn box_width s key with
    | some (.shows s) => run box_width s keys
    | o => o

/-- A text as a format; one with a conversion is not followed. -/
def shownText (t : Text) : Option Text := if '%' ∈ t then none else some t

/-- The value of the variable behind `text_action`, from the one before. -/
def textAction (old : Text) : Outcome State → Option Text
  | .shows _ => none
  | .returns code s =>
    if code = 0 then (shownText (s.instr.take (strlen s.instr))).map (·.rdropWhile (· == '\n'))
    else if code = 1 then some []
    else some old

/-! ## An editor -/

/-- A text, where its window begins, and the buttons. -/
structure Editor where
  text : Text
  scroll : Nat
  buttons : Int × Int
  deriving DecidableEq, Repr

namespace Editor

/-- The cursor is always behind the text. -/
def cursor (e : Editor) : Nat := e.text.length - e.scroll

/-- A full window moves by one. -/
def type (box_width : Nat) (e : Editor) (c : Char) : Editor :=
  if e.text.length < MAX_LEN then
    { e with text := e.text ++ [c], scroll := if e.cursor = box_width - 1 then e.scroll + 1 else e.scroll }
  else e

/-- An empty window moves back, and nothing is erased. -/
def erase (box_width : Nat) (e : Editor) : Editor :=
  if e.cursor = 0 then { e with scroll := e.scroll - (box_width - 1) } else { e with text := e.text.dropLast }

def pressed (e : Editor) (key : Int) : Outcome Editor :=
  match buttonKey e.buttons key with
  | .inl b => .shows { e with buttons := b }
  | .inr code => .returns code e

def turn (box_width : Nat) (e : Editor) (key : Int) : Outcome Editor :=
  if e.buttons.1 ≠ -1 ∨ key = tab ∨ key = keyUp ∨ key = keyDown then e.pressed key
  else if key = keyLeft ∨ key = keyRight then .shows e
  else if key = keyBackspace ∨ key = 127 then .shows (e.erase box_width)
  else if isprint key then .shows (e.type box_width (Char.ofNat key.toNat))
  else e.pressed key

def run (box_width : Nat) : Editor → List Int → Outcome Editor
  | e, [] => .shows e
  | e, key :: keys =>
    match e.turn box_width key with
    | .shows e => e.run box_width keys
    | o => o

/-- The text in a new dialog. -/
def start (box_width : Nat) (init : Text) : Editor :=
  ⟨init, if box_width ≤ init.length then init.length - box_width + 1 else 0, (-1, 0)⟩

end Editor

/-- The buffer with a text in it. -/
def filled (t : Text) : Text := t ++ List.replicate (MAX_LEN + 1 - t.length) nul

/-- A window of `n` cells with a text in it. -/
def shownIn (n : Nat) (t : Text) : Text := t ++ List.replicate (n - t.length) ' '

/-- Each character takes one cell. -/
def Printable (t : Text) : Prop := ∀ c ∈ t, isprint c.toNat

instance (t : Text) : Decidable (Printable t) := inferInstanceAs (Decidable (∀ c ∈ t, _))

/-- The buffer holds the text, and the field its window. -/
structure Shows (box_width : Nat) (e : Editor) (s : State) : Prop where
  instr : s.instr = filled e.text
  field : s.field = shownIn box_width (e.text.drop e.scroll)
  scroll : s.scroll = e.scroll
  input_x : s.input_x = e.cursor
  buttons : (s.button, s.selected) = e.buttons
  chars : Printable e.text
  length : e.text.length ≤ MAX_LEN
  window : e.scroll ≤ e.text.length
  room : e.cursor < box_width
  scrolled : 0 < e.scroll → box_width ≤ MAX_LEN

/-- Two outcomes of the same keys. -/
def Outcome.Rel {σ τ : Type} (R : σ → τ → Prop) : Outcome σ → Outcome τ → Prop
  | .shows s, .shows t => R s t
  | .returns code s, .returns code' t => code = code' ∧ R s t
  | _, _ => False

theorem Outcome.Rel.imp {σ τ : Type} {R R' : σ → τ → Prop} (h : ∀ s t, R s t → R' s t) {o : Outcome σ}
    {o' : Outcome τ} (hrel : Outcome.Rel R o o') : Outcome.Rel R' o o' := by
  cases o <;> cases o'
  · exact h _ _ hrel
  · exact hrel.elim
  · exact hrel.elim
  · exact ⟨hrel.1, h _ _ hrel.2⟩

/-! ## Accesses -/

theorem Printable.nul {t : Text} (h : Printable t) : nul ∉ t := fun hmem => absurd (h _ hmem) (by decide)

theorem Printable.newline {t : Text} (h : Printable t) : '\n' ∉ t := fun hmem => absurd (h _ hmem) (by decide)

section
variable {t : Text}

theorem length_filled (h : t.length ≤ MAX_LEN) : (filled t).length = MAX_LEN + 1 := by
  rw [filled, List.length_append, List.length_replicate]
  omega

theorem strlen_filled (hnul : nul ∉ t) : strlen (filled t) = t.length := by
  have hall : ∀ c ∈ t, (c != nul) = true := by
    intro c hc
    rw [bne_iff_ne]
    rintro rfl
    exact hnul hc
  rw [strlen, filled, List.takeWhile_append_of_pos hall]
  simp

theorem take_filled (t : Text) : (filled t).take t.length = t := List.take_left

theorem poke_char (h : t.length < MAX_LEN) (c : Char) : poke (filled t) t.length c = some (filled (t ++ [c])) := by
  have hlen : t.length < (filled t).length := by
    rw [length_filled (by omega)]
    omega
  obtain ⟨n, hn⟩ : ∃ n, MAX_LEN + 1 - t.length = n + 1 := ⟨MAX_LEN - t.length, by omega⟩
  have hn' : MAX_LEN + 1 - (t ++ [c]).length = n := by
    rw [List.length_append, List.length_singleton]
    omega
  rw [poke, if_pos hlen, filled, filled, hn, hn', List.set_append_right _ _ le_rfl, Nat.sub_self, List.replicate_succ,
    List.set_cons_zero, List.append_assoc, List.singleton_append]

theorem poke_end (h : t.length ≤ MAX_LEN) : poke (filled t) t.length nul = some (filled t) := by
  have hlen : t.length < (filled t).length := by
    rw [length_filled h]
    omega
  obtain ⟨n, hn⟩ : ∃ n, MAX_LEN + 1 - t.length = n + 1 := ⟨MAX_LEN - t.length, by omega⟩
  rw [poke, if_pos hlen, filled, hn, List.set_append_right _ _ le_rfl, Nat.sub_self, List.replicate_succ,
    List.set_cons_zero]

theorem poke_last (c : Char) (h : (t ++ [c]).length ≤ MAX_LEN) :
    poke (filled (t ++ [c])) t.length nul = some (filled t) := by
  have hlen : t.length < (filled (t ++ [c])).length := by
    rw [length_filled h]
    rw [List.length_append, List.length_singleton] at h
    omega
  rw [List.length_append, List.length_singleton] at h
  have hn : MAX_LEN + 1 - t.length = MAX_LEN + 1 - (t ++ [c]).length + 1 := by
    rw [List.length_append, List.length_singleton]
    omega
  rw [poke, if_pos hlen, filled, filled, hn, List.append_assoc, List.set_append_right _ _ le_rfl, Nat.sub_self,
    List.singleton_append, List.set_cons_zero, List.replicate_succ]

theorem peeks_filled (ht : t.length ≤ MAX_LEN) {i n : Nat} (h : i + n ≤ MAX_LEN + 1) :
    peeks (filled t) i n = some (((filled t).drop i).take n) :=
  if_pos (by rwa [length_filled ht])

/-- What is read from the text alone. -/
theorem peeks_text (ht : t.length ≤ MAX_LEN) {i n : Nat} (h : i + n = t.length) :
    peeks (filled t) i n = some (t.drop i) := by
  rw [peeks_filled ht (by omega), filled, List.drop_append_of_le_length (by omega), List.take_append_of_le_length,
    List.take_of_length_le] <;> rw [List.length_drop] <;> omega

theorem strcpy_filled {init : Text} (h : init.length ≤ MAX_LEN) :
    strcpy (List.replicate (MAX_LEN + 1) nul) init = some (filled init) := by
  have hlen : init.length < (List.replicate (MAX_LEN + 1) nul).length := by
    rw [List.length_replicate]
    omega
  obtain ⟨n, hn⟩ : ∃ n, MAX_LEN + 1 - init.length = n + 1 := ⟨MAX_LEN - init.length, by omega⟩
  have hn' : MAX_LEN + 1 - (init.length + 1) = n := by omega
  rw [strcpy, if_pos hlen, List.drop_replicate, hn', filled, hn, List.replicate_succ]

end

/-! ## Cells -/

theorem paint_zero (field cs : Text) : paint field 0 cs = cs ++ field.drop cs.length := by
  rw [paint, List.take_zero, List.nil_append, Nat.zero_add]

/-- A text over one that is not longer. -/
theorem paint_front (n : Nat) {u t : Text} (h : u.length ≤ t.length) : paint (shownIn n u) 0 t = shownIn n t := by
  have hn : n - u.length - (t.length - u.length) = n - t.length := by omega
  rw [paint_zero, shownIn, shownIn, List.drop_append, List.drop_of_length_le h, List.nil_append,
    List.drop_replicate, hn]

theorem length_shownIn {n : Nat} {t : Text} (h : t.length ≤ n) : (shownIn n t).length = n := by
  rw [shownIn, List.length_append, List.length_replicate]
  omega

/-- A character behind the text. -/
theorem paint_behind {n : Nat} {t : Text} (h : t.length < n) (c : Char) :
    paint (shownIn n t) t.length [c] = shownIn n (t ++ [c]) := by
  obtain ⟨k, hk⟩ : ∃ k, n - t.length = k + 1 := ⟨n - t.length - 1, by omega⟩
  have hk' : n - (t ++ [c]).length = k := by
    rw [List.length_append, List.length_singleton]
    omega
  rw [paint, shownIn, shownIn, hk, hk', List.take_left, List.length_singleton, ← List.drop_drop, List.drop_left,
    List.replicate_succ, List.drop_one, List.tail_cons]

theorem shownIn_blank {n : Nat} {t : Text} (h : t.length < n) : shownIn n (t ++ [' ']) = shownIn n t := by
  obtain ⟨k, hk⟩ : ∃ k, n - t.length = k + 1 := ⟨n - t.length - 1, by omega⟩
  have hk' : n - (t ++ [' ']).length = k := by
    rw [List.length_append, List.length_singleton]
    omega
  rw [shownIn, shownIn, hk, hk', List.replicate_succ, List.append_assoc, List.singleton_append]

/-- A blank over the last character. -/
theorem paint_last {n : Nat} {t : Text} (c : Char) (h : t.length < n) :
    paint (shownIn n (t ++ [c])) t.length [' '] = shownIn n t := by
  obtain ⟨k, hk⟩ : ∃ k, n - t.length = k + 1 := ⟨n - t.length - 1, by omega⟩
  have hk' : n - (t ++ [c]).length = k := by
    rw [List.length_append, List.length_singleton]
    omega
  have hsplit : t ++ [c] ++ List.replicate k ' ' = t ++ c :: List.replicate k ' ' := by
    rw [List.append_assoc, List.singleton_append]
  rw [paint, shownIn, shownIn, hk, hk', hsplit, List.take_left, List.length_singleton, ← List.drop_drop, List.drop_left,
    List.drop_one, List.tail_cons, List.replicate_succ, List.append_assoc, List.singleton_append]

/-! ## One key -/

section
variable {box_width : Nat} {e : Editor} {s : State}

theorem length_window (e : Editor) : (e.text.drop e.scroll).length = e.cursor := List.length_drop

/-- The cursor is behind the text. -/
theorem Shows.position (h : Shows box_width e s) : s.scroll + s.input_x = e.text.length := by
  have hwindow := h.window
  rw [h.scroll, h.input_x, Editor.cursor]
  omega

/-- **A character** is put behind the text. -/
theorem insert_shows (h : Shows box_width e s) {c : Char} (hc : isprint c.toNat) :
    ∃ s', insert box_width s c = some s' ∧ Shows box_width (e.type box_width c) s' := by
  have hwindow := h.window
  have hroom := h.room
  have hcursor : e.cursor = e.text.length - e.scroll := rfl
  rw [insert, Editor.type, h.position, h.instr]
  by_cases hlen : e.text.length < MAX_LEN
  · have hlong : (e.text ++ [c]).length = e.text.length + 1 := List.length_append
    have hend : poke (filled (e.text ++ [c])) (e.text.length + 1) nul = some (filled (e.text ++ [c])) :=
      hlong ▸ poke_end (by omega)
    have hdrop : (e.text ++ [c]).drop e.scroll = e.text.drop e.scroll ++ [c] := List.drop_append_of_le_length hwindow
    have hchars : Printable (e.text ++ [c]) :=
      List.forall_mem_append.2 ⟨h.chars, List.forall_mem_singleton.2 hc⟩
    simp only [if_pos hlen, poke_char hlen c, Option.bind_eq_bind, Option.bind_some, hend, h.input_x, h.scroll, h.field]
    by_cases hfull : e.cursor = box_width - 1
    · have hshown : peeks (filled (e.text ++ [c])) (e.scroll + 1) (box_width - 1) =
          some ((e.text ++ [c]).drop (e.scroll + 1)) := peeks_text (by omega) (by omega)
      simp only [if_pos hfull, hshown, Option.bind_some]
      refine ⟨_, rfl, rfl, ?_, rfl, ?_, h.buttons, hchars, ?_, ?_, ?_, fun _ => by omega⟩
      · exact paint_front _ (by rw [List.length_drop, List.length_drop]; omega)
      all_goals
        simp only [Editor.cursor, hlong]
        omega
    · simp only [if_neg hfull]
      refine ⟨_, rfl, rfl, ?_, rfl, ?_, h.buttons, hchars, ?_, ?_, ?_, h.scrolled⟩
      · dsimp only
        rw [← length_window, paint_behind (by rw [length_window]; exact hroom), hdrop]
      all_goals
        simp only [Editor.cursor, hlong]
        omega
  · rw [if_neg hlen, if_neg hlen]
    exact ⟨s, rfl, h⟩

/-- What is drawn of the text and the bytes behind it. -/
theorem map_window {t : Text} (hnul : nul ∉ t) {k n : Nat} (hk : k ≤ t.length) (hroom : t.length - k ≤ n)
    (hn : k + n ≤ MAX_LEN + 1) :
    (((filled t).drop k).take n).map (fun c => if c = nul then ' ' else c) = shownIn n (t.drop k) := by
  have hlen : (t.drop k).length = t.length - k := List.length_drop
  have hbehind : min (n - (t.length - k)) (MAX_LEN + 1 - t.length) = n - (t.length - k) := by omega
  have hmap : (t.drop k).map (fun c => if c = nul then ' ' else c) = t.drop k := by
    refine (List.map_congr_left fun c hc => ?_).trans (List.map_id _)
    refine if_neg ?_
    rintro rfl
    exact hnul (List.mem_of_mem_drop hc)
  rw [filled, List.drop_append_of_le_length hk, List.take_append, List.take_of_length_le (hlen.trans_le hroom), hlen,
    List.take_replicate, hbehind, List.map_append, List.map_replicate, if_pos rfl, hmap, shownIn, hlen]

/-- An empty window moves back. -/
theorem scrollBack_eq (h : Shows box_width e s) (hcursor : e.cursor = 0) (hscroll : e.scroll ≠ 0) :
    scrollBack box_width s = some { s with
      scroll := e.scroll - (box_width - 1)
      field := shownIn box_width (e.text.drop (e.scroll - (box_width - 1)))
      input_x := e.text.length - (e.scroll - (box_width - 1)) } := by
  have hwindow := h.window
  have hroom := h.room
  have hlen := h.length
  have hwide := h.scrolled (Nat.pos_of_ne_zero hscroll)
  have hend : e.scroll = e.text.length := by
    rw [Editor.cursor] at hcursor
    omega
  have hback : (if e.scroll < box_width - 1 then 0 else e.scroll - (box_width - 1)) = e.scroll - (box_width - 1) := by
    split <;> omega
  have hread : peeks (filled e.text) (e.scroll - (box_width - 1)) box_width =
      some (((filled e.text).drop (e.scroll - (box_width - 1))).take box_width) := peeks_filled hlen (by omega)
  have hshown := map_window h.chars.nul (k := e.scroll - (box_width - 1)) (n := box_width) (by omega)
    (by omega) (by omega)
  have hpaint : paint s.field 0 (shownIn box_width (e.text.drop (e.scroll - (box_width - 1)))) =
      shownIn box_width (e.text.drop (e.scroll - (box_width - 1))) := by
    have hcells : (shownIn box_width (e.text.drop (e.scroll - (box_width - 1)))).length = box_width :=
      length_shownIn (by rw [List.length_drop]; omega)
    have hfield : s.field.length = box_width := by
      rw [h.field]
      exact length_shownIn (by rw [List.length_drop]; omega)
    have hrest : s.field.drop box_width = [] := List.drop_of_length_le hfield.le
    rw [paint_zero, hcells, hrest, List.append_nil]
  simp only [scrollBack, h.scroll, hback, h.instr, hread, Option.bind_eq_bind, Option.bind_some, hshown, hpaint,
    strlen_filled h.chars.nul]

/-- **Backspace** takes the last character, or moves an empty window back. -/
theorem backspace_shows (h : Shows box_width e s) :
    ∃ s', backspace box_width s = some s' ∧ Shows box_width (e.erase box_width) s' := by
  have hwindow := h.window
  have hroom := h.room
  have hlen := h.length
  have hcursor : e.cursor = e.text.length - e.scroll := rfl
  rw [backspace, h.input_x, h.scroll]
  by_cases hempty : e.cursor = 0
  · by_cases hscroll : e.scroll = 0
    · rw [if_neg (by simp [hempty, hscroll]), Editor.erase, if_pos hempty, hscroll, Nat.zero_sub, ← hscroll]
      exact ⟨s, rfl, h⟩
    · have hend : e.scroll = e.text.length := by omega
      have hpos : e.scroll - (box_width - 1) + (e.text.length - (e.scroll - (box_width - 1))) = e.text.length := by
        omega
      have hcells : (e.text.drop (e.scroll - (box_width - 1))).length =
          e.text.length - (e.scroll - (box_width - 1)) := List.length_drop
      simp only [hempty, hscroll, ne_eq, not_true_eq_false, not_false_eq_true, or_true, if_true,
        scrollBack_eq h hempty hscroll, Option.bind_eq_bind, Option.bind_some, hpos, h.instr, poke_end hlen,
        Editor.erase]
      refine ⟨_, rfl, rfl, ?_, rfl, rfl, h.buttons, h.chars, hlen, ?_, ?_, fun _ => h.scrolled (by omega)⟩
      · -- the cell behind the text is blank
        dsimp only
        rw [← hcells, paint_behind (by omega), shownIn_blank (by omega)]
      all_goals
        simp only [Editor.cursor]
        omega
  · obtain ⟨t, c, ht⟩ : ∃ t c, e.text = t ++ [c] :=
      ⟨e.text.dropLast, e.text.getLast (by rintro h; simp [h] at hcursor; omega), (List.dropLast_append_getLast _).symm⟩
    have hlong : e.text.length = t.length + 1 := by rw [ht, List.length_append, List.length_singleton]
    have hpos : e.scroll + (e.cursor - 1) = t.length := by omega
    have hpoke : poke s.instr t.length nul = some (filled t) := by
      rw [h.instr, ht]
      exact poke_last c (ht ▸ hlen)
    have hdrop : e.text.drop e.scroll = t.drop e.scroll ++ [c] := by
      rw [ht]
      exact List.drop_append_of_le_length (by omega)
    have hcell : (t.drop e.scroll).length = e.cursor - 1 := by
      rw [List.length_drop]
      omega
    have herase : e.erase box_width = { e with text := t } := by
      rw [Editor.erase, if_neg hempty, ht, List.dropLast_concat]
    simp only [hempty, ne_eq, not_false_eq_true, true_or, if_true, if_false, Option.bind_eq_bind, Option.bind_some,
      hpos, hpoke, herase]
    have hchars : Printable t := fun x hx => h.chars x (by rw [ht]; exact List.mem_append_left _ hx)
    refine ⟨_, rfl, rfl, ?_, rfl, ?_, h.buttons, hchars, ?_, ?_, ?_, h.scrolled⟩
    · dsimp only
      rw [h.field, hdrop, ← hcell, paint_last c (by omega)]
    all_goals
      simp only [Editor.cursor]
      omega

theorem Shows.pressed (h : Shows box_width e s) (key : Int) :
    Outcome.Rel (fun s e => Shows box_width e s) (pressed s key) (e.pressed key) := by
  rw [Inputbox.pressed, Editor.pressed, h.buttons]
  split
  · exact ⟨h.instr, h.field, h.scroll, h.input_x, rfl, h.chars, h.length, h.window, h.room, h.scrolled⟩
  · exact ⟨rfl, h⟩

theorem isprint_ofNat {key : Int} (h : isprint key) : isprint (Char.ofNat key.toNat).toNat := by
  obtain ⟨hlo, hhi⟩ := h
  have hvalid : key.toNat.isValidChar := Or.inl (by omega)
  rw [Char.ofNat, dif_pos hvalid]
  have hnat : (((Char.ofNatAux key.toNat hvalid).toNat : Nat) : Int) = key := Int.toNat_of_nonneg (by omega)
  rw [hnat]
  exact ⟨hlo, hhi⟩

/-- **One key** does to the buffer what it does to the text. -/
theorem turn_shows (h : Shows box_width e s) (key : Int) :
    ∃ o, turn box_width s key = some o ∧ Outcome.Rel (fun s e => Shows box_width e s) o (e.turn box_width key) := by
  have hbutton : e.buttons.1 = s.button := h.buttons ▸ rfl
  rw [turn, Editor.turn, hbutton]
  split
  · exact ⟨_, rfl, h.pressed key⟩
  · split
    · exact ⟨_, rfl, h⟩
    · split
      · obtain ⟨s', hs', hshows⟩ := backspace_shows h
        exact ⟨.shows s', by rw [hs', Option.map_some], hshows⟩
      · split
        next hprint =>
          obtain ⟨s', hs', hshows⟩ := insert_shows h (isprint_ofNat hprint)
          exact ⟨.shows s', by rw [hs', Option.map_some], hshows⟩
        next => exact ⟨_, rfl, h.pressed key⟩

theorem run_shows (h : Shows box_width e s) (keys : List Int) :
    ∃ o, run box_width s keys = some o ∧ Outcome.Rel (fun s e => Shows box_width e s) o (e.run box_width keys) := by
  induction keys generalizing e s with
  | nil => exact ⟨_, rfl, h⟩
  | cons key keys ih =>
    obtain ⟨o, ho, hrel⟩ := turn_shows h key
    rw [run, Editor.run, ho]
    cases o with
    | shows s' =>
      cases he : e.turn box_width key with
      | shows e' => exact ih (by rw [he] at hrel; exact hrel)
      | returns code e' => rw [he] at hrel; exact hrel.elim
    | returns code s' =>
      cases he : e.turn box_width key with
      | shows e' => rw [he] at hrel; exact hrel.elim
      | returns code' e' => exact ⟨_, rfl, by rw [he] at hrel; exact hrel⟩

end

/-- The dialog at its start. -/
theorem start_shows {box_width : Nat} (hwidth : 0 < box_width) {init : Text} (hprint : Printable init)
    (hlen : init.length ≤ MAX_LEN) :
    ∃ s, start box_width init = some s ∧ Shows box_width (Editor.start box_width init) s := by
  have hblank : List.replicate box_width ' ' = shownIn box_width [] := rfl
  have hpaint : ∀ t, paint (List.replicate box_width ' ') 0 t = shownIn box_width t :=
    fun t => hblank ▸ paint_front box_width (Nat.zero_le _)
  simp only [start, strcpy_filled hlen, Option.bind_eq_bind, Option.bind_some, strlen_filled hprint.nul, Editor.start]
  by_cases hlong : box_width ≤ init.length
  · have hread : peeks (filled init) (init.length - box_width + 1) (box_width - 1) =
        some (init.drop (init.length - box_width + 1)) := peeks_text hlen (by omega)
    simp only [if_pos hlong, hread, Option.bind_some, hpaint]
    refine ⟨_, rfl, rfl, rfl, rfl, ?_, rfl, hprint, hlen, ?_, ?_, fun _ => by omega⟩
    all_goals
      simp only [Editor.cursor]
      omega
  · have hread : peeks (filled init) 0 init.length = some init := peeks_text hlen (Nat.zero_add _)
    simp only [if_neg hlong, hread, Option.bind_some, hpaint]
    refine ⟨_, rfl, rfl, rfl, rfl, rfl, rfl, hprint, hlen, Nat.zero_le _, ?_, fun h => absurd h (lt_irrefl 0)⟩
    simp only [Editor.cursor]
    omega

/-- **The box is an editor**: whatever keys are pressed, no access is outside of the buffer, and the field shows the
window of the text that the keys have made of the first one. -/
theorem inputbox_edits (box_width : Nat) (hwidth : 0 < box_width) (init : Text) (hprint : Printable init)
    (hlen : init.length ≤ MAX_LEN) (keys : List Int) :
    ∃ o, (start box_width init).bind (run box_width · keys) = some o ∧
      Outcome.Rel (fun s e => Shows box_width e s) o ((Editor.start box_width init).run box_width keys) := by
  obtain ⟨s, hs, hshows⟩ := start_shows hwidth hprint hlen
  rw [hs, Option.bind_some]
  exact run_shows hshows keys

theorem inputbox_edits_auto :
    ∃ o, (start 10 "auto".toList).bind (run 10 · [keyBackspace, 'x'.toNat, tab, enter]) = some o ∧
      Outcome.Rel (fun s e => Shows 10 e s) o
        ((Editor.start 10 "auto".toList).run 10 [keyBackspace, 'x'.toNat, tab, enter]) :=
  inputbox_edits 10 (by decide) _ (by decide) (by decide) _

/-! ## The value -/

/-- What the buttons can be: the field, `Ok`, and the third, which is no button, with `Ok` drawn as selected or not. -/
def allButtons : List (Int × Int) := [(-1, 0), (0, 0), (1, 0), (1, 1)]

section
variable {box_width : Nat} {e e' : Editor}

theorem pressed_buttons (h : e.buttons ∈ allButtons) {key : Int} (hkey : e.pressed key = .shows e') :
    e'.buttons ∈ allButtons := by
  have hall : ∀ b ∈ allButtons, prevButton b ∈ allButtons ∧ nextButton b ∈ allButtons := by decide
  unfold Editor.pressed buttonKey at hkey
  split at hkey
  next b hb =>
    cases hkey
    split at hb
    · cases hb
    · split at hb
      · cases hb
        exact (hall _ h).1
      · split at hb
        · cases hb
          exact (hall _ h).2
        · split at hb
          · cases hb
          · split at hb
            · cases hb
            · cases hb
              exact h
  next => cases hkey

theorem turn_buttons (h : e.buttons ∈ allButtons) {key : Int} (hkey : e.turn box_width key = .shows e') :
    e'.buttons ∈ allButtons := by
  unfold Editor.turn at hkey
  split at hkey
  · exact pressed_buttons h hkey
  · split at hkey
    · cases hkey
      exact h
    · split at hkey
      · cases hkey
        unfold Editor.erase
        split <;> exact h
      · split at hkey
        · cases hkey
          unfold Editor.type
          split <;> exact h
        · exact pressed_buttons h hkey

theorem run_buttons (h : e.buttons ∈ allButtons) {keys : List Int} (hrun : e.run box_width keys = .shows e') :
    e'.buttons ∈ allButtons := by
  induction keys generalizing e with
  | nil =>
    cases hrun
    exact h
  | cons key keys ih =>
    rw [Editor.run] at hrun
    split at hrun
    next hkey => exact ih (turn_buttons h hkey) hrun
    next hnot => exact absurd hrun (hnot e')

theorem run_append {keys : List Int} (hrun : e.run box_width keys = .shows e') (more : List Int) :
    e.run box_width (keys ++ more) = e'.run box_width more := by
  induction keys generalizing e with
  | nil =>
    cases hrun
    rfl
  | cons key keys ih =>
    rw [Editor.run] at hrun
    rw [List.cons_append, Editor.run]
    split at hrun
    next => exact ih hrun
    next hnot => exact absurd hrun (hnot e')

theorem enter_returns (e : Editor) :
    e.turn box_width enter = .returns (if e.buttons.1 = -1 then 0 else e.buttons.1) e := by
  have hkeys : ¬ isprint enter := by decide
  have hpressed : e.pressed enter = .returns (if e.buttons.1 = -1 then 0 else e.buttons.1) e := rfl
  rw [Editor.turn, if_neg (by decide : ¬ (enter = keyLeft ∨ enter = keyRight)),
    if_neg (by decide : ¬ (enter = keyBackspace ∨ enter = 127)), if_neg hkeys, ite_self]
  exact hpressed

end

/-- The value of the option behind the dialog that was given these keys. -/
def valueAfter (box_width : Nat) (init old : Text) (keys : List Int) : Option Text :=
  ((start box_width init).bind (run box_width · keys)).bind (textAction old)

section
variable {box_width : Nat} (hwidth : 0 < box_width) {init : Text} (hprint : Printable init)
  (hlen : init.length ≤ MAX_LEN) {keys : List Int} {e : Editor}
include hwidth hprint hlen

/-- What `text_action` makes of a dialog that has ended. -/
theorem valueAfter_eq {code : Int} (hrun : (Editor.start box_width init).run box_width keys = .returns code e)
    (hformat : '%' ∉ e.text) (old : Text) :
    valueAfter box_width init old keys = some (if code = 0 then e.text else if code = 1 then [] else old) := by
  obtain ⟨s, hs, hshows⟩ := start_shows hwidth hprint hlen
  obtain ⟨o, ho, hrel⟩ := run_shows hshows keys
  rw [hrun] at hrel
  rw [valueAfter, hs, Option.bind_some, ho, Option.bind_some]
  cases o with
  | shows s => exact hrel.elim
  | returns code' s =>
    obtain ⟨rfl, hend⟩ := hrel
    have hstrip : e.text.rdropWhile (· == '\n') = e.text := by
      refine List.rdropWhile_eq_self_iff.2 fun hne hlast => hend.chars.newline ?_
      rw [← eq_of_beq hlast]
      exact List.getLast_mem hne
    rw [textAction, hend.instr, strlen_filled hend.chars.nul, take_filled, shownText, if_neg hformat,
      Option.map_some, hstrip]
    split
    · rfl
    · split <;> rfl

theorem valueAfter_enter (hrun : (Editor.start box_width init).run box_width keys = .shows e) (hformat : '%' ∉ e.text)
    (old : Text) :
    valueAfter box_width init old (keys ++ [enter]) = some (if e.buttons.1 = 1 then [] else e.text) := by
  have hbuttons : e.buttons ∈ allButtons := run_buttons (by simp [Editor.start, allButtons]) hrun
  have hend : (Editor.start box_width init).run box_width (keys ++ [enter]) =
      .returns (if e.buttons.1 = -1 then 0 else e.buttons.1) e := by
    rw [run_append hrun, Editor.run, enter_returns]
  rw [valueAfter_eq hwidth hprint hlen hend hformat]
  have hcode : ∀ b ∈ allButtons, b.1 = -1 ∨ b.1 = 0 ∨ b.1 = 1 := by decide
  rcases hcode _ hbuttons with h | h | h <;> rw [h] <;> rfl

end

/-- **The value is the text**, unless the third button is selected: then the option is empty. One step forward from the
field that button is selected, and `Ok` is drawn as selected. -/
theorem text_action_ok (box_width : Nat) (hwidth : 0 < box_width) (init : Text) (hprint : Printable init)
    (hlen : init.length ≤ MAX_LEN) (keys : List Int) (e : Editor)
    (hrun : (Editor.start box_width init).run box_width keys = .shows e) (hformat : '%' ∉ e.text) (old : Text) :
    valueAfter box_width init old (keys ++ [enter]) = some (if e.buttons.1 = 1 then [] else e.text) ∧
      (e.buttons.1 = -1 →
        (Editor.start box_width init).run box_width (keys ++ [tab]) = .shows { e with buttons := (1, 0) } ∧
          valueAfter box_width init old (keys ++ [tab, enter]) = some []) := by
  refine ⟨valueAfter_enter hwidth hprint hlen hrun hformat old, fun hfield => ?_⟩
  have htab : (Editor.start box_width init).run box_width (keys ++ [tab]) = .shows { e with buttons := (1, 0) } := by
    have hbuttons : e.buttons ∈ allButtons := run_buttons (by simp [Editor.start, allButtons]) hrun
    have hnext : ∀ b ∈ allButtons, b.1 = -1 → nextButton b = (1, 0) := by decide
    have hturn : e.turn box_width tab = .shows { e with buttons := nextButton e.buttons } := by
      rw [Editor.turn, if_pos (.inr (.inl rfl))]
      rfl
    rw [run_append hrun, Editor.run, hturn, hnext _ hbuttons hfield]
    rfl
  refine ⟨htab, ?_⟩
  have hend := valueAfter_enter hwidth hprint hlen htab hformat old
  rwa [List.append_assoc] at hend

theorem text_action_ok_auto :
    valueAfter 10 "auto".toList "4".toList ([keyBackspace] ++ [enter]) = some "aut".toList ∧
      (Editor.start 10 "auto".toList).run 10 ([keyBackspace] ++ [tab]) = .shows ⟨"aut".toList, 0, (1, 0)⟩ ∧
      valueAfter 10 "auto".toList "4".toList ([keyBackspace] ++ [tab, enter]) = some [] := by
  have hok := text_action_ok 10 (by decide) "auto".toList (by decide) (by decide) [keyBackspace]
    ⟨"aut".toList, 0, (-1, 0)⟩ (by decide) (by decide) "4".toList
  exact ⟨hok.1, hok.2 rfl⟩

end T2Sde.Inputbox
