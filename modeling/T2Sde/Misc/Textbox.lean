import T2Sde.Lib.Cut
import T2Sde.Lib.Window
import T2Sde.Misc.Inputbox
/-!
# The pages of a text box (`misc/confdialog/textbox.c`)

A file is shown page by page out of a buffer of `BUF_SIZE` bytes. `page` is behind the last line that was read, in the
buffer; going back means to look for the newlines in front of it, and to read the file again where the buffer ends.

| here | there |
| --- | --- |
| `deref`        | `*page`, with the NUL behind the bytes that were read |
| `getLine`      | `get_line` :499-545 |
| `readBack`     | the file is read again, further in front :361-386, :411-436 |
| `backLine`     | one turn of the loop :401-442 |
| `backLines`    | `back_lines` :337-444 |
| `printPage`, `printLine` | `print_page`, `print_line` :450-491 |
| `percent`      | `print_position` :560-561 |
| `start`        | `dialog_textbox` :54-141 |
| `firstPage` … `turn` | one turn of the loop :143-318, with `command` for the key |

* `getLine_place`, `backLines_place` — what is read at a line, and where `n` lines back are.
* `textbox_shows` — **the box shows the lines of the file**, whatever the buffer holds, and no access is outside.
-/
namespace T2Sde.Textbox
open Shell (Text)
open Inputbox (Outcome MAX_LEN nul)
open Menubox (keyDown keyUp keyLeft keyRight keyNpage keyPpage esc)

/-! ## The file and the buffer -/

def BUF_SIZE : Nat := 10 * 1024

/-- What ends the program: an access outside of the buffer, `lseek` in front of the file, a line that does not end where
the one behind it begins. -/
inductive Failure
  | outside | seek | internal
  deriving DecidableEq, Repr

/-- `*page` -/
def deref (w : Window Char) : Except Failure Char :=
  match (w.buf ++ [nul])[w.page]? with
  | some c => .ok c
  | none => .error .outside

theorem deref_ok {w : Window Char} {c : Char} (h : deref w = .ok c) :
    w.page ≤ w.buf.length ∧ (c ≠ nul → w.page < w.buf.length) := by
  rw [deref] at h
  split at h
  next c' hc =>
    obtain rfl : c' = c := Except.ok.inj h
    have hlt := (List.getElem?_eq_some_iff.1 hc).1
    rw [List.length_append, List.length_singleton] at hlt
    refine ⟨by omega, fun hne => ?_⟩
    by_contra hge
    rw [show w.page = w.buf.length by omega, List.getElem?_concat_length] at hc
    exact hne (Option.some.inj hc).symm
  next => cases h

/-- The loop of `get_line`, with the characters of the line so far: the window behind the line, and whether the file
ends there. -/
def getLine (file : Text) (w : Window Char) (line : Text) : Except Failure (Window Char × Bool × Text) :=
  match _hderef : deref w with
  | .error e => .error e
  | .ok c =>
    if c = '\n' then .ok (w.next, false, line)
    else if c = nul then
      if w.fpos < file.length then getLine file (Window.load file BUF_SIZE w.fpos 0) line else .ok (w, true, line)
    else getLine file w.next (if line.length < MAX_LEN then line ++ [c] else line)
termination_by 2 * (file.length - w.fpos + (w.buf.length - w.page)) + (1 - (w.buf.length - w.page))
decreasing_by
  · have hpage := (deref_ok _hderef).1
    have hbuf : BUF_SIZE = 10240 := rfl
    simp only [Window.load, List.length_take, List.length_drop]
    omega
  · have hpage := (deref_ok _hderef).2 ‹_›
    simp only [Window.next]
    omega

/-- The window is moved to the front by half a buffer, or to the beginning of the file. -/
def readBack (file : Text) (w : Window Char) : Window Char :=
  if w.fpos < BUF_SIZE / 2 + w.buf.length then Window.load file BUF_SIZE 0 (w.fpos - w.buf.length)
  else Window.load file BUF_SIZE (w.fpos - (BUF_SIZE / 2 + w.buf.length)) (BUF_SIZE / 2)

/-- There is something in front of the place; none at the beginning of the file. -/
def room (file : Text) (w : Window Char) : Option (Window Char) :=
  if w.page = 0 then if w.buf.length < w.fpos then some (readBack file w) else none else some w

/-- `*(--page)` -/
def stepBack (w : Window Char) : Except Failure (Char × Window Char) :=
  if w.page = 0 then .error .outside
  else
    match deref w.prev with
    | .ok c => .ok (c, w.prev)
    | .error e => .error e

theorem pos_room {file : Text} {w w' : Window Char} (h : room file w = some w') : w'.pos = w.pos ∧ 0 < w'.page := by
  have hbuf : BUF_SIZE = 10240 := rfl
  rw [room] at h
  split at h
  next hpage =>
    split at h
    next hlt =>
      obtain rfl := Option.some.inj h
      rw [readBack]
      split <;> simp only [Window.load, Window.pos] <;> omega
    next => cases h
  next hpage =>
    obtain rfl := Option.some.inj h
    exact ⟨rfl, by omega⟩

theorem stepBack_ok {w w' : Window Char} {c : Char} (h : stepBack w = .ok (c, w')) :
    0 < w.page ∧ deref w.prev = .ok c ∧ w' = w.prev := by
  rw [stepBack] at h
  split at h
  next => cases h
  next hpage =>
    split at h
    next c' hc =>
      obtain ⟨rfl, rfl⟩ := Prod.mk.inj (Except.ok.inj h)
      exact ⟨by omega, hc, rfl⟩
    next => cases h

/-- Back to the newline in front of the line; `true` if the file begins there. -/
def backLine (file : Text) (w : Window Char) : Except Failure (Window Char × Bool) :=
  match _hroom : room file w with
  | none => .ok (w, true)
  | some w' =>
    match _hback : stepBack w' with
    | .error e => .error e
    | .ok (c, w'') => if c = '\n' then .ok (w'', false) else backLine file w''
termination_by w.pos
decreasing_by
  obtain ⟨hpage, -, rfl⟩ := stepBack_ok _hback
  rw [← (pos_room _hroom).1]
  simp only [Window.prev, Window.pos]
  omega

/-- The turns of the loop, and `page++`. -/
def backLoop (file : Text) : Nat → Window Char → Except Failure (Window Char × Bool)
  | 0, w => .ok (w.next, false)
  | n + 1, w =>
    match backLine file w with
    | .ok (w, false) => backLoop file n w
    | r => r

def backLines (file : Text) (end_reached : Bool) (n : Nat) (w : Window Char) : Except Failure (Window Char × Bool) :=
  if end_reached then backLoop file n w
  else
    match room file w with
    | none => .ok (w, true)
    | some w' =>
      match stepBack w' with
      | .error e => .error e
      | .ok (c, w'') => if c = '\n' then backLoop file n w'' else .error .internal

/-! ## The page -/

/-- The static variables, and the rows of the text region. -/
structure State extends Window Char where
  begin_reached : Bool
  end_reached : Bool
  page_length : Nat
  hscroll : Nat
  rows : List Text
  deriving DecidableEq, Repr

/-- The row of a line. -/
def shown (width hscroll : Nat) (line : Text) : Text := ' ' :: (line.drop hscroll).take (width - 2)

/-- A line is read that is not drawn. -/
def skipLine (file : Text) (s : State) : Except Failure State :=
  match getLine file s.toWindow [] with
  | .error e => .error e
  | .ok (w, end_reached, _) => .ok { s with toWindow := w, end_reached := end_reached }

def printLine (file : Text) (width : Nat) (s : State) (row : Nat) : Except Failure State :=
  match getLine file s.toWindow [] with
  | .error e => .error e
  | .ok (w, end_reached, line) =>
    .ok { s with toWindow := w, end_reached := end_reached, rows := s.rows.set row (shown width s.hscroll line) }

/-- The loop over `n` rows from `i` on, which counts the lines up to the end of the file. -/
def pageLoop (readLine : State → Nat → Except Failure State) : Nat → Nat → Bool → State → Except Failure State
  | 0, _, _, s => .ok s
  | n + 1, i, passed_end, s =>
    match readLine s i with
    | .error e => .error e
    | .ok s =>
      pageLoop readLine n (i + 1) (passed_end || s.end_reached)
        { s with page_length := if passed_end then s.page_length else s.page_length + 1 }

def printPage (file : Text) (height width : Nat) (s : State) : Except Failure State :=
  pageLoop (printLine file width) height 0 false { s with page_length := 0 }

/-- The first line of a page is drawn, the others are read. -/
def printFirst (file : Text) (height width : Nat) (s : State) : Except Failure State :=
  pageLoop (fun s i => if i = 0 then printLine file width s 0 else skipLine file s) height 0 false
    { s with page_length := 0 }

def goBack (file : Text) (n : Nat) (s : State) : Except Failure State :=
  match backLines file s.end_reached n s.toWindow with
  | .error e => .error e
  | .ok (w, begin_reached) => .ok { s with toWindow := w, begin_reached := begin_reached }

/-- The page that begins `n` lines in front of where this one ends. -/
def pageBack (file : Text) (height width n : Nat) (s : State) : Except Failure State :=
  match goBack file n s with
  | .error e => .error e
  | .ok s => printPage file height width s

def percent (file : Text) (s : State) : Nat := if file.length = 0 then 100 else s.toWindow.pos * 100 / file.length

/-! ## The keys -/

def keyHome : Int := 0o406

def keyEnd : Int := 0o550

inductive Command
  | quit | firstPage | lastPage | prevLine | prevPage | nextLine | nextPage | leftmost | left | right | escape | nothing
  deriving DecidableEq, Repr

def letters (cs : List Char) : List Int := cs.map fun c => c.toNat

def command (key : Int) : Command :=
  if key ∈ letters ['E', 'e', 'X', 'x'] then .quit
  else if key ∈ keyHome :: letters ['g'] then .firstPage
  else if key ∈ keyEnd :: letters ['G'] then .lastPage
  else if key ∈ keyUp :: letters ['K', 'k'] then .prevLine
  else if key ∈ keyPpage :: letters ['B', 'b'] then .prevPage
  else if key ∈ keyDown :: letters ['J', 'j'] then .nextLine
  else if key ∈ keyNpage :: letters [' '] then .nextPage
  else if key ∈ letters ['0'] then .leftmost
  else if key ∈ keyLeft :: letters ['H', 'h'] then .left
  else if key ∈ keyRight :: letters ['L', 'l'] then .right
  else if key ∈ esc :: letters ['\n'] then .escape
  else .nothing

/-- `KEY_HOME` -/
def firstPage (file : Text) (height width : Nat) (s : State) : Except Failure State :=
  if s.begin_reached then .ok s
  else
    let w := if s.buf.length < s.fpos then Window.load file BUF_SIZE 0 0 else { s.toWindow with page := 0 }
    printPage file height width { s with toWindow := w, begin_reached := true }

/-- `KEY_END` -/
def lastPage (file : Text) (height width : Nat) (s : State) : Except Failure State :=
  if s.fpos < file.length then
    if file.length < BUF_SIZE then .error .seek
    else
      let w := Window.load file BUF_SIZE (file.length - BUF_SIZE) 0
      pageBack file height width height { s with toWindow := { w with page := w.buf.length }, end_reached := true }
  else
    pageBack file height width height
      { s with toWindow := { s.toWindow with page := s.buf.length }, end_reached := true }

/-- `KEY_UP`: the rows move down. -/
def prevLine (file : Text) (height width : Nat) (s : State) : Except Failure State :=
  if s.begin_reached then .ok s
  else
    match goBack file (s.page_length + 1) s with
    | .error e => .error e
    | .ok s => printFirst file height width { s with rows := [] :: s.rows.dropLast }

/-- `KEY_DOWN`: the rows move up. -/
def nextLine (file : Text) (height width : Nat) (s : State) : Except Failure State :=
  if s.end_reached then .ok s
  else printLine file width { s with begin_reached := false, rows := s.rows.drop 1 ++ [[]] } (height - 1)

def turn (file : Text) (height width : Nat) (s : State) : Command → Except Failure (Outcome State)
  | .quit => .ok (.returns 0 s)
  | .firstPage => (firstPage file height width s).map .shows
  | .lastPage => (lastPage file height width s).map .shows
  | .prevLine => (prevLine file height width s).map .shows
  | .prevPage =>
    if s.begin_reached then .ok (.shows s)
    else (pageBack file height width (s.page_length + height) s).map .shows
  | .nextLine => (nextLine file height width s).map .shows
  | .nextPage =>
    if s.end_reached then .ok (.shows s) else (printPage file height width { s with begin_reached := false }).map .shows
  | .leftmost =>
    if s.hscroll = 0 then .ok (.shows s)
    else (pageBack file height width s.page_length { s with hscroll := 0 }).map .shows
  | .left =>
    if s.hscroll = 0 then .ok (.shows s)
    else (pageBack file height width s.page_length { s with hscroll := s.hscroll - 1 }).map .shows
  | .right =>
    if MAX_LEN ≤ s.hscroll then .ok (.shows s)
    else (pageBack file height width s.page_length { s with hscroll := s.hscroll + 1 }).map .shows
  | .escape => .ok (.returns (-1) s)
  | .nothing => .ok (.shows s)

/-- The box before the first key; the text region has `height` rows and `width` columns. -/
def start (file : Text) (height width : Nat) : Except Failure State :=
  printPage file height width ⟨Window.load file BUF_SIZE 0 0, true, false, 0, 0, List.replicate height []⟩

def run (file : Text) (height width : Nat) : State → List Int → Except Failure (Outcome State)
  | s, [] => .ok (.shows s)
  | s, key :: keys =>
    match turn file height width s (command key) with
    | .ok (.shows s) => run file height width s keys
    | r => r

def textbox (file : Text) (height width : Nat) (keys : List Int) : Except Failure (Outcome State) :=
  match start file height width with
  | .ok s => run file height width s keys
  | .error e => .error e

/-! ## One access -/

section
variable {file : Text} {w : Window Char} {p : Nat}

theorem deref_of (h : Window.Of file BUF_SIZE w p) (hin : w.page < w.buf.length) {c : Char} (hc : file[p]? = some c) :
    deref w = .ok c := by
  rw [deref, List.getElem?_append_left hin, h.behind hin, hc]

theorem deref_end (hend : w.page = w.buf.length) : deref w = .ok nul := by
  rw [deref, hend, List.getElem?_concat_length]

theorem getLine_newline {line : Text} (h : deref w = .ok '\n') : getLine file w line = .ok (w.next, false, line) := by
  rw [getLine]
  split
  next e he => rw [h] at he; cases he
  next c hc =>
    obtain rfl : '\n' = c := Except.ok.inj (h.symm.trans hc)
    rfl

theorem getLine_char {line : Text} {c : Char} (h : deref w = .ok c) (hc : c ≠ '\n') (hnul : c ≠ nul) :
    getLine file w line = getLine file w.next (if line.length < MAX_LEN then line ++ [c] else line) := by
  rw [getLine]
  split
  next e he => rw [h] at he; cases he
  next c' hc' =>
    obtain rfl : c = c' := Except.ok.inj (h.symm.trans hc')
    rw [if_neg hc, if_neg hnul]

theorem getLine_nul {line : Text} (h : deref w = .ok nul) : getLine file w line =
    if w.fpos < file.length then getLine file (Window.load file BUF_SIZE w.fpos 0) line else .ok (w, true, line) := by
  rw [getLine]
  split
  next e he => rw [h] at he; cases he
  next c hc =>
    obtain rfl : nul = c := Except.ok.inj (h.symm.trans hc)
    rw [if_neg (by decide), if_pos rfl]

/-- The buffer is filled again where it ends. -/
theorem getLine_ahead (h : Window.Of file BUF_SIZE w p) (hp : p < file.length) :
    ∃ w', Window.Of file BUF_SIZE w' p ∧ w'.page < w'.buf.length ∧
      ∀ line, getLine file w line = getLine file w' line := by
  by_cases hin : w.page < w.buf.length
  · exact ⟨w, h, hin, fun _ => rfl⟩
  · have hend : w.page = w.buf.length := Nat.le_antisymm h.inside (by omega)
    have hfpos : w.fpos = p := h.fpos_eq hend
    have hbuf : BUF_SIZE = 10240 := rfl
    have hload := Window.Of.load file BUF_SIZE w.fpos 0 (by omega) (by omega) (by omega)
    refine ⟨Window.load file BUF_SIZE w.fpos 0, by rwa [hfpos] at hload ⊢, ?_, fun line => ?_⟩
    · simp only [Window.load, List.length_take, List.length_drop]
      omega
    · rw [getLine_nul (deref_end hend), if_pos (by omega)]

theorem room_of (h : Window.Of file BUF_SIZE w p) (hp : 0 < p) :
    ∃ w', room file w = some w' ∧ Window.Of file BUF_SIZE w' p ∧ 0 < w'.page := by
  rw [room]
  split
  next hpage =>
    have hpos : w.fpos - w.buf.length = p := by
      rw [← h.pos, Window.pos, hpage, Nat.add_zero]
    have hends := h.ends
    have hbuf : BUF_SIZE = 10240 := rfl
    rw [if_pos (by omega)]
    refine ⟨_, rfl, ?_⟩
    rw [readBack]
    split
    next hlt =>
      have hload := Window.Of.load file BUF_SIZE 0 (w.fpos - w.buf.length) (by omega) (by omega) (by omega)
      rw [Nat.zero_add, hpos] at hload
      rw [hpos]
      exact ⟨hload, hp⟩
    next hge =>
      have hload := Window.Of.load file BUF_SIZE (w.fpos - (BUF_SIZE / 2 + w.buf.length)) (BUF_SIZE / 2) (by omega)
        (by omega) (by omega)
      rw [show w.fpos - (BUF_SIZE / 2 + w.buf.length) + BUF_SIZE / 2 = p by omega] at hload
      exact ⟨hload, by simp only [Window.load]; omega⟩
  next hpage => exact ⟨w, rfl, h, by omega⟩

theorem room_zero (h : Window.Of file BUF_SIZE w 0) : room file w = none := by
  have hpos := h.pos
  rw [Window.pos] at hpos
  rw [room, if_pos (by omega), if_neg (by omega)]

theorem stepBack_of (h : Window.Of file BUF_SIZE w p) (hpage : 0 < w.page) {c : Char} (hc : file[p - 1]? = some c) :
    stepBack w = .ok (c, w.prev) := by
  have hinside := h.inside
  have hin : w.prev.page < w.prev.buf.length := by
    simp only [Window.prev]
    omega
  rw [stepBack, if_neg (by omega), deref_of (h.prev hpage) hin hc]

theorem backLine_none (h : room file w = none) : backLine file w = .ok (w, true) := by
  rw [backLine]
  split
  next => rfl
  next w' hw' => rw [h] at hw'; cases hw'

theorem backLine_some {w' w'' : Window Char} {c : Char} (h : room file w = some w')
    (hback : stepBack w' = .ok (c, w'')) :
    backLine file w = if c = '\n' then .ok (w'', false) else backLine file w'' := by
  rw [backLine]
  split
  next hnone => rw [h] at hnone; cases hnone
  next w₁ hw₁ =>
    obtain rfl : w' = w₁ := Option.some.inj (h.symm.trans hw₁)
    split
    next e he => rw [hback] at he; cases he
    next c' w₂ hc' =>
      obtain ⟨rfl, rfl⟩ := Prod.mk.inj (Except.ok.inj (hback.symm.trans hc'))
      rfl

end

/-! ## Lines -/

/-- The lines of a file, and no NUL in it. -/
structure FileOf (ls : List Text) (file : Text) : Prop where
  file_eq : file = ['\n'].intercalate ls
  newline : ∀ l ∈ ls, '\n' ∉ l
  nul : nul ∉ file
  ne_nil : ls ≠ []

/-- Where the line `m` begins, or the file ends. -/
def place (ls : List Text) (file : Text) (m : Nat) : Nat := if m < ls.length then Lines.offset ls m else file.length

section
variable {ls : List Text} {file : Text} {w : Window Char} {k : Nat}

theorem FileOf.length_pos (hf : FileOf ls file) : 0 < ls.length := List.length_pos_iff.2 hf.ne_nil

theorem FileOf.char (hf : FileOf ls file) (hk : k < ls.length) {i : Nat} (hi : i < (Lines.line ls k).length) :
    ∃ c, (Lines.line ls k)[i]? = some c ∧ file[Lines.offset ls k + i]? = some c ∧ c ≠ '\n' ∧ c ≠ Inputbox.nul := by
  have hline : Lines.line ls k = ls[k] := by
    rw [Lines.line, List.getElem?_eq_getElem hk]
    rfl
  have hc : file[Lines.offset ls k + i]? = some (Lines.line ls k)[i] := by
    rw [hf.file_eq, Lines.getElem?_line _ hk hi, List.getElem?_eq_getElem hi]
  refine ⟨(Lines.line ls k)[i], List.getElem?_eq_getElem hi, hc, ?_, ?_⟩
  · intro he
    have hmem : (Lines.line ls k)[i] ∈ ls[k] := hline ▸ List.getElem_mem hi
    exact hf.newline _ (List.getElem_mem hk) (he ▸ hmem)
  · intro he
    exact hf.nul (he ▸ List.mem_of_getElem? hc)

theorem FileOf.newline_behind (hf : FileOf ls file) (hk : k + 1 < ls.length) :
    file[Lines.offset ls k + (Lines.line ls k).length]? = some '\n' := by
  rw [hf.file_eq, Lines.getElem?_end _ hk]

theorem place_succ (file : Text) (hk : k + 1 < ls.length) :
    place ls file (k + 1) = Lines.offset ls k + (Lines.line ls k).length + 1 := by
  rw [place, if_pos hk, Lines.offset_succ (by omega)]

theorem FileOf.length_eq (hf : FileOf ls file) (hk : k + 1 = ls.length) :
    file.length = Lines.offset ls k + (Lines.line ls k).length := by
  rw [hf.file_eq, Lines.length_eq_end _ hk]

/-- Another character of a line that is cut at `MAX_LEN`. -/
theorem push_take {l : Text} {i : Nat} {c : Char} (hc : l[i]? = some c) :
    (if ((l.take i).take MAX_LEN).length < MAX_LEN then (l.take i).take MAX_LEN ++ [c] else (l.take i).take MAX_LEN) =
      (l.take (i + 1)).take MAX_LEN := by
  have hi : i < l.length := (List.getElem?_eq_some_iff.1 hc).1
  have hlen : ((l.take i).take MAX_LEN).length = min MAX_LEN i := by
    rw [List.length_take, List.length_take]
    omega
  have hsucc : l.take (i + 1) = l.take i ++ [c] := by
    rw [List.take_add_one, hc]
    rfl
  rw [hlen]
  split
  next hlt =>
    have hshort : (l.take i).length < MAX_LEN := by
      rw [List.length_take]
      omega
    have hshort' : (l.take i ++ [c]).length ≤ MAX_LEN := by rwa [List.length_append, List.length_singleton]
    rw [hsucc, List.take_of_length_le hshort.le, List.take_of_length_le hshort']
  next hge => rw [hsucc, List.take_append_of_le_length (by rw [List.length_take]; omega)]

/-- What is read from the middle of a line. -/
theorem getLine_line (hf : FileOf ls file) (hk : k < ls.length) {i : Nat} (hi : i ≤ (Lines.line ls k).length)
    (hw : Window.Of file BUF_SIZE w (Lines.offset ls k + i)) :
    ∃ w', getLine file w (((Lines.line ls k).take i).take MAX_LEN) =
      .ok (w', decide (ls.length ≤ k + 1), (Lines.line ls k).take MAX_LEN) ∧
        Window.Of file BUF_SIZE w' (place ls file (k + 1)) := by
  induction hn : (Lines.line ls k).length - i generalizing i w with
  | zero =>
    obtain rfl : i = (Lines.line ls k).length := by omega
    rw [List.take_length]
    by_cases hlast : k + 1 < ls.length
    · have hc := hf.newline_behind hlast
      obtain ⟨w', hw', hin, hline⟩ := getLine_ahead hw (List.getElem?_eq_some_iff.1 hc).1
      rw [hline, getLine_newline (deref_of hw' hin hc), decide_eq_false (by omega), place_succ file hlast]
      exact ⟨_, rfl, hw'.next hin⟩
    · have hk' : k + 1 = ls.length := by omega
      have hlen := hf.length_eq hk'
      have hend : w.page = w.buf.length := by
        have hpos := hw.pos
        have hends := hw.ends
        have hbegins := hw.begins
        have hinside := hw.inside
        rw [Window.pos] at hpos
        omega
      rw [getLine_nul (deref_end hend), if_neg (by rw [hw.fpos_eq hend]; omega), decide_eq_true (by omega)]
      refine ⟨w, rfl, ?_⟩
      rwa [place, if_neg (by omega), hlen]
  | succ n ih =>
    obtain ⟨c, hl, hc, hnewline, hnul⟩ := hf.char hk (i := i) (by omega)
    obtain ⟨w', hw', hin, hline⟩ := getLine_ahead hw (List.getElem?_eq_some_iff.1 hc).1
    rw [hline, getLine_char (deref_of hw' hin hc) hnewline hnul, push_take hl]
    exact ih (by omega) (hw'.next hin) (by omega)

/-- **The line at a place**, and the place behind it. -/
theorem getLine_place (hf : FileOf ls file) {m : Nat} (hw : Window.Of file BUF_SIZE w (place ls file m)) :
    ∃ w', getLine file w [] = .ok (w', decide (ls.length ≤ m + 1), (Lines.line ls m).take MAX_LEN) ∧
      Window.Of file BUF_SIZE w' (place ls file (m + 1)) := by
  by_cases hm : m < ls.length
  · rw [place, if_pos hm] at hw
    exact getLine_line hf hm (i := 0) (Nat.zero_le _) hw
  · rw [place, if_neg hm] at hw
    have hend : w.page = w.buf.length := by
      have hpos := hw.pos
      have hends := hw.ends
      have hbegins := hw.begins
      have hinside := hw.inside
      rw [Window.pos] at hpos
      omega
    have hline : Lines.line ls m = [] := by
      rw [Lines.line, List.getElem?_eq_none (by omega)]
      rfl
    rw [getLine_nul (deref_end hend), if_neg (by rw [hw.fpos_eq hend]; omega), decide_eq_true (by omega), hline]
    refine ⟨w, rfl, ?_⟩
    rwa [place, if_neg (by omega)]

/-- Back from the middle of a line to the newline in front of it. -/
theorem backLine_line (hf : FileOf ls file) (hk : k < ls.length) {i : Nat} (hi : i ≤ (Lines.line ls k).length)
    (hw : Window.Of file BUF_SIZE w (Lines.offset ls k + i)) :
    ∃ w', backLine file w = .ok (w', decide (k = 0)) ∧ Window.Of file BUF_SIZE w' (Lines.offset ls k - 1) ∧
      (k ≠ 0 → w'.page < w'.buf.length) := by
  induction i generalizing w with
  | zero =>
    rw [Nat.add_zero] at hw
    cases k with
    | zero =>
      rw [Lines.offset_zero] at hw ⊢
      exact ⟨w, backLine_none (room_zero hw), hw, fun h => absurd rfl h⟩
    | succ k =>
      rw [Lines.offset_succ (by omega)] at hw ⊢
      obtain ⟨w', hroom, hw', hpage⟩ := room_of hw (Nat.succ_pos _)
      have hback := stepBack_of hw' hpage (hf.newline_behind hk)
      rw [backLine_some hroom hback, if_pos rfl]
      refine ⟨w'.prev, rfl, hw'.prev hpage, fun _ => ?_⟩
      have hinside := hw'.inside
      simp only [Window.prev]
      omega
  | succ i ih =>
    obtain ⟨c, -, hc, hnewline, -⟩ := hf.char hk (i := i) (by omega)
    obtain ⟨w', hroom, hw', hpage⟩ := room_of hw (Nat.succ_pos _)
    rw [backLine_some hroom (stepBack_of hw' hpage hc), if_neg hnewline]
    exact ih (by omega) (hw'.prev hpage)

/-- From the end of a line, `n` lines back. -/
theorem backLoop_line (hf : FileOf ls file) (n : Nat) (hk : k < ls.length)
    (hw : Window.Of file BUF_SIZE w (Lines.offset ls k + (Lines.line ls k).length))
    (hn : n = 0 → w.page < w.buf.length) :
    ∃ w', backLoop file n w = .ok (w', decide (k < n)) ∧ Window.Of file BUF_SIZE w' (Lines.offset ls (k + 1 - n)) := by
  induction n generalizing w k with
  | zero =>
    rw [Nat.sub_zero, Lines.offset_succ hk]
    exact ⟨w.next, rfl, hw.next (hn rfl)⟩
  | succ n ih =>
    obtain ⟨w', hback, hw', hpage⟩ := backLine_line hf hk le_rfl hw
    rw [backLoop, hback]
    cases k with
    | zero =>
      refine ⟨w', by simp, ?_⟩
      rw [Lines.offset_zero] at hw'
      rwa [Nat.add_sub_add_right, Nat.zero_sub, Lines.offset_zero]
    | succ k =>
      rw [Lines.offset_succ (by omega)] at hw'
      obtain ⟨w'', hloop, hw''⟩ := ih (k := k) (by omega) hw' fun _ => hpage (by omega)
      refine ⟨w'', ?_, by rwa [Nat.add_sub_add_right]⟩
      simp [hloop]

/-- **`n` lines in front of a place.** -/
theorem backLines_place (hf : FileOf ls file) {m n : Nat} (hw : Window.Of file BUF_SIZE w (place ls file m))
    (hn : ls.length ≤ m → 0 < n) :
    ∃ w', backLines file (decide (ls.length ≤ m)) n w = .ok (w', decide (min m ls.length ≤ n)) ∧
      Window.Of file BUF_SIZE w' (place ls file (min m ls.length - n)) := by
  have hpos := hf.length_pos
  rw [place] at hw ⊢
  rw [if_pos (by omega)]
  by_cases hm : m < ls.length
  · rw [if_pos hm] at hw
    rw [decide_eq_false (by omega), backLines, if_neg (by simp), Nat.min_eq_left (by omega)]
    cases m with
    | zero =>
      rw [room_zero hw]
      exact ⟨w, by simp, by rwa [Nat.zero_sub]⟩
    | succ m =>
      rw [Lines.offset_succ (by omega)] at hw
      obtain ⟨w', hroom, hw', hpage⟩ := room_of hw (Nat.succ_pos _)
      have hback := stepBack_of hw' hpage (hf.newline_behind hm)
      have hinside := hw'.inside
      have hin : w'.prev.page < w'.prev.buf.length := by
        simp only [Window.prev]
        omega
      obtain ⟨w'', hloop, hw''⟩ := backLoop_line hf n (by omega) (hw'.prev hpage) fun _ => hin
      refine ⟨w'', ?_, hw''⟩
      rw [hroom]
      simp only [hback, if_true, hloop]
      rfl
  · rw [if_neg hm] at hw
    obtain ⟨k, hk⟩ : ∃ k, k + 1 = ls.length := ⟨ls.length - 1, by omega⟩
    rw [hf.length_eq hk] at hw
    obtain ⟨w', hloop, hw'⟩ := backLoop_line hf n (by omega) hw (by omega)
    rw [decide_eq_true (by omega), backLines, if_pos rfl, Nat.min_eq_right (by omega), ← hk]
    exact ⟨w', hloop, hw'⟩

end

/-! ## A viewer -/

/-- The first line that is shown, and the first character of each line. -/
structure Viewer where
  top : Nat
  hscroll : Nat
  deriving DecidableEq, Repr

namespace Viewer

/-- The lines from `top` on, each cut at `MAX_LEN`; behind the last one the rows are empty. -/
def rows (ls : List Text) (height width : Nat) (v : Viewer) : List Text :=
  (List.range height).map fun j => shown width v.hscroll ((Lines.line ls (v.top + j)).take MAX_LEN)

def turn (ls : List Text) (height : Nat) (v : Viewer) : Command → Outcome Viewer
  | .quit => .returns 0 v
  | .firstPage => .shows { v with top := 0 }
  | .lastPage => .shows { v with top := ls.length - height }
  | .prevLine => .shows { v with top := v.top - 1 }
  | .prevPage => .shows { v with top := v.top - height }
  | .nextLine => .shows { v with top := if v.top + height < ls.length then v.top + 1 else v.top }
  | .nextPage => .shows { v with top := if v.top + height < ls.length then v.top + height else v.top }
  | .leftmost => .shows { v with hscroll := 0 }
  | .left => .shows { v with hscroll := v.hscroll - 1 }
  | .right => .shows { v with hscroll := if MAX_LEN ≤ v.hscroll then v.hscroll else v.hscroll + 1 }
  | .escape => .returns (-1) v
  | .nothing => .shows v

def run (ls : List Text) (height : Nat) : Viewer → List Int → Outcome Viewer
  | v, [] => .shows v
  | v, key :: keys =>
    match v.turn ls height (command key) with
    | .shows v => v.run ls height keys
    | o => o

end Viewer

/-- The box shows what the viewer does. -/
structure Shows (ls : List Text) (file : Text) (height width : Nat) (v : Viewer) (s : State) : Prop where
  window : Window.Of file BUF_SIZE s.toWindow (place ls file (v.top + height))
  top : v.top < ls.length
  begin_reached : s.begin_reached = decide (v.top = 0)
  end_reached : s.end_reached = decide (ls.length ≤ v.top + height)
  page_length : s.page_length = min height (ls.length - v.top)
  hscroll : s.hscroll = v.hscroll
  rows : s.rows = v.rows ls height width

/-! ## Pages -/

section
variable {ls : List Text} {file : Text} {height width : Nat} {s : State}

/-- What is read for one row, and what is drawn of it. -/
def Reads (ls : List Text) (file : Text) (readLine : State → Nat → Except Failure State)
    (draw : Nat → List Text → Nat → Text → List Text) : Prop :=
  ∀ s m i, Window.Of file BUF_SIZE s.toWindow (place ls file m) →
    ∃ w', Window.Of file BUF_SIZE w' (place ls file (m + 1)) ∧
    readLine s i = .ok { s with toWindow := w', end_reached := decide (ls.length ≤ m + 1),
                                rows := draw s.hscroll s.rows i ((Lines.line ls m).take MAX_LEN) }

theorem printLine_reads (hf : FileOf ls file) (width : Nat) :
    Reads ls file (printLine file width) fun hscroll rows i l => rows.set i (shown width hscroll l) := by
  intro s m i hw
  obtain ⟨w', hline, hw'⟩ := getLine_place hf hw
  exact ⟨w', hw', by rw [printLine, hline]⟩

theorem printFirst_reads (hf : FileOf ls file) (width : Nat) :
    Reads ls file (fun s i => if i = 0 then printLine file width s 0 else skipLine file s)
      fun hscroll rows i l => if i = 0 then rows.set 0 (shown width hscroll l) else rows := by
  intro s m i hw
  obtain ⟨w', hline, hw'⟩ := getLine_place hf hw
  refine ⟨w', hw', ?_⟩
  by_cases hi : i = 0
  · simp [hi, printLine, hline]
  · simp [hi, skipLine, hline]

/-- The loop reads the lines of a page, and counts those of the file. -/
theorem pageLoop_reads {readLine : State → Nat → Except Failure State} {draw : Nat → List Text → Nat → Text → List Text}
    (hr : Reads ls file readLine draw) (top n i : Nat) (s : State)
    (hw : Window.Of file BUF_SIZE s.toWindow (place ls file (top + i))) :
    ∃ w', Window.Of file BUF_SIZE w' (place ls file (top + i + n)) ∧
      pageLoop readLine n i (decide (ls.length ≤ top + i)) s = .ok
        { s with toWindow := w', end_reached := if n = 0 then s.end_reached else decide (ls.length ≤ top + i + n),
                 page_length := s.page_length + min n (ls.length - (top + i)),
                 rows := (List.range' i n).foldl
                   (fun rows j => draw s.hscroll rows j ((Lines.line ls (top + j)).take MAX_LEN)) s.rows } := by
  induction n generalizing i s with
  | zero => exact ⟨s.toWindow, hw, by simp [pageLoop]⟩
  | succ n ih =>
    obtain ⟨w', hw', hread⟩ := hr s (top + i) i hw
    have hpassed : (decide (ls.length ≤ top + i) || decide (ls.length ≤ top + i + 1)) =
        decide (ls.length ≤ top + (i + 1)) := by
      rw [← Bool.decide_or]
      exact decide_eq_decide.2 (by omega)
    have hcount : (if decide (ls.length ≤ top + i) then s.page_length else s.page_length + 1) +
        min n (ls.length - (top + (i + 1))) = s.page_length + min (n + 1) (ls.length - (top + i)) := by
      simp only [decide_eq_true_eq]
      split <;> omega
    have hend : (if n = 0 then decide (ls.length ≤ top + i + 1) else decide (ls.length ≤ top + (i + 1) + n)) =
        decide (ls.length ≤ top + i + (n + 1)) := by
      split <;> exact decide_eq_decide.2 (by omega)
    obtain ⟨w'', hw'', hloop⟩ := ih (i + 1)
      { s with toWindow := w', end_reached := decide (ls.length ≤ top + i + 1),
               page_length := if decide (ls.length ≤ top + i) then s.page_length else s.page_length + 1,
               rows := draw s.hscroll s.rows i ((Lines.line ls (top + i)).take MAX_LEN) } hw'
    refine ⟨w'', by rwa [show top + i + (n + 1) = top + (i + 1) + n by omega], ?_⟩
    rw [pageLoop, hread]
    simp only
    rw [hpassed, hloop, hcount, hend, if_neg (Nat.succ_ne_zero n), List.range'_succ, List.foldl_cons]

/-- Rows that are set one after the other. -/
theorem foldl_set (g : Nat → Text) (rows : List Text) {n : Nat} (hn : n ≤ rows.length) :
    (List.range' 0 n).foldl (fun rows j => rows.set j (g j)) rows = (List.range n).map g ++ rows.drop n := by
  induction n with
  | zero => rfl
  | succ n ih =>
    rw [List.range'_concat, List.foldl_append, ih (by omega), List.range_succ, List.map_append]
    simp only [Nat.zero_add, Nat.one_mul, List.foldl_cons, List.foldl_nil]
    rw [List.set_append_right _ _ (by simp), List.length_map, List.length_range, Nat.sub_self,
      List.drop_eq_getElem_cons (by omega), List.set_cons_zero, List.append_assoc]
    rfl

/-- Only the first row is drawn. -/
theorem foldl_first (g : Nat → Text) (rows : List Text) {n : Nat} (hn : 0 < n) :
    (List.range' 0 n).foldl (fun rows j => if j = 0 then rows.set 0 (g j) else rows) rows = rows.set 0 (g 0) := by
  have hrest (k m : Nat) (rows : List Text) :
      (List.range' (k + 1) m).foldl (fun rows j => if j = 0 then rows.set 0 (g j) else rows) rows = rows := by
    induction m generalizing k with
    | zero => rfl
    | succ m ih => rw [List.range'_succ, List.foldl_cons, if_neg (Nat.succ_ne_zero k), ih]
  obtain ⟨n, rfl⟩ := Nat.exists_eq_add_of_lt hn
  rw [Nat.zero_add, List.range'_succ, List.foldl_cons, if_pos rfl, hrest]

/-- **A page** from its first line on. -/
theorem printPage_shows (hf : FileOf ls file) {top : Nat} (htop : top < ls.length) (hheight : 0 < height)
    (hw : Window.Of file BUF_SIZE s.toWindow (place ls file top)) (hbegin : s.begin_reached = decide (top = 0))
    (hrows : s.rows.length = height) :
    ∃ s', printPage file height width s = .ok s' ∧ Shows ls file height width ⟨top, s.hscroll⟩ s' := by
  obtain ⟨w', hw', hloop⟩ := pageLoop_reads (printLine_reads hf width) top height 0 { s with page_length := 0 } hw
  rw [Nat.add_zero, decide_eq_false (by omega)] at hloop
  refine ⟨_, hloop, hw', htop, hbegin, ?_, ?_, rfl, ?_⟩
  · exact if_neg (by omega)
  · exact Nat.zero_add _
  · rw [foldl_set _ _ hrows.ge, List.drop_of_length_le hrows.le, List.append_nil]
    rfl

/-- A page that begins `n` lines in front of where this one ends. -/
theorem pageBack_shows (hf : FileOf ls file) {m n : Nat} (hheight : 0 < height) (hn : 0 < n)
    (hw : Window.Of file BUF_SIZE s.toWindow (place ls file m)) (hend : s.end_reached = decide (ls.length ≤ m))
    (hrows : s.rows.length = height) :
    ∃ s', pageBack file height width n s = .ok s' ∧
      Shows ls file height width ⟨min m ls.length - n, s.hscroll⟩ s' := by
  have hpos := hf.length_pos
  obtain ⟨w', hback, hw'⟩ := backLines_place hf hw fun _ => hn
  have hbegin : decide (min m ls.length ≤ n) = decide (min m ls.length - n = 0) := decide_eq_decide.2 (by omega)
  have hgo : goBack file n s =
      .ok { s with toWindow := w', begin_reached := decide (min m ls.length ≤ n) } := by
    rw [goBack, hend, hback]
  rw [pageBack, hgo]
  exact printPage_shows (s := { s with toWindow := w', begin_reached := decide (min m ls.length ≤ n) }) hf (by omega)
    hheight hw' hbegin hrows

end

/-! ## Every key -/

section
variable {ls : List Text} {file : Text} {height width : Nat} {v : Viewer} {s : State}

theorem Shows.length_rows (h : Shows ls file height width v s) : s.rows.length = height := by
  rw [h.rows, Viewer.rows, List.length_map, List.length_range]

theorem Shows.firstPage (hf : FileOf ls file) (hheight : 0 < height) (h : Shows ls file height width v s) :
    ∃ s', firstPage file height width s = .ok s' ∧ Shows ls file height width { v with top := 0 } s' := by
  rw [Textbox.firstPage, h.begin_reached]
  by_cases htop : v.top = 0
  · rw [decide_eq_true htop, if_pos rfl]
    exact ⟨s, rfl, by rwa [← htop]⟩
  · rw [decide_eq_false htop, if_neg (by simp), ← h.hscroll]
    refine printPage_shows hf hf.length_pos hheight ?_ rfl h.length_rows
    rw [place, if_pos hf.length_pos, Lines.offset_zero]
    split
    next =>
      exact Window.Of.load file BUF_SIZE 0 0 (by omega) (by omega) (by omega)
    next hall =>
      have hfpos := h.window.begins
      exact ⟨h.window.buf, hfpos, h.window.ends, Nat.zero_le _, by simp only [Window.pos]; omega⟩

theorem Shows.lastPage (hf : FileOf ls file) (hheight : 0 < height) (h : Shows ls file height width v s) :
    ∃ s', lastPage file height width s = .ok s' ∧
      Shows ls file height width { v with top := ls.length - height } s' := by
  have hlast (w : Window Char) (hw : Window.Of file BUF_SIZE w file.length) :
      ∃ s', pageBack file height width height { s with toWindow := w, end_reached := true } = .ok s' ∧
        Shows ls file height width { v with top := ls.length - height } s' := by
    have hplace : place ls file ls.length = file.length := if_neg (by omega)
    rw [← Nat.min_self ls.length, ← h.hscroll]
    exact pageBack_shows (s := { s with toWindow := w, end_reached := true }) hf hheight hheight (by rwa [hplace])
      (decide_eq_true le_rfl).symm h.length_rows
  have hbegins := h.window.begins
  have hends := h.window.ends
  rw [Textbox.lastPage]
  split
  next hlt =>
    have hfull := h.window.full hlt
    have hlen : (Window.load file BUF_SIZE (file.length - BUF_SIZE) 0).buf.length = BUF_SIZE := by
      simp only [Window.load, List.length_take, List.length_drop]
      omega
    have hload := Window.Of.load file BUF_SIZE (file.length - BUF_SIZE) BUF_SIZE (by omega) le_rfl (by omega)
    rw [Nat.sub_add_cancel (by omega)] at hload
    rw [if_neg (by omega)]
    exact hlast _ (by rwa [hlen, Window.load_page])
  next hge =>
    exact hlast _ ⟨h.window.buf, hbegins, hends, le_rfl, by simp only [Window.pos]; omega⟩

theorem Shows.prevLine (hf : FileOf ls file) (hheight : 0 < height) (h : Shows ls file height width v s) :
    ∃ s', prevLine file height width s = .ok s' ∧ Shows ls file height width { v with top := v.top - 1 } s' := by
  have htop := h.top
  have hlength := h.page_length
  rw [Textbox.prevLine, h.begin_reached]
  by_cases hzero : v.top = 0
  · rw [decide_eq_true hzero, if_pos rfl]
    exact ⟨s, rfl, by rwa [hzero, Nat.zero_sub, ← hzero]⟩
  · obtain ⟨w', hback, hw'⟩ := backLines_place hf h.window (n := s.page_length + 1) fun _ => Nat.succ_pos _
    have hgo : goBack file (s.page_length + 1) s = .ok
        { s with toWindow := w', begin_reached := decide (min (v.top + height) ls.length ≤ s.page_length + 1) } := by
      rw [goBack, h.end_reached, hback]
    have htop' : min (v.top + height) ls.length - (s.page_length + 1) = v.top - 1 := by omega
    have hbegin : decide (min (v.top + height) ls.length ≤ s.page_length + 1) = decide (v.top - 1 = 0) :=
      decide_eq_decide.2 (by omega)
    rw [htop'] at hw'
    obtain ⟨w'', hw'', hloop⟩ := pageLoop_reads (printFirst_reads hf width) (v.top - 1) height 0
      { s with toWindow := w', begin_reached := decide (v.top - 1 = 0), rows := [] :: s.rows.dropLast,
               page_length := 0 } hw'
    rw [Nat.add_zero, decide_eq_false (by omega)] at hloop
    rw [decide_eq_false hzero, if_neg (by simp), hgo, hbegin]
    refine ⟨_, hloop, hw'', Nat.lt_of_le_of_lt (Nat.sub_le _ _) htop, rfl, ?_, ?_, h.hscroll, ?_⟩
    · exact if_neg (by omega)
    · exact Nat.zero_add _
    · obtain ⟨n, rfl⟩ := Nat.exists_eq_add_of_lt hheight
      simp only
      rw [foldl_first _ _ hheight, List.set_cons_zero, h.rows, h.hscroll, Viewer.rows, Viewer.rows, Nat.zero_add,
        List.range_succ, List.map_append, List.map_singleton, List.dropLast_concat, ← List.range_succ,
        List.range_succ_eq_map, List.map_cons, List.map_map]
      have hnext (j : Nat) : v.top - 1 + (j + 1) = v.top + j := by omega
      simp [Function.comp_def, hnext]

theorem Shows.nextLine (hf : FileOf ls file) (hheight : 0 < height) (h : Shows ls file height width v s) :
    ∃ s', nextLine file height width s = .ok s' ∧
      Shows ls file height width { v with top := if v.top + height < ls.length then v.top + 1 else v.top } s' := by
  rw [Textbox.nextLine, h.end_reached]
  by_cases hend : v.top + height < ls.length
  · obtain ⟨w', hw', hread⟩ := printLine_reads hf width
      { s with begin_reached := false, rows := s.rows.drop 1 ++ [[]] } (v.top + height) (height - 1) h.window
    rw [decide_eq_false (by omega), if_neg (by simp), if_pos hend]
    refine ⟨_, hread, ?_, ?_, ?_, ?_, ?_, h.hscroll, ?_⟩
    · rwa [show v.top + 1 + height = v.top + height + 1 by omega]
    · simp only
      omega
    · simp
    · have hend' : decide (ls.length ≤ v.top + height + 1) = decide (ls.length ≤ v.top + 1 + height) :=
        decide_eq_decide.2 (by omega)
      exact hend'
    · have hlength : min height (ls.length - v.top) = min height (ls.length - (v.top + 1)) := by omega
      exact h.page_length.trans hlength
    · obtain ⟨n, rfl⟩ := Nat.exists_eq_add_of_lt hheight
      simp only
      rw [h.rows, h.hscroll, Viewer.rows, Viewer.rows, Nat.zero_add, Nat.add_sub_cancel, List.range_succ_eq_map,
        List.map_cons, List.map_map, List.drop_one, List.tail_cons, List.set_append_right _ _ (by simp),
        List.length_map, List.length_range, Nat.sub_self, List.set_cons_zero, ← List.range_succ_eq_map, List.range_succ,
        List.map_append, List.map_singleton]
      have hnext (j : Nat) : v.top + 1 + j = v.top + (j + 1) := by omega
      simp [Function.comp_def, hnext]
  · rw [decide_eq_true (by omega), if_pos rfl, if_neg hend]
    exact ⟨s, rfl, h⟩

theorem Shows.nextPage (hf : FileOf ls file) (hheight : 0 < height) (h : Shows ls file height width v s)
    (hend : v.top + height < ls.length) :
    ∃ s', printPage file height width { s with begin_reached := false } = .ok s' ∧
      Shows ls file height width { v with top := v.top + height } s' := by
  rw [← h.hscroll]
  exact printPage_shows (s := { s with begin_reached := false }) hf hend hheight h.window
    (decide_eq_false (by omega)).symm h.length_rows

/-- The page is drawn again, `n` lines in front of where it ended. -/
theorem Shows.pageBack (hf : FileOf ls file) (hheight : 0 < height) (h : Shows ls file height width v s) {n : Nat}
    (hn : 0 < n) (hscroll : Nat) :
    ∃ s', pageBack file height width n { s with hscroll := hscroll } = .ok s' ∧
      Shows ls file height width ⟨min (v.top + height) ls.length - n, hscroll⟩ s' :=
  pageBack_shows (s := { s with hscroll := hscroll }) hf hheight hn h.window h.end_reached h.length_rows

/-- The page is drawn again, where it is. -/
theorem Shows.again (hf : FileOf ls file) (hheight : 0 < height) (h : Shows ls file height width v s) (hscroll : Nat) :
    ∃ s', Textbox.pageBack file height width s.page_length { s with hscroll := hscroll } = .ok s' ∧
      Shows ls file height width { v with hscroll := hscroll } s' := by
  have htop := h.top
  have hlength := h.page_length
  obtain ⟨s', hs', hshows⟩ := h.pageBack hf hheight (n := s.page_length) (by omega) hscroll
  exact ⟨s', hs', by rwa [show min (v.top + height) ls.length - s.page_length = v.top by omega] at hshows⟩

/-- **One key.** -/
theorem Shows.turn (hf : FileOf ls file) (hheight : 0 < height) (h : Shows ls file height width v s) (c : Command) :
    ∃ o, turn file height width s c = .ok o ∧
      Outcome.Rel (fun s v => Shows ls file height width v s) o (v.turn ls height c) := by
  have hshown {r : Except Failure State} {v' : Viewer} (hr : ∃ s', r = .ok s' ∧ Shows ls file height width v' s') :
      ∃ o, r.map .shows = .ok o ∧ Outcome.Rel (fun s v => Shows ls file height width v s) o (.shows v') := by
    obtain ⟨s', rfl, hs'⟩ := hr
    exact ⟨.shows s', rfl, hs'⟩
  cases c with
  | quit => exact ⟨_, rfl, rfl, h⟩
  | escape => exact ⟨_, rfl, rfl, h⟩
  | nothing => exact ⟨_, rfl, h⟩
  | firstPage => exact hshown (h.firstPage hf hheight)
  | lastPage => exact hshown (h.lastPage hf hheight)
  | prevLine => exact hshown (h.prevLine hf hheight)
  | nextLine => exact hshown (h.nextLine hf hheight)
  | prevPage =>
    by_cases hzero : v.top = 0
    · refine ⟨.shows s, if_pos (h.begin_reached.trans (decide_eq_true hzero)), ?_⟩
      simp only [Viewer.turn, hzero, Nat.zero_sub, Outcome.Rel]
      rwa [← hzero]
    · have hlength := h.page_length
      have htop := h.top
      obtain ⟨s', hs', hshows⟩ := h.pageBack hf hheight (n := s.page_length + height) (by omega) s.hscroll
      rw [show min (v.top + height) ls.length - (s.page_length + height) = v.top - height by omega, h.hscroll] at hshows
      have hback : ∃ s', Textbox.pageBack file height width (s.page_length + height) s = .ok s' ∧
          Shows ls file height width { v with top := v.top - height } s' := ⟨s', hs', hshows⟩
      rw [Textbox.turn, if_neg (by simp [h.begin_reached, hzero])]
      exact hshown hback
  | nextPage =>
    by_cases hend : v.top + height < ls.length
    · rw [Textbox.turn, if_neg (by simp [h.end_reached, hend]), Viewer.turn, if_pos hend]
      exact hshown (h.nextPage hf hheight hend)
    · refine ⟨.shows s, if_pos (h.end_reached.trans (decide_eq_true (by omega))), ?_⟩
      rw [Viewer.turn, if_neg hend]
      exact h
  | leftmost =>
    by_cases hzero : v.hscroll = 0
    · refine ⟨.shows s, if_pos (h.hscroll.trans hzero), ?_⟩
      rw [Viewer.turn, ← hzero]
      exact h
    · rw [Textbox.turn, if_neg (by rwa [h.hscroll])]
      exact hshown (h.again hf hheight 0)
  | left =>
    by_cases hzero : v.hscroll = 0
    · refine ⟨.shows s, if_pos (h.hscroll.trans hzero), ?_⟩
      rw [Viewer.turn, hzero, Nat.zero_sub, ← hzero]
      exact h
    · rw [Textbox.turn, if_neg (by rwa [h.hscroll]), h.hscroll]
      exact hshown (h.again hf hheight (v.hscroll - 1))
  | right =>
    by_cases hfar : MAX_LEN ≤ v.hscroll
    · refine ⟨.shows s, if_pos (hfar.trans h.hscroll.ge), ?_⟩
      rw [Viewer.turn, if_pos hfar]
      exact h
    · rw [Textbox.turn, if_neg (by rwa [h.hscroll]), h.hscroll, Viewer.turn, if_neg hfar]
      exact hshown (h.again hf hheight (v.hscroll + 1))

theorem Shows.run (hf : FileOf ls file) (hheight : 0 < height) (keys : List Int) (h : Shows ls file height width v s) :
    ∃ o, run file height width s keys = .ok o ∧
      Outcome.Rel (fun s v => Shows ls file height width v s) o (v.run ls height keys) := by
  induction keys generalizing v s with
  | nil => exact ⟨_, rfl, h⟩
  | cons key keys ih =>
    obtain ⟨o, ho, hrel⟩ := h.turn hf hheight (command key)
    rw [Textbox.run, Viewer.run, ho]
    cases hv : v.turn ls height (command key) with
    | shows v' =>
      rw [hv] at hrel
      cases o with
      | shows s' => exact ih hrel
      | returns => exact hrel.elim
    | returns code v' =>
      rw [hv] at hrel
      cases o with
      | shows => exact hrel.elim
      | returns => exact ⟨_, rfl, hrel⟩

theorem start_shows (hf : FileOf ls file) (hheight : 0 < height) (width : Nat) :
    ∃ s, start file height width = .ok s ∧ Shows ls file height width ⟨0, 0⟩ s := by
  have hload := Window.Of.load file BUF_SIZE 0 0 (Nat.zero_le _) (Nat.zero_le _) (Nat.zero_le _)
  have hplace : place ls file 0 = 0 := by rw [place, if_pos hf.length_pos, Lines.offset_zero]
  exact printPage_shows (s := ⟨Window.load file BUF_SIZE 0 0, true, false, 0, 0, List.replicate height []⟩) hf
    hf.length_pos hheight (by rwa [hplace]) rfl List.length_replicate

end

/-- **What the box shows**, for any file without a NUL and any keys: the rows are those of a viewer that has all lines
at hand, and the indicator says how much of the file is in front of the end of the page. -/
theorem textbox_shows (file : Text) (hnul : nul ∉ file) (height width : Nat) (hheight : 0 < height) (keys : List Int) :
    ∃ o, textbox file height width keys = .ok o ∧
      Outcome.Rel (fun s v => s.rows = v.rows (file.splitOn '\n') height width ∧ percent file s =
          if file = [] then 100 else place (file.splitOn '\n') file (v.top + height) * 100 / file.length)
        o ((⟨0, 0⟩ : Viewer).run (file.splitOn '\n') height keys) := by
  have hf : FileOf (file.splitOn '\n') file :=
    ⟨(List.intercalate_splitOn '\n').symm, Shell.splitOn_parts '\n' file, hnul, List.splitOn_ne_nil '\n' file⟩
  obtain ⟨s, hs, hshows⟩ := start_shows hf hheight width
  obtain ⟨o, ho, hrel⟩ := hshows.run hf hheight keys
  rw [textbox, hs]
  refine ⟨o, ho, Outcome.Rel.imp (fun s v h => ⟨h.rows, ?_⟩) hrel⟩
  rw [percent, h.window.pos]
  simp only [List.length_eq_zero_iff]

/-- Two lines in one row: the last line is shown after `KEY_END`. -/
theorem textbox_shows_end : ∃ o, textbox "a\nb".toList 1 10 [keyEnd] = .ok o ∧
    Outcome.Rel (fun s _ => s.rows = [" b".toList] ∧ percent "a\nb".toList s = 100) o (.shows ()) := by
  obtain ⟨o, ho, hrel⟩ := textbox_shows "a\nb".toList (by decide) 1 10 Nat.one_pos [keyEnd]
  refine ⟨o, ho, ?_⟩
  cases o with
  | shows s =>
    obtain ⟨hrows, hpercent⟩ := hrel
    exact ⟨hrows.trans (by decide), hpercent.trans (by decide)⟩
  | returns => exact hrel.elim

end T2Sde.Textbox
