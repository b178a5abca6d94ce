import T2Sde.Config.Write
import T2Sde.Misc.Inputbox
/-!
# The choice of a list box (`misc/confdialog/checklist.c`)

A window of `list_height` items is shown, from the item `scroll` on, and the item `choice` of the window is highlighted.
A key that moves the highlight draws two items anew, one that moves the window lets curses scroll the others.

| here | there |
| --- | --- |
| `printItem`   | `print_item` :39-66 |
| `printRows`   | the loops :217-220, :331-333 |
| `start`       | :146-220 |
| `hotLoop`     | :234-236 |
| `moveUp`, `moveDown`, `moveTo` | :239-307 |
| `pick`        | :320-347 |
| `turn`        | one turn of the loop :231-362 |
| `radioItems`, `choiceAction` | `choice_action` (`scripts/config-functions.in`) :207-229 |

* `moveUp_shows`, `moveDown_shows`, `moveTo_shows`, `pick_shows` — what a key leaves on the screen.
* `checklist_shows` — **the box shows the window of the list**, and no access is outside.
* `choice_action_listed` — **a choice gets the value under the highlight, or keeps the one it has**.
-/
namespace T2Sde.Checklist
open Shell (Text)
open Inputbox (Outcome)
open Menubox (charOf isUp isDown esc)

/-! ## The box -/

/-- The tag and the text of an item, and whether it is on. -/
structure Item where
  tag : Text
  text : Text
  status : Text
  deriving DecidableEq, Repr

/-- What is drawn of an item. -/
structure Row where
  text : Text
  on : Bool
  selected : Bool
  deriving DecidableEq, Repr

/-- The variables of the loop, the rows of the list and what was written to `stderr`. -/
structure State where
  status : List Bool
  choice : Nat
  scroll : Nat
  rows : List (Option Row)
  output : Text
  deriving DecidableEq, Repr

/-- `strcasecmp(…, "on")` -/
def isOn (s : Text) : Bool := s.map Char.toLower == ['o', 'n']

/-- The item `k`, in one of the rows; an empty text would be read behind its end. -/
def printItem (items : List Item) (k row : Nat) (selected : Bool) (s : State) : Option State :=
  match items[k]?, s.status[k]? with
  | some item, some on =>
    if item.text = [] then none else some { s with rows := s.rows.set row (some ⟨item.text, on, selected⟩) }
  | _, _ => none

/-- `n` rows from `i` on. -/
def printRows (items : List Item) : Nat → Nat → State → Option State
  | 0, _, s => some s
  | n + 1, i, s => (printItem items (s.scroll + i) i (i == s.choice) s).bind (printRows items n (i + 1))

def maxChoice (list_height : Nat) (items : List Item) : Nat := min list_height items.length

/-- The loop :147-151. -/
def firstOn (status : List Bool) : Nat :=
  status.zipIdx.foldl (fun choice x => if choice = 0 ∧ x.1 then x.2 else choice) 0

def start (list_height : Nat) (items : List Item) : Option State :=
  let status := items.map fun item => isOn item.status
  let choice := firstOn status
  let scroll := if list_height ≤ choice then choice - list_height + 1 else 0
  printRows items (maxChoice list_height items) 0
    ⟨status, choice - scroll, scroll, List.replicate list_height none, []⟩

/-! ## The keys -/

def toupper (c : Int) : Int := if 97 ≤ c ∧ c ≤ 122 then c - 32 else c

/-- `item[0]` -/
def initial (item : Item) : Int := (item.text.head?.map charOf).getD 0

/-- The row from `i` on whose item begins with the key, or the one behind the `n` rows. -/
def hotLoop (items : List Item) (scroll : Nat) (key : Int) : Nat → Nat → Option Nat
  | 0, i => some i
  | n + 1, i =>
    match items[scroll + i]? with
    | none => none
    | some item => if toupper key = toupper (initial item) then some i else hotLoop items scroll key n (i + 1)

/-- Another row of the window. -/
def moveTo (items : List Item) (i : Nat) (s : State) : Option State :=
  if i = s.choice then some s
  else (printItem items (s.scroll + s.choice) s.choice false s).bind fun s =>
    printItem items (s.scroll + i) i true { s with choice := i }

/-- The rows move down by one, the first of them without the highlight. -/
def rowsDown (list_height : Nat) (items : List Item) (s : State) : Option State :=
  if 1 < list_height then
    (printItem items s.scroll 0 false s).map fun s => { s with rows := none :: s.rows.dropLast }
  else some s

def moveUp (list_height : Nat) (items : List Item) (s : State) : Option State :=
  if s.choice = 0 then
    if s.scroll = 0 then some s
    else (rowsDown list_height items s).bind fun s =>
      printItem items (s.scroll - 1) 0 true { s with scroll := s.scroll - 1 }
  else moveTo items (s.choice - 1) s

/-- The rows move up by one, the last of them without the highlight. -/
def rowsUp (list_height : Nat) (items : List Item) (s : State) : Option State :=
  let last := maxChoice list_height items - 1
  if 1 < list_height then
    (printItem items (s.scroll + last) last false s).map fun s => { s with rows := s.rows.drop 1 ++ [none] }
  else some s

def moveDown (list_height : Nat) (items : List Item) (s : State) : Option State :=
  let last := maxChoice list_height items - 1
  if s.choice + 1 = maxChoice list_height items then
    if items.length ≤ s.scroll + s.choice + 1 then some s
    else (rowsUp list_height items s).bind fun s =>
      printItem items (s.scroll + 1 + last) last true { s with scroll := s.scroll + 1 }
  else moveTo items (s.choice + 1) s

/-- What is written of the items that are on. -/
def printed (check : Bool) (items : List Item) (status : List Bool) : Text :=
  (items.zip status).flatMap fun x => if x.2 then if check then '"' :: x.1.tag ++ ['"', ' '] else x.1.tag else []

/-- The highlighted item is turned on, or the other way; `check` is `FLAG_CHECK`. -/
def switch (check : Bool) (list_height : Nat) (items : List Item) (s : State) (on : Bool) : Option State :=
  let k := s.scroll + s.choice
  if check then
    some { s with status := s.status.set k !on,
                  rows := s.rows.modify s.choice (Option.map fun row => { row with on := !on }) }
  else if on then some s
  else printRows items (maxChoice list_height items) 0 { s with status := (s.status.map fun _ => false).set k true }

def pick (check : Bool) (list_height : Nat) (items : List Item) (s : State) : Option State :=
  (s.status[s.scroll + s.choice]?).bind fun on =>
    (switch check list_height items s on).map fun s => { s with output := printed check items s.status }

def letters (cs : List Char) : List Int := cs.map fun c => c.toNat

def pressed (check : Bool) (list_height : Nat) (items : List Item) (s : State) (key : Int) : Option (Outcome State) :=
  (hotLoop items s.scroll key (maxChoice list_height items) 0).bind fun i =>
    if isUp key then (moveUp list_height items s).map .shows
    else if isDown key then (moveDown list_height items s).map .shows
    else if i < maxChoice list_height items then (moveTo items i s).map .shows
    else if key ∈ letters ['H', 'h', '?'] then some (.returns 1 s)
    else if key ∈ letters ['S', 's', ' ', '\n'] then (pick check list_height items s).map (.returns 0)
    else if key ∈ letters ['X', 'x'] then some (.returns (-1) s)
    else some (.shows s)

/-- The loop ends behind `ESC`. -/
def turn (check : Bool) (list_height : Nat) (items : List Item) (s : State) (key : Int) : Option (Outcome State) :=
  (pressed check list_height items s key).map fun o =>
    match o with
    | .shows s => if key = esc then .returns (-1) s else .shows s
    | o => o

def run (check : Bool) (list_height : Nat) (items : List Item) : State → List Int → Option (Outcome State)
  | s, [] => some (.shows s)
  | s, key :: keys =>
    match turn check list_height items s key with
    | some (.shows s) => run check list_height items s keys
    | o => o

def checklist (check : Bool) (list_height : Nat) (items : List Item) (keys : List Int) : Option (Outcome State) :=
  (start list_height items).bind (run check list_height items · keys)

/-! ## The list -/

/-- Where the highlight is in the list, where the window begins, and what is on. -/
structure Chooser where
  position : Nat
  scroll : Nat
  status : List Bool
  output : Text
  deriving DecidableEq, Repr

namespace Chooser

/-- The window follows the highlight. -/
def up (v : Chooser) : Chooser := { v with position := v.position - 1, scroll := min v.scroll (v.position - 1) }

def down (list_height n : Nat) (v : Chooser) : Chooser :=
  if v.position + 1 < n then
    { v with position := v.position + 1, scroll := max v.scroll (v.position + 2 - list_height) }
  else v

/-- The item under the highlight is turned on or off, or it is the only one that is on. -/
def pick (check : Bool) (items : List Item) (v : Chooser) : Chooser :=
  let on := v.status.getD v.position false
  let status :=
    if check then v.status.set v.position !on
    else if on then v.status else (v.status.map fun _ => false).set v.position true
  { v with status := status, output := printed check items status }

/-- The first row of the window whose item begins with the key. -/
def hot (list_height : Nat) (items : List Item) (v : Chooser) (key : Int) : Option Nat :=
  ((items.drop v.scroll).take list_height).findIdx? fun item => toupper key == toupper (initial item)

def pressed (check : Bool) (list_height : Nat) (items : List Item) (v : Chooser) (key : Int) : Outcome Chooser :=
  if isUp key then .shows v.up
  else if isDown key then .shows (v.down list_height items.length)
  else
    match v.hot list_height items key with
    | some i => .shows { v with position := v.scroll + i }
    | none =>
      if key ∈ letters ['H', 'h', '?'] then .returns 1 v
      else if key ∈ letters ['S', 's', ' ', '\n'] then .returns 0 (v.pick check items)
      else if key ∈ letters ['X', 'x'] then .returns (-1) v
      else .shows v

def turn (check : Bool) (list_height : Nat) (items : List Item) (v : Chooser) (key : Int) : Outcome Chooser :=
  match v.pressed check list_height items key with
  | .shows v => if key = esc then .returns (-1) v else .shows v
  | o => o

def run (check : Bool) (list_height : Nat) (items : List Item) : Chooser → List Int → Outcome Chooser
  | v, [] => .shows v
  | v, key :: keys =>
    match v.turn check list_height items key with
    | .shows v => v.run check list_height items keys
    | o => o

/-- The highlight is on the first item behind item 0 that is on, else on item 0. -/
def start (list_height : Nat) (items : List Item) : Chooser :=
  let status := items.map fun item => isOn item.status
  ⟨firstOn status, firstOn status + 1 - list_height, status, []⟩

end Chooser

/-- The item `k` as it is drawn. -/
def rowOf (items : List Item) (status : List Bool) (k : Nat) (selected : Bool) : Option Row :=
  items[k]?.bind fun item => status[k]?.map fun on => ⟨item.text, on, selected⟩

/-- The window. -/
def Chooser.rows (list_height : Nat) (items : List Item) (v : Chooser) : List (Option Row) :=
  (List.range list_height).map fun i => rowOf items v.status (v.scroll + i) (v.scroll + i == v.position)

/-- The box shows the window, with the highlight in it. -/
structure Shows (list_height : Nat) (items : List Item) (v : Chooser) (s : State) : Prop where
  status : s.status = v.status
  scroll : s.scroll = v.scroll
  position : v.position = v.scroll + s.choice
  choice_lt : s.choice < maxChoice list_height items
  window : v.scroll + maxChoice list_height items ≤ items.length
  length : v.status.length = items.length
  output : s.output = v.output
  rows : s.rows = v.rows list_height items

/-! ## Rows -/

section
variable {list_height : Nat} {items : List Item} {v : Chooser} {s : State}

/-- The rows of a window, one by one. -/
theorem rows_eq {rows : List (Option Row)} (hlen : rows.length = list_height)
    (hrow : ∀ j < list_height, rows[j]? = some (rowOf items v.status (v.scroll + j) (v.scroll + j == v.position))) :
    rows = v.rows list_height items := by
  refine List.ext_getElem? fun j => ?_
  rw [Chooser.rows, List.getElem?_map]
  by_cases hj : j < list_height
  · rw [hrow j hj, List.getElem?_range hj, Option.map_some]
  · rw [List.getElem?_eq_none (by omega), List.getElem?_eq_none (by simpa using Nat.le_of_not_lt hj), Option.map_none]

theorem Shows.row (h : Shows list_height items v s) {j : Nat} (hj : j < list_height) :
    s.rows[j]? = some (rowOf items v.status (v.scroll + j) (v.scroll + j == v.position)) := by
  rw [h.rows, Chooser.rows, List.getElem?_map, List.getElem?_range hj, Option.map_some]

theorem Shows.length_rows (h : Shows list_height items v s) : s.rows.length = list_height := by
  rw [h.rows, Chooser.rows, List.length_map, List.length_range]

theorem rowOf_none {status : List Bool} {k : Nat} (hk : items.length ≤ k) (selected : Bool) :
    rowOf items status k selected = none := by
  rw [rowOf, List.getElem?_eq_none hk, Option.bind_none]

theorem printItem_of (htext : ∀ item ∈ items, item.text ≠ []) (hlen : s.status.length = items.length) {k : Nat}
    (hk : k < items.length) (row : Nat) (selected : Bool) :
    printItem items k row selected s = some { s with rows := s.rows.set row (rowOf items s.status k selected) } := by
  have hk' : k < s.status.length := by omega
  rw [printItem, rowOf, List.getElem?_eq_getElem hk, List.getElem?_eq_getElem hk']
  exact if_neg (htext _ (List.getElem_mem hk))

theorem printRows_of (htext : ∀ item ∈ items, item.text ≠ []) (n i : Nat) (s : State)
    (hlen : s.status.length = items.length) (hin : s.scroll + i + n ≤ items.length) (hrows : i + n ≤ s.rows.length) :
    ∃ rows, printRows items n i s = some { s with rows := rows } ∧ rows.length = s.rows.length ∧
      ∀ j, rows[j]? =
        if i ≤ j ∧ j < i + n then some (rowOf items s.status (s.scroll + j) (j == s.choice)) else s.rows[j]? := by
  induction n generalizing i s with
  | zero => exact ⟨s.rows, rfl, rfl, fun j => (if_neg (by omega)).symm⟩
  | succ n ih =>
    obtain ⟨rows, hprint, hlen', hrow⟩ := ih (i + 1)
      { s with rows := s.rows.set i (rowOf items s.status (s.scroll + i) (i == s.choice)) } hlen
      (show s.scroll + (i + 1) + n ≤ items.length by omega)
      (show i + 1 + n ≤ (s.rows.set i _).length by rw [List.length_set]; omega)
    refine ⟨rows, ?_, hlen'.trans List.length_set, fun j => ?_⟩
    · rw [printRows, printItem_of htext hlen (by omega), Option.bind_some, hprint]
    · rw [hrow, List.getElem?_set]
      by_cases hj : i = j
      · subst hj
        rw [if_neg (by omega), if_pos rfl, if_pos (by omega), if_pos (by omega)]
      · rw [if_neg hj]
        by_cases hj' : i + 1 ≤ j ∧ j < i + 1 + n
        · rw [if_pos hj', if_pos (by omega)]
        · rw [if_neg hj', if_neg (by omega)]

/-- The whole window is drawn. -/
theorem printRows_window (htext : ∀ item ∈ items, item.text ≠ []) (hstatus : s.status = v.status)
    (hscroll : s.scroll = v.scroll) (hposition : v.position = v.scroll + s.choice)
    (hwindow : v.scroll + maxChoice list_height items ≤ items.length) (hlength : v.status.length = items.length)
    (hrows : s.rows.length = list_height)
    (hblank : ∀ j < list_height, maxChoice list_height items ≤ j → s.rows[j]? = some none) :
    printRows items (maxChoice list_height items) 0 s = some { s with rows := v.rows list_height items } := by
  have hmax : maxChoice list_height items = min list_height items.length := rfl
  obtain ⟨rows, hprint, hlen, hrow⟩ := printRows_of htext (maxChoice list_height items) 0 s (by rwa [hstatus])
    (by rwa [Nat.add_zero, hscroll]) (by omega)
  rw [hprint, rows_eq (hlen.trans hrows)]
  intro j hj
  rw [hrow]
  by_cases hj' : j < maxChoice list_height items
  · have hsel : (j == s.choice) = (v.scroll + j == v.position) := by
      rw [hposition, Bool.eq_iff_iff, beq_iff_eq, beq_iff_eq]
      omega
    rw [if_pos (by omega), hstatus, hscroll, hsel]
  · rw [if_neg (by omega), hblank j hj (by omega), rowOf_none (by omega)]

/-! ## The keys -/

/-- Another row of the window. -/
theorem moveTo_shows (htext : ∀ item ∈ items, item.text ≠ []) (h : Shows list_height items v s) {i : Nat}
    (hi : i < maxChoice list_height items) :
    ∃ s', moveTo items i s = some s' ∧ Shows list_height items { v with position := v.scroll + i } s' := by
  have hmax : maxChoice list_height items = min list_height items.length := rfl
  have hwindow := h.window
  have hchoice := h.choice_lt
  have hposition := h.position
  have hscroll := h.scroll
  have hlen : s.status.length = items.length := h.status ▸ h.length
  rw [moveTo]
  split
  next hsame =>
    rw [hsame, ← hposition]
    exact ⟨s, rfl, h⟩
  next hother =>
    rw [printItem_of htext hlen (by rw [h.scroll]; omega)]
    rw [Option.bind_some, printItem_of (s := { s with choice := i, rows := _ }) htext hlen (by simp only; omega)]
    refine ⟨_, rfl, h.status, h.scroll, rfl, hi, hwindow, h.length, h.output, rows_eq ?_ fun j hj => ?_⟩
    · simp only [List.length_set, h.length_rows]
    · simp only [h.scroll, h.status, List.getElem?_set, List.length_set, h.length_rows]
      by_cases hji : i = j
      · subst hji
        simp [hj]
      · rw [if_neg hji]
        by_cases hjc : s.choice = j
        · subst hjc
          have hsel : (v.scroll + s.choice == v.scroll + i) = false := by
            rw [beq_eq_false_iff_ne]
            omega
          rw [if_pos rfl, if_pos hj, hsel]
        · have hsel : (v.scroll + j == v.position) = (v.scroll + j == v.scroll + i) := by
            rw [Bool.eq_iff_iff, beq_iff_eq, beq_iff_eq]
            omega
          rw [if_neg hjc, h.row hj, hsel]

/-- The rows behind the first one, as those of the window that begins one item earlier. -/
theorem rowsDown_rows (htext : ∀ item ∈ items, item.text ≠ []) (h : Shows list_height items v s) (htop : s.choice = 0)
    (hscroll : 0 < v.scroll) :
    ∃ rows, rowsDown list_height items s = some { s with rows := rows } ∧ rows.length = list_height ∧
      ∀ j, 0 < j → j < list_height → rows[j]? = some (rowOf items v.status (v.scroll - 1 + j) false) := by
  have hmax : maxChoice list_height items = min list_height items.length := rfl
  have hwindow := h.window
  have hchoice := h.choice_lt
  have hposition := h.position
  have hlen : s.status.length = items.length := h.status ▸ h.length
  rw [rowsDown]
  split
  next hheight =>
    rw [printItem_of htext hlen (by rw [h.scroll]; omega), Option.map_some]
    refine ⟨_, rfl, ?_, fun j hj hj' => ?_⟩
    · rw [List.length_cons, List.length_dropLast, List.length_set, h.length_rows]
      omega
    · obtain ⟨j, rfl⟩ := Nat.exists_eq_add_of_lt hj
      rw [Nat.zero_add, List.getElem?_cons_succ, List.getElem?_dropLast, List.length_set, h.length_rows,
        if_pos (by omega), List.getElem?_set, h.length_rows, h.scroll, h.status,
        show v.scroll - 1 + (j + 1) = v.scroll + j by omega]
      by_cases hzero : 0 = j
      · subst hzero
        rw [if_pos rfl, if_pos (by omega), Nat.add_zero]
      · have hsel : (v.scroll + j == v.position) = false := by
          rw [beq_eq_false_iff_ne]
          omega
        rw [if_neg hzero, h.row (by omega), hsel]
  next hheight => exact ⟨s.rows, rfl, h.length_rows, fun j hj hj' => by omega⟩

theorem moveUp_shows (htext : ∀ item ∈ items, item.text ≠ []) (h : Shows list_height items v s) :
    ∃ s', moveUp list_height items s = some s' ∧ Shows list_height items v.up s' := by
  have hmax : maxChoice list_height items = min list_height items.length := rfl
  have hwindow := h.window
  have hchoice := h.choice_lt
  have hposition := h.position
  have hscroll := h.scroll
  have hlen : s.status.length = items.length := h.status ▸ h.length
  rw [moveUp]
  by_cases htop : s.choice = 0
  · rw [if_pos htop]
    by_cases hfirst : s.scroll = 0
    · have hv : v.up = v := by
        rw [Chooser.up, show v.position - 1 = v.position by omega, Nat.min_eq_left (by omega)]
      rw [if_pos hfirst, hv]
      exact ⟨s, rfl, h⟩
    · have hv : v.up = { v with position := v.scroll - 1, scroll := v.scroll - 1 } := by
        rw [Chooser.up, show v.position - 1 = v.scroll - 1 by omega, Nat.min_eq_right (by omega)]
      obtain ⟨rows, hrest, hlength, hrow⟩ := rowsDown_rows htext h htop (by omega)
      rw [if_neg hfirst, hv, hrest, Option.bind_some,
        printItem_of (s := { s with rows := rows, scroll := s.scroll - 1 }) htext hlen (by simp only; omega)]
      refine ⟨_, rfl, h.status, ?_, ?_, hchoice, ?_, h.length, h.output, rows_eq ?_ fun j hj => ?_⟩
      · simp only [hscroll]
      · simp only [htop, Nat.add_zero]
      · simp only
        omega
      · simp only [List.length_set, hlength]
      · simp only [hscroll, h.status, List.getElem?_set, hlength]
        by_cases hzero : 0 = j
        · subst hzero
          simp [hj]
        · have hsel : (v.scroll - 1 + j == v.scroll - 1) = false := by
            rw [beq_eq_false_iff_ne]
            omega
          rw [if_neg hzero, hrow j (by omega) hj, hsel]
  · have hv : v.up = { v with position := v.scroll + (s.choice - 1) } := by
      rw [Chooser.up, show v.position - 1 = v.scroll + (s.choice - 1) by omega, Nat.min_eq_left (by omega)]
    rw [if_neg htop, hv]
    exact moveTo_shows htext h (by omega)

/-- The rows in front of the last one, as those of the window that begins one item later. -/
theorem rowsUp_rows (htext : ∀ item ∈ items, item.text ≠ []) (h : Shows list_height items v s)
    (hlast : s.choice + 1 = list_height) :
    ∃ rows, rowsUp list_height items s = some { s with rows := rows } ∧ rows.length = list_height ∧
      ∀ j, j + 1 < list_height → rows[j]? = some (rowOf items v.status (v.scroll + 1 + j) false) := by
  have hmax : maxChoice list_height items = min list_height items.length := rfl
  have hwindow := h.window
  have hchoice := h.choice_lt
  have hposition := h.position
  have hlen : s.status.length = items.length := h.status ▸ h.length
  rw [rowsUp]
  split
  next hheight =>
    rw [printItem_of htext hlen (by rw [h.scroll]; omega), Option.map_some]
    refine ⟨_, rfl, ?_, fun j hj => ?_⟩
    · rw [List.length_append, List.length_drop, List.length_set, h.length_rows, List.length_singleton]
      omega
    · rw [List.getElem?_append_left (by rw [List.length_drop, List.length_set, h.length_rows]; omega),
        List.getElem?_drop, List.getElem?_set, h.length_rows, h.scroll, h.status,
        show v.scroll + 1 + j = v.scroll + (1 + j) by omega]
      by_cases hend : maxChoice list_height items - 1 = 1 + j
      · rw [if_pos hend, if_pos (by omega), hend]
      · have hsel : (v.scroll + (1 + j) == v.position) = false := by
          rw [beq_eq_false_iff_ne]
          omega
        rw [if_neg hend, h.row (by omega), hsel]
  next hheight => exact ⟨s.rows, rfl, h.length_rows, fun j hj => by omega⟩

theorem moveDown_shows (htext : ∀ item ∈ items, item.text ≠ []) (h : Shows list_height items v s) :
    ∃ s', moveDown list_height items s = some s' ∧
      Shows list_height items (v.down list_height items.length) s' := by
  have hmax : maxChoice list_height items = min list_height items.length := rfl
  have hwindow := h.window
  have hchoice := h.choice_lt
  have hposition := h.position
  have hscroll := h.scroll
  have hlen : s.status.length = items.length := h.status ▸ h.length
  rw [moveDown, Chooser.down]
  by_cases hlast : s.choice + 1 = maxChoice list_height items
  · simp only [if_pos hlast]
    by_cases hmore : v.position + 1 < items.length
    · obtain ⟨rows, hrest, hlength, hrow⟩ := rowsUp_rows htext h (by omega)
      rw [if_neg (by omega), if_pos hmore, hrest, Option.bind_some,
        printItem_of (s := { s with rows := rows, scroll := s.scroll + 1 }) htext hlen (by simp only; omega),
        show max v.scroll (v.position + 2 - list_height) = v.scroll + 1 by omega]
      refine ⟨_, rfl, h.status, ?_, ?_, hchoice, ?_, h.length, h.output, rows_eq ?_ fun j hj => ?_⟩
      · simp only [hscroll]
      · simp only
        omega
      · simp only
        omega
      · simp only [List.length_set, hlength]
      · simp only [hscroll, h.status, List.getElem?_set, hlength]
        by_cases hend : maxChoice list_height items - 1 = j
        · subst hend
          have hsel : (v.scroll + 1 + (maxChoice list_height items - 1) == v.position + 1) = true := by
            rw [beq_iff_eq]
            omega
          rw [if_pos rfl, if_pos hj, hsel]
        · have hsel : (v.scroll + 1 + j == v.position + 1) = false := by
            rw [beq_eq_false_iff_ne]
            omega
          rw [if_neg hend, hrow j (by omega), hsel]
    · rw [if_pos (by omega), if_neg hmore]
      exact ⟨s, rfl, h⟩
  · simp only [if_neg hlast]
    rw [if_pos (by omega), show max v.scroll (v.position + 2 - list_height) = v.scroll by omega,
      show v.position + 1 = v.scroll + (s.choice + 1) by omega]
    exact moveTo_shows htext h (by omega)

theorem Shows.blank (h : Shows list_height items v s) {j : Nat} (hj : j < list_height)
    (hmax : maxChoice list_height items ≤ j) : s.rows[j]? = some none := by
  have hmin : maxChoice list_height items = min list_height items.length := rfl
  rw [h.row hj, rowOf_none (by omega)]

theorem pick_shows (htext : ∀ item ∈ items, item.text ≠ []) (h : Shows list_height items v s) (check : Bool) :
    ∃ s', pick check list_height items s = some s' ∧ Shows list_height items (v.pick check items) s' := by
  have hmax : maxChoice list_height items = min list_height items.length := rfl
  have hwindow := h.window
  have hchoice := h.choice_lt
  have hlen := h.length
  have hk : s.scroll + s.choice = v.position := by rw [h.scroll, h.position]
  obtain ⟨on, hon⟩ : ∃ on, s.status[v.position]? = some on :=
    ⟨_, List.getElem?_eq_getElem (by rw [h.status, hlen, h.position]; omega)⟩
  have honv : v.status.getD v.position false = on := by
    rw [List.getD_eq_getElem?_getD, ← h.status, hon]
    rfl
  rw [pick, hk, hon, Option.bind_some, switch, Chooser.pick, honv]
  cases check with
  | true =>
    refine ⟨_, rfl, ?_, h.scroll, h.position, hchoice, hwindow, ?_, ?_, rows_eq ?_ fun j hj => ?_⟩
    · simp only [hk, h.status, if_true]
    · simp only [if_true, List.length_set, hlen]
    · simp only [hk, h.status, if_true]
    · simp only [List.length_modify, h.length_rows]
    · simp only [if_true]
      by_cases hj' : s.choice = j
      · subst hj'
        rw [List.getElem?_modify_eq, h.row hj, ← h.position, rowOf, rowOf,
          List.getElem?_set_self (by rw [hlen, h.position]; omega), ← h.status, hon]
        cases items[v.position]? <;> rfl
      · rw [List.getElem?_modify_ne _ _ hj', h.row hj, rowOf, rowOf, List.getElem?_set_ne (by rw [h.position]; omega)]
  | false =>
    simp only [Bool.false_eq_true, if_false, hk]
    cases on with
    | true =>
      refine ⟨_, rfl, h.status, h.scroll, h.position, hchoice, hwindow, hlen, ?_, h.rows⟩
      simp only [h.status, if_true]
    | false =>
      have hprint := printRows_window (v := { v with status := (v.status.map fun _ => false).set v.position true })
        (s := { s with status := (s.status.map fun _ => false).set v.position true }) htext
        (by rw [h.status]) h.scroll h.position hwindow (by simp [hlen]) h.length_rows
        fun j hj hmax => h.blank hj hmax
      rw [hprint]
      refine ⟨_, rfl, ?_, h.scroll, h.position, hchoice, hwindow, by simp [hlen], ?_, rfl⟩
      · simp [h.status]
      · simp [h.status]

/-! ## Every key -/

theorem hotLoop_findIdx {scroll : Nat} (key : Int) (n i : Nat) (hin : scroll + i + n ≤ items.length) :
    hotLoop items scroll key n i =
      some (i + ((items.drop (scroll + i)).take n).findIdx fun item => toupper key == toupper (initial item)) := by
  induction n generalizing i with
  | zero => simp [hotLoop]
  | succ n ih =>
    rw [hotLoop, List.getElem?_eq_getElem (by omega), List.drop_eq_getElem_cons (by omega), List.take_succ_cons,
      List.findIdx_cons]
    simp only
    by_cases hkey : toupper key = toupper (initial items[scroll + i])
    · rw [if_pos hkey, beq_iff_eq.2 hkey]
      rfl
    · rw [if_neg hkey, beq_eq_false_iff_ne.2 hkey, cond_false, ih (i + 1) (by omega), ← Nat.add_assoc scroll]
      congr 1
      omega

theorem hotLoop_hot (h : Shows list_height items v s) (key : Int) : ∃ i, hotLoop items s.scroll key
    (maxChoice list_height items) 0 = some i ∧
      v.hot list_height items key = if i < maxChoice list_height items then some i else none := by
  have hmax : maxChoice list_height items = min list_height items.length := rfl
  have hwindow := h.window
  have htake : (items.drop v.scroll).take list_height = (items.drop v.scroll).take (maxChoice list_height items) := by
    by_cases hfull : list_height ≤ items.length
    · rw [hmax, Nat.min_eq_left hfull]
    · rw [List.take_of_length_le (by rw [List.length_drop]; omega),
        List.take_of_length_le (by rw [List.length_drop]; omega)]
  have hlen : ((items.drop v.scroll).take (maxChoice list_height items)).length = maxChoice list_height items := by
    rw [List.length_take, List.length_drop]
    omega
  rw [h.scroll, hotLoop_findIdx key _ 0 (by omega)]
  refine ⟨_, rfl, ?_⟩
  rw [Chooser.hot, htake, List.findIdx?_eq_guard_findIdx_lt, hlen, Nat.add_zero, Nat.zero_add, Option.guard]
  simp only [decide_eq_true_eq]

/-- What a key does to the box. -/
theorem pressed_shows (htext : ∀ item ∈ items, item.text ≠ []) (h : Shows list_height items v s) (check : Bool)
    (key : Int) : ∃ o, pressed check list_height items s key = some o ∧
      Outcome.Rel (fun s v => Shows list_height items v s) o (v.pressed check list_height items key) := by
  have hshown {r : Option State} {v' : Chooser} (hr : ∃ s', r = some s' ∧ Shows list_height items v' s') :
      ∃ o, r.map .shows = some o ∧ Outcome.Rel (fun s v => Shows list_height items v s) o (.shows v') := by
    obtain ⟨s', rfl, hs'⟩ := hr
    exact ⟨.shows s', rfl, hs'⟩
  obtain ⟨i, hi, hhot⟩ := hotLoop_hot h key
  rw [pressed, Chooser.pressed, hi, Option.bind_some]
  split
  next => exact hshown (moveUp_shows htext h)
  next =>
    split
    next => exact hshown (moveDown_shows htext h)
    next =>
      rw [hhot]
      split
      next hlt => exact hshown (moveTo_shows htext h hlt)
      next =>
        simp only
        split
        next => exact ⟨_, rfl, rfl, h⟩
        next =>
          split
          next =>
            obtain ⟨s', hs', hshows⟩ := pick_shows htext h check
            rw [hs']
            exact ⟨_, rfl, rfl, hshows⟩
          next =>
            split
            next => exact ⟨_, rfl, rfl, h⟩
            next => exact ⟨_, rfl, h⟩

theorem turn_shows (htext : ∀ item ∈ items, item.text ≠ []) (h : Shows list_height items v s) (check : Bool)
    (key : Int) : ∃ o, turn check list_height items s key = some o ∧
      Outcome.Rel (fun s v => Shows list_height items v s) o (v.turn check list_height items key) := by
  obtain ⟨o, ho, hrel⟩ := pressed_shows htext h check key
  rw [turn, Chooser.turn, ho, Option.map_some]
  refine ⟨_, rfl, ?_⟩
  cases hv : v.pressed check list_height items key with
  | shows v' =>
    rw [hv] at hrel
    cases o with
    | shows s' =>
      simp only
      split
      next => exact ⟨rfl, hrel⟩
      next => exact hrel
    | returns => exact hrel.elim
  | returns code v' =>
    rw [hv] at hrel
    cases o with
    | shows => exact hrel.elim
    | returns => exact hrel

theorem run_shows (htext : ∀ item ∈ items, item.text ≠ []) (check : Bool) (keys : List Int)
    (h : Shows list_height items v s) : ∃ o, run check list_height items s keys = some o ∧
      Outcome.Rel (fun s v => Shows list_height items v s) o (v.run check list_height items keys) := by
  induction keys generalizing v s with
  | nil => exact ⟨_, rfl, h⟩
  | cons key keys ih =>
    obtain ⟨o, ho, hrel⟩ := turn_shows htext h check key
    rw [run, Chooser.run, ho]
    cases hv : v.turn check list_height items key with
    | shows v' =>
      rw [hv] at hrel
      cases o with
      | shows s' => exact ih hrel
      | returns => exact hrel.elim
    | returns code v' =>
      rw [hv] at hrel
      cases o with
      | shows => exact hrel.elim
      | returns => exact ⟨_, rfl, hrel⟩

/-- The item that is highlighted at first. -/
theorem firstOn_spec (status : List Bool) : firstOn status = 0 ∨ status[firstOn status]? = some true := by
  have hloop : ∀ (l : List (Bool × Nat)) (choice : Nat), (choice = 0 ∨ status[choice]? = some true) →
      (∀ x ∈ l, status[x.2]? = some x.1) →
      l.foldl (fun choice x => if choice = 0 ∧ x.1 then x.2 else choice) choice = 0 ∨
        status[l.foldl (fun choice x => if choice = 0 ∧ x.1 then x.2 else choice) choice]? = some true := by
    intro l
    induction l with
    | nil => exact fun choice h _ => h
    | cons x l ih =>
      intro choice h hl
      obtain ⟨hx, hl⟩ := List.forall_mem_cons.1 hl
      refine ih _ ?_ hl
      dsimp only
      split
      next hon => exact .inr (by rw [hx, hon.2])
      next => exact h
  refine hloop status.zipIdx 0 (.inl rfl) fun x hx => ?_
  obtain ⟨hlt, hx⟩ := List.mem_zipIdx' hx
  rw [hx, List.getElem?_eq_getElem hlt]

theorem start_shows (hheight : 0 < list_height) (hitems : items ≠ []) (htext : ∀ item ∈ items, item.text ≠ []) :
    ∃ s, start list_height items = some s ∧ Shows list_height items (Chooser.start list_height items) s := by
  have hmax : maxChoice list_height items = min list_height items.length := rfl
  have hpos : 0 < items.length := List.length_pos_iff.2 hitems
  have hlt : firstOn (items.map fun item => isOn item.status) < items.length := by
    rcases firstOn_spec (items.map fun item => isOn item.status) with h | h
    · omega
    · simpa using (List.getElem?_eq_some_iff.1 h).1
  have hscroll : (if list_height ≤ firstOn (items.map fun item => isOn item.status) then
      firstOn (items.map fun item => isOn item.status) - list_height + 1 else 0) =
        firstOn (items.map fun item => isOn item.status) + 1 - list_height := by
    split <;> omega
  rw [start, hscroll]
  generalize hfirst : firstOn (items.map fun item => isOn item.status) = first at hlt
  have hv : Chooser.start list_height items =
      ⟨first, first + 1 - list_height, items.map fun item => isOn item.status, []⟩ := by
    rw [Chooser.start, hfirst]
  rw [hv]
  have hposition : first = first + 1 - list_height + (first - (first + 1 - list_height)) := by omega
  have hwindow : first + 1 - list_height + maxChoice list_height items ≤ items.length := by omega
  have hprint := printRows_window (v := ⟨first, first + 1 - list_height, items.map fun item => isOn item.status, []⟩)
    (s := ⟨items.map fun item => isOn item.status, first - (first + 1 - list_height), first + 1 - list_height,
      List.replicate list_height none, []⟩) htext rfl rfl hposition hwindow (List.length_map _) List.length_replicate
    fun j hj _ => by rw [List.getElem?_replicate, if_pos hj]
  exact ⟨_, hprint, rfl, rfl, hposition, by simp only; omega, hwindow, List.length_map _, rfl, rfl⟩

end

/-- **What the box shows**, for any items that have a text and any keys: the window around the highlight, and in the end
the tags of what is on. -/
theorem checklist_shows (check : Bool) (list_height : Nat) (hheight : 0 < list_height) (items : List Item)
    (hitems : items ≠ []) (htext : ∀ item ∈ items, item.text ≠ []) (keys : List Int) :
    ∃ o, checklist check list_height items keys = some o ∧
      Outcome.Rel (fun s v => s.rows = v.rows list_height items ∧ s.output = v.output)
        o ((Chooser.start list_height items).run check list_height items keys) := by
  obtain ⟨s, hs, hshows⟩ := start_shows hheight hitems htext
  obtain ⟨o, ho, hrel⟩ := run_shows htext check keys hshows
  rw [checklist, hs]
  exact ⟨o, ho, Outcome.Rel.imp (fun s v h => ⟨h.rows, h.output⟩) hrel⟩

def twoItems : List Item := [⟨['a'], ['A'], ['o', 'n']⟩, ⟨['b'], ['B'], ['o', 'f', 'f']⟩]

theorem checklist_shows_two : ∃ o, checklist true 1 twoItems [Menubox.keyDown, ' '.toNat] = some o ∧
    Outcome.Rel (fun s _ => s.rows = [some ⟨['B'], true, true⟩] ∧ s.output = "\"a\" \"b\" ".toList) o
      (.returns 0 ()) := by
  obtain ⟨o, ho, hrel⟩ := checklist_shows true 1 Nat.one_pos twoItems (by decide) (by decide)
    [Menubox.keyDown, ' '.toNat]
  refine ⟨o, ho, ?_⟩
  have hrun : (Chooser.start 1 twoItems).run true 1 twoItems [Menubox.keyDown, ' '.toNat] =
      .returns 0 ⟨1, 1, [true, true], "\"a\" \"b\" ".toList⟩ := by decide
  rw [hrun] at hrel
  cases o with
  | shows => exact hrel.elim
  | returns code s => exact ⟨hrel.1, hrel.2.1.trans (by decide), hrel.2.2⟩

/-! ## A choice of the configuration -/

/-- The arguments behind `--radiolist`; an empty value ends them. -/
def radioItems (default : Text) (choices : List (Text × Text)) : List Item :=
  (choices.takeWhile fun c => c.1 != []).map fun c =>
    ⟨c.1, c.2.map fun x => if x = '_' then ' ' else x, if c.1 = default then "ON".toList else "OFF".toList⟩

/-- The value behind `choice_action`, from the one before; quotes in it are not followed. -/
def choiceAction (list_height : Nat) (value default : Text) (choices : List (Text × Text)) (keys : List Int) :
    Option Text :=
  if choices.any fun c => '\'' ∈ c.1 ++ c.2 then none
  else
    match checklist false list_height (radioItems default choices) keys with
    | some (.returns code s) => some (if code = 0 then s.output.rdropWhile (· == '\n') else value)
    | _ => none

/-- Choices with values that the shell and the dialog take as they are. -/
structure Plain (choices : List (Text × Text)) : Prop where
  ne_nil : choices ≠ []
  value : ∀ c ∈ choices, c.1 ≠ [] ∧ '\'' ∉ c.1 ∧ '\n' ∉ c.1
  text : ∀ c ∈ choices, c.2 ≠ [] ∧ '\'' ∉ c.2
  nodup : (choices.map Prod.fst).Nodup

instance (choices : List (Text × Text)) : Decidable (Plain choices) :=
  decidable_of_iff (choices ≠ [] ∧ (∀ c ∈ choices, c.1 ≠ [] ∧ '\'' ∉ c.1 ∧ '\n' ∉ c.1) ∧
      (∀ c ∈ choices, c.2 ≠ [] ∧ '\'' ∉ c.2) ∧ (choices.map Prod.fst).Nodup)
    ⟨fun ⟨h₁, h₂, h₃, h₄⟩ => ⟨h₁, h₂, h₃, h₄⟩, fun ⟨h₁, h₂, h₃, h₄⟩ => ⟨h₁, h₂, h₃, h₄⟩⟩

section
variable {items : List Item} {v : Chooser}

/-- One item is on: its tag is written. -/
theorem printed_single (items : List Item) {k : Nat} {item : Item} (hk : items[k]? = some item) :
    printed false items ((List.replicate items.length false).set k true) = item.tag := by
  have hoff (l : List Item) : printed false l (List.replicate l.length false) = [] := by
    induction l with
    | nil => rfl
    | cons x l ih =>
      rw [printed, List.length_cons, List.replicate_succ, List.zip_cons_cons, List.flatMap_cons]
      exact ih
  induction items generalizing k with
  | nil => simp at hk
  | cons x items ih =>
    cases k with
    | zero =>
      obtain rfl : x = item := by simpa using hk
      have hrest := hoff items
      rw [printed] at hrest
      rw [List.length_cons, List.replicate_succ, List.set_cons_zero, printed, List.zip_cons_cons, List.flatMap_cons,
        hrest]
      simp
    | succ k =>
      have hrest := ih (k := k) (by simpa using hk)
      rw [printed] at hrest
      rw [List.length_cons, List.replicate_succ, List.set_cons_succ, printed, List.zip_cons_cons, List.flatMap_cons,
        hrest]
      simp

/-- What a key keeps: the highlight is in the list, and nothing is turned on or off before the end. -/
def Keeps (check : Bool) (items : List Item) (v : Chooser) : Outcome Chooser → Prop
  | .shows v' => v'.position < items.length ∧ v'.status = v.status
  | .returns code v' => v'.position < items.length ∧ (code = 0 → ∃ v₀ : Chooser, v₀.status = v.status ∧
      v₀.position = v'.position ∧ v' = v₀.pick check items)

theorem pressed_keeps (check : Bool) (list_height : Nat) (key : Int) (hpos : v.position < items.length) :
    Keeps check items v (v.pressed check list_height items key) := by
  rw [Chooser.pressed]
  split
  next => exact ⟨Nat.lt_of_le_of_lt (Nat.sub_le _ _) hpos, rfl⟩
  next =>
    split
    next =>
      rw [Chooser.down]
      split
      next hlt => exact ⟨hlt, rfl⟩
      next => exact ⟨hpos, rfl⟩
    next =>
      split
      next i hi =>
        have hlt := (List.findIdx?_eq_some_iff_findIdx_eq.1 hi).1
        rw [List.length_take, List.length_drop] at hlt
        exact ⟨by simp only; omega, rfl⟩
      next =>
        split
        next => exact ⟨hpos, fun h => absurd h (by decide)⟩
        next =>
          split
          next => exact ⟨hpos, fun _ => ⟨v, rfl, rfl, rfl⟩⟩
          next =>
            split
            next => exact ⟨hpos, fun h => absurd h (by decide)⟩
            next => exact ⟨hpos, rfl⟩

theorem turn_keeps (check : Bool) (list_height : Nat) (key : Int) (hpos : v.position < items.length) :
    Keeps check items v (v.turn check list_height items key) := by
  have hkeeps := pressed_keeps check list_height key hpos
  rw [Chooser.turn]
  cases hv : v.pressed check list_height items key with
  | shows v' =>
    rw [hv] at hkeeps
    simp only
    split
    next => exact ⟨hkeeps.1, fun h => absurd h (by decide)⟩
    next => exact hkeeps
  | returns code v' => rwa [hv] at hkeeps

theorem run_keeps (check : Bool) (list_height : Nat) (keys : List Int) (hpos : v.position < items.length) :
    Keeps check items v (v.run check list_height items keys) := by
  induction keys generalizing v with
  | nil => exact ⟨hpos, rfl⟩
  | cons key keys ih =>
    have hturn := turn_keeps check list_height key hpos
    rw [Chooser.run]
    cases hv : v.turn check list_height items key with
    | shows v' =>
      rw [hv] at hturn
      have hrest := ih hturn.1
      simp only
      cases hrun : v'.run check list_height items keys with
      | shows v'' =>
        rw [hrun] at hrest
        exact ⟨hrest.1, hrest.2.trans hturn.2⟩
      | returns code v'' =>
        rw [hrun] at hrest
        refine ⟨hrest.1, fun hcode => ?_⟩
        obtain ⟨v₀, hstatus, hv₀⟩ := hrest.2 hcode
        exact ⟨v₀, hstatus.trans hturn.2, hv₀⟩
    | returns code v' => rwa [hv] at hturn

end

section
variable {choices : List (Text × Text)} {default : Text}

theorem Plain.radioItems_eq (h : Plain choices) (default : Text) : radioItems default choices = choices.map fun c =>
    ⟨c.1, c.2.map fun x => if x = '_' then ' ' else x, if c.1 = default then "ON".toList else "OFF".toList⟩ := by
  have hall : (choices.takeWhile fun c => c.1 != []) = choices := by
    rw [List.takeWhile_eq_self_iff]
    exact fun c hc => bne_iff_ne.2 (h.value c hc).1
  rw [radioItems, hall]

/-- What is on at first: the default, if it is among the values. -/
theorem Plain.start_status (h : Plain choices) (list_height : Nat) :
    (Chooser.start list_height (radioItems default choices)).status = choices.map fun c => c.1 == default := by
  have hon : isOn "ON".toList = true := by decide
  have hoff : isOn "OFF".toList = false := by decide
  rw [Chooser.start, h.radioItems_eq, List.map_map]
  refine List.map_congr_left fun c _ => ?_
  rw [Function.comp_apply]
  by_cases hc : c.1 = default
  · rw [if_pos hc, hon, hc, beq_self_eq_true]
  · rw [if_neg hc, hoff, beq_eq_false_iff_ne.2 hc]

/-- What the highlighted item turns on is that item. -/
theorem Plain.pick_status (h : Plain choices) {v : Chooser} (hstatus : v.status = choices.map fun c => c.1 == default)
    (hpos : v.position < choices.length) (items : List Item) :
    (v.pick false items).status = (List.replicate choices.length false).set v.position true := by
  rw [Chooser.pick]
  simp only [Bool.false_eq_true, if_false]
  split
  next hon =>
    have hdefault : choices[v.position].1 = default := by
      rw [hstatus, List.getD_eq_getElem?_getD, List.getElem?_map, List.getElem?_eq_getElem hpos] at hon
      exact eq_of_beq hon
    rw [hstatus]
    refine List.ext_getElem (by simp) fun k hk hk' => ?_
    rw [List.length_map] at hk
    rw [List.getElem_map, List.getElem_set, List.getElem_replicate, Bool.eq_iff_iff, beq_iff_eq]
    constructor
    · intro hck
      have hsame : k = v.position := by
        refine (List.getElem?_inj (by simpa) h.nodup).1 ?_
        rw [List.getElem?_map, List.getElem?_map, List.getElem?_eq_getElem hk, List.getElem?_eq_getElem hpos,
          Option.map_some, Option.map_some, hck, hdefault]
      rw [if_pos hsame.symm]
    · intro hset
      split at hset
      next hsame =>
        subst hsame
        exact hdefault
      next => cases hset
  next => rw [List.map_const', hstatus, List.length_map]

end

/-- **A choice of the configuration**, after any keys that end its dialog: the value under the highlight if it was
selected, else the one before; a value that was listed is followed by one that is. -/
theorem choice_action_listed (list_height : Nat) (hheight : 0 < list_height) (choices : List (Text × Text))
    (hplain : Plain choices) (value default : Text) (keys : List Int) {code : Int} {v : Chooser}
    (hrun : (Chooser.start list_height (radioItems default choices)).run false list_height (radioItems default choices)
      keys = .returns code v) :
    ∃ c ∈ choices, choices[v.position]? = some c ∧
      choiceAction list_height value default choices keys = some (if code = 0 then c.1 else value) := by
  have hitems := hplain.radioItems_eq default
  have hlength : (radioItems default choices).length = choices.length := by rw [hitems, List.length_map]
  have hne : radioItems default choices ≠ [] := by
    rw [← List.length_pos_iff, hlength]
    exact List.length_pos_iff.2 hplain.ne_nil
  have htext : ∀ item ∈ radioItems default choices, item.text ≠ [] := by
    rw [hitems]
    intro item hitem
    obtain ⟨c, hc, rfl⟩ := List.mem_map.1 hitem
    simpa using (hplain.text c hc).1
  have hstart : (Chooser.start list_height (radioItems default choices)).position <
      (radioItems default choices).length := by
    obtain ⟨s, -, hshows⟩ := start_shows hheight hne htext
    have hposition := hshows.position
    have hchoice := hshows.choice_lt
    have hwindow := hshows.window
    omega
  have hkeeps := run_keeps false list_height keys hstart
  obtain ⟨o, ho, hrel⟩ := checklist_shows false list_height hheight _ hne htext keys
  rw [hrun] at hkeeps hrel
  obtain ⟨hpos, hpick⟩ := hkeeps
  rw [hlength] at hpos
  refine ⟨choices[v.position], List.getElem_mem hpos, List.getElem?_eq_getElem hpos, ?_⟩
  have hquote : ¬ (choices.any fun c => '\'' ∈ c.1 ++ c.2) = true := by
    simp only [List.any_eq_true, decide_eq_true_eq, List.mem_append]
    rintro ⟨c, hc, hmem | hmem⟩
    · exact (hplain.value c hc).2.1 hmem
    · exact (hplain.text c hc).2 hmem
  cases o with
  | shows s => exact hrel.elim
  | returns code' s =>
    obtain ⟨rfl, -, houtput⟩ := hrel
    rw [choiceAction, if_neg hquote, ho]
    simp only
    split
    next hcode =>
      obtain ⟨v₀, hstatus, hposition, rfl⟩ := hpick hcode
      have hpos₀ : v₀.position < choices.length := hpos
      have hitem : (radioItems default choices)[v₀.position]? = some
          ⟨choices[v₀.position].1, choices[v₀.position].2.map fun x => if x = '_' then ' ' else x,
            if choices[v₀.position].1 = default then "ON".toList else "OFF".toList⟩ := by
        rw [hitems, List.getElem?_map, List.getElem?_eq_getElem hpos₀]
        rfl
      have htag : (v₀.pick false (radioItems default choices)).output = choices[v₀.position].1 := by
        have hon := hplain.pick_status (hstatus.trans (hplain.start_status list_height)) hpos₀
          (radioItems default choices)
        have hprinted : (v₀.pick false (radioItems default choices)).output = printed false (radioItems default choices)
            (v₀.pick false (radioItems default choices)).status := rfl
        rw [hprinted, hon, ← hlength, printed_single _ hitem]
      have hstrip : choices[v₀.position].1.rdropWhile (· == '\n') = choices[v₀.position].1 := by
        refine List.rdropWhile_eq_self_iff.2 fun hne hlast => (hplain.value _ (List.getElem_mem hpos₀)).2.2 ?_
        rw [← eq_of_beq hlast]
        exact List.getLast_mem hne
      rw [houtput, htag, hstrip]
      rfl
    next => rfl

def libcs : List (Text × Text) := [("glibc".toList, "GNU_C_library".toList), ("musl".toList, "musl_libc".toList)]

/-- `m` and `Enter`: the second value. -/
theorem choice_action_listed_musl : ∃ c ∈ libcs, libcs[1]? = some c ∧
    choiceAction 3 "glibc".toList "glibc".toList libcs ['m'.toNat, '\n'.toNat] = some (if (0 : Int) = 0 then c.1 else
      "glibc".toList) :=
  choice_action_listed 3 (by decide) libcs (by decide) "glibc".toList "glibc".toList ['m'.toNat, '\n'.toNat]
    (v := ⟨1, 0, [false, true], "musl".toList⟩) (by decide)

end T2Sde.Checklist
