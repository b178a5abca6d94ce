import Mathlib.Algebra.GroupWithZero.Nat
import Mathlib.Data.List.Basic
/-!
# A window on a file, and where its lines begin

A program that pages through a file has a piece of it in memory and a place in that piece; the descriptor stands behind
the piece. `Of` says that the piece is one of the file and where in the file the place is. `offset` is where a line
begins in a text of lines with a delimiter between them.

* `Of.load`, `Of.next`, `Of.prev` — the piece is read anew, the place moves.
* `Of.behind`, `Of.front` — what is read at the place, and in front of it.
* `getElem?_line`, `getElem?_end`, `length_eq_end` — the characters of a line, and what stands behind them.
-/

/-- What is in memory of a file, with the descriptor and the place. -/
structure Window (α : Type) where
  fpos : Nat
  buf : List α
  page : Nat
  deriving DecidableEq, Repr

namespace Window

variable {α : Type}

/-- `size` elements are read from `start` on. -/
def load (file : List α) (size start page : Nat) : Window α :=
  let buf := (file.drop start).take size
  ⟨start + buf.length, buf, page⟩

/-- Where the place is in the file. -/
def pos (w : Window α) : Nat := w.fpos - w.buf.length + w.page

def next (w : Window α) : Window α := { w with page := w.page + 1 }

def prev (w : Window α) : Window α := { w with page := w.page - 1 }

/-- A window of the file, as large as `size` and the file allow, at the place `p` of it. -/
structure Of (file : List α) (size : Nat) (w : Window α) (p : Nat) : Prop where
  buf : w.buf = (file.drop (w.fpos - w.buf.length)).take size
  begins : w.buf.length ≤ w.fpos
  ends : w.fpos ≤ file.length
  inside : w.page ≤ w.buf.length
  pos : w.pos = p

section
variable {file : List α} {size : Nat} {w : Window α} {p : Nat}

theorem Of.load (file : List α) (size start page : Nat) (hstart : start ≤ file.length) (hpage : page ≤ size)
    (hin : start + page ≤ file.length) : Of file size (load file size start page) (start + page) := by
  have hlen : ((file.drop start).take size).length = min size (file.length - start) := by simp
  refine ⟨?_, ?_, ?_, ?_, ?_⟩
  · simp [Window.load]
  · simp [Window.load]
  · simp only [Window.load, hlen]
    omega
  · simp only [Window.load, hlen]
    omega
  · simp [Window.load, Window.pos]

theorem load_page (file : List α) (size start page page' : Nat) :
    { Window.load file size start page with page := page' } = Window.load file size start page' := rfl

theorem Of.next (h : Of file size w p) (hin : w.page < w.buf.length) : Of file size w.next (p + 1) :=
  ⟨h.buf, h.begins, h.ends, hin, by rw [← h.pos, Window.pos, Window.pos]; rfl⟩

theorem Of.prev (h : Of file size w p) (hpage : 0 < w.page) : Of file size w.prev (p - 1) := by
  refine ⟨h.buf, h.begins, h.ends, Nat.le_trans (Nat.sub_le _ _) h.inside, ?_⟩
  rw [← h.pos]
  simp only [Window.pos, Window.prev]
  omega

/-- The element at the place. -/
theorem Of.behind (h : Of file size w p) (hin : w.page < w.buf.length) : w.buf[w.page]? = file[p]? := by
  have hsize : w.page < size := by
    rw [h.buf, List.length_take] at hin
    omega
  rw [h.buf, List.getElem?_take, if_pos hsize, List.getElem?_drop, ← h.pos, Window.pos, h.buf]

/-- The element in front of the place. -/
theorem Of.front (h : Of file size w p) (hpage : 0 < w.page) : w.buf[w.page - 1]? = file[p - 1]? := by
  have hprev := h.prev hpage
  have hin : w.page - 1 < w.buf.length := by
    have := h.inside
    omega
  exact hprev.behind hin

/-- Where the piece ends, the descriptor is at the place. -/
theorem Of.fpos_eq (h : Of file size w p) (hend : w.page = w.buf.length) : w.fpos = p := by
  have hpos := h.pos
  have hbegins := h.begins
  rw [Window.pos] at hpos
  omega

/-- A window that does not end where the file does is full. -/
theorem Of.full (h : Of file size w p) (hlt : w.fpos < file.length) : w.buf.length = size := by
  have hlen := congrArg List.length h.buf
  have hbegins := h.begins
  rw [List.length_take, List.length_drop] at hlen
  omega

theorem Of.le (h : Of file size w p) : p ≤ file.length := by
  have hpos := h.pos
  have hbegins := h.begins
  have hends := h.ends
  have hinside := h.inside
  rw [Window.pos] at hpos
  omega

end

end Window

namespace Lines

variable {α : Type} {d : α} {ls : List (List α)} {k : Nat}

/-- The line `k`, an empty one behind the last. -/
def line (ls : List (List α)) (k : Nat) : List α := (ls[k]?).getD []

/-- Where the line `k` begins, with a delimiter behind each line in front of it. -/
def offset (ls : List (List α)) (k : Nat) : Nat := ((ls.take k).map fun l => l.length + 1).sum

theorem offset_zero : offset ls 0 = 0 := rfl

theorem offset_succ (hk : k < ls.length) : offset ls (k + 1) = offset ls k + (line ls k).length + 1 := by
  have htake : ls.take (k + 1) = ls.take k ++ [line ls k] := by
    rw [List.take_add_one, line, List.getElem?_eq_getElem hk]
    rfl
  rw [offset, offset, htake, List.map_append, List.sum_append]
  simp [Nat.add_assoc]

/-- The text in front of the line `k`, and from it on. -/
theorem split_offset (d : α) (hk : k < ls.length) :
    ∃ u, u.length = offset ls k ∧ [d].intercalate ls = u ++ [d].intercalate (ls.drop k) := by
  induction ls generalizing k with
  | nil => exact absurd hk (Nat.not_lt_zero k)
  | cons l ls ih =>
    cases k with
    | zero => exact ⟨[], rfl, rfl⟩
    | succ k =>
      have hk : k < ls.length := Nat.lt_of_succ_lt_succ hk
      have hne : ls ≠ [] := List.ne_nil_of_length_pos (by omega)
      obtain ⟨u, hu, hls⟩ := ih hk
      have hlen : (l ++ [d] ++ u).length = offset (l :: ls) (k + 1) := by
        simp only [List.length_append, List.length_singleton, hu, offset, List.take_succ_cons, List.map_cons,
          List.sum_cons]
      refine ⟨l ++ [d] ++ u, hlen, ?_⟩
      rw [List.intercalate_cons_of_ne_nil hne, hls]
      simp

theorem drop_offset (d : α) (hk : k < ls.length) :
    ([d].intercalate ls).drop (offset ls k) = [d].intercalate (ls.drop k) := by
  obtain ⟨u, hu, hls⟩ := split_offset d hk
  rw [hls, ← hu, List.drop_left]

/-- A character of the line. -/
theorem getElem?_line (d : α) (hk : k < ls.length) {i : Nat} (hi : i < (line ls k).length) :
    ([d].intercalate ls)[offset ls k + i]? = (line ls k)[i]? := by
  rw [← List.getElem?_drop, drop_offset d hk]
  obtain ⟨l, hl⟩ : ∃ l, ls.drop k = l :: ls.drop (k + 1) := ⟨ls[k], List.drop_eq_getElem_cons hk⟩
  have hline : line ls k = l := by
    rw [line, ← Nat.add_zero k, ← List.getElem?_drop, hl]
    rfl
  rw [hline] at hi ⊢
  rw [hl]
  cases hrest : ls.drop (k + 1) with
  | nil => rw [List.intercalate_singleton]
  | cons m ms => rw [List.intercalate_cons_of_ne_nil (by simp), List.append_assoc, List.getElem?_append_left hi]

/-- What stands behind a line that is not the last one. -/
theorem getElem?_end (d : α) (hk : k + 1 < ls.length) :
    ([d].intercalate ls)[offset ls k + (line ls k).length]? = some d := by
  have hk' : k < ls.length := by omega
  have hrest : ls.drop (k + 1) ≠ [] := by simpa using hk
  rw [← List.getElem?_drop, drop_offset d hk', List.drop_eq_getElem_cons hk', List.intercalate_cons_of_ne_nil hrest]
  simp [line, List.getElem?_eq_getElem hk']

/-- The last line ends where the text does. -/
theorem length_eq_end (d : α) (hk : k + 1 = ls.length) :
    ([d].intercalate ls).length = offset ls k + (line ls k).length := by
  have hk' : k < ls.length := by omega
  have hlast : ls.drop k = [line ls k] := by
    rw [List.drop_eq_getElem_cons hk', List.drop_of_length_le (by omega), line, List.getElem?_eq_getElem hk']
    rfl
  obtain ⟨u, hu, hls⟩ := split_offset d hk'
  rw [hls, hlast, List.intercalate_singleton, List.length_append, hu]

end Lines
