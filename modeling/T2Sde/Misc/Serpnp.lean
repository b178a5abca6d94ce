import Mathlib.Data.List.Range
import Mathlib.Logic.Function.Basic
import Mathlib.Tactic.Common
/-!
# The identification of a serial device (`package/base/serpnp/serpnp.c`)

A message is what stands between `Begin ID` and `End ID`, the marks included. `pnpparse` goes through it with an index
and reads at 9 and 10 before it asks for the length.

| here | there |
| --- | --- |
| `receive`, `collect` | `main` :300-331 |
| `turn`         | a turn of the loops :147-154 |
| `decode`       | :144-159 |
| `search`       | the loops of the option strings, :176, :190, :204, :224 |
| `optionString` | :173-232, one option |
| `serial`, `devclass`, `compat`, `description` | :174-185, :186-198, :199-218, :219-231 |
| `checksum`     | :233-239 |
| `pnpparse`     | :118-243, with the indices at which it reads or writes |

* `receive_message` — what the receive loop hands over.
* `optionString_spec` — an option string in a message that is long enough.
* `pnpparse_iff` — **when nothing outside the message is touched**.
-/
namespace T2Sde.Serpnp

/-! ## The receive loop -/

def isBegin (c : UInt8) : Bool := c == 0x08 || c == 0x28

/-- `buf` as far as it is read; nothing where it would be full. A device that is silent ends the loop, too. -/
def collect (c : UInt8) : List UInt8 → List UInt8 → Option (List UInt8)
  | buf, [] => some buf
  | buf, x :: s =>
    if x = c then some (buf ++ [x]) else if 256 ≤ buf.length + 1 then none else collect c (buf ++ [x]) s

def receive (s : List UInt8) : Option (List UInt8) :=
  match s.dropWhile fun c => !isBegin c with
  | [] => none
  | c :: s => collect (c + 1) [c] s

/-- A message that the loop accepts. -/
structure Message where
  first : UInt8
  content : List UInt8
  begins : isBegin first = true
  plain : first + 1 ∉ content
  fits : content.length + 2 ≤ 256

namespace Message

def bytes (m : Message) : List UInt8 := m.first :: (m.content ++ [m.first + 1])

def len (m : Message) : Int := m.bytes.length

/-- The memory from `buf` on, with anything around the message. -/
def memory (m : Message) (other : Int → UInt8) (k : Int) : UInt8 :=
  if 0 ≤ k ∧ k < m.len then m.bytes.getD k.toNat 0 else other k

end Message

/-! ## The parser -/

structure Decode where
  buf : Int → UInt8
  sum : Int
  touched : List Int

/-- The two loops; the first one adds to the checksum. -/
def turn (offset : UInt8) (adds : Bool) (d : Decode) (i : Nat) : Decode where
  buf := Function.update d.buf i (d.buf i + offset)
  sum := if adds then d.sum + (d.buf i).toBitVec.toInt else d.sum
  touched := d.touched ++ [(i : Int)]

def subtract (offset : UInt8) (d : Decode) (i : Int) : Decode :=
  { d with buf := Function.update d.buf i (d.buf i - offset), touched := d.touched ++ [i] }

def decode (buf : Int → UInt8) (len : Nat) : Decode :=
  let offset := 0x28 - buf 0
  let d := (List.range (len - 3)).foldl (turn offset true) ⟨buf, 0, [0]⟩
  let last : Int := (len - 1 : Nat)
  let d := { d with sum := d.sum + (d.buf last).toBitVec.toInt, touched := d.touched ++ [last] }
  let d := (List.range' (len - 3) (len - (len - 3))).foldl (turn offset false) d
  subtract offset (subtract offset d 1) 2

def backslash : UInt8 := 0x5c
def star : UInt8 := 0x2a
def semicolon : UInt8 := 0x3b
def endMark : UInt8 := 0x29

/-- From `i` on, at most `n` bytes: where it stops, and what it reads. -/
def search (buf : Int → UInt8) (stop : UInt8) : Nat → Int → Int × List Int
  | 0, i => (i, [])
  | n + 1, i =>
    if buf i = stop then (i, [i])
    else
      let r := search buf stop n (i + 1)
      (r.1, i :: r.2)

/-- Behind the message there are the checksum and its mark. -/
def backOff (len i : Int) : Int := if len ≤ i then i - 3 else i

/-- Where the index is then, the start and the length of the field, and the indices. -/
structure Scanned where
  next : Int
  field : Option (Int × Int)
  touched : List Int

/-- `skips` is for the `*` in front of a compatible driver, `takes` for the length. -/
def optionString (buf : Int → UInt8) (len : Int) (stop : UInt8) (skips : Bool) (takes : Int → Bool) (i : Int) :
    Scanned :=
  if buf i = backslash then
    let r := search buf stop (len - (i + 1)).toNat (i + 1)
    let j := if skips = true ∧ buf (i + 1) = star then i + 2 else i + 1
    let next := backOff len r.1
    ⟨next, (some (j, next - j)).filter fun f => takes f.2, i :: (r.2 ++ if skips then [i + 1] else [])⟩
  else ⟨i, none, [i]⟩

def serial (buf : Int → UInt8) (len i : Int) : Scanned := optionString buf len backslash false (· == 8) i

def devclass (buf : Int → UInt8) (len i : Int) : Scanned :=
  optionString buf len backslash false (decide <| 1 < ·) i

def compat (buf : Int → UInt8) (len i : Int) : Scanned :=
  optionString buf len backslash true (decide <| 1 < ·) i

def description (buf : Int → UInt8) (len i : Int) : Scanned :=
  optionString buf len semicolon false (decide <| 1 < ·) i

def hexDigit (n : Nat) : UInt8 := if n < 10 then (0x30 + n).toUInt8 else (0x37 + n).toUInt8

/-- What `strncmp` reads of the message. -/
def checksum (buf : Int → UInt8) (len sum : Int) : List Int :=
  if buf (len - 3) = hexDigit ((sum % 256).toNat / 16) then [len - 3, len - 2] else [len - 3]

structure PnpId where
  revision : Nat
  eisaid : Int × Int
  options : List (Int × Int)
  touched : List Int

def pnpparse (buf : Int → UInt8) (len : Nat) : PnpId :=
  let d := decode buf len
  let serial := serial d.buf len 10
  let devclass := devclass d.buf len serial.next
  let compat := compat d.buf len devclass.next
  let description := description d.buf len compat.next
  let options := [serial.field, devclass.field, compat.field, description.field].filterMap id
  { revision := ((d.buf 1 &&& 0x3f).toNat <<< 6) ||| (d.buf 2 &&& 0x3f).toNat
    eisaid := (3, if d.buf 9 = endMark then 6 else 7)
    options := options
    touched := d.touched ++ [9] ++ serial.touched ++ devclass.touched ++ compat.touched ++ description.touched ++
      if options = [] then [] else checksum d.buf len d.sum }

/-- The indices are in the message, and so are the fields. -/
def InMessage (p : PnpId) (len : Int) : Prop :=
  (∀ k ∈ p.touched, 0 ≤ k ∧ k < len) ∧
    ∀ f ∈ p.eisaid :: p.options, 0 ≤ f.1 ∧ 0 ≤ f.2 ∧ f.1 + f.2 ≤ len

/-! ## The message -/

theorem collect_message {c : UInt8} {content buf : List UInt8} (hc : c ∉ content)
    (hfits : buf.length + content.length < 256) (rest : List UInt8) :
    collect c buf (content ++ c :: rest) = some (buf ++ content ++ [c]) := by
  induction content generalizing buf with
  | nil => simp [collect]
  | cons x content ih =>
    rw [List.mem_cons, not_or] at hc
    rw [List.length_cons] at hfits
    rw [List.cons_append, collect, if_neg (Ne.symm hc.1), if_neg (by omega), ih hc.2 (by simp; omega)]
    simp

/-- **The message** comes from the line as it was sent, whatever comes before and behind it. -/
theorem receive_message (m : Message) {noise : List UInt8} (hnoise : ∀ c ∈ noise, isBegin c = false)
    (rest : List UInt8) : receive (noise ++ m.bytes ++ rest) = some m.bytes := by
  have hdrop : (noise ++ m.bytes ++ rest).dropWhile (fun c => !isBegin c) =
      m.first :: (m.content ++ (m.first + 1) :: rest) := by
    rw [List.append_assoc, List.dropWhile_append_of_pos (by simpa using hnoise)]
    simp [Message.bytes, m.begins]
  have hfits := m.fits
  unfold receive
  rw [hdrop]
  exact collect_message m.plain (by simp; omega) rest

namespace Message

theorem len_eq (m : Message) : m.len = m.content.length + 2 := by
  simp [len, bytes]
  omega

theorem memory_first (m : Message) (other : Int → UInt8) : m.memory other 0 = m.first := by
  have hlen := m.len_eq
  unfold memory
  rw [if_pos (by omega)]
  rfl

theorem memory_last (m : Message) (other : Int → UInt8) : m.memory other (m.len - 1) = m.first + 1 := by
  have hlen := m.len_eq
  have hnat : (m.len - 1).toNat = (m.first :: m.content).length := by
    rw [hlen, List.length_cons]
    omega
  unfold memory
  rw [if_pos (by omega), hnat, bytes, ← List.cons_append, List.getD_eq_getElem?_getD, List.getElem?_concat_length,
    Option.getD_some]

/-- `End ID`, shifted. -/
theorem last_shifted (m : Message) : m.first + 1 + (0x28 - m.first) = endMark := by
  have h := m.begins
  unfold isBegin at h
  rcases Bool.or_eq_true_iff.1 h with h | h <;> rw [beq_iff_eq.1 h] <;> rfl

end Message

/-! ## The loops -/

section
variable {buf : Int → UInt8} {len i : Int} {stop : UInt8}

theorem turn_foldl (offset : UInt8) (adds : Bool) (l : List Nat) (hl : l.Nodup) (d : Decode) :
    (∀ k : Nat, (l.foldl (turn offset adds) d).buf k = if k ∈ l then d.buf k + offset else d.buf k) ∧
      (l.foldl (turn offset adds) d).touched = d.touched ++ l.map fun k : Nat => (k : Int) := by
  induction l generalizing d with
  | nil => simp
  | cons x l ih =>
    obtain ⟨hx, hl⟩ := List.nodup_cons.1 hl
    obtain ⟨hbuf, htouched⟩ := ih hl (turn offset adds d x)
    refine ⟨?_, ?_⟩
    · intro k
      rw [List.foldl_cons, hbuf]
      by_cases hk : k = x
      · subst hk
        simp [turn, hx]
      · have hother : (turn offset adds d x).buf k = d.buf k := Function.update_of_ne (by omega) _ _
        simp [hother, hk]
    · rw [List.foldl_cons, htouched]
      simp [turn]

/-- The last byte is shifted once, and the indices are those of the message. -/
theorem decode_spec (buf : Int → UInt8) {n : Nat} (hn : 4 ≤ n) :
    (decode buf n).buf (n - 1 : Nat) = buf (n - 1 : Nat) + (0x28 - buf 0) ∧
      ∀ k ∈ (decode buf n).touched, 0 ≤ k ∧ k < n := by
  have hfirst := turn_foldl (0x28 - buf 0) true (List.range (n - 3)) List.nodup_range ⟨buf, 0, [0]⟩
  unfold decode
  dsimp only
  generalize (List.range (n - 3)).foldl (turn (0x28 - buf 0) true) ⟨buf, 0, [0]⟩ = d at hfirst
  obtain ⟨hbuf, htouched⟩ := hfirst
  obtain ⟨hbuf', htouched'⟩ := turn_foldl (0x28 - buf 0) false (List.range' (n - 3) (n - (n - 3)))
    List.nodup_range' { d with
      sum := d.sum + (d.buf (n - 1 : Nat)).toBitVec.toInt, touched := d.touched ++ [((n - 1 : Nat) : Int)] }
  unfold subtract
  dsimp only
  refine ⟨?_, ?_⟩
  · rw [Function.update_of_ne (by omega), Function.update_of_ne (by omega), hbuf', if_pos, hbuf, if_neg]
    · simp
      omega
    · rw [List.mem_range'_1]
      omega
  · rw [htouched', htouched]
    intro k hk
    simp only [List.mem_append, List.mem_map, List.mem_range, List.mem_range'_1, List.mem_singleton] at hk
    rcases hk with ((((h | ⟨x, hx, rfl⟩) | rfl) | ⟨x, hx, rfl⟩) | rfl) | rfl <;> omega

theorem search_spec (n : Nat) (i : Int) :
    (i ≤ (search buf stop n i).1 ∧ (search buf stop n i).1 ≤ i + n) ∧
      ∀ k ∈ (search buf stop n i).2, i ≤ k ∧ k < i + n := by
  induction n generalizing i with
  | zero => simp [search]
  | succ n ih =>
    obtain ⟨hstop, hread⟩ := ih (i + 1)
    unfold search
    split
    · refine ⟨by dsimp only; omega, ?_⟩
      intro k hk
      obtain rfl := List.mem_singleton.1 hk
      omega
    · refine ⟨by dsimp only; omega, ?_⟩
      intro k hk
      rcases List.mem_cons.1 hk with rfl | hk
      · omega
      · have hrest := hread k hk
        omega

/-- The index, what is read, and the field. -/
structure Fits (len : Int) (r : Scanned) : Prop where
  next : 8 ≤ r.next ∧ r.next < len
  touched : ∀ k ∈ r.touched, 0 ≤ k ∧ k < len
  field : ∀ f ∈ r.field, 0 ≤ f.1 ∧ 0 ≤ f.2 ∧ f.1 + f.2 ≤ len

/-- An option string in a message whose last byte is no backslash. -/
theorem optionString_spec {skips : Bool} {takes : Int → Bool} (htakes : ∀ n, takes n = true → 0 ≤ n)
    (hlen : 11 ≤ len) (hlast : buf (len - 1) ≠ backslash) (hi : 8 ≤ i ∧ i < len) :
    Fits len (optionString buf len stop skips takes i) := by
  unfold optionString
  split
  next hslash =>
    have hne : i ≠ len - 1 := by
      rintro rfl
      exact hlast hslash
    obtain ⟨⟨hge, hle⟩, hread⟩ := @search_spec buf stop (len - (i + 1)).toNat (i + 1)
    have hfuel : ((len - (i + 1)).toNat : Int) = len - (i + 1) := Int.toNat_of_nonneg (by omega)
    rw [hfuel] at hle hread
    have hnext : 8 ≤ backOff len (search buf stop (len - (i + 1)).toNat (i + 1)).1 ∧
        backOff len (search buf stop (len - (i + 1)).toNat (i + 1)).1 < len := by
      unfold backOff
      split <;> omega
    refine ⟨hnext, ?_, ?_⟩
    · intro k hk
      rcases List.mem_cons.1 hk with rfl | hk
      · omega
      · rcases List.mem_append.1 hk with hk | hk
        · have hk := hread k hk
          omega
        · obtain ⟨_, rfl⟩ : skips = true ∧ k = i + 1 := by
            cases skips with
            | true => exact ⟨rfl, List.mem_singleton.1 hk⟩
            | false => cases hk
          omega
    · intro f hf
      have hstart : i + 1 ≤ (if skips = true ∧ buf (i + 1) = star then i + 2 else i + 1) := by split <;> omega
      dsimp only at hf
      generalize (if skips = true ∧ buf (i + 1) = star then i + 2 else i + 1) = j at hf hstart
      obtain ⟨htaken, hn⟩ := Option.mem_filter_iff.1 hf
      obtain rfl := Option.some.inj htaken
      have hn := htakes _ hn
      refine ⟨by dsimp only; omega, hn, ?_⟩
      dsimp only
      omega
  next =>
    refine ⟨hi, ?_, by simp⟩
    intro k hk
    obtain rfl := List.mem_singleton.1 hk
    omega

theorem self_touched (buf : Int → UInt8) (len i : Int) : i ∈ (serial buf len i).touched := by
  unfold serial optionString
  split <;> exact List.mem_cons_self

theorem checksum_mem {sum k : Int} (hlen : 11 ≤ len) (hk : k ∈ checksum buf len sum) : 0 ≤ k ∧ k < len := by
  unfold checksum at hk
  split at hk
  · rcases List.mem_cons.1 hk with rfl | hk
    · omega
    · obtain rfl := List.mem_singleton.1 hk
      omega
  · obtain rfl := List.mem_singleton.1 hk
    omega

/-- A message that is long enough: the four options one after the other. -/
theorem pnpparse_inMessage {n : Nat} (hn : 11 ≤ n) (hend : buf (n - 1 : Nat) + (0x28 - buf 0) = endMark) :
    InMessage (pnpparse buf n) n := by
  obtain ⟨hlast, hdecode⟩ := decode_spec buf (show 4 ≤ n by omega)
  have hcast : ((n - 1 : Nat) : Int) = (n : Int) - 1 := by omega
  have hplain : (decode buf n).buf ((n : Int) - 1) ≠ backslash := by
    rw [← hcast, hlast, hend]
    decide
  have hlen : 11 ≤ (n : Int) := by omega
  have hwide : ∀ k : Int, decide (1 < k) = true → 0 ≤ k := by
    intro k hk
    have hk := of_decide_eq_true hk
    omega
  have heights : ∀ k : Int, (k == 8) = true → 0 ≤ k := by
    intro k hk
    rw [beq_iff_eq.1 hk]
    decide
  unfold pnpparse
  generalize decode buf n = d at hdecode hplain
  have hserial : Fits n (serial d.buf n 10) := optionString_spec heights hlen hplain (by omega)
  have hclass : Fits n (devclass d.buf n (serial d.buf n 10).next) :=
    optionString_spec hwide hlen hplain hserial.next
  have hcompat : Fits n (compat d.buf n (devclass d.buf n (serial d.buf n 10).next).next) :=
    optionString_spec hwide hlen hplain hclass.next
  have hdescription :
      Fits n (description d.buf n (compat d.buf n (devclass d.buf n (serial d.buf n 10).next).next).next) :=
    optionString_spec hwide hlen hplain hcompat.next
  constructor
  · intro k hk
    rcases List.mem_append.1 hk with hk | hk
    · simp only [List.mem_append, List.mem_singleton] at hk
      rcases hk with ((((hk | rfl) | hk) | hk) | hk) | hk
      · exact hdecode k hk
      · omega
      · exact hserial.touched k hk
      · exact hclass.touched k hk
      · exact hcompat.touched k hk
      · exact hdescription.touched k hk
    · split at hk
      · cases hk
      · exact checksum_mem hlen hk
  · intro f hf
    rcases List.mem_cons.1 hf with rfl | hf
    · refine ⟨by dsimp only; omega, ?_, ?_⟩ <;> dsimp only <;> split <;> omega
    · simp only [List.mem_filterMap, List.mem_cons, List.not_mem_nil, or_false, id] at hf
      obtain ⟨o, rfl | rfl | rfl | rfl, ho⟩ := hf
      · exact hserial.field f ho
      · exact hclass.field f ho
      · exact hcompat.field f ho
      · exact hdescription.field f ho

end

/-- **Parsing stays in the message** if and only if there are at least nine bytes between the marks. -/
theorem pnpparse_iff (m : Message) (other : Int → UInt8) :
    InMessage (pnpparse (m.memory other) m.bytes.length) m.len ↔ 9 ≤ m.content.length := by
  have hlen := m.len_eq
  have hbytes : m.bytes.length = m.content.length + 2 := by simp [Message.bytes]
  constructor
  · intro h
    -- the test for the first option is at 10, in every message
    have hread : (10 : Int) ∈ (pnpparse (m.memory other) m.bytes.length).touched := by
      have hserial := self_touched (decode (m.memory other) m.bytes.length).buf m.bytes.length 10
      unfold pnpparse
      simp [hserial]
    have hlt := (h.1 10 hread).2
    omega
  · intro h
    have hend : m.memory other (m.bytes.length - 1 : Nat) + (0x28 - m.memory other 0) = endMark := by
      have hcast : ((m.bytes.length - 1 : Nat) : Int) = m.len - 1 := by
        unfold Message.len
        omega
      rw [hcast, m.memory_last, m.memory_first, m.last_shifted]
    exact pnpparse_inMessage (by omega) hend

/-- A message with a revision only. -/
def revisionOnly : Message where
  first := 0x28
  content := [0x01, 0x24]
  begins := by decide
  plain := by decide
  fits := by decide

/-- Its EISA ID starts at the last byte and has seven, and the byte at 10 is read. -/
theorem revisionOnly_outside :
    revisionOnly.len = 4 ∧ (pnpparse (revisionOnly.memory fun _ => 0) 4).eisaid = (3, 7) ∧
      ¬ InMessage (pnpparse (revisionOnly.memory fun _ => 0) 4) 4 := by
  refine ⟨rfl, by decide +kernel, ?_⟩
  intro h
  have hread : (10 : Int) ∈ (pnpparse (revisionOnly.memory fun _ => 0) 4).touched := by decide +kernel
  have hlt := (h.1 10 hread).2
  omega

end T2Sde.Serpnp
