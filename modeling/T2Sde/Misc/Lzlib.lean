import T2Sde.Lib.Cut
import T2Sde.Lib.Stdio
import T2Sde.Wrapper.Log
/-!
# Lines of a compressed file (`misc/lua/lzlib/lzlib.c`)

The iterator collects a line in a buffer that all calls share. What it returns is the number of values on top of the Lua
stack: a line that was pushed, or, for a line without its newline, whatever is there, the last argument or the function
itself. At the end of the file it returns the status of the stream, and that is `true`.

| here | there |
| --- | --- |
| `Zlib`          | `gzgets` and `gzerror` of the library |
| `Buffer`        | :73-75, as calls leave it |
| `extend`, `addToBuffer`, `finishBuffer` | :82-107 |
| `pushresult`    | :30-59, the first value |
| `readPiece`     | `gzgets` into the buffer :185 |
| `linesLoop`     | :184-197 |
| `linesIterator` | :166-210 |

* `linesLoop_spec` — the loop collects a line, whatever the pieces are.
* `linesIterator_spec` — what a call returns for a line, for a last one without its newline, and at the end.
* `lines_end` — **the end is never signalled**.
-/
namespace T2Sde.Lzlib
open Shell
open Wrapper (nul cstr cstr_text)
open Stdio (fgetsLength)

def Z_OK : Int := 0

/-- A piece for a buffer of `size` bytes ends at a newline at the latest; at the end there is none. -/
structure Zlib where
  gzgets : Nat → Text → Option (Text × Text)
  gzerror : Text → Int
  gzgets_end : ∀ size, gzgets size [] = none
  gzgets_piece : ∀ size s, 2 ≤ size → s ≠ [] → ∃ p rest, gzgets size s = some (p, rest) ∧ s = p ++ rest ∧ p ≠ [] ∧
    p.length + 1 ≤ size ∧ '\n' ∉ p.dropLast
  gzerror_end : gzerror [] = Z_OK

/-- `content_buffer`, all of it, and `content_length`. -/
structure Buffer where
  bytes : Text
  length : Nat

/-- Not used yet, or as a call leaves it. -/
def Buffer.Ready (b : Buffer) : Prop := (b.bytes = [] ∧ b.length = 0) ∨ 256 ≤ b.bytes.length

inductive Value
  | nil | bool (b : Bool) | str (t : Text) | function
  deriving DecidableEq, Repr

/-! ## The buffer -/

/-- `realloc`; what is behind the old bytes is not set. -/
def extend (junk : Char) (bytes : Text) : Text :=
  if bytes.length < 256 then bytes ++ List.replicate (256 - bytes.length) junk
  else bytes ++ List.replicate bytes.length junk

def addToBuffer (junk : Char) (bytes : Text) (length : Nat) (c : Char) : Text :=
  let bytes := if bytes.length = length then extend junk bytes else bytes
  bytes.set length c

def finishBuffer (junk : Char) (bytes : Text) (length : Nat) : Text := cstr (addToBuffer junk bytes length nul)

/-- A string and its zero, from a place on. -/
def store (bytes : Text) (place : Nat) (p : Text) : Text :=
  bytes.take place ++ p ++ nul :: bytes.drop (place + p.length + 1)

def strlen (bytes : Text) : Nat := (cstr bytes).length

section
variable (z : Zlib) (junk : Char)

def pushresult (s : Text) : Value := if z.gzerror s = Z_OK then .bool true else .nil

/-- The bytes behind a piece, and the stream; `none` at the end of the file. -/
def readPiece (bytes : Text) (length : Nat) (s : Text) : Option (Text × Text) :=
  (z.gzgets (bytes.length - length) s).map fun x => (store bytes length x.1, x.2)

/-- What the loop leaves: the buffer, `content_length`, `ch` and the stream. -/
structure Looped where
  bytes : Text
  length : Nat
  ch : Char
  stream : Text

/-- At most `n` turns. -/
def linesLoop : Nat → Looped → Option Looped
  | 0, _ => none
  | n + 1, x =>
    match readPiece z x.bytes x.length x.stream with
    | none => some x
    | some (bytes, stream) =>
      let l := strlen bytes
      if 0 < l then
        let ch := bytes.getD (l - 1) nul
        if ch ≠ '\n' then linesLoop n ⟨extend junk bytes, l, ch, stream⟩
        else some ⟨bytes.set (l - 1) nul, l, ch, stream⟩
      else if x.ch ≠ '\n' then linesLoop n ⟨bytes, l, x.ch, stream⟩
      else some ⟨bytes, l, x.ch, stream⟩

/-- What is returned: a line that is pushed, the value on top of the stack, or the status. -/
def finish (args : List Value) (x : Looped) : Value × Buffer × Text :=
  if x.ch = '\n' ∨ 0 < x.length then
    if x.ch = '\n' then
      (.str (finishBuffer junk x.bytes x.length), ⟨addToBuffer junk x.bytes x.length nul, x.length + 1⟩, x.stream)
    else ((.function :: args).getLast (by simp), ⟨x.bytes, x.length⟩, x.stream)
  else (pushresult z x.stream, ⟨x.bytes, x.length⟩, x.stream)

/-- A call with its arguments, and the first value. -/
def linesIterator (b : Buffer) (s : Text) (args : List Value) : Option (Value × Buffer × Text) :=
  (linesLoop z junk (s.length + 1)
    (if b.bytes.length = 0 then ⟨extend junk b.bytes, b.length, nul, s⟩ else ⟨b.bytes, 0, nul, s⟩)).map
      (finish z junk args)

/-- One call after the other, with these arguments. -/
def run : Buffer → Text → List (List Value) → Option (List Value × Buffer × Text)
  | b, s, [] => some ([], b, s)
  | b, s, args :: calls =>
    (linesIterator z junk b s args).bind fun r => (run r.2.1 r.2.2 calls).map fun q => (r.1 :: q.1, q.2)

/-- The calls yield the lines and then `nil`. -/
def Yields (b : Buffer) (s : Text) (calls : List (List Value)) : Prop :=
  ∃ b' s', run z junk b s calls = some ((lines s).map Value.str ++ [.nil], b', s')

end

/-! ## Pieces -/

section
variable {z : Zlib} {junk : Char}

theorem length_extend (junk : Char) {bytes : Text} (h : bytes ≠ []) : bytes.length < (extend junk bytes).length ∧
    256 ≤ (extend junk bytes).length ∧ ∃ t, extend junk bytes = bytes ++ t := by
  have hpos := List.length_pos_of_ne_nil h
  unfold extend
  split
  · refine ⟨?_, ?_, _, rfl⟩ <;> rw [List.length_append, List.length_replicate] <;> omega
  · refine ⟨?_, ?_, _, rfl⟩ <;> rw [List.length_append, List.length_replicate] <;> omega

/-- What has been read of a line, with room for more. -/
structure Filled (x : Looped) (pre : Text) : Prop where
  front : ∃ t, x.bytes = pre ++ t
  length : x.length = pre.length
  room : x.length + 2 ≤ x.bytes.length
  large : 256 ≤ x.bytes.length
  noNul : nul ∉ pre
  noNewline : '\n' ∉ pre
  ch : x.ch ≠ '\n'

/-- A piece behind what was read before. -/
theorem readPiece_spec {x : Looped} {pre : Text} (hx : Filled x pre) (hz : nul ∉ x.stream) (hne : x.stream ≠ []) :
    ∃ p rest t, readPiece z x.bytes x.length x.stream = some (pre ++ p ++ nul :: t, rest) ∧ x.stream = p ++ rest ∧
      p ≠ [] ∧ '\n' ∉ p.dropLast ∧ strlen (pre ++ p ++ nul :: t) = pre.length + p.length ∧
      (pre ++ p ++ nul :: t).length = x.bytes.length := by
  obtain ⟨t, ht⟩ := hx.front
  have hroom := hx.room
  obtain ⟨p, rest, hp, hs, hpne, hlen, hnl⟩ :=
    z.gzgets_piece (x.bytes.length - x.length) x.stream (by omega) hne
  have hnul : nul ∉ pre ++ p := by
    rw [List.mem_append, not_or]
    refine ⟨hx.noNul, fun hmem => hz ?_⟩
    rw [hs]
    exact List.mem_append_left _ hmem
  have hstore : store x.bytes x.length p = pre ++ p ++ nul :: x.bytes.drop (x.length + p.length + 1) := by
    unfold store
    rw [hx.length, ht, List.take_left]
  refine ⟨p, rest, x.bytes.drop (x.length + p.length + 1), ?_, hs, hpne, hnl, ?_, ?_⟩
  · unfold readPiece
    rw [hp, Option.map_some, hstore]
  · unfold strlen
    rw [cstr_text hnul, List.length_append]
  · rw [List.length_append, List.length_append, List.length_cons, List.length_drop, ← hx.length]
    omega

/-- **The loop**: it stops behind the first newline, or at the end of the file. -/
theorem linesLoop_spec {n : Nat} {x : Looped} {pre : Text} (hx : Filled x pre) (hz : nul ∉ x.stream)
    (hn : x.stream.length < n) :
    ∃ y, linesLoop z junk n x = some y ∧ 256 ≤ y.bytes.length ∧
      ((∃ l rest t, '\n' ∉ l ∧ x.stream = l ++ '\n' :: rest ∧ y.stream = rest ∧ y.ch = '\n' ∧
          y.bytes = pre ++ l ++ nul :: nul :: t ∧ y.length = (pre ++ l).length + 1) ∨
        ('\n' ∉ x.stream ∧ y.stream = [] ∧ y.ch ≠ '\n' ∧ y.length = pre.length + x.stream.length)) := by
  induction n generalizing x pre with
  | zero => omega
  | succ n ih =>
    unfold linesLoop
    by_cases hempty : x.stream = []
    · have hnone : readPiece z x.bytes x.length x.stream = none := by
        unfold readPiece
        rw [hempty, z.gzgets_end, Option.map_none]
      rw [hnone]
      refine ⟨x, rfl, hx.large, .inr ⟨?_, hempty, hx.ch, ?_⟩⟩
      · rw [hempty]
        exact List.not_mem_nil
      · rw [hempty, hx.length]
        rfl
    · obtain ⟨p, rest, t, hread, hs, hpne, hnl, hlen, hsize⟩ := readPiece_spec (z := z) hx hz hempty
      obtain ⟨q, c, rfl⟩ : ∃ q c, p = q ++ [c] := ⟨_, _, (List.dropLast_append_getLast hpne).symm⟩
      rw [List.dropLast_concat] at hnl
      have hlast : strlen (pre ++ (q ++ [c]) ++ nul :: t) - 1 = (pre ++ q).length := by
        rw [hlen]
        simp
      have hshape : pre ++ (q ++ [c]) ++ nul :: t = (pre ++ q) ++ c :: nul :: t := by simp
      have hch : (pre ++ (q ++ [c]) ++ nul :: t).getD (pre ++ q).length nul = c := by
        rw [hshape, List.getD_eq_getElem?_getD]
        simp
      rw [hread]
      dsimp only
      rw [if_pos (by rw [hlen, List.length_append, List.length_singleton]; omega), hlast, hch]
      by_cases hc : c = '\n'
      · subst hc
        rw [if_neg (by simp)]
        refine ⟨_, rfl, ?_, .inl ⟨q, rest, t, hnl, by rw [hs]; simp, rfl, rfl, ?_, ?_⟩⟩
        · rw [List.length_set, hsize]
          exact hx.large
        · rw [hshape]
          simp
        · rw [hlen]
          simp
          omega
      · -- no newline yet: the buffer grows, and the next piece goes behind this one
        have hnonempty : pre ++ (q ++ [c]) ++ nul :: t ≠ [] := by simp
        obtain ⟨hgrow, hlarge, u, hu⟩ := length_extend junk hnonempty
        have hfilled :
            Filled ⟨extend junk (pre ++ (q ++ [c]) ++ nul :: t), strlen (pre ++ (q ++ [c]) ++ nul :: t), c, rest⟩
              (pre ++ (q ++ [c])) := by
          refine ⟨⟨nul :: t ++ u, ?_⟩, ?_, ?_, hlarge, ?_, ?_, hc⟩
          · rw [hu, List.append_assoc]
          · dsimp only
            rw [hlen, ← List.length_append]
          · have hroom : (pre ++ (q ++ [c]) ++ nul :: t).length = pre.length + (q ++ [c]).length + (t.length + 1) := by
              rw [List.length_append, List.length_append, List.length_cons]
            dsimp only
            rw [hlen]
            omega
          · rw [hs] at hz
            simp only [List.mem_append, not_or] at hz ⊢
            exact ⟨hx.noNul, hz.1⟩
          · simp only [List.mem_append, List.mem_singleton, not_or]
            exact ⟨hx.noNewline, hnl, Ne.symm hc⟩
        have hrest : nul ∉ rest := fun hmem => hz (hs ▸ List.mem_append_right _ hmem)
        have hshort : rest.length < n := by
          have hcount := congrArg List.length hs
          rw [List.length_append, List.length_append] at hcount
          simp at hcount
          omega
        rw [if_pos hc]
        obtain ⟨y, hy, hylarge, hcases⟩ := ih hfilled hrest hshort
        refine ⟨y, hy, hylarge, ?_⟩
        rcases hcases with ⟨l, rest', t', hl, hrest', hstream, hych, hbytes, hylen⟩ | ⟨hno, hstream, hych, hylen⟩
        · refine .inl ⟨q ++ [c] ++ l, rest', t', ?_, ?_, hstream, hych, ?_, ?_⟩
          · simp only [List.mem_append, List.mem_singleton, not_or]
            exact ⟨⟨hnl, Ne.symm hc⟩, hl⟩
          · rw [hs]
            dsimp only at hrest'
            rw [hrest', List.append_assoc (q ++ [c])]
          · rw [hbytes]
            simp
          · rw [hylen]
            simp
        · refine .inr ⟨?_, hstream, hych, ?_⟩
          · rw [hs]
            simp only [List.mem_append, List.mem_singleton, not_or]
            exact ⟨⟨hnl, Ne.symm hc⟩, hno⟩
          · rw [hylen, hs]
            simp
            omega

/-! ## Calls -/

theorem nul_ne_newline : nul ≠ '\n' := by decide

/-- The buffer at the beginning of a call. -/
theorem filled_first {b : Buffer} (hb : b.Ready) (junk : Char) (s : Text) :
    Filled (if b.bytes.length = 0 then ⟨extend junk b.bytes, b.length, nul, s⟩ else ⟨b.bytes, 0, nul, s⟩) [] ∧
      (if b.bytes.length = 0 then (⟨extend junk b.bytes, b.length, nul, s⟩ : Looped)
        else ⟨b.bytes, 0, nul, s⟩).stream = s := by
  rcases hb with ⟨hnil, hlen⟩ | hlarge
  · have hsize : (extend junk b.bytes).length = 256 := by
      unfold extend
      rw [hnil, if_pos (by simp), List.length_append, List.length_replicate]
      rfl
    rw [if_pos (by rw [hnil]; rfl)]
    exact ⟨⟨⟨_, rfl⟩, hlen, by dsimp only; omega, by dsimp only; omega, by simp, by simp, nul_ne_newline⟩, rfl⟩
  · rw [if_neg (by omega)]
    exact ⟨⟨⟨_, rfl⟩, rfl, by dsimp only; omega, hlarge, by simp, by simp, nul_ne_newline⟩, rfl⟩

/-- **One call**: a line, what is on the stack for a last one without newline, or `true`. -/
theorem linesIterator_spec {b : Buffer} (hb : b.Ready) {s : Text} (hz : nul ∉ s) (args : List Value) :
    ∃ b', b'.Ready ∧
      ((∃ l rest, '\n' ∉ l ∧ s = l ++ '\n' :: rest ∧ linesIterator z junk b s args = some (.str l, b', rest)) ∨
        ('\n' ∉ s ∧ s ≠ [] ∧ ∃ v, linesIterator z junk b s args = some (v, b', [])) ∨
        (s = [] ∧ linesIterator z junk b s args = some (.bool true, b', []))) := by
  obtain ⟨hfilled, hstream⟩ := filled_first hb junk s
  obtain ⟨y, hy, hlarge, hcases⟩ := @linesLoop_spec z junk (s.length + 1) _ _ hfilled
    (by rw [hstream]; exact hz) (by rw [hstream]; omega)
  have hcall : linesIterator z junk b s args = some (finish z junk args y) := congrArg (Option.map _) hy
  rw [hstream] at hcases
  rw [hcall]
  unfold finish
  rcases hcases with ⟨l, rest, t, hl, hs, hrest, hch, hbytes, hlen⟩ | ⟨hno, hrest, hch, hlen⟩
  · have hnul : nul ∉ l := fun hmem => hz (hs ▸ List.mem_append_left _ hmem)
    have hadd : addToBuffer junk y.bytes y.length nul = l ++ nul :: nul :: t := by
      have hne : y.bytes.length ≠ y.length := by
        rw [hbytes, hlen]
        simp
      unfold addToBuffer
      rw [if_neg hne, hbytes, hlen]
      simp
    refine ⟨⟨addToBuffer junk y.bytes y.length nul, y.length + 1⟩, .inr ?_, .inl ⟨l, rest, hl, hs, ?_⟩⟩
    · have hsame : y.bytes = l ++ nul :: nul :: t := hbytes
      dsimp only
      rw [hadd, ← hsame]
      exact hlarge
    · rw [if_pos (.inl hch), if_pos hch, hrest]
      unfold finishBuffer
      rw [hadd, cstr_text hnul]
  · refine ⟨⟨y.bytes, y.length⟩, .inr hlarge, .inr ?_⟩
    have hlen : y.length = s.length := hlen.trans (Nat.zero_add _)
    by_cases hs : s = []
    · rw [hs] at hlen
      rw [if_neg (by rw [hlen]; simp [hch]), hrest]
      unfold pushresult
      rw [z.gzerror_end, if_pos rfl]
      exact .inr ⟨hs, rfl⟩
    · have hpos := List.length_pos_of_ne_nil hs
      rw [if_pos (.inr (by omega)), if_neg hch, hrest]
      exact .inl ⟨hno, hs, _, rfl⟩

theorem run_cons {b b' : Buffer} {s s' : Text} {args : List Value} {v : Value} (calls : List (List Value))
    (h : linesIterator z junk b s args = some (v, b', s')) :
    run z junk b s (args :: calls) = (run z junk b' s' calls).map fun r => (v :: r.1, r.2) := by
  rw [run, h]
  rfl

/-- The calls for the lines come to the end of the stream. -/
theorem run_lines {n : Nat} {b : Buffer} (hb : b.Ready) {s : Text} (hz : nul ∉ s) (hn : (lines s).length = n)
    {calls : List (List Value)} (hcalls : calls.length = n + 1) :
    ∃ vs b', vs.length = n ∧ run z junk b s calls = some (vs ++ [.bool true], b', []) := by
  obtain ⟨args, calls, rfl⟩ := List.exists_cons_of_length_eq_add_one hcalls
  rw [List.length_cons, Nat.add_right_cancel_iff] at hcalls
  obtain ⟨b', hb', hcases⟩ := @linesIterator_spec z junk _ hb _ hz args
  induction n generalizing b s args calls b' with
  | zero =>
    obtain rfl := List.length_eq_zero_iff.1 hcalls
    rcases hcases with ⟨l, rest, hl, rfl, _⟩ | ⟨hno, hs, _⟩ | ⟨rfl, hcall⟩
    · rw [lines_cons hl] at hn
      cases hn
    · rw [lines_last hno hs] at hn
      cases hn
    · exact ⟨[], b', rfl, by rw [run_cons _ hcall]; rfl⟩
  | succ n ih =>
    obtain ⟨args', calls, rfl⟩ := List.exists_cons_of_length_eq_add_one hcalls
    rw [List.length_cons, Nat.add_right_cancel_iff] at hcalls
    rcases hcases with ⟨l, rest, hl, rfl, hcall⟩ | ⟨hno, hs, v, hcall⟩ | ⟨rfl, _⟩
    · rw [lines_cons hl, List.length_cons, Nat.add_right_cancel_iff] at hn
      have hrest : nul ∉ rest := fun hmem => hz (by simp [hmem])
      obtain ⟨b'', hb'', hcases⟩ := @linesIterator_spec z junk _ hb' _ hrest args'
      obtain ⟨vs, c, hlen, hrun⟩ := ih hb' hrest hn args' calls hcalls b'' hb'' hcases
      refine ⟨.str l :: vs, c, by rw [List.length_cons, hlen], ?_⟩
      rw [run_cons _ hcall, hrun]
      rfl
    · rw [lines_last hno hs, List.length_singleton] at hn
      obtain rfl : n = 0 := by omega
      obtain ⟨b'', hb'', hcases⟩ := @linesIterator_spec z junk _ hb' [] (by simp) args'
      obtain ⟨vs, c, hlen, hrun⟩ := ih hb' (s := []) (by simp) (by simp) args' calls hcalls b'' hb'' hcases
      refine ⟨v :: vs, c, by rw [List.length_cons, hlen], ?_⟩
      rw [run_cons _ hcall, hrun]
      rfl
    · rw [lines_nil] at hn
      cases hn

end

/-- **The end is never signalled**: whatever the stream is, and whatever the iterator is called with, the call behind
the last line returns `true`, and the calls do not yield the lines and then `nil`. -/
theorem lines_end (z : Zlib) (junk : Char) {b : Buffer} (hb : b.Ready) {s : Text} (hz : nul ∉ s)
    {calls : List (List Value)} (hcalls : calls.length = (lines s).length + 1) :
    (∃ vs b', run z junk b s calls = some (vs ++ [.bool true], b', [])) ∧ ¬ Yields z junk b s calls := by
  obtain ⟨vs, b', hlen, hrun⟩ := @run_lines z junk _ _ hb _ hz rfl _ hcalls
  refine ⟨⟨vs, b', hrun⟩, ?_⟩
  rintro ⟨c, s', hyields⟩
  have hend := congrArg Prod.fst (Option.some.inj (hrun.symm.trans hyields))
  have hlast := (List.append_inj hend (by rw [hlen, List.length_map])).2
  cases hlast

/-- A library that reads as much as it can. -/
def fullPieces : Zlib where
  gzgets size s := if s = [] then none else some (s.take (fgetsLength size s), s.drop (fgetsLength size s))
  gzerror _ := Z_OK
  gzgets_end size := rfl
  gzgets_piece size s hsize hs := by
    have hpos := List.length_pos_of_ne_nil hs
    refine ⟨_, _, if_neg hs, (List.take_append_drop _ s).symm, ?_, ?_, ?_⟩
    · unfold fgetsLength
      rw [← List.length_pos_iff, List.length_take]
      omega
    · unfold fgetsLength
      rw [List.length_take]
      omega
    · intro hmem
      have hprefix : (s.take (fgetsLength size s)).dropLast <+: s.take (s.findIdx (· == '\n')) := by
        rw [List.prefix_take_iff]
        refine ⟨(List.dropLast_prefix _).trans (List.take_prefix _ _), ?_⟩
        unfold fgetsLength
        rw [List.length_dropLast, List.length_take]
        omega
      have hin := hprefix.subset hmem
      have htake := @List.takeWhile_eq_take_findIdx_not _ s fun c => c != '\n'
      simp only [bne, Bool.not_not] at htake
      rw [← htake] at hin
      have hne := List.mem_takeWhile_imp hin
      simp at hne
  gzerror_end := rfl

/-- The calls of a `for` loop over two lines: the value before, and one more call. -/
def forCalls : List (List Value) := [[.nil, .nil], [.nil, .str "a".toList], [.nil, .str "a".toList]]

theorem lines_end_twoLines :
    (∃ vs b', run fullPieces nul ⟨[], 0⟩ "a\nb\n".toList forCalls = some (vs ++ [.bool true], b', [])) ∧
      ¬ Yields fullPieces nul ⟨[], 0⟩ "a\nb\n".toList forCalls :=
  lines_end fullPieces nul (.inl ⟨rfl, rfl⟩) (by decide) (by decide)

/-- Without the last newline, the line in front comes again in its place. -/
theorem lines_unterminated :
    (run fullPieces nul ⟨[], 0⟩ "a\nb".toList forCalls).map Prod.fst =
        some [.str "a".toList, .str "a".toList, .bool true] ∧
      ¬ Yields fullPieces nul ⟨[], 0⟩ "a\nb".toList forCalls := by
  have hrun : (run fullPieces nul ⟨[], 0⟩ "a\nb".toList forCalls).map Prod.fst =
      some [.str "a".toList, .str "a".toList, .bool true] := by decide +kernel
  refine ⟨hrun, ?_⟩
  rintro ⟨b', s', hyields⟩
  rw [hyields, Option.map_some] at hrun
  have hvalues : (lines "a\nb".toList).map Value.str ++ [.nil] =
      [.str "a".toList, .str "a".toList, .bool true] := Option.some.inj hrun
  revert hvalues
  decide

end T2Sde.Lzlib
