import T2Sde.Lib.Lua
/-!
# Reading with `stdio`

`fgets` fills a buffer up to a newline or its size. `sscanf` goes through a format: a blank skips blanks, `%d` reads a
number, `%s` a word, `%[^c]` what stands in front of `c`; another character has to be there. At the first one that does
not fit, it stops, and what it has read so far counts.

* `gets_lines` — lines that fit into the buffer are read one by one.
* `scan_num`, `scan_upTo`, `scan_word` — what was written is read back.
* `scan_after`, `scan_mismatch` — formats are told from each other by how a text begins.
-/
namespace Stdio
open Shell (Text)
open Lua (isSpace)

/-! ## `fgets` -/

/-- What `fgets` reads with a buffer of `size`. -/
def fgetsLength (size : Nat) (s : Text) : Nat := min (size - 1) (s.findIdx (· == '\n') + 1)

/-- The first `n` buffers. -/
def getsUpTo (size : Nat) : Nat → Text → List Text
  | 0, _ => []
  | n + 1, s =>
    if s = [] then [] else s.take (fgetsLength size s) :: getsUpTo size n (s.drop (fgetsLength size s))

/-- The buffers that are filled one after the other. -/
def gets (size : Nat) (s : Text) : List Text := getsUpTo size s.length s

/-! ## `sscanf` -/

inductive Directive
  | blank | num | word | upTo (c : Char) | lit (c : Char)
  deriving DecidableEq, Repr

def format : Text → List Directive
  | [] => []
  | '%' :: 'd' :: f => .num :: format f
  | '%' :: 's' :: f => .word :: format f
  | '%' :: '[' :: '^' :: c :: ']' :: f => .upTo c :: format f
  | c :: f => (if isSpace c then .blank else .lit c) :: format f

inductive Arg
  | num (n : Int) | str (t : Text)
  deriving DecidableEq, Repr

def skipSpace (s : Text) : Text := s.dropWhile isSpace

def readNat (s : Text) : Option (Nat × Text) :=
  let digits := s.takeWhile Char.isDigit
  if digits = [] then none else some (Nat.ofDigitChars 10 digits 0, s.dropWhile Char.isDigit)

def readInt : Text → Option (Int × Text)
  | '-' :: s => (readNat s).map fun x => (-x.1, x.2)
  | '+' :: s => (readNat s).map fun x => (x.1, x.2)
  | s => (readNat s).map fun x => (x.1, x.2)

/-- What is read before the format and the text part. -/
def scan : List Directive → Text → List Arg
  | [], _ => []
  | .blank :: f, s => scan f (skipSpace s)
  | .num :: f, s => match readInt (skipSpace s) with
    | some (n, s) => .num n :: scan f s
    | none => []
  | .word :: f, s =>
    let w := (skipSpace s).takeWhile fun c => !isSpace c
    if w = [] then [] else .str w :: scan f ((skipSpace s).dropWhile fun c => !isSpace c)
  | .upTo c :: f, s =>
    let w := s.takeWhile (· != c)
    if w = [] then [] else .str w :: scan f (s.dropWhile (· != c))
  | .lit c :: f, s => match s with
    | x :: s => if x = c then scan f s else []
    | [] => []

def sscanf (s f : Text) : List Arg := scan (format f) s

/-- `%d` of `printf` -/
def decimal (n : Int) : Text := if n < 0 then '-' :: Nat.toDigits 10 n.natAbs else Nat.toDigits 10 n.natAbs

/-! ## What was written is read back -/

section
variable {f : List Directive} {s w : Text}

/-- No digit follows. -/
def Stops (p : Char → Bool) (s : Text) : Prop := ∀ c ∈ s.head?, p c = false

theorem takeWhile_stops {p : Char → Bool} (hw : ∀ c ∈ w, p c = true) (hs : Stops p s) :
    (w ++ s).takeWhile p = w ∧ (w ++ s).dropWhile p = s := by
  rw [List.takeWhile_append_of_pos hw, List.dropWhile_append_of_pos hw]
  cases s with
  | nil => simp
  | cons c s => simp [hs c rfl]

theorem readNat_digits (n : Nat) (hs : Stops Char.isDigit s) : readNat (Nat.toDigits 10 n ++ s) = some (n, s) := by
  obtain ⟨htake, hdrop⟩ := takeWhile_stops
    (fun c hc => Nat.isDigit_of_mem_toDigits (by omega) (by omega) hc) hs (w := Nat.toDigits 10 n)
  rw [readNat, htake, hdrop, if_neg Nat.toDigits_ne_nil, Nat.ofDigitChars_ten_toDigits]

theorem digits_head {n : Nat} {c : Char} (h : c ∈ (Nat.toDigits 10 n ++ s).head?) : c.isDigit = true := by
  obtain ⟨d, ds, hd⟩ := List.exists_cons_of_ne_nil (@Nat.toDigits_ne_nil n 10)
  rw [hd] at h
  obtain rfl : d = c := by simpa using h
  exact Nat.isDigit_of_mem_toDigits (by omega) (by omega) (hd ▸ List.mem_cons_self)

theorem readInt_decimal (n : Int) (hs : Stops Char.isDigit s) : readInt (decimal n ++ s) = some (n, s) := by
  rw [decimal]
  by_cases hn : n < 0
  · rw [if_pos hn, List.cons_append, readInt, readNat_digits _ hs]
    simp only [Option.map_some, Option.some.injEq, Prod.mk.injEq, and_true]
    omega
  · have hread := readNat_digits n.natAbs hs
    have hhead : ∀ c ∈ (Nat.toDigits 10 n.natAbs ++ s).head?, c.isDigit = true := fun c => digits_head
    rw [if_neg hn]
    generalize Nat.toDigits 10 n.natAbs ++ s = t at hread hhead
    rw [readInt, hread]
    · simp only [Option.map_some, Option.some.injEq, Prod.mk.injEq, and_true]
      omega
    · rintro t rfl
      exact absurd (hhead '-' rfl) (by decide)
    · rintro t rfl
      exact absurd (hhead '+' rfl) (by decide)

theorem decimal_head (n : Int) {c : Char} (h : c ∈ (decimal n ++ s).head?) : c = '-' ∨ c.isDigit = true := by
  rw [decimal] at h
  split at h
  · exact .inl (by simpa using h.symm)
  · exact .inr (digits_head h)

theorem isSpace_digit {c : Char} (h : c = '-' ∨ c.isDigit = true) : isSpace c = false := by
  rcases h with rfl | h
  · decide
  · have h48 : 48 ≤ c.toNat := (Char.isDigit_iff_toNat.1 h).1
    have hblank : c ≠ ' ' := by
      rintro rfl
      exact absurd h48 (by decide)
    have hhigh : ¬ c.toNat ≤ 13 := by omega
    simp [isSpace, Lua.between, hblank, hhigh]

theorem skipSpace_stops (hs : Stops isSpace s) : skipSpace s = s := by
  cases s with
  | nil => rfl
  | cons c s => rw [skipSpace, List.dropWhile_cons_of_neg (by simp [hs c rfl])]

theorem skipSpace_blanks {b : Text} (hb : ∀ c ∈ b, isSpace c = true) (hs : Stops isSpace s) :
    skipSpace (b ++ s) = s := by
  rw [skipSpace, List.dropWhile_append_of_pos hb]
  exact skipSpace_stops hs

/-- A number. -/
theorem scan_num (n : Int) (hs : Stops Char.isDigit s) :
    scan (.num :: f) (decimal n ++ s) = .num n :: scan f s := by
  rw [scan, skipSpace_stops fun c hc => isSpace_digit (decimal_head n hc), readInt_decimal n hs]

theorem scan_blank {b : Text} (hb : ∀ c ∈ b, isSpace c = true) (hs : Stops isSpace s) :
    scan (.blank :: f) (b ++ s) = scan f s := by
  rw [scan, skipSpace_blanks hb hs]

/-- What stands in front of `c`. -/
theorem scan_upTo {c : Char} (hne : w ≠ []) (hw : c ∉ w) (s : Text) :
    scan (.upTo c :: f) (w ++ c :: s) = .str w :: scan f (c :: s) := by
  have hfree : ∀ x ∈ w, (x != c) = true := fun x hx => by simpa using fun h : x = c => hw (h ▸ hx)
  obtain ⟨htake, hdrop⟩ := takeWhile_stops hfree (s := c :: s) (by simp [Stops])
  rw [scan, htake, hdrop]
  exact if_neg hne

/-- A word. -/
theorem scan_word (hne : w ≠ []) (hw : ∀ c ∈ w, isSpace c = false) (hs : Stops (fun c => !isSpace c) s) :
    scan (.word :: f) (w ++ s) = .str w :: scan f s := by
  have hfirst : Stops isSpace (w ++ s) := by
    obtain ⟨c, w, rfl⟩ := List.exists_cons_of_ne_nil hne
    intro d hd
    obtain rfl : c = d := by simpa using hd
    exact hw c List.mem_cons_self
  obtain ⟨htake, hdrop⟩ := takeWhile_stops (p := fun c => !isSpace c) (fun c hc => by simpa using hw c hc) hs
  rw [scan, skipSpace_stops hfirst, htake, hdrop]
  exact if_neg hne

end

/-! ## How a text begins -/

section
variable {f g : List Directive} {key : Text}

/-- What is left of a format behind a text that it has to read; a blank in the text is a single one. -/
def after : List Directive → Text → Option (List Directive)
  | f, [] => some f
  | .lit c :: f, x :: s => if x = c then after f s else none
  | .blank :: f, ' ' :: x :: s => if isSpace x then none else after f (x :: s)
  | _, _ => none

/-- The format does not get to the end of the text. -/
def mismatch : List Directive → Text → Bool
  | .lit c :: f, x :: s => if x = c then mismatch f s else true
  | .blank :: f, ' ' :: x :: s => !isSpace x && mismatch f (x :: s)
  | _, _ => false

theorem scan_single {x : Char} (hx : isSpace x = false) (s : Text) :
    scan (.blank :: f) (' ' :: x :: s) = scan f (x :: s) := by
  refine @scan_blank f (x :: s) [' '] (by decide) ?_
  simpa [Stops] using hx

theorem scan_after (h : after f key = some g) (t : Text) : scan f (key ++ t) = scan g t := by
  fun_induction after f key with
  | case1 f => rw [Option.some.inj h, List.nil_append]
  | case2 c f s ih => rw [List.cons_append, scan, if_pos rfl, ih h]
  | case3 c f x s hx => simp at h
  | case4 f x s hx => simp at h
  | case5 f x s hx ih =>
    rw [List.cons_append, List.cons_append, scan_single (by simpa using hx), ← ih h, List.cons_append]
  | case6 => simp at h

theorem scan_mismatch (h : mismatch f key = true) (t : Text) : scan f (key ++ t) = [] := by
  fun_induction mismatch f key with
  | case1 c f s ih => rw [List.cons_append, scan, if_pos rfl, ih h]
  | case2 c f x s hx => rw [List.cons_append, scan, if_neg hx]
  | case3 f x s ih =>
    rw [Bool.and_eq_true, Bool.not_eq_true'] at h
    rw [List.cons_append, List.cons_append, scan_single h.1, ← ih h.2, List.cons_append]
  | case4 => simp at h

end

/-! ## Lines -/

theorem fgetsLength_line {size : Nat} {l : Text} (hl : '\n' ∉ l) (hsize : l.length + 1 < size) (s : Text) :
    fgetsLength size (l ++ ['\n'] ++ s) = (l ++ ['\n']).length := by
  have hfind : (l ++ ['\n'] ++ s).findIdx (· == '\n') = l.length := by
    rw [List.append_assoc, List.findIdx_append, List.findIdx_eq_length_of_false]
    · simp [List.findIdx_cons]
    · intro c hc
      simpa using fun h : c = '\n' => hl (h ▸ hc)
  rw [fgetsLength, hfind, List.length_append, List.length_singleton]
  omega

theorem getsUpTo_lines {size n : Nat} {ls : List Text} (hn : ls.length ≤ n)
    (hls : ∀ l ∈ ls, '\n' ∉ l ∧ l.length + 1 < size) :
    getsUpTo size n (ls.flatMap (· ++ ['\n'])) = ls.map (· ++ ['\n']) := by
  induction ls generalizing n with
  | nil => cases n <;> rfl
  | cons l ls ih =>
    cases n with
    | zero => simp at hn
    | succ n =>
      obtain ⟨⟨hnl, hsize⟩, hls⟩ := List.forall_mem_cons.1 hls
      have hlen := fgetsLength_line hnl hsize (ls.flatMap (· ++ ['\n']))
      rw [List.flatMap_cons, getsUpTo, if_neg (by simp), hlen, List.take_left, List.drop_left,
        ih (by simpa using hn) hls, List.map_cons]

/-- **Lines that fit into the buffer** are read one by one. -/
theorem gets_lines {size : Nat} {ls : List Text} (hls : ∀ l ∈ ls, '\n' ∉ l ∧ l.length + 1 < size) :
    gets size (ls.flatMap (· ++ ['\n'])) = ls.map (· ++ ['\n']) := by
  refine getsUpTo_lines ?_ hls
  induction ls with
  | nil => simp
  | cons l ls ih =>
    have hrest := ih fun l hl => hls l (List.mem_cons_of_mem _ hl)
    rw [List.flatMap_cons, List.length_append, List.length_append, List.length_cons, List.length_singleton]
    omega

end Stdio
