import T2Sde.Lib.Cut
/-!
# Decimal texts in sorted lines

`%0kd` of `printf` writes a number with at least `k` digits. In sorted lines two numbers of the same width stand in
their order. Of two others the one with fewer digits counts as if it went on with zeros.

* `value_padded`, `length_padded` — what is written.
* `before_padded` — the order of two texts, told by the numbers.
-/
namespace Shell

/-- `%0kd`, for a number that is not negative. -/
def padded (k n : Nat) : Text := List.replicate (k - (Nat.toDigits 10 n).length) '0' ++ Nat.toDigits 10 n

/-- `%0kd` -/
def printfPadded (k : Nat) (x : Int) : Text := if x < 0 then '-' :: padded (k - 1) x.natAbs else padded k x.natAbs

/-- The value of digits. -/
abbrev value (u : Text) : Nat := Nat.ofDigitChars 10 u 0

def width (k n : Nat) : Nat := max k (Nat.toDigits 10 n).length

/-- With zeros behind it up to the width of `b`, `a` is at most `b`. -/
def InOrder (k a b : Nat) : Prop := a * 10 ^ (width k b - width k a) ≤ b

instance (k a b : Nat) : Decidable (InOrder k a b) := inferInstanceAs (Decidable (_ ≤ _))

/-- What follows is less than a digit, or nothing. -/
def Ends (s : Text) : Prop := ∀ c ∈ s.head?, c < '0'

section
variable {u v s t : Text} {k n a b : Nat}

theorem digits_padded : ∀ c ∈ padded k n, c.isDigit = true := by
  intro c hc
  rcases List.mem_append.1 hc with hc | hc
  · rw [List.eq_of_mem_replicate hc]
    rfl
  · exact Nat.isDigit_of_mem_toDigits (by omega) (by omega) hc

theorem value_padded (k n : Nat) : value (padded k n) = n := by
  rw [value, padded, Nat.ofDigitChars_append, Nat.ofDigitChars_replicate_zero, Nat.mul_zero,
    Nat.ofDigitChars_ten_toDigits]

theorem length_padded (k n : Nat) : (padded k n).length = width k n := by
  rw [padded, List.length_append, List.length_replicate, width]
  omega

theorem width_pos (k n : Nat) : 0 < width k n := Nat.lt_of_lt_of_le Nat.length_toDigits_pos (Nat.le_max_right _ _)

theorem width_mono (k : Nat) (hab : a ≤ b) : width k a ≤ width k b := by
  have hlen : (Nat.toDigits 10 a).length ≤ (Nat.toDigits 10 b).length := by
    rw [Nat.length_toDigits_le_iff (by omega) Nat.length_toDigits_pos]
    apply Nat.lt_of_le_of_lt hab
    rw [← Nat.length_toDigits_le_iff (by omega) Nat.length_toDigits_pos]
  rw [width, width]
  omega

/-- The width is the least one if the number fits. -/
theorem width_eq (hk : 0 < k) (hn : n < 10 ^ k) : width k n = k :=
  Nat.max_eq_left ((Nat.length_toDigits_le_iff (by omega) hk).2 hn)

theorem value_cons (c : Char) (u : Text) : value (c :: u) = 10 ^ u.length * (c.toNat - 48) + value u := by
  rw [value, Nat.ofDigitChars_cons, Nat.ofDigitChars_eq_ofDigitChars_zero, Nat.mul_zero, Nat.zero_add]
  rfl

theorem value_append (u v : Text) : value (u ++ v) = value u * 10 ^ v.length + value v := by
  rw [value, Nat.ofDigitChars_append, Nat.ofDigitChars_eq_ofDigitChars_zero, Nat.mul_comm]

theorem value_lt (hu : ∀ c ∈ u, c.isDigit = true) : value u < 10 ^ u.length := by
  induction u with
  | nil => exact Nat.one_pos
  | cons c u ih =>
    have ih := ih fun d hd => hu d (List.mem_cons_of_mem c hd)
    have hc := Char.isDigit_iff_toNat.1 (hu c List.mem_cons_self)
    have hnine : c.toNat - 48 ≤ 9 := by
      have h57 : '9'.toNat = 57 := rfl
      omega
    have hle := Nat.mul_le_mul_left (10 ^ u.length) hnine
    rw [value_cons, List.length_cons, Nat.pow_succ]
    omega

/-- Digits of the same width are compared as numbers. -/
theorem before_digits (hu : ∀ c ∈ u, c.isDigit = true) (hv : ∀ c ∈ v, c.isDigit = true) (hlen : u.length = v.length) :
    Before u v ↔ value u < value v := by
  induction u generalizing v with
  | nil =>
    obtain rfl := List.eq_nil_of_length_eq_zero hlen.symm
    exact iff_of_false (before_irrefl []) (Nat.lt_irrefl _)
  | cons c u ih =>
    cases v with
    | nil => exact absurd hlen (Nat.succ_ne_zero _)
    | cons d v =>
      obtain ⟨hc, hu⟩ := List.forall_mem_cons.1 hu
      obtain ⟨hd, hv⟩ := List.forall_mem_cons.1 hv
      have hlen : u.length = v.length := Nat.succ.inj hlen
      have ih := ih hu hv hlen
      have hltu := value_lt hu
      have hltv := value_lt hv
      rw [← hlen] at hltv
      have hc48 : 48 ≤ c.toNat := (Char.isDigit_iff_toNat.1 hc).1
      have hd48 : 48 ≤ d.toNat := (Char.isDigit_iff_toNat.1 hd).1
      have hchar : c < d ↔ c.toNat < d.toNat := Iff.rfl
      have hfirst : Before (c :: u) (d :: v) ↔ c < d ∨ c = d ∧ Before u v := List.cons_lt_cons_iff
      rw [hfirst, ih, value_cons, value_cons, ← hlen, hchar]
      rcases Nat.lt_trichotomy c.toNat d.toNat with h | h | h
      · have hle := Nat.mul_le_mul_left (10 ^ u.length) (show c.toNat - 48 + 1 ≤ d.toNat - 48 by omega)
        rw [Nat.mul_add, Nat.mul_one] at hle
        exact iff_of_true (.inl h) (by omega)
      · have heq : c = d := Char.toNat_inj.1 h
        subst heq
        simp
      · have hle := Nat.mul_le_mul_left (10 ^ u.length) (show d.toNat - 48 + 1 ≤ c.toNat - 48 by omega)
        rw [Nat.mul_add, Nat.mul_one] at hle
        have hne : c ≠ d := by
          rintro rfl
          omega
        exact iff_of_false (fun h' => h'.elim (by omega) fun h' => hne h'.1) (by omega)

theorem value_inj (hu : ∀ c ∈ u, c.isDigit = true) (hv : ∀ c ∈ v, c.isDigit = true) (hlen : u.length = v.length)
    (h : value u = value v) : u = v := by
  apply not_before_antisymm
  · rw [before_digits hu hv hlen]
    omega
  · rw [before_digits hv hu hlen.symm]
    omega

/-- Texts that differ within the width of both are compared there. -/
theorem before_front (hlen : u.length = v.length) (hne : u ≠ v) : Before (u ++ s) (v ++ t) ↔ Before u v := by
  induction u generalizing v with
  | nil => exact absurd (List.eq_nil_of_length_eq_zero hlen.symm).symm hne
  | cons c u ih =>
    cases v with
    | nil => exact absurd hlen (Nat.succ_ne_zero _)
    | cons d v =>
      have hlong : Before (c :: u ++ s) (d :: v ++ t) ↔ c < d ∨ c = d ∧ Before (u ++ s) (v ++ t) :=
        List.cons_lt_cons_iff
      have hshort : Before (c :: u) (d :: v) ↔ c < d ∨ c = d ∧ Before u v := List.cons_lt_cons_iff
      rw [hlong, hshort]
      refine or_congr_right (and_congr_right fun heq => ?_)
      subst heq
      exact ih (Nat.succ.inj hlen) fun h => hne (by rw [h])

/-- A text that ends where the other one goes on with a digit is the first. -/
theorem before_ends (hs : Ends s) (hv : ∀ c ∈ v, c.isDigit = true) (hne : v ≠ []) (t : Text) : Before s (v ++ t) := by
  obtain ⟨d, v, rfl⟩ := List.exists_cons_of_ne_nil hne
  cases s with
  | nil => exact List.nil_lt_cons _ _
  | cons c s =>
    have hc : c.toNat < 48 := hs c rfl
    have hd : 48 ≤ d.toNat := (Char.isDigit_iff_toNat.1 (hv d List.mem_cons_self)).1
    have hlt : c < d := Nat.lt_of_lt_of_le hc hd
    exact List.cons_lt_cons_iff.2 (.inl hlt)

/-- **Two numbers** in sorted lines. -/
theorem before_padded (hab : a < b) (hs : Ends s) (t : Text) :
    Before (padded k a ++ s) (padded k b ++ t) ↔ InOrder k a b := by
  have hw : (padded k a).length ≤ (padded k b).length := by
    rw [length_padded, length_padded]
    exact width_mono k hab.le
  -- the digits of `b` that stand where those of `a` do, and the others
  obtain ⟨v, w, hvw, hv⟩ : ∃ v w, padded k b = v ++ w ∧ v.length = (padded k a).length :=
    ⟨_, _, (List.take_append_drop (padded k a).length _).symm, List.length_take_of_le hw⟩
  have hb : ∀ c ∈ v ++ w, c.isDigit = true := hvw ▸ digits_padded
  have hvdig : ∀ c ∈ v, c.isDigit = true := fun c hc => hb c (List.mem_append_left w hc)
  have hwdig : ∀ c ∈ w, c.isDigit = true := fun c hc => hb c (List.mem_append_right v hc)
  have hbval : b = value v * 10 ^ w.length + value w := by rw [← value_append, ← hvw, value_padded]
  have hwlen : w.length = width k b - width k a := by
    rw [← length_padded, ← length_padded, hvw, ← hv, List.length_append, Nat.add_sub_cancel_left]
  have hlt := value_lt hwdig
  have horder : InOrder k a b ↔ a ≤ value v := by
    have hpos : 0 < 10 ^ w.length := Nat.pow_pos (by omega)
    rw [InOrder, ← hwlen, ← Nat.le_div_iff_mul_le hpos, hbval, Nat.mul_comm (value v), Nat.mul_add_div hpos,
      Nat.div_eq_of_lt hlt, Nat.add_zero]
  rw [hvw, horder, List.append_assoc]
  by_cases heq : padded k a = v
  · have hval : a = value v := by rw [← heq, value_padded]
    have hne : w ≠ [] := by
      rintro rfl
      have hnil : value [] = 0 := rfl
      rw [List.length_nil, Nat.pow_zero, Nat.mul_one, hnil, Nat.add_zero, ← hval] at hbval
      omega
    rw [← heq, before_append_left]
    exact iff_of_true (before_ends hs hwdig hne t) (by rw [heq, ← hval])
  · rw [before_front hv.symm heq, before_digits digits_padded hvdig hv.symm, value_padded]
    have hval : a ≠ value v := by
      intro h
      refine heq (value_inj digits_padded hvdig hv.symm ?_)
      rw [value_padded, h]
    omega

end

end Shell
