import T2Sde.Lib.Glob
/-!
# Patterns with one star

A pattern `w*v` of plain texts fits what starts with `w` and ends with `v`.

* `fits_between` — what such a pattern fits.
* `stripSuffix_from` — `${s%d*}` cuts at the last `d`.
* `replaceOnce_upTo`, `replaceOnce_within` — `${s/*d/}` and `${s/d*e/}`.
-/
namespace Shell
open Pattern

variable {w v : Text}

/-- `*` goes on up to the last place where the rest is all that is left. -/
theorem expandLazy_end {α : Type} {k : Text → Res α} {a : α} (hk : ∀ t, k t = if t = v then .ok a else .fail)
    (s : Text) : expandLazy (fun _ => true) k s = if v <:+ s then .ok a else .fail := by
  induction s with
  | nil =>
    rw [expandLazy, hk]
    by_cases h : v = []
    · rw [if_pos h.symm, if_pos (h ▸ List.suffix_refl [])]
    · rw [if_neg (Ne.symm h), if_neg fun hs => h (List.suffix_nil.1 hs)]
  | cons c s ih =>
    rw [expandLazy, hk, ih]
    by_cases h : c :: s = v
    · subst h
      rw [if_pos rfl, if_pos (List.suffix_refl _)]
    · rw [if_neg h, if_pos rfl]
      by_cases hs : v <:+ s
      · rw [if_pos hs, if_pos (hs.trans (List.suffix_cons c s))]
      · rw [if_neg hs, if_neg fun hc => (List.suffix_cons_iff.1 hc).elim (fun heq => h heq.symm) hs]

theorem fits_between (hw : Verbatim w) (hv : Verbatim v) (s : Text) :
    fits (w ++ '*' :: v) s = true ↔ ∃ t, s = w ++ (t ++ v) := by
  have hglob : glob (w ++ '*' :: v) = w.map literal ++ .chr (fun _ => true) .lazy :: v.map literal := by
    have h := globUpTo_verbatim hw (v.length + 1) ('*' :: v)
    have hlast : globUpTo v.length v = v.map literal := glob_verbatim hv
    rw [glob, List.length_append, List.length_cons, h, globUpTo, hlast]
  have hend : ∀ t, run s (v.map literal ++ [.atEnd]) [] t = if t = v then .ok ([], []) else .fail := by
    intro t
    rw [run_literal]
    by_cases h : v <+: t
    · obtain ⟨u, rfl⟩ := h
      rw [if_pos (List.prefix_append v u), List.drop_left]
      cases u <;> simp [run]
    · have hne : t ≠ v := by
        rintro rfl
        exact h (List.prefix_refl t)
      rw [if_neg h, if_neg hne]
  have hrun : run s (glob (w ++ '*' :: v) ++ [.atEnd]) [] s =
      if w <+: s then if v <:+ s.drop w.length then .ok ([], []) else .fail else .fail := by
    rw [hglob, List.append_assoc, run_literal]
    exact congrArg (fun r => if w <+: s then r else .fail) (expandLazy_end hend _)
  rw [fits, hrun]
  constructor
  · intro h
    by_cases hp : w <+: s
    · obtain ⟨u, rfl⟩ := hp
      by_cases hs : v <:+ u
      · obtain ⟨t, rfl⟩ := hs
        exact ⟨t, rfl⟩
      · simp [hs] at h
    · simp [hp] at h
  · rintro ⟨t, rfl⟩
    rw [if_pos (List.prefix_append w _), List.drop_left, if_pos (List.suffix_append t v)]

theorem verbatim_nil : Verbatim [] := fun _ hc => absurd hc List.not_mem_nil

theorem verbatim_char {d : Char} (hd : verbatimChar d = true) : Verbatim [d] := verbatim_cons.2 ⟨hd, verbatim_nil⟩

section
variable {d e : Char}

theorem fits_from (hd : verbatimChar d = true) (s : Text) : fits [d, '*'] s = true ↔ s.head? = some d := by
  have h := fits_between (verbatim_char hd) verbatim_nil s
  rw [List.singleton_append] at h
  rw [h]
  cases s with
  | nil => simp
  | cons c s => simp [eq_comm]

theorem fits_upTo (hd : verbatimChar d = true) (s : Text) : fits ['*', d] s = true ↔ ∃ t, s = t ++ [d] :=
  fits_between verbatim_nil (verbatim_char hd) s

theorem fits_within (hd : verbatimChar d = true) (he : verbatimChar e = true) (s : Text) :
    fits [d, '*', e] s = true ↔ ∃ t, s = d :: (t ++ [e]) := fits_between (verbatim_char hd) (verbatim_char he) s

theorem beforeEnd_none (hd : verbatimChar d = true) {s : Text} (hs : d ∉ s) : beforeEnd [d, '*'] s = none := by
  induction s with
  | nil => rw [beforeEnd, if_neg (by simp [fits_from hd])]
  | cons c s ih =>
    have hc : c ≠ d := fun h => hs (h ▸ List.mem_cons_self)
    rw [beforeEnd, ih fun h => hs (List.mem_cons_of_mem c h)]
    exact if_neg (by simpa [fits_from hd] using hc)

/-- `${s%d*}`: from the last `d` on. -/
theorem stripSuffix_from (hd : verbatimChar d = true) (u : Text) {s : Text} (hs : d ∉ s) :
    stripSuffix [d, '*'] (u ++ d :: s) = u := by
  have hend : beforeEnd [d, '*'] (u ++ d :: s) = some u := by
    induction u with
    | nil =>
      rw [List.nil_append, beforeEnd, beforeEnd_none hd hs]
      exact if_pos ((fits_from hd _).2 rfl)
    | cons c u ih => rw [List.cons_append, beforeEnd, ih]
  rw [stripSuffix, hend, Option.getD_some]

theorem stripSuffix_from_not (hd : verbatimChar d = true) {s : Text} (hs : d ∉ s) : stripSuffix [d, '*'] s = s := by
  rw [stripSuffix, beforeEnd_none hd hs, Option.getD_none]

theorem stripPrefix_upTo_not (hd : verbatimChar d = true) {s : Text} (hs : d ∉ s) : stripPrefix ['*', d] s = s := by
  have hglob : glob ['*', d] = [.chr (fun _ => true) .lazy, literal d] := by
    have hd : ((d ≠ '*' ∧ d ≠ '?') ∧ d ≠ '[') ∧ d ≠ '\\' := by simpa [verbatimChar] using hd
    simp_all [glob, globUpTo]
  have hrun : ∀ src, expandLazy (fun _ => true) (run src [literal d] []) s = .fail := by
    intro src
    induction s with
    | nil => rfl
    | cons c s ih =>
      have hc : ¬ (c == d) = true := by simpa using fun h : c = d => hs (h ▸ List.mem_cons_self)
      rw [expandLazy, literal, run_one, if_neg hc]
      exact ih fun h => hs (List.mem_cons_of_mem c h)
  rw [stripPrefix, hglob, run, hrun]

/-! ## The longest match -/

theorem longest_none {p s : Text} (h : ∀ m, fits p (s.take m) = false) : longest p s = none := by
  suffices hup : ∀ n, longestUpTo p s n = none from hup s.length
  intro n
  induction n with
  | zero => rw [longestUpTo, if_neg (by simpa using h 0)]
  | succ n ih => rw [longestUpTo, if_neg (by simp [h]), ih]

/-- The longest part at the front that fits. -/
theorem longest_eq {p u s : Text} (hu : u ≠ []) (hfits : fits p u = true)
    (h : ∀ t, t <+: s → t ≠ [] → fits p (u ++ t) = false) : longest p (u ++ s) = some u.length := by
  suffices hup : ∀ n ≤ s.length, longestUpTo p (u ++ s) (u.length + n) = some u.length by
    have hall := hup s.length le_rfl
    rwa [← List.length_append] at hall
  intro n
  induction n with
  | zero =>
    intro _
    obtain ⟨k, hk⟩ : ∃ k, u.length = k + 1 := Nat.exists_eq_succ_of_ne_zero (by simpa using hu)
    have htake : (u ++ s).take (k + 1) = u := by rw [← hk, List.take_left]
    rw [Nat.add_zero, hk, longestUpTo, htake, if_pos hfits]
  | succ n ih =>
    intro hn
    have htake : (u ++ s).take (u.length + n + 1) = u ++ s.take (n + 1) := by
      rw [Nat.add_assoc, List.take_length_add_append]
    have hne : s.take (n + 1) ≠ [] := by
      intro hnil
      have hlen := congrArg List.length hnil
      rw [List.length_take, List.length_nil] at hlen
      omega
    rw [← Nat.add_assoc, longestUpTo, htake, if_neg (by simp [h _ (List.take_prefix _ _) hne]), ih (by omega)]

/-- `${s/*d/}`: up to the last `d`. -/
theorem replaceOnce_upTo (hd : verbatimChar d = true) (u : Text) {s : Text} (hs : d ∉ s) :
    replaceOnce ['*', d] [] (u ++ d :: s) = s := by
  have hlong : longest ['*', d] (u ++ [d] ++ s) = some (u ++ [d]).length := by
    refine longest_eq (by simp) ((fits_upTo hd _).2 ⟨u, rfl⟩) fun t ht hne => ?_
    rw [Bool.eq_false_iff, ne_eq, fits_upTo hd]
    rintro ⟨x, hx⟩
    obtain ⟨t, c, rfl⟩ := List.eq_nil_or_concat t |>.resolve_left hne
    rw [List.concat_eq_append, ← List.append_assoc] at hx
    have hc : c = d := by simpa using (List.append_inj' hx rfl).2
    refine hs (ht.subset ?_)
    simp [hc]
  have hwhole : u ++ d :: s = u ++ [d] ++ s := by simp
  rw [hwhole]
  obtain ⟨c, x, hx⟩ : ∃ c x, u ++ [d] ++ s = c :: x := List.exists_cons_of_ne_nil (by simp)
  rw [hx] at hlong ⊢
  rw [replaceOnce, hlong, ← hx]
  simp

/-- `${s/d*e/}`, where the last character is the `e`. -/
theorem replaceOnce_within (hd : verbatimChar d = true) (he : verbatimChar e = true) {u : Text} (hu : d ∉ u)
    (s : Text) : replaceOnce [d, '*', e] [] (u ++ d :: (s ++ [e])) = u := by
  induction u with
  | nil =>
    have hlong : longest [d, '*', e] (d :: (s ++ [e])) = some (d :: (s ++ [e])).length := by
      have h := longest_eq (p := [d, '*', e]) (u := d :: (s ++ [e])) (s := []) (List.cons_ne_nil _ _)
        ((fits_within hd he _).2 ⟨s, rfl⟩) fun t ht hne => absurd (List.prefix_nil.1 ht) hne
      rwa [List.append_nil] at h
    rw [List.nil_append, replaceOnce, hlong]
    simp
  | cons c u ih =>
    have hlong : longest [d, '*', e] (c :: (u ++ d :: (s ++ [e]))) = none := by
      refine longest_none fun m => ?_
      rw [Bool.eq_false_iff, ne_eq, fits_within hd he]
      rintro ⟨t, ht⟩
      cases m with
      | zero => simp at ht
      | succ m =>
        rw [List.take_succ_cons, List.cons.injEq] at ht
        exact hu (ht.1 ▸ List.mem_cons_self)
    rw [List.cons_append, replaceOnce, hlong, ih fun h => hu (List.mem_cons_of_mem c h)]

end

end Shell
