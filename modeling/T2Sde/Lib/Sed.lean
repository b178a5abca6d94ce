import T2Sde.Lib.Grep
/-!
# `sed`: the pattern of an address, and `s`

A basic regular expression is looked for from the left, at the front of the line only if it begins with `^`. The text of
a replacement ends at the next delimiter without a backslash; in it `&` is what was matched. A backslash before a letter
or a digit is not followed.

* `Regex.find_plain` — a plain text is found where it stands first.
* `replaced_plain` — a replacement without `&` and backslash is itself.
* `untilDelimiter_append`, `untilDelimiter_plain` — it ends where it is meant to, if it has no delimiter and no newline.
-/
namespace Shell
open Pattern

/-- The items of a pattern behind its `^`, with its `$`; none if it is an error. -/
def regexUpTo : Nat → Text → Option (List Item)
  | 0, _ => some []
  | n + 1, t =>
    if t = [] then some []
    else if t = ['$'] then some [.atEnd]
    else
      match atom t with
      | none => none
      | some (p, t) =>
        let rep : Rep := if t.head? = some '*' then .star else .one
        (regexUpTo n (t.dropWhile (· == '*'))).map (.chr p rep :: ·)

structure Regex where
  /-- The pattern begins with `^`. -/
  front : Bool
  items : List Item

def regex (pattern : Text) : Option Regex :=
  if pattern.head? = some '^' then (regexUpTo pattern.length (pattern.drop 1)).map (⟨true, ·⟩)
  else (regexUpTo pattern.length pattern).map (⟨false, ·⟩)

/-- What is before the match, the match, and what is behind it. -/
def Regex.find (r : Regex) (s : Text) : Option (Text × Text × Text) :=
  if r.front then
    match run s r.items [] s with
    | .ok (_, rest) => some ([], s.take (s.length - rest.length), rest)
    | _ => none
  else
    match search s r.items s with
    | .ok hit =>
      some (s.take (s.length - hit.start.length), hit.start.take (hit.start.length - hit.rest.length), hit.rest)
    | _ => none

/-- The text of a replacement, and what is behind its end; a newline needs a backslash. -/
def untilDelimiter (d : Char) : Text → Option (Text × Text)
  | [] => none
  | '\\' :: c :: s =>
    (untilDelimiter d s).map fun x => (if c = '\n' ∨ c = d then c :: x.1 else '\\' :: c :: x.1, x.2)
  | c :: s =>
    if c = d then some ([], s)
    else if c = '\n' then none
    else (untilDelimiter d s).map fun x => (c :: x.1, x.2)

/-- What is put in the place of `hit`; none where a backslash makes something else of a character. -/
def replaced (hit : Text) : Text → Option Text
  | [] => some []
  | '\\' :: c :: t => if c.isAlphanum then none else (replaced hit t).map (c :: ·)
  | c :: t => if c = '&' then (replaced hit t).map (hit ++ ·) else (replaced hit t).map (c :: ·)

/-- `s/pattern/rep/` on a line; none if it is an error or not followed. -/
def substitute (pattern rep line : Text) : Option Text :=
  (regex pattern).bind fun r =>
    match r.find line with
    | none => some line
    | some (before, hit, behind) => (replaced hit rep).map fun t => before ++ t ++ behind

/-! ## Plain patterns -/

/-- What is before and behind the first place of a text. -/
def firstAt (w : Text) : Text → Option (Text × Text)
  | [] => if w = [] then some ([], []) else none
  | c :: s => if w <+: c :: s then some ([], (c :: s).drop w.length) else (firstAt w s).map fun x => (c :: x.1, x.2)

/-- No character of the pattern means anything else. -/
def PlainPattern (w : Text) : Prop := ∀ c ∈ w, special.contains c = false

instance (w : Text) : Decidable (PlainPattern w) := inferInstanceAs (Decidable (∀ c ∈ w, _))

theorem atom_of_plain {c : Char} (hc : special.contains c = false) (t : Text) : atom (c :: t) = some ((· == c), t) := by
  have hne : ∀ d, special.contains d = true → c ≠ d := by
    rintro d hd rfl
    exact absurd (hd.symm.trans hc) (by decide)
  have h₁ : c ≠ '[' := hne _ (by decide)
  have h₂ : c ≠ '\\' := hne _ (by decide)
  have h₃ : c ≠ '.' := hne _ (by decide)
  unfold atom
  split <;> simp_all

/-- A plain text in front of a pattern that does not repeat its last character. -/
theorem regexUpTo_append {w t : Text} (hw : PlainPattern w) (ht : t.head? ≠ some '*') (n : Nat) :
    regexUpTo (w.length + n) (w ++ t) = (regexUpTo n t).map (w.map literal ++ ·) := by
  induction w with
  | nil =>
    rw [List.length_nil, Nat.zero_add, List.nil_append, List.map_nil]
    cases regexUpTo n t <;> rfl
  | cons c w ih =>
    obtain ⟨hc, hw'⟩ := List.forall_mem_cons.1 hw
    have hstar : (w ++ t).head? ≠ some '*' := by
      cases w with
      | nil => exact ht
      | cons d w =>
        intro h
        have hd := hw' d List.mem_cons_self
        obtain rfl : d = '*' := by simpa using h
        revert hd
        decide
    have hdrop : (w ++ t).dropWhile (· == '*') = w ++ t := by
      cases h : w ++ t with
      | nil => rfl
      | cons d v =>
        rw [h] at hstar
        exact List.dropWhile_cons_of_neg (by simpa using hstar)
    have hdollar : c :: (w ++ t) ≠ ['$'] := by
      intro h
      obtain rfl : c = '$' := (List.cons.inj h).1
      revert hc
      decide
    have hn : (c :: w).length + n = (w.length + n) + 1 := by rw [List.length_cons]; omega
    rw [hn, List.cons_append, regexUpTo, if_neg (by simp), if_neg hdollar, atom_of_plain hc]
    simp only [if_neg hstar, hdrop, ih hw', Option.map_map, List.map_cons, literal]
    rfl

theorem regexUpTo_plain {w : Text} (hw : PlainPattern w) {n : Nat} (hn : w.length ≤ n) :
    regexUpTo n w = some (w.map literal) := by
  have h := regexUpTo_append hw (t := []) (by simp) (n - w.length)
  rw [Nat.add_sub_cancel' hn, List.append_nil] at h
  rw [h]
  cases n - w.length <;> simp [regexUpTo]

theorem regex_plain {w : Text} (hw : PlainPattern w) : regex w = some ⟨false, w.map literal⟩ := by
  have hfront : w.head? ≠ some '^' := by
    intro h
    have hc := hw '^' (List.mem_of_head? h)
    revert hc
    decide
  rw [regex, if_neg hfront, regexUpTo_plain hw le_rfl, Option.map_some]

theorem search_literal (src w s : Text) :
    search src (w.map literal) s =
      match firstAt w s with
      | some (_, behind) => .ok ⟨w ++ behind, [], behind⟩
      | none => .fail := by
  have hrun : ∀ s, run src (w.map literal) [] s = if w <+: s then .ok ([], s.drop w.length) else .fail := by
    intro s
    have h := @run_literal src [] [] w s
    rwa [List.append_nil] at h
  induction s with
  | nil =>
    rw [search, hrun, firstAt]
    by_cases hw : w = []
    · simp [hw, Res.map]
    · simp [hw, Res.map]
  | cons c s ih =>
    rw [search, hrun, firstAt]
    by_cases hp : w <+: c :: s
    · have hback : w ++ (c :: s).drop w.length = c :: s := (List.prefix_iff_eq_append.1 hp)
      rw [if_pos hp, if_pos hp]
      simp only [List.reverse_nil, hback]
    · rw [if_neg hp, if_neg hp]
      simp only [ih]
      cases firstAt w s <;> rfl

theorem firstAt_eq {w s before behind : Text} (h : firstAt w s = some (before, behind)) :
    s = before ++ w ++ behind := by
  induction s generalizing before with
  | nil =>
    rw [firstAt] at h
    split at h
    next hw => obtain ⟨rfl, rfl⟩ := Prod.mk.inj (Option.some.inj h); simp [hw]
    · cases h
  | cons c s ih =>
    rw [firstAt] at h
    split at h
    next hp =>
      obtain ⟨rfl, rfl⟩ := Prod.mk.inj (Option.some.inj h)
      exact (List.prefix_iff_eq_append.1 hp).symm
    · obtain ⟨x, hx, h⟩ := Option.map_eq_some_iff.1 h
      obtain ⟨rfl, rfl⟩ := Prod.mk.inj h
      rw [List.cons_append, List.cons_append, ← ih hx]

/-- **A plain pattern** is found where it stands first. -/
theorem Regex.find_plain (w s : Text) :
    Regex.find ⟨false, w.map literal⟩ s = (firstAt w s).map fun x => (x.1, w, x.2) := by
  rw [Regex.find, if_neg (by simp), search_literal]
  cases h : firstAt w s with
  | none => rfl
  | some x =>
    obtain ⟨before, behind⟩ := x
    have hs := firstAt_eq h
    have hlen : s.length - (w ++ behind).length = before.length := by
      rw [hs]
      simp only [List.length_append]
      omega
    simp only [hlen, Option.map_some, Option.some.injEq, Prod.mk.injEq, and_true]
    refine ⟨by rw [hs, List.append_assoc, List.take_left], ?_⟩
    rw [List.length_append, Nat.add_sub_cancel, List.take_left]

theorem firstAt_isSome {w s : Text} : (firstAt w s).isSome = true ↔ w <:+: s := by
  induction s with
  | nil =>
    rw [firstAt]
    by_cases hw : w = [] <;> simp [hw]
  | cons c s ih =>
    rw [firstAt, List.infix_cons_iff, ← ih]
    by_cases hp : w <+: c :: s <;> simp [hp]

/-! ## Plain replacements -/

theorem replaced_plain {t : Text} (h : '&' ∉ t) (hb : '\\' ∉ t) (hit : Text) : replaced hit t = some t := by
  induction t with
  | nil => rfl
  | cons c t ih =>
    rw [List.mem_cons, not_or] at h hb
    have hc : replaced hit (c :: t) = (replaced hit t).map (c :: ·) := by
      cases t <;> simp [replaced, Ne.symm h.1, Ne.symm hb.1]
    rw [hc, ih h.2 hb.2, Option.map_some]

theorem untilDelimiter_append {d : Char} {u : Text} (h : d ∉ u) (hn : '\n' ∉ u) (hb : '\\' ∉ u) (s : Text) :
    untilDelimiter d (u ++ s) = (untilDelimiter d s).map fun x => (u ++ x.1, x.2) := by
  induction u with
  | nil => simp
  | cons c u ih =>
    rw [List.mem_cons, not_or] at h hn hb
    have hc : ∀ v, untilDelimiter d (c :: v) = (untilDelimiter d v).map fun x => (c :: x.1, x.2) := by
      intro v
      cases v <;> simp [untilDelimiter, Ne.symm h.1, Ne.symm hn.1, Ne.symm hb.1]
    rw [List.cons_append, hc, ih h.2 hn.2 hb.2, Option.map_map]
    rfl

theorem untilDelimiter_cons {d : Char} (hd : d ≠ '\\') (s : Text) : untilDelimiter d (d :: s) = some ([], s) := by
  cases s <;> simp [untilDelimiter, hd]

theorem untilDelimiter_newline {d : Char} (hd : d ≠ '\n') (s : Text) : untilDelimiter d ('\n' :: s) = none := by
  cases s <;> simp [untilDelimiter, Ne.symm hd]

/-- A text without backslash ends at the first delimiter. -/
theorem untilDelimiter_plain {d : Char} (hd : d ≠ '\\') {t : Text} (h : d ∉ t) (hn : '\n' ∉ t) (hb : '\\' ∉ t)
    (s : Text) : untilDelimiter d (t ++ d :: s) = some (t, s) := by
  rw [untilDelimiter_append h hn hb, untilDelimiter_cons hd, Option.map_some, List.append_nil]

/-! ## Line by line -/

/-- A command that goes through on every line. -/
theorem mapM_some {α β : Type} {f : α → Option β} {g : α → β} {ls : List α} (h : ∀ l ∈ ls, f l = some (g l)) :
    ls.mapM f = some (ls.map g) := by
  induction ls with
  | nil => rfl
  | cons l ls ih =>
    obtain ⟨hl, h⟩ := List.forall_mem_cons.1 h
    rw [List.mapM_cons, hl, ih h]
    rfl

/-- A plain text at the front of the line. -/
theorem substitute_front {w rep : Text} (hw : PlainPattern w) (ha : '&' ∉ rep) (hb : '\\' ∉ rep) (s : Text) :
    substitute ('^' :: w) rep s = some (if w <+: s then rep ++ s.drop w.length else s) := by
  have hregex : regex ('^' :: w) = some ⟨true, w.map literal⟩ := by
    rw [regex, List.head?_cons, if_pos rfl, List.drop_one, List.tail_cons, regexUpTo_plain hw (by simp),
      Option.map_some]
  have hrun : run s (w.map literal) [] s = if w <+: s then .ok ([], s.drop w.length) else .fail := by
    have h := @run_literal s [] [] w s
    rwa [List.append_nil] at h
  rw [substitute, hregex, Option.bind_some, Regex.find, if_pos rfl]
  simp only [hrun]
  by_cases hp : w <+: s
  · simp [hp, replaced_plain ha hb]
  · simp [hp]

theorem regexUpTo_line {w : Text} (hw : PlainPattern w) {n : Nat} (hn : w.length + 2 ≤ n) :
    regexUpTo n (w ++ ".*".toList) = some (w.map literal ++ [.chr (fun _ => true) .star]) := by
  obtain ⟨k, rfl⟩ : ∃ k, n = w.length + (k + 2) := ⟨n - (w.length + 2), by omega⟩
  rw [regexUpTo_append hw (by decide)]
  rfl

/-- `^w.*` is the whole line, if it begins with `w`. -/
theorem substitute_line {w : Text} (hw : PlainPattern w) (rep line : Text) :
    substitute ('^' :: w ++ ".*".toList) rep line = if w <+: line then replaced line rep else some line := by
  have hregex : regex ('^' :: w ++ ".*".toList) = some ⟨true, w.map literal ++ [.chr (fun _ => true) .star]⟩ := by
    rw [regex, List.cons_append, List.head?_cons, if_pos rfl, List.drop_one, List.tail_cons,
      regexUpTo_line hw (by simp), Option.map_some]
  have hrun : run line (w.map literal ++ [.chr (fun _ => true) .star]) [] line =
      if w <+: line then .ok ([], []) else .fail := by
    rw [run_literal]
    split
    · rw [run_last, List.dropWhile_eq_nil_iff.2 fun _ _ => rfl]
    · rfl
  rw [substitute, hregex, Option.bind_some, Regex.find, if_pos rfl]
  simp only [hrun]
  by_cases hp : w <+: line
  · simp [hp]
  · simp [hp]

/-- A replacement without backslash. -/
theorem replaced_amp {t : Text} (hb : '\\' ∉ t) (hit : Text) :
    replaced hit t = some (t.flatMap fun c => if c = '&' then hit else [c]) := by
  induction t with
  | nil => rfl
  | cons c t ih =>
    rw [List.mem_cons, not_or] at hb
    have hc : replaced hit (c :: t) =
        if c = '&' then (replaced hit t).map (hit ++ ·) else (replaced hit t).map (c :: ·) := by
      cases t <;> simp [replaced, Ne.symm hb.1]
    rw [hc, ih hb.2, List.flatMap_cons]
    split <;> rfl

/-! ## Anywhere in the line -/

/-- A pattern that is no error is found, if it matches somewhere. -/
theorem search_finds {src : Text} {is : List Item} (herr : ∀ t, run src is [] t ≠ .error) {t : Text} {a : State}
    (h : run src is [] t = .ok a) (u : Text) : ∃ hit, search src is (u ++ t) = .ok hit := by
  induction u with
  | nil => exact ⟨_, search_of_run h⟩
  | cons c u ih =>
    rw [List.cons_append, search]
    cases hr : run src is [] (c :: (u ++ t)) with
    | fail => exact ih
    | error => exact absurd hr (herr _)
    | ok x => exact ⟨_, rfl⟩

/-- What is behind the last place of a text. -/
def behindLast (w : Text) : Text → Option Text
  | [] => if w = [] then some [] else none
  | c :: s =>
    match behindLast w s with
    | some t => some t
    | none => if w <+: c :: s then some ((c :: s).drop w.length) else none

theorem run_behindLast (src w s : Text) :
    run src (.chr (fun _ => true) .star :: w.map literal) [] s =
      match behindLast w s with
      | some t => .ok ([], t)
      | none => .fail := by
  have hrun : ∀ t, run src (w.map literal) [] t = if w <+: t then .ok ([], t.drop w.length) else .fail := by
    intro t
    have h := @run_literal src [] [] w t
    rwa [List.append_nil] at h
  rw [run_star]
  induction s with
  | nil =>
    rw [expand, hrun, behindLast]
    by_cases hw : w = [] <;> simp [hw]
  | cons c s ih =>
    rw [expand, if_pos rfl, ih, hrun, behindLast]
    cases behindLast w s with
    | some t => rfl
    | none => by_cases hp : w <+: c :: s <;> simp [hp]

/-- **All up to the last place of a text** is taken away. -/
theorem substitute_behindLast {w : Text} (hw : PlainPattern w) (line : Text) :
    substitute (".*".toList ++ w) [] line = some ((behindLast w line).getD line) := by
  have hdrop : w.dropWhile (· == '*') = w := by
    cases w with
    | nil => rfl
    | cons d v =>
      refine List.dropWhile_cons_of_neg ?_
      intro h
      have hd := hw d List.mem_cons_self
      obtain rfl : d = '*' := by simpa using h
      revert hd
      decide
  have hregex : regex (".*".toList ++ w) = some ⟨false, .chr (fun _ => true) .star :: w.map literal⟩ := by
    have hfront : (".*".toList ++ w).head? ≠ some '^' := by simp
    have hlen : (".*".toList ++ w).length = (w.length + 1) + 1 := by simp
    rw [regex, if_neg hfront, hlen]
    change Option.map _ (Option.map _ (regexUpTo (w.length + 1) (('*' :: w).dropWhile (· == '*')))) = _
    rw [List.dropWhile_cons_of_pos (by simp), hdrop, regexUpTo_plain hw (Nat.le_succ _)]
    rfl
  rw [substitute, hregex, Option.bind_some, Regex.find, if_neg (by simp)]
  cases h : behindLast w line with
  | some t =>
    have hhit := search_of_run ((run_behindLast line w line).trans (by rw [h]))
    simp [hhit, replaced]
  | none =>
    have hnone : ∀ s, behindLast w s = none →
        search line (.chr (fun _ => true) .star :: w.map literal) s = .fail := by
      intro s hs
      induction s with
      | nil =>
        rw [search, run_behindLast, hs]
        rfl
      | cons c s ih =>
        rw [search, run_behindLast, hs]
        refine ih ?_
        rw [behindLast] at hs
        split at hs
        · cases hs
        next hs' => exact hs'
    simp [hnone line h]

example : ((regex "^b*.$".toList).bind (·.find "bbx".toList)) = some ([], "bbx".toList, []) := by decide

end Shell
