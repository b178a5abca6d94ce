import T2Sde.Lib.Lua
/-!
# Shell patterns

The patterns of `${s#pattern}`, `${s%pattern}` and `${s//pattern/rep}` in the C locale: `*`, `?`, `[…]`, a backslash.

* `stripPrefix_literal` — a pattern without `*`, `[` and backslash takes itself off.
* `stripPrefix_verbatim`, `stripSuffix_append` — a plain pattern is looked for as a text.
* `replaceAll_match`, `replaceAll_skip` — how `//` goes through a text for a plain pattern.
-/
namespace Shell
open Pattern

/-- What stands between brackets. -/
inductive Elem
  | char (c : Char)
  | range (a b : Char)
  | named (name : Text)
  deriving DecidableEq, Repr

/-- `[:name:]` -/
def namedClass (name : Text) (c : Char) : Bool :=
  if name = "alpha".toList then Lua.isLower c || Lua.isUpper c
  else if name = "digit".toList then Lua.isDigit c
  else if name = "alnum".toList then Lua.isAlnum c
  else if name = "upper".toList then Lua.isUpper c
  else if name = "lower".toList then Lua.isLower c
  else if name = "space".toList then Lua.isSpace c
  else if name = "blank".toList then c == ' ' || c == '\t'
  else if name = "punct".toList then Lua.isGraph c && !Lua.isAlnum c
  else if name = "graph".toList then Lua.isGraph c
  else if name = "print".toList then Lua.isGraph c || c == ' '
  else if name = "cntrl".toList then c.toNat < 32 || c.toNat == 127
  else if name = "xdigit".toList then Lua.isDigit c || Lua.between 'a' 'f' c || Lua.between 'A' 'F' c
  else false

def Elem.test : Elem → Char → Bool
  | .char a, c => c == a
  | .range a b, c => Lua.between a b c
  | .named name, c => namedClass name c

/-- The elements up to the `]`, and the text behind; a `]` at the front does not end them. -/
def bracketElems : Nat → Bool → Text → Option (List Elem × Text)
  | 0, _, _ => none
  | _, _, [] => none
  | _ + 1, false, ']' :: t => some ([], t)
  | n + 1, _, '[' :: ':' :: t =>
    match t.dropWhile Lua.isLower with
    | ':' :: ']' :: t' => (bracketElems n false t').map fun x => (.named (t.takeWhile Lua.isLower) :: x.1, x.2)
    | _ => (bracketElems n false (':' :: t)).map fun x => (.char '[' :: x.1, x.2)
  | n + 1, _, '\\' :: c :: t => (bracketElems n false t).map fun x => (.char c :: x.1, x.2)
  | n + 1, _, a :: '-' :: b :: t =>
    if b = ']' then (bracketElems n false ('-' :: b :: t)).map fun x => (.char a :: x.1, x.2)
    else (bracketElems n false t).map fun x => (.range a b :: x.1, x.2)
  | n + 1, _, a :: t => (bracketElems n false t).map fun x => (.char a :: x.1, x.2)

/-- A bracket, from the text behind its `[`. -/
def bracket (t : Text) : Option ((Char → Bool) × Text) :=
  match t with
  | '!' :: t | '^' :: t => (bracketElems t.length true t).map fun x => (fun c => !x.1.any (·.test c), x.2)
  | t => (bracketElems t.length true t).map fun x => (fun c => x.1.any (·.test c), x.2)

def literal (c : Char) : Item := .chr (· == c) .one

/-- The first `n` items of a pattern. -/
def globUpTo : Nat → Text → List Item
  | 0, _ => []
  | _, [] => []
  | n + 1, '*' :: t => .chr (fun _ => true) .lazy :: globUpTo n t
  | n + 1, '?' :: t => .chr (fun _ => true) .one :: globUpTo n t
  | n + 1, '\\' :: c :: t => literal c :: globUpTo n t
  | n + 1, '[' :: t =>
    match bracket t with
    | some (p, t) => .chr p .one :: globUpTo n t
    | none => literal '[' :: globUpTo n t
  | n + 1, c :: t => literal c :: globUpTo n t

def glob (pattern : Text) : List Item := globUpTo pattern.length pattern

/-- `${s#pattern}` -/
def stripPrefix (pattern s : Text) : Text :=
  match run s (glob pattern) [] s with
  | .ok (_, rest) => rest
  | _ => s

/-- The pattern is the pattern of the whole text. -/
def fits (pattern s : Text) : Bool :=
  match run s (glob pattern ++ [.atEnd]) [] s with
  | .ok _ => true
  | _ => false

/-- What is left in front of the shortest end that fits. -/
def beforeEnd (pattern : Text) : Text → Option Text
  | [] => if fits pattern [] then some [] else none
  | c :: s =>
    match beforeEnd pattern s with
    | some t => some (c :: t)
    | none => if fits pattern (c :: s) then some [] else none

/-- `${s%pattern}` -/
def stripSuffix (pattern s : Text) : Text := (beforeEnd pattern s).getD s

/-- The length of the longest match at the front, up to `n`. -/
def longestUpTo (pattern s : Text) : Nat → Option Nat
  | 0 => if fits pattern [] then some 0 else none
  | n + 1 => if fits pattern (s.take (n + 1)) then some (n + 1) else longestUpTo pattern s n

def longest (pattern s : Text) : Option Nat := longestUpTo pattern s s.length

/-- Behind an empty match one character is passed. -/
def replaceUpTo (pattern rep : Text) : Nat → Text → Text
  | 0, s => s
  | _, [] => []
  | n + 1, c :: s =>
    match longest pattern (c :: s) with
    | none => c :: replaceUpTo pattern rep n s
    | some 0 => rep ++ c :: replaceUpTo pattern rep n s
    | some (m + 1) => rep ++ replaceUpTo pattern rep n (s.drop m)

/-- `${s//pattern/rep}` -/
def replaceAll (pattern rep s : Text) : Text := replaceUpTo pattern rep s.length s

/-- `${s/pattern/rep}`; a pattern that fits the empty text is found at the first character. -/
def replaceOnce (pattern rep : Text) : Text → Text
  | [] => []
  | c :: s =>
    match longest pattern (c :: s) with
    | some n => rep ++ (c :: s).drop n
    | none => c :: replaceOnce pattern rep s

theorem run_globUpTo_literal {w : Text} (hw : ∀ c ∈ w, c ≠ '*' ∧ c ≠ '[' ∧ c ≠ '\\') {src : Text} {caps : List Cap}
    {n : Nat} (hn : w.length ≤ n) (rest : Text) : run src (globUpTo n w) caps (w ++ rest) = .ok (caps, rest) := by
  induction n generalizing w with
  | zero =>
    obtain rfl : w = [] := List.eq_nil_of_length_eq_zero (by omega)
    rfl
  | succ n ih =>
    cases w with
    | nil => rfl
    | cons c w =>
      obtain ⟨⟨h1, h2, h3⟩, hw⟩ := List.forall_mem_cons.1 hw
      have ih := ih hw (by simpa using hn)
      by_cases hq : c = '?'
      · subst hq
        rw [globUpTo, List.cons_append, run_one, if_pos rfl, ih]
      · have hitem : globUpTo (n + 1) (c :: w) = literal c :: globUpTo n w := by
          cases w with
          | nil => simp_all [globUpTo]
          | cons d w => simp_all [globUpTo]
        rw [hitem, List.cons_append, literal, run_one, if_pos (by simp), ih]

/-- A pattern without `*`, `[` and backslash takes itself off. -/
theorem stripPrefix_literal {w : Text} (hw : ∀ c ∈ w, c ≠ '*' ∧ c ≠ '[' ∧ c ≠ '\\') (rest : Text) :
    stripPrefix w (w ++ rest) = rest := by
  rw [stripPrefix, glob, run_globUpTo_literal hw le_rfl]

theorem stripPrefix_suffix (pattern s : Text) : stripPrefix pattern s <:+ s := by
  unfold stripPrefix
  split
  next h => exact run_suffix h
  · exact List.suffix_refl s

/-! ## Plain patterns -/

/-- A character that stands for itself. -/
def verbatimChar (c : Char) : Bool := c != '*' && c != '?' && c != '[' && c != '\\'

def Verbatim (w : Text) : Prop := ∀ c ∈ w, verbatimChar c = true

theorem verbatim_append {u v : Text} : Verbatim (u ++ v) ↔ Verbatim u ∧ Verbatim v := by
  simp [Verbatim, or_imp, forall_and]

theorem verbatim_cons {c : Char} {w : Text} : Verbatim (c :: w) ↔ verbatimChar c = true ∧ Verbatim w :=
  List.forall_mem_cons

variable {w : Text}

theorem glob_verbatim (hw : Verbatim w) : glob w = w.map literal := by
  suffices h : ∀ n, w.length ≤ n → globUpTo n w = w.map literal from h _ le_rfl
  intro n hn
  induction n generalizing w with
  | zero => simp [List.eq_nil_of_length_eq_zero (Nat.le_zero.1 hn), globUpTo]
  | succ n ih =>
    cases w with
    | nil => rfl
    | cons c w =>
      obtain ⟨hc, hw⟩ := verbatim_cons.1 hw
      have hc : ((c ≠ '*' ∧ c ≠ '?') ∧ c ≠ '[') ∧ c ≠ '\\' := by simpa [verbatimChar] using hc
      have ih := ih hw (by simpa using hn)
      cases w with
      | nil => simp_all [globUpTo]
      | cons d w => simp_all [globUpTo]

theorem run_literal {src : Text} {is : List Item} {caps : List Cap} (w s : Text) :
    run src (w.map literal ++ is) caps s = if w <+: s then run src is caps (s.drop w.length) else .fail := by
  induction w generalizing s with
  | nil => simp
  | cons c w ih =>
    rw [List.map_cons, List.cons_append, literal]
    cases s with
    | nil => simp
    | cons d s =>
      rw [run_one, ih, List.length_cons, List.drop_succ_cons]
      by_cases hcd : c = d
      · simp [hcd]
      · rw [if_neg (by simpa using Ne.symm hcd), if_neg (fun h => hcd (List.cons_prefix_cons.1 h).1)]

theorem fits_of_glob {pattern : Text} (hg : glob pattern = w.map literal) (s : Text) :
    fits pattern s = true ↔ s = w := by
  rw [fits, hg, run_literal]
  by_cases h : w <+: s
  · obtain ⟨t, rfl⟩ := h
    rw [if_pos (List.prefix_append w t), List.drop_left]
    cases t <;> simp [run]
  · rw [if_neg h]
    simp only [Bool.false_eq_true, false_iff]
    rintro rfl
    exact h (List.prefix_refl s)

theorem fits_verbatim (hw : Verbatim w) (s : Text) : fits w s = true ↔ s = w := fits_of_glob (glob_verbatim hw) s

/-- A plain pattern comes off the front where it stands there. -/
theorem stripPrefix_verbatim (hw : Verbatim w) (s : Text) :
    stripPrefix w s = if w <+: s then s.drop w.length else s := by
  have h := @run_literal s [] [] w s
  rw [List.append_nil] at h
  rw [stripPrefix, glob_verbatim hw, h]
  by_cases hp : w <+: s <;> simp [hp]

theorem beforeEnd_verbatim (hw : Verbatim w) (s : Text) {t : Text} : beforeEnd w s = some t ↔ s = t ++ w := by
  induction s generalizing t with
  | nil =>
    rw [beforeEnd]
    by_cases h : w = []
    · subst h
      rw [if_pos ((fits_verbatim hw []).2 rfl)]
      simp [eq_comm]
    · rw [if_neg (fun hf => h ((fits_verbatim hw []).1 hf).symm)]
      simp [h]
  | cons c s ih =>
    rw [beforeEnd]
    cases hb : beforeEnd w s with
    | some r =>
      obtain rfl := ih.1 hb
      constructor
      · rintro ⟨⟩
        rfl
      · intro h
        exact congrArg some (List.append_cancel_right h)
    | none =>
      have hno : ∀ r, s ≠ r ++ w := fun r hr => by simp [ih.2 hr] at hb
      cases t with
      | nil => simpa using fits_verbatim hw (c :: s)
      | cons d t =>
        constructor
        · intro h
          simp at h
        · intro h
          exact absurd (List.cons.inj h).2 (hno t)

/-- `${s#*d}`: up to the first `d`. -/
theorem stripPrefix_upTo {d : Char} (hd : verbatimChar d = true) {u : Text} (hu : d ∉ u) (s : Text) :
    stripPrefix ['*', d] (u ++ d :: s) = s := by
  have hglob : glob ['*', d] = [.chr (fun _ => true) .lazy, literal d] := by
    have hd : ((d ≠ '*' ∧ d ≠ '?') ∧ d ≠ '[') ∧ d ≠ '\\' := by simpa [verbatimChar] using hd
    simp_all [glob, globUpTo]
  have hrun : ∀ src, expandLazy (fun _ => true) (run src [literal d] []) (u ++ d :: s) = .ok ([], s) := by
    intro src
    induction u with
    | nil => rw [List.nil_append, expandLazy, literal, run_one, if_pos (by simp), run]
    | cons c u ih =>
      have hc : ¬ (c == d) = true := by simpa using fun h : c = d => hu (h ▸ List.mem_cons_self)
      rw [List.cons_append, expandLazy, literal, run_one, if_neg hc]
      exact ih fun h => hu (List.mem_cons_of_mem c h)
  rw [stripPrefix, hglob, run, hrun]

/-- A plain pattern comes off the end where it stands there. -/
theorem stripSuffix_append (hw : Verbatim w) (t : Text) : stripSuffix w (t ++ w) = t := by
  rw [stripSuffix, (beforeEnd_verbatim hw _).2 rfl, Option.getD_some]

theorem stripSuffix_of_not (hw : Verbatim w) {s : Text} (h : ¬ w <:+ s) : stripSuffix w s = s := by
  rw [stripSuffix]
  cases hb : beforeEnd w s with
  | none => rfl
  | some t => exact absurd ⟨t, ((beforeEnd_verbatim hw s).1 hb).symm⟩ h

theorem longestUpTo_verbatim (hw : Verbatim w) (s : Text) (n : Nat) (hn : n ≤ s.length) :
    longestUpTo w s n = if w <+: s ∧ w.length ≤ n then some w.length else none := by
  induction n with
  | zero =>
    rw [longestUpTo]
    by_cases h : w = []
    · subst h
      simp [(fits_verbatim hw []).2]
    · rw [if_neg (fun hf => h ((fits_verbatim hw []).1 hf).symm), if_neg]
      rintro ⟨-, hl⟩
      exact h (List.eq_nil_of_length_eq_zero (Nat.le_zero.1 hl))
  | succ n ih =>
    rw [longestUpTo, ih (by omega)]
    by_cases hf : s.take (n + 1) = w
    · have hlen : w.length = n + 1 := by rw [← hf, List.length_take]; omega
      rw [if_pos ((fits_verbatim hw _).2 hf), if_pos ⟨hf ▸ List.take_prefix _ _, hlen.le⟩, hlen]
    · rw [if_neg (fun h => hf ((fits_verbatim hw _).1 h))]
      have hiff : (w <+: s ∧ w.length ≤ n) ↔ (w <+: s ∧ w.length ≤ n + 1) := by
        refine ⟨fun h => ⟨h.1, by omega⟩, fun h => ⟨h.1, ?_⟩⟩
        by_contra hlt
        have hlen : w.length = n + 1 := by omega
        exact hf (by rw [← hlen]; exact (List.prefix_iff_eq_take.1 h.1).symm)
      simp only [hiff]

theorem longest_verbatim (hw : Verbatim w) (s : Text) : longest w s = if w <+: s then some w.length else none := by
  rw [longest, longestUpTo_verbatim hw s _ le_rfl]
  by_cases h : w <+: s
  · rw [if_pos ⟨h, h.length_le⟩, if_pos h]
  · rw [if_neg (fun h' => h h'.1), if_neg h]

variable {rep : Text}

theorem replaceUpTo_le (hw : Verbatim w) {s : Text} {n : Nat} (hn : s.length ≤ n) :
    replaceUpTo w rep n s = replaceAll w rep s := by
  suffices h : ∀ n m, s.length ≤ n → s.length ≤ m → replaceUpTo w rep n s = replaceUpTo w rep m s from
    h _ _ hn le_rfl
  clear hn n
  intro n m hn hm
  induction n generalizing m s with
  | zero =>
    obtain rfl := List.eq_nil_of_length_eq_zero (Nat.le_zero.1 hn)
    cases m <;> rfl
  | succ n ih =>
    cases s with
    | nil => cases m <;> rfl
    | cons c s =>
      obtain ⟨m, rfl⟩ : ∃ k, m = k + 1 := ⟨m - 1, by simp at hm; omega⟩
      rw [List.length_cons] at hn hm
      rw [replaceUpTo, replaceUpTo, longest_verbatim hw]
      have hs := ih (s := s) m (by omega) (by omega)
      have hdrop : ∀ k, replaceUpTo w rep n (s.drop k) = replaceUpTo w rep m (s.drop k) := fun k =>
        ih m (by rw [List.length_drop]; omega) (by rw [List.length_drop]; omega)
      simp only [hs, hdrop]

/-- Where the pattern stands, `//` puts the new text and goes on behind it. -/
theorem replaceAll_match (hw : Verbatim w) (hne : w ≠ []) (s : Text) :
    replaceAll w rep (w ++ s) = rep ++ replaceAll w rep s := by
  obtain ⟨c, v, rfl⟩ := List.exists_cons_of_ne_nil hne
  rw [replaceAll, List.cons_append, List.length_cons, replaceUpTo, longest_verbatim hw,
    if_pos (by rw [← List.cons_append]; exact List.prefix_append _ _), List.length_cons]
  simp only [List.drop_left]
  rw [replaceUpTo_le hw (by rw [List.length_append]; omega)]

/-- Where no match starts, `//` goes on. -/
theorem replaceAll_skip (hw : Verbatim w) {u s : Text} (h : ∀ t, t <:+ u → t ≠ [] → ¬ w <+: t ++ s) :
    replaceAll w rep (u ++ s) = u ++ replaceAll w rep s := by
  induction u with
  | nil => rfl
  | cons c u ih =>
    rw [List.cons_append, replaceAll, List.length_cons, replaceUpTo, longest_verbatim hw,
      if_neg (by simpa using h (c :: u) (List.suffix_refl _) (by simp))]
    simp only [replaceUpTo_le hw le_rfl, ih fun t ht => h t (ht.trans (List.suffix_cons c u)), List.cons_append]

theorem replaceOnce_verbatim (hw : Verbatim w) (rep : Text) (c : Char) (s : Text) :
    replaceOnce w rep (c :: s) =
      if w <+: c :: s then rep ++ (c :: s).drop w.length else c :: replaceOnce w rep s := by
  rw [replaceOnce, longest_verbatim hw]
  by_cases h : w <+: c :: s
  · rw [if_pos h, if_pos h]
  · rw [if_neg h, if_neg h]

/-- What is taken out and is not there leaves the text as it is. -/
theorem replaceOnce_eq_self_iff (hw : Verbatim w) (hne : w ≠ []) {s : Text} :
    replaceOnce w [] s = s ↔ ¬ w <:+: s := by
  induction s with
  | nil => simp [replaceOnce, hne]
  | cons c s ih =>
    rw [replaceOnce_verbatim hw, List.infix_cons_iff, not_or]
    split
    next h =>
      refine iff_of_false (fun heq => ?_) fun hno => hno.1 h
      have hlen := congrArg List.length heq
      rw [List.nil_append, List.length_drop, List.length_cons] at hlen
      have hpos := List.length_pos_of_ne_nil hne
      omega
    next h =>
      rw [List.cons_inj_right, ih]
      exact ⟨fun hno => ⟨h, hno⟩, fun hno => hno.2⟩

/-- `//` of a single character. -/
theorem replaceAll_char {c : Char} (hc : verbatimChar c = true) (s : Text) :
    replaceAll [c] rep s = s.flatMap fun d => if d = c then rep else [d] := by
  have hw : Verbatim [c] := verbatim_cons.2 ⟨hc, fun _ h => by simp at h⟩
  induction s with
  | nil => rfl
  | cons d s ih =>
    rw [List.flatMap_cons, ← ih]
    by_cases hd : d = c
    · rw [if_pos hd, hd]
      exact replaceAll_match hw (by simp) s
    · rw [if_neg hd]
      refine replaceAll_skip hw (u := [d]) fun t ht hne => ?_
      obtain rfl := (List.suffix_cons_iff.1 ht).resolve_right (by simpa using hne)
      simpa using Ne.symm hd

/-- Where nothing fits, nothing is replaced. -/
theorem replaceAll_of_not_fits {pattern s : Text} (h : ∀ t, t <:+: s → fits pattern t = false) :
    replaceAll pattern rep s = s := by
  have hlong : ∀ t n, t <:+: s → longestUpTo pattern t n = none := by
    intro t n ht
    induction n with
    | zero => rw [longestUpTo, h [] List.nil_infix]; rfl
    | succ n ih => rw [longestUpTo, h _ ((List.take_prefix _ _).isInfix.trans ht), ih]; rfl
  suffices hr : ∀ n t, t <:+: s → replaceUpTo pattern rep n t = t from hr _ _ (List.infix_refl s)
  intro n t ht
  induction n generalizing t with
  | zero => rfl
  | succ n ih =>
    cases t with
    | nil => rfl
    | cons c t =>
      rw [replaceUpTo, longest, hlong _ _ ht, ih t ((List.suffix_cons c t).isInfix.trans ht)]

theorem mem_replaceAll {pattern s : Text} {c : Char} (h : c ∈ replaceAll pattern rep s) : c ∈ s ∨ c ∈ rep := by
  suffices hup : ∀ n s, c ∈ replaceUpTo pattern rep n s → c ∈ s ∨ c ∈ rep from hup _ _ h
  intro n
  induction n with
  | zero => exact fun s h => .inl h
  | succ n ih =>
    rintro (_ | ⟨d, s⟩) h
    · exact .inl h
    · rw [replaceUpTo] at h
      split at h
      · rcases List.mem_cons.1 h with rfl | h
        · exact .inl List.mem_cons_self
        · exact (ih s h).imp_left (List.mem_cons_of_mem _)
      · rcases List.mem_append.1 h with h | h
        · exact .inr h
        · rcases List.mem_cons.1 h with rfl | h
          · exact .inl List.mem_cons_self
          · exact (ih s h).imp_left (List.mem_cons_of_mem _)
      · rcases List.mem_append.1 h with h | h
        · exact .inr h
        · exact (ih _ h).imp_left fun h => List.mem_cons_of_mem _ (List.mem_of_mem_drop h)

theorem replaceAll_ne_nil {pattern s : Text} (hs : s ≠ []) (hrep : rep ≠ []) : replaceAll pattern rep s ≠ [] := by
  obtain ⟨c, s, rfl⟩ := List.exists_cons_of_ne_nil hs
  rw [replaceAll, List.length_cons, replaceUpTo]
  split <;> simp [hrep]

theorem globUpTo_verbatim (hw : Verbatim w) (n : Nat) (t : Text) :
    globUpTo (w.length + n) (w ++ t) = w.map literal ++ globUpTo n t := by
  induction w with
  | nil => rw [List.length_nil, Nat.zero_add, List.nil_append, List.map_nil, List.nil_append]
  | cons c w ih =>
    obtain ⟨hc, hw⟩ := verbatim_cons.1 hw
    have hc : ((c ≠ '*' ∧ c ≠ '?') ∧ c ≠ '[') ∧ c ≠ '\\' := by simpa [verbatimChar] using hc
    have hn : (c :: w).length + n = (w.length + n) + 1 := by rw [List.length_cons]; omega
    have ih := ih hw
    rw [hn, List.cons_append, List.map_cons, List.cons_append, ← ih]
    cases h : w ++ t with
    | nil => simp_all [globUpTo]
    | cons d v => simp_all [globUpTo]

theorem run_anything (src : Text) (caps : List Cap) (s : Text) :
    run src [.chr (fun _ => true) .lazy, .atEnd] caps s = .ok (caps, []) := by
  change expandLazy _ (run src [.atEnd] caps) s = _
  induction s with
  | nil => rfl
  | cons c s ih =>
    have hfail : run src [.atEnd] caps (c :: s) = .fail := rfl
    rw [expandLazy, hfail]
    exact ih

theorem expandLazy_literal {α : Type} {k : Text → Res α} {a : α} (hk : ∀ t, k t = if w <+: t then .ok a else .fail)
    (s : Text) : expandLazy (fun _ => true) k s = if w <:+: s then .ok a else .fail := by
  induction s with
  | nil => simp [expandLazy, hk]
  | cons c s ih =>
    rw [expandLazy, hk, ih]
    by_cases hp : w <+: c :: s
    · rw [if_pos hp, if_pos hp.isInfix]
    · simp [hp, List.infix_cons_iff]

/-- `*w*` fits what has `w` in it. -/
theorem fits_around (hw : Verbatim w) (s : Text) : fits ('*' :: w ++ ['*']) s = true ↔ w <:+: s := by
  have hglob : glob ('*' :: w ++ ['*']) =
      .chr (fun _ => true) .lazy :: (w.map literal ++ [.chr (fun _ => true) .lazy]) := by
    have h := globUpTo_verbatim hw 1 ['*']
    rw [glob, List.cons_append, List.length_cons, List.length_append, List.length_singleton, globUpTo, h]
    rfl
  have hk : ∀ t, run s (w.map literal ++ [.chr (fun _ => true) .lazy] ++ [.atEnd]) [] t =
      if w <+: t then .ok ([], []) else .fail := by
    intro t
    rw [List.append_assoc, run_literal]
    exact congrArg (fun r => if w <+: t then r else .fail) (run_anything s [] _)
  have hrun : run s (glob ('*' :: w ++ ['*']) ++ [.atEnd]) [] s = if w <:+: s then .ok ([], []) else .fail := by
    rw [hglob]
    exact expandLazy_literal hk s
  rw [fits, hrun]
  by_cases h : w <:+: s <;> simp [h]

section
variable {p : Text} (h : glob p = glob w)
include h

theorem longest_glob (s : Text) : longest p s = longest w s := by
  have hfits : ∀ s, fits p s = fits w s := fun s => by rw [fits, fits, h]
  have hup : ∀ n, longestUpTo p s n = longestUpTo w s n := by
    intro n
    induction n with
    | zero => rw [longestUpTo, longestUpTo, hfits]
    | succ n ih => rw [longestUpTo, longestUpTo, hfits, ih]
  exact hup s.length

/-- What is replaced depends on the items of the pattern only. -/
theorem replaceAll_glob (rep s : Text) : replaceAll p rep s = replaceAll w rep s := by
  suffices hup : ∀ n s, replaceUpTo p rep n s = replaceUpTo w rep n s from hup s.length s
  intro n
  induction n with
  | zero =>
    intro s
    rfl
  | succ n ih =>
    rintro (_ | ⟨c, s⟩)
    · rfl
    · simp only [replaceUpTo, longest_glob h, ih]

end

example : stripPrefix "1.*".toList "1.* beta".toList = "* beta".toList := by decide

example : replaceAll "[ab]*c".toList "-".toList "xacbcy".toList = "x-y".toList := by decide

end Shell
