import T2Sde.Packages.Default
/-!
# The wildcards of a rule (`scripts/config-functions.lua`)

`pkgswitch` makes a Lua pattern of each part of its argument. It escapes `+` and `-`, and `*` becomes `.*`; a `.` is
left as it is and stands for any character. Without `*` the loop ends at the first entry that matches, though a pattern
with `.` may match more than one name.

| here | there |
| --- | --- |
| `Arg`       | `repository/package`, or a package alone |
| `wildItem`  | what the pattern does with a character :93-105 |

* `strMatch_translate` — the pattern against a text.
* `switchArg_iff` — the loop, from an entry on.
* `wildcards_iff` — **when the entries that fit are switched, and no others**.
* `wildcards_of_no_dot` — without a `.` they are, where the names are unique.
-/
namespace T2Sde.Packages
open Shell Pattern Lua

/-! ## Arguments -/

def argChar (c : Char) : Bool := isAlnum c || "+._*-".toList.contains c

structure Arg where
  repository : Option Text
  name : Text
  chars : ∀ c ∈ repository.getD [] ++ name, argChar c = true

def Arg.text (a : Arg) : Text :=
  match a.repository with
  | none => a.name
  | some r => r ++ '/' :: a.name

/-- `*` stands for any text, and another character for what it is the same as. -/
def fitsWith (same : Char → Char → Bool) : Text → Text → Bool
  | [], s => s.isEmpty
  | c :: w, s =>
    if c = '*' then s.tails.any (fitsWith same w)
    else
      match s with
      | [] => false
      | d :: s => same c d && fitsWith same w s

section
variable {same : Char → Char → Bool} {c : Char}

@[simp] theorem fitsWith_nil (s : Text) : fitsWith same [] s = s.isEmpty := by cases s <;> rfl

@[simp] theorem fitsWith_star (w s : Text) : fitsWith same ('*' :: w) s = s.tails.any (fitsWith same w) := by
  cases s <;> rfl

theorem fitsWith_char_nil (hc : c ≠ '*') (w : Text) : fitsWith same (c :: w) [] = false := by simp [fitsWith, hc]

theorem fitsWith_char (hc : c ≠ '*') (w : Text) (d : Char) (s : Text) :
    fitsWith same (c :: w) (d :: s) = (same c d && fitsWith same w s) := by simp [fitsWith, hc]

end

def itself (c d : Char) : Bool := c == d

/-- `.` stands for any character. -/
def orDot (c d : Char) : Bool := c == '.' || c == d

/-- The entry fits the argument. -/
def Arg.fits (same : Char → Char → Bool) (a : Arg) (p : Pkg) : Bool :=
  fitsWith same a.name p.pkgAlias && fitsWith same (a.repository.getD ['*']) p.repository

/-- What is meant: the entries that fit are switched. -/
def switchFitting (m : Mode) (a : Arg) (t : Table) : Table := t.map fun p => if a.fits itself p then p.switch m else p

/-- An entry behind the entries `pre` of a table: it fits, and one of these fits with `.` for any character and ends the
loop; or it does not fit but with `.` for any character, and the loop comes to it. -/
def Astray (a : Arg) (pre : Table) (p : Pkg) : Prop :=
  if a.fits itself p then '*' ∉ a.name ∧ ∃ q ∈ pre, a.fits orDot q
  else a.fits orDot p ∧ ('*' ∈ a.name ∨ ∀ q ∈ pre, a.fits orDot q = false)

/-! ## The pattern -/

def wildTok (c : Char) : Tok :=
  if c = '*' then .chr .any .star
  else if c = '.' then .chr .any .one
  else if c = '+' ∨ c = '-' then .chr (.esc c) .one
  else .chr (.lit c) .one

def wildItem (c : Char) : Item :=
  if c = '*' then .chr (fun _ => true) .star else .chr (orDot c) .one

theorem translate_cons (c : Char) (w : Text) : translate (c :: w) = translate [c] ++ translate w := by
  simp [translate]

theorem translate_char {c : Char} (h : c ≠ '+' ∧ c ≠ '-' ∧ c ≠ '*') : translate [c] = [c] := by
  simp [translate, h]

/-- The characters of an argument have no meaning in a pattern, but for `. * + -`. -/
theorem ne_of_argChar {c : Char} (hc : argChar c = true) :
    c ≠ '(' ∧ c ≠ ')' ∧ c ≠ '$' ∧ c ≠ '%' ∧ c ≠ '[' ∧ c ≠ '?' ∧ c ≠ '/' := by
  refine ⟨?_, ?_, ?_, ?_, ?_, ?_, ?_⟩ <;> rintro rfl <;>
    simp [argChar, isAlnum, isLower, isUpper, isDigit, between] at hc

/-- What follows a character is none of `? * + -`. -/
theorem rep_translate (w : Text) (hw : ∀ c ∈ w, argChar c = true) :
    rep (translate w ++ ['$']) = (.one, translate w ++ ['$']) := by
  cases w with
  | nil => rfl
  | cons c w =>
    have hc : argChar c = true := hw c List.mem_cons_self
    rw [translate_cons, List.append_assoc]
    by_cases h : c ≠ '+' ∧ c ≠ '-' ∧ c ≠ '*'
    · have hq : c ≠ '?' := (ne_of_argChar hc).2.2.2.2.2.1
      rw [translate_char h, List.singleton_append, rep]
      all_goals simp_all
    · obtain rfl | rfl | rfl : c = '+' ∨ c = '-' ∨ c = '*' := by tauto
      all_goals rfl

theorem toksUpTo_translate {w : Text} (hw : ∀ c ∈ w, argChar c = true) {n : Nat} (hn : w.length < n) :
    toksUpTo n (translate w ++ ['$']) = w.map wildTok ++ [.atEnd] := by
  induction w generalizing n with
  | nil =>
    obtain ⟨n, rfl⟩ := Nat.exists_eq_add_of_lt hn
    simp [translate, toksUpTo]
  | cons c w ih =>
    obtain ⟨hc, hw⟩ := List.forall_mem_cons.1 hw
    obtain ⟨n, rfl⟩ : ∃ m, n = m + 1 := ⟨n - 1, by omega⟩
    have ih := ih hw (show w.length < n by simpa using hn)
    have hrep := rep_translate w hw
    rw [translate_cons, List.append_assoc]
    generalize translate w ++ ['$'] = t at ih hrep
    by_cases hplus : c = '+'
    · subst hplus
      simp [translate, toksUpTo, isBackref, single, hrep, ih, wildTok, isDigit, between]
    by_cases hminus : c = '-'
    · subst hminus
      simp [translate, toksUpTo, isBackref, single, hrep, ih, wildTok, isDigit, between]
    by_cases hstar : c = '*'
    · subst hstar
      simp [translate, toksUpTo, isBackref, single, rep, ih, wildTok]
    by_cases hdot : c = '.'
    · subst hdot
      simp [translate, toksUpTo, isBackref, single, hrep, ih, wildTok]
    obtain ⟨h1, h2, h3, h4, h5, -, -⟩ := ne_of_argChar hc
    have hlit : toksUpTo (n + 1) (c :: t) = .chr (.lit c) .one :: toksUpTo n t := by
      have hback : isBackref (c :: t) = none := by
        rw [isBackref]
        simp [h4]
      have hsingle : single (c :: t) = some (.lit c, t) := by
        rw [single]
        all_goals simp_all
      rw [toksUpTo]
      · simp only [hback, hsingle, hrep]
      all_goals simp_all
    rw [translate_char ⟨hplus, hminus, hstar⟩, List.singleton_append, hlit, ih]
    simp [wildTok, hplus, hminus, hstar, hdot]

theorem length_le_translate (w : Text) : w.length ≤ (translate w).length := by
  induction w with
  | nil => exact le_rfl
  | cons c w ih =>
    have hc : 1 ≤ (translate [c]).length := by
      by_cases h : c ≠ '+' ∧ c ≠ '-' ∧ c ≠ '*'
      · rw [translate_char h, List.length_singleton]
      · obtain rfl | rfl | rfl : c = '+' ∨ c = '-' ∨ c = '*' := by tauto
        all_goals decide
    rw [translate_cons, List.length_append, List.length_cons]
    omega

theorem item_wildTok (c : Char) : (wildTok c).item = wildItem c := by
  unfold wildTok wildItem
  by_cases hstar : c = '*'
  · rw [if_pos hstar, if_pos hstar]
    rfl
  rw [if_neg hstar, if_neg hstar]
  by_cases hdot : c = '.'
  · subst hdot
    rfl
  have htest : orDot c = (· == c) := by
    funext d
    simp [orDot, hdot, Bool.beq_comm]
  rw [if_neg hdot, htest]
  by_cases hsign : c = '+' ∨ c = '-'
  · rw [if_pos hsign]
    obtain rfl | rfl := hsign <;> rfl
  · rw [if_neg hsign]
    rfl

theorem items_translate {w : Text} (hw : ∀ c ∈ w, argChar c = true) :
    items (translate w ++ ['$']) = w.map wildItem ++ [.atEnd] := by
  have hlen : w.length < (translate w ++ ['$']).length := by
    rw [List.length_append, List.length_singleton, Nat.lt_succ_iff]
    exact length_le_translate w
  rw [items, toks, toksUpTo_translate hw hlen, List.map_append, List.map_map]
  exact congrArg (· ++ [Item.atEnd]) (List.map_congr_left fun c _ => item_wildTok c)

/-- A repetition of any character tries all that is left. -/
theorem expand_any {α : Type} (f : Text → Bool) (a : α) (s : Text) :
    expand (fun _ => true) (fun t => if f t then .ok a else .fail) s = if s.tails.any f then .ok a else .fail := by
  induction s with
  | nil => simp [expand]
  | cons c s ih =>
    rw [expand, if_pos rfl, ih, List.tails_cons, List.any_cons]
    by_cases h : s.tails.any f = true
    · simp [h]
    · simp [h]

theorem run_wild (src : Text) (caps : List Cap) (w s : Text) :
    run src (w.map wildItem ++ [.atEnd]) caps s = if fitsWith orDot w s then .ok (caps, []) else .fail := by
  induction w generalizing s with
  | nil => cases s <;> simp [run]
  | cons c w ih =>
    rw [List.map_cons, List.cons_append, wildItem]
    by_cases hc : c = '*'
    · subst hc
      have hk : run src (w.map wildItem ++ [.atEnd]) caps =
          fun t => if fitsWith orDot w t then .ok (caps, []) else .fail := funext ih
      rw [if_pos rfl, fitsWith_star, run_star, hk, expand_any]
    · rw [if_neg hc]
      cases s with
      | nil => simp [fitsWith_char_nil hc]
      | cons d s =>
        rw [run_one, ih, fitsWith_char hc]
        cases orDot c d <;> simp

/-- **A pattern of `pkgswitch`**: the character `.` stands for any other. -/
theorem strMatch_translate {w : Text} (hw : ∀ c ∈ w, argChar c = true) (s : Text) :
    strMatch ('^' :: translate w ++ ['$']) s = if fitsWith orDot w s then .ok [s] else .fail := by
  rw [List.cons_append]
  simp only [strMatch]
  rw [items_translate hw, run_wild]
  cases fitsWith orDot w s <;> simp [Res.map, Hit.texts]

theorem star_mem_translate (w : Text) : '*' ∈ translate w ↔ '*' ∈ w := by
  rw [translate, List.mem_flatMap]
  constructor
  · rintro ⟨c, hc, h⟩
    by_cases hstar : c = '*'
    · exact hstar ▸ hc
    · split_ifs at h
      · simp at h
      · simp at h
      · exact absurd (List.mem_singleton.1 h).symm hstar
  · intro h
    exact ⟨'*', h, by decide⟩

/-! ## The two parts of an argument -/

/-- The items behind the first `(` of `(.*)/(.*)`. -/
def behindRepository : List Item :=
  [.closing, .chr (· == '/') .one, .opening, .chr (fun _ => true) .star, .closing]

theorem items_split : items "(.*)/(.*)".toList = .opening :: .chr (fun _ => true) .star :: behindRepository := rfl

section
variable {r s name : Text}

theorem run_behindRepository_fail (src : Text) (hs : '/' ∉ s) {t : Text} (ht : t <:+ s) :
    run src behindRepository [.opened r] t = .fail := by
  have hslash : '/' ∉ t := fun h => hs (ht.subset h)
  rw [behindRepository, run]
  simp only [close]
  cases t with
  | nil => rfl
  | cons c t =>
    rw [List.mem_cons, not_or] at hslash
    rw [run_one, if_neg (by simpa using Ne.symm hslash.1)]

theorem strMatch_split_none (hs : '/' ∉ s) {ts : List Text} : strMatch "(.*)/(.*)".toList s ≠ .ok ts := by
  intro h
  obtain ⟨t, caps, rest, ht, hrun, -⟩ := strMatch_sound (by decide) h
  have hslash : '/' ∉ t := fun h => hs (ht.subset h)
  rw [items_split, run_opening t (by decide), run_star,
    expand_fail_all fun u hu => run_behindRepository_fail s hslash hu] at hrun
  cases hrun

theorem strMatch_split (hname : '/' ∉ name) :
    strMatch "(.*)/(.*)".toList (r ++ '/' :: name) = .ok [r, name] := by
  have hbehind : run (r ++ '/' :: name) behindRepository [.opened (r ++ '/' :: name)] ('/' :: name) =
      .ok ([.text name, .text r], []) := by
    have hclose := @run_closing (r ++ '/' :: name) [] [.text r] name []
    rw [List.append_nil] at hclose
    have hlast : expand (fun _ => true) (run (r ++ '/' :: name) [.closing] [.opened name, .text r]) (name ++ []) =
        .ok ([.text name, .text r], []) := by
      rw [expand_word (s := []) (fun _ _ => rfl) stops_nil (by rw [hclose]; simp), hclose]
      rfl
    have hcaps : [Cap.text r].length < maxCaptures := by simp [maxCaptures]
    rw [behindRepository, run_closing, run_one, if_pos (by rfl), run_opening name hcaps, run_star]
    rwa [List.append_nil] at hlast
  apply @strMatch_of_run _ _ [r, name] [] (by decide) (by simp)
  have hslash : expand (fun _ => true) (run (r ++ '/' :: name) behindRepository [.opened (r ++ '/' :: name)])
      ('/' :: name) = .ok ([.text name, .text r], []) := by
    rw [expand_cons_fail rfl (expand_fail_all fun u hu => run_behindRepository_fail _ hname hu), hbehind]
  rw [items_split, run_opening _ (by decide), run_star, expand_append (fun _ _ => rfl) (by rw [hslash]; simp), hslash]
  rfl

end

theorem Arg.no_slash (a : Arg) : '/' ∉ a.repository.getD [] ∧ '/' ∉ a.name := by
  have h : '/' ∉ a.repository.getD [] ++ a.name := fun h => (ne_of_argChar (a.chars '/' h)).2.2.2.2.2.2 rfl
  rwa [List.mem_append, not_or] at h

theorem target_text (a : Arg) :
    target a.text = ⟨'^' :: translate (a.repository.getD ['*']) ++ ['$'], '^' :: translate a.name ++ ['$']⟩ := by
  obtain ⟨-, hname⟩ := a.no_slash
  rw [Arg.text]
  cases hr : a.repository with
  | none =>
    have hnone (ts : List Text) := @strMatch_split_none a.name hname ts
    rw [target]
    cases hm : strMatch "(.*)/(.*)".toList a.name with
    | fail => rfl
    | error => rfl
    | ok ts => exact absurd hm (hnone ts)
  | some r =>
    simp only [target]
    rw [strMatch_split hname]
    rfl

theorem single_text (a : Arg) : (target a.text).single = true ↔ '*' ∉ a.name := by
  rw [target_text, Target.single, Bool.not_eq_true', ← Bool.not_eq_true, List.contains_iff_mem]
  simp [star_mem_translate]

/-- The entry matches where it fits with `.` for any character. -/
theorem matching_text (a : Arg) (p : Pkg) :
    matching (target a.text) p = if a.fits orDot p then .ok () else .fail := by
  have hrep : ∀ c ∈ a.repository.getD ['*'], argChar c = true := by
    cases hr : a.repository with
    | none => simp [argChar]
    | some r => exact fun c hc => a.chars c (by rw [hr]; exact List.mem_append_left _ hc)
  have hname : ∀ c ∈ a.name, argChar c = true := fun c hc => a.chars c (List.mem_append_right _ hc)
  rw [target_text, matching, strMatch_translate hname, strMatch_translate hrep, Arg.fits]
  cases fitsWith orDot a.name p.pkgAlias with
  | false => rfl
  | true => cases fitsWith orDot (a.repository.getD ['*']) p.repository <;> rfl

/-! ## The loop -/

theorem fitsWith_mono {w s : Text} (h : fitsWith itself w s = true) : fitsWith orDot w s = true := by
  induction w generalizing s with
  | nil => simpa using h
  | cons c w ih =>
    by_cases hc : c = '*'
    · subst hc
      rw [fitsWith_star, List.any_eq_true] at h ⊢
      obtain ⟨t, ht, h⟩ := h
      exact ⟨t, ht, ih h⟩
    · cases s with
      | nil => simp [fitsWith_char_nil hc] at h
      | cons d s =>
        rw [fitsWith_char hc, Bool.and_eq_true] at h ⊢
        exact ⟨Bool.or_eq_true_iff.2 (.inr h.1), ih h.2⟩

theorem Arg.fits_mono {a : Arg} {p : Pkg} (h : a.fits itself p = true) : a.fits orDot p = true := by
  rw [Arg.fits, Bool.and_eq_true] at h ⊢
  exact ⟨fitsWith_mono h.1, fitsWith_mono h.2⟩

/-- What holds of every place of a list holds of the first one and of those behind it. -/
theorem forall_place_cons {α : Type} {P : List α → α → Prop} {x : α} {xs : List α} :
    (∀ pre y post, x :: xs = pre ++ y :: post → P pre y) ↔
      P [] x ∧ ∀ pre y post, xs = pre ++ y :: post → P (x :: pre) y := by
  constructor
  · intro h
    exact ⟨h [] x xs rfl, fun pre y post hxs => h (x :: pre) y post (congrArg (x :: ·) hxs)⟩
  · rintro ⟨hx, h⟩ pre y post heq
    cases pre with
    | nil =>
      obtain ⟨rfl, -⟩ := List.cons.inj heq
      exact hx
    | cons z pre =>
      obtain ⟨rfl, hrest⟩ := List.cons.inj heq
      exact h pre y post hrest

section
variable {m : Mode} {a : Arg}

theorem switch_iff (p : Pkg) (b : Bool) : p.switch m = (if b then p.switch m else p) ↔ (p.switch m ≠ p → b = true) := by
  cases b with
  | false => simp
  | true => simp

theorem keep_iff (p : Pkg) (b : Bool) : p = (if b then p.switch m else p) ↔ (p.switch m ≠ p → ¬ b = true) := by
  cases b with
  | false => simp
  | true => simp [eq_comm]

/-- The loop does not come to the entry. -/
theorem astray_behind {pre : Table} {p : Pkg} (hstar : '*' ∉ a.name) (hpre : ∃ q ∈ pre, a.fits orDot q = true) :
    Astray a pre p ↔ a.fits itself p = true := by
  rw [Astray]
  by_cases hp : a.fits itself p = true
  · rw [if_pos hp]
    exact iff_of_true ⟨hstar, hpre⟩ hp
  · rw [if_neg hp]
    refine iff_of_false ?_ hp
    rintro ⟨-, h | h⟩
    · exact hstar h
    · obtain ⟨q, hq, hfits⟩ := hpre
      simp [h q hq] at hfits

/-- The loop comes to the entry. -/
theorem astray_reached {pre : Table} {p : Pkg} (hrun : '*' ∈ a.name ∨ ∀ q ∈ pre, a.fits orDot q = false) :
    Astray a pre p ↔ a.fits orDot p = true ∧ ¬ a.fits itself p = true := by
  rw [Astray]
  by_cases hp : a.fits itself p = true
  · rw [if_pos hp]
    refine iff_of_false ?_ fun h => h.2 hp
    rintro ⟨hstar, q, hq, hfits⟩
    rcases hrun with h | h
    · exact hstar h
    · simp [h q hq] at hfits
  · rw [if_neg hp]
    exact and_congr_right fun _ => iff_of_true hrun hp

/-- The loop has ended: nothing behind is switched. -/
theorem switchFitting_self_iff {pre : Table} (hstar : '*' ∉ a.name) (hpre : ∃ q ∈ pre, a.fits orDot q = true)
    (t : Table) :
    t = switchFitting m a t ↔ ∀ pre' p post, t = pre' ++ p :: post → p.switch m ≠ p → ¬ Astray a (pre ++ pre') p := by
  induction t generalizing pre with
  | nil => simp [switchFitting]
  | cons p ps ih =>
    have hpre' : ∃ q ∈ pre ++ [p], a.fits orDot q = true := by
      obtain ⟨q, hq, hfits⟩ := hpre
      exact ⟨q, List.mem_append_left [p] hq, hfits⟩
    have ih := ih hpre'
    simp only [List.append_assoc, List.singleton_append] at ih
    rw [@forall_place_cons _ (fun pre' p => p.switch m ≠ p → ¬ Astray a (pre ++ pre') p), ← ih, List.append_nil,
      astray_behind hstar hpre, ← keep_iff, switchFitting, List.map_cons, List.cons.injEq]
    rfl

/-- The loop comes to the entries `t` behind `pre`. -/
theorem switchArg_iff {pre : Table} (hrun : '*' ∈ a.name ∨ ∀ q ∈ pre, a.fits orDot q = false) (t : Table) :
    switchArg m (target a.text) t = (switchFitting m a t, true) ↔
      ∀ pre' p post, t = pre' ++ p :: post → p.switch m ≠ p → ¬ Astray a (pre ++ pre') p := by
  induction t generalizing pre with
  | nil => simp [switchArg, switchFitting]
  | cons p ps ih =>
    have ih := @ih (pre ++ [p])
    simp only [List.append_assoc, List.singleton_append] at ih
    rw [@forall_place_cons _ (fun pre' p => p.switch m ≠ p → ¬ Astray a (pre ++ pre') p), List.append_nil,
      astray_reached hrun, switchArg, matching_text, switchFitting, List.map_cons]
    by_cases hp : a.fits orDot p = true
    · have hhead : (p.switch m ≠ p → ¬ (a.fits orDot p = true ∧ ¬ a.fits itself p = true)) ↔
          p.switch m = if a.fits itself p then p.switch m else p := by
        rw [switch_iff]
        simp [hp]
      rw [if_pos hp, hhead]
      simp only [single_text]
      by_cases hstar : '*' ∈ a.name
      · rw [if_neg (not_not.2 hstar), ← ih (.inl hstar)]
        simp [Prod.ext_iff, switchFitting, and_assoc]
      · have hpre : ∃ q ∈ pre ++ [p], a.fits orDot q = true := ⟨p, by simp, hp⟩
        have hrest := @switchFitting_self_iff m a _ hstar hpre ps
        simp only [List.append_assoc, List.singleton_append] at hrest
        rw [if_pos hstar, ← hrest]
        simp [switchFitting]
    · have hself : ¬ a.fits itself p = true := fun h => hp (Arg.fits_mono h)
      have hrun' : '*' ∈ a.name ∨ ∀ q ∈ pre ++ [p], a.fits orDot q = false := by
        refine hrun.imp_right fun h q hq => ?_
        rcases List.mem_append.1 hq with hq | hq
        · exact h q hq
        · exact (List.mem_singleton.1 hq) ▸ Bool.eq_false_iff.2 hp
      rw [if_neg hp, if_neg hself, ← ih hrun']
      simp [Prod.ext_iff, switchFitting, hp]

end

/-- **When the entries that fit are switched, and no others**: no entry that the mode would change goes astray. -/
theorem wildcards_iff (m : Mode) (a : Arg) (t : Table) :
    pkgswitch m [a.text] t = (switchFitting m a t, true) ↔
      ∀ pre p post, t = pre ++ p :: post → p.switch m ≠ p → ¬ Astray a pre p := by
  have hone : pkgswitch m [a.text] t = switchArg m (target a.text) t := by
    simp only [pkgswitch]
    by_cases h : (switchArg m (target a.text) t).2 = true
    · rw [if_pos h]
      exact Prod.ext rfl h.symm
    · rw [if_neg h]
  rw [hone]
  exact @switchArg_iff m a [] (.inr (by simp)) t

/-- `autoconf-2.13`, behind a package whose name has another character for the dot. -/
theorem wildcards_dot :
    let a : Arg := ⟨none, "autoconf-2.13".toList, by decide⟩
    let t : Table := [{ zlib .X with pkgAlias := "autoconf-2_13".toList },
      { zlib .X with pkgAlias := "autoconf-2.13".toList }]
    (t.map Pkg.pkgAlias).Nodup ∧ (pkgswitch .O [a.text] t).1.map Pkg.status = [.O, .X] ∧
      (switchFitting .O a t).map Pkg.status = [.X, .O] ∧ pkgswitch .O [a.text] t ≠ (switchFitting .O a t, true) := by
  decide +kernel

/-! ## Without a dot -/

theorem fitsWith_no_dot {w : Text} (hw : '.' ∉ w) (s : Text) : fitsWith orDot w s = fitsWith itself w s := by
  induction w generalizing s with
  | nil => rw [fitsWith_nil, fitsWith_nil]
  | cons c w ih =>
    rw [List.mem_cons, not_or] at hw
    by_cases hc : c = '*'
    · subst hc
      rw [fitsWith_star, fitsWith_star, funext (ih hw.2)]
    · cases s with
      | nil => rw [fitsWith_char_nil hc, fitsWith_char_nil hc]
      | cons d s =>
        have hdot : (c == '.') = false := beq_eq_false_iff_ne.2 (Ne.symm hw.1)
        rw [fitsWith_char hc, fitsWith_char hc, ih hw.2, orDot, itself, hdot, Bool.false_or]

/-- Without `*` a text fits itself only. -/
theorem fitsWith_itself {w : Text} (hw : '*' ∉ w) {s : Text} : fitsWith itself w s = true ↔ s = w := by
  induction w generalizing s with
  | nil => simp
  | cons c w ih =>
    rw [List.mem_cons, not_or] at hw
    cases s with
    | nil => simp [fitsWith_char_nil (Ne.symm hw.1)]
    | cons d s =>
      rw [fitsWith_char (Ne.symm hw.1), Bool.and_eq_true, ih hw.2, itself, beq_iff_eq, List.cons.injEq, eq_comm]

/-- **Without a dot in the argument** and with unique names the entries that fit are switched, and no others; the early
end of the loop makes no difference. -/
theorem wildcards_of_no_dot (m : Mode) {a : Arg} (hdot : '.' ∉ a.repository.getD [] ++ a.name) {t : Table}
    (ht : (t.map Pkg.pkgAlias).Nodup) : pkgswitch m [a.text] t = (switchFitting m a t, true) := by
  rw [List.mem_append, not_or] at hdot
  have hrep : '.' ∉ a.repository.getD ['*'] := by
    cases hr : a.repository with
    | none => simp
    | some r => simpa [hr] using hdot.1
  have hfits (p : Pkg) : a.fits orDot p = a.fits itself p := by
    rw [Arg.fits, Arg.fits, fitsWith_no_dot hdot.2, fitsWith_no_dot hrep]
  rw [wildcards_iff]
  rintro pre p post rfl - hastray
  rw [Astray] at hastray
  by_cases hp : a.fits itself p = true
  · rw [if_pos hp] at hastray
    obtain ⟨hstar, q, hq, hfq⟩ := hastray
    rw [hfits] at hfq
    -- both have the name of the argument
    have halias (r : Pkg) (hr : a.fits itself r = true) : r.pkgAlias = a.name := by
      rw [Arg.fits, Bool.and_eq_true] at hr
      exact (fitsWith_itself hstar).1 hr.1
    rw [List.map_append, List.map_cons, List.nodup_append] at ht
    apply ht.2.2 q.pkgAlias (List.mem_map_of_mem hq) p.pkgAlias List.mem_cons_self
    rw [halias q hfq, halias p hp]
  · rw [if_neg hp, hfits] at hastray
    exact hp hastray.1

end T2Sde.Packages
