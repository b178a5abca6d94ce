import T2Sde.Lib.Words
/-!
# Backtracking text patterns

A pattern is a list of items: a class of characters with a repetition, the borders of captures, an anchor.
`run` tries the items in order; a repetition is of single characters, so all choice is how many of them it
takes (`expand`: as many as possible first), and the first choice that lets the rest match wins.

* `expand_word` — a repetition takes the whole word that it can take, if the rest matches behind it.
* `expand_sound` — whatever a repetition takes is of its class.
* `run_field` — a captured word and the blanks behind it, the step in which a line of fields is read.
-/
namespace Pattern
open Shell (Text)

/-- How often: once, `?`, `*`, `+`, and the lazy `*`. -/
inductive Rep
  | one | opt | star | plus | lazy
  deriving DecidableEq, Repr

inductive Item
  | chr (p : Char → Bool) (r : Rep)
  | opening
  | closing
  /-- A capture of the place, not of a text. -/
  | place
  | atEnd
  | backref (n : Nat)
  /-- From an `x` to the `y` that balances it. -/
  | balance (x y : Char)
  /-- Between a character outside the class and one inside. -/
  | frontier (p : Char → Bool)
  /-- What is not a pattern; it is found out when the matcher comes to it. -/
  | bad

/-- A capture that is open since the text `s`, one of a text, one of a place. -/
inductive Cap
  | opened (s : Text)
  | text (t : Text)
  | place (n : Nat)
  deriving DecidableEq, Repr

inductive Res (α : Type)
  | fail
  | error
  | ok (a : α)
  deriving DecidableEq, Repr

def Res.map {α β : Type} (f : α → β) : Res α → Res β
  | .fail => .fail
  | .error => .error
  | .ok a => .ok (f a)

/-- The captures, the last one first, and the text behind the match. -/
abbrev State := List Cap × Text

/-- As many characters of the class as possible first. -/
def expand {α : Type} (p : Char → Bool) (k : Text → Res α) : Text → Res α
  | [] => k []
  | c :: s =>
    if p c then
      match expand p k s with
      | .fail => k (c :: s)
      | r => r
    else k (c :: s)

/-- As few characters of the class as possible first. -/
def expandLazy {α : Type} (p : Char → Bool) (k : Text → Res α) : Text → Res α
  | [] => k []
  | c :: s =>
    match k (c :: s) with
    | .fail => if p c then expandLazy p k s else .fail
    | r => r

/-- Closes the capture that was opened last. -/
def close (s : Text) : List Cap → Option (List Cap)
  | [] => none
  | .opened t :: caps => some (.text (t.take (t.length - s.length)) :: caps)
  | c :: caps => (close s caps).map (c :: ·)

/-- The text behind the `y` that closes the `n` open `x`. -/
def balanced (x y : Char) : Nat → Text → Option Text
  | _, [] => none
  | n, c :: s =>
    if c = y then if n = 1 then some s else balanced x y (n - 1) s
    else balanced x y (if c = x then n + 1 else n) s

/-- The matcher allows this many captures. -/
def maxCaptures : Nat := 32

/-- The items at the front of a text that is the end of `src`. -/
def run (src : Text) : List Item → List Cap → Text → Res State
  | [], caps, s => .ok (caps, s)
  | .chr p .one :: is, caps, s =>
    match s with
    | [] => .fail
    | c :: s => if p c then run src is caps s else .fail
  | .chr p .opt :: is, caps, s =>
    match s with
    | [] => run src is caps []
    | c :: s =>
      if p c then
        match run src is caps s with
        | .fail => run src is caps (c :: s)
        | r => r
      else run src is caps (c :: s)
  | .chr p .star :: is, caps, s => expand p (run src is caps) s
  | .chr p .plus :: is, caps, s =>
    match s with
    | [] => .fail
    | c :: s => if p c then expand p (run src is caps) s else .fail
  | .chr p .lazy :: is, caps, s => expandLazy p (run src is caps) s
  | .opening :: is, caps, s => if maxCaptures ≤ caps.length then .error else run src is (.opened s :: caps) s
  | .closing :: is, caps, s =>
    match close s caps with
    | none => .error
    | some caps => run src is caps s
  | .place :: is, caps, s =>
    if maxCaptures ≤ caps.length then .error else run src is (.place (src.length - s.length + 1) :: caps) s
  | .atEnd :: is, caps, s => if s = [] then run src is caps s else .fail
  | .backref n :: is, caps, s =>
    match caps.reverse[n - 1]? with
    | some (.text t) => if t.isPrefixOf s then run src is caps (s.drop t.length) else .fail
    | some (.place _) => .fail
    | _ => .error
  | .balance x y :: is, caps, s =>
    match s with
    | [] => .fail
    | c :: s =>
      if c ≠ x then .fail
      else match balanced x y 1 s with
        | none => .fail
        | some s => run src is caps s
  | .frontier p :: is, caps, s =>
    let before := (src.take (src.length - s.length)).getLast?.getD '\x00'
    if !p before && p (s.head?.getD '\x00') then run src is caps s else .fail
  | .bad :: _, _, _ => .error

/-- Where the match starts, the captures, and what is behind it. -/
structure Hit where
  start : Text
  caps : List Cap
  rest : Text

/-- The match that starts furthest to the left. -/
def search (src : Text) (is : List Item) : Text → Res Hit
  | [] => (run src is [] []).map fun x => ⟨[], x.1.reverse, x.2⟩
  | c :: s =>
    match run src is [] (c :: s) with
    | .fail => search src is s
    | .error => .error
    | .ok x => .ok ⟨c :: s, x.1.reverse, x.2⟩

/-- The captures of a match; the whole match if the pattern has none. -/
def Hit.texts (h : Hit) : Res (List Text) :=
  if h.caps = [] then .ok [h.start.take (h.start.length - h.rest.length)]
  else if h.caps.any fun c => match c with
    | .opened _ => true
    | _ => false then .error
  else .ok (h.caps.map fun c => match c with
    | .text t => t
    | .place n => (Nat.repr n).toList
    | .opened _ => [])

/-! ## Repetition -/

section
variable {α : Type} {p : Char → Bool} {k : Text → Res α}

/-- The text is at its end or goes on with a character outside the class. -/
def Stops (p : Char → Bool) : Text → Prop
  | [] => True
  | c :: _ => p c = false

@[simp] theorem stops_nil : Stops p [] := trivial

@[simp] theorem stops_cons {c : Char} {s : Text} : Stops p (c :: s) ↔ p c = false := Iff.rfl

theorem stops_dropWhile (p : Char → Bool) (s : Text) : Stops p (s.dropWhile p) := by
  have hd := List.head?_dropWhile_not p s
  cases h : s.dropWhile p with
  | nil => trivial
  | cons d r => simpa [h] using hd

theorem expand_stop {s : Text} (hs : Stops p s) : expand p k s = k s := by
  cases s with
  | nil => rfl
  | cons c s =>
    have hc : p c = false := hs
    rw [expand, if_neg (by simp [hc])]

theorem expand_append {w s : Text} (hw : ∀ c ∈ w, p c = true) (h : expand p k s ≠ .fail) :
    expand p k (w ++ s) = expand p k s := by
  induction w with
  | nil => rfl
  | cons c w ih =>
    have ih := ih fun d hd => hw d (List.mem_cons_of_mem _ hd)
    rw [List.cons_append, expand, if_pos (hw c List.mem_cons_self), ih]
    cases he : expand p k s with
    | fail => exact absurd he h
    | error => rfl
    | ok a => rfl

/-- A repetition takes the whole word, if the rest matches behind it. -/
theorem expand_word {w s : Text} (hw : ∀ c ∈ w, p c = true) (hs : Stops p s) (h : k s ≠ .fail) :
    expand p k (w ++ s) = k s := by
  rw [expand_append hw (by rwa [expand_stop hs]), expand_stop hs]

/-- What a repetition takes; it stops before a character of its class only if no longer choice matches. -/
theorem expand_sound {s : Text} {a : α} (h : expand p k s = .ok a) :
    ∃ w t, s = w ++ t ∧ (∀ c ∈ w, p c = true) ∧ k t = .ok a ∧
      ∀ c t', t = c :: t' → p c = true → expand p k t' = .fail := by
  induction s with
  | nil => exact ⟨[], [], rfl, by simp, h, by simp⟩
  | cons c s ih =>
    rw [expand] at h
    by_cases hc : p c = true
    · rw [if_pos hc] at h
      cases he : expand p k s with
      | fail =>
        rw [he] at h
        refine ⟨[], c :: s, rfl, by simp, h, ?_⟩
        rintro d t' ⟨⟩ -
        exact he
      | error => simp [he] at h
      | ok b =>
        rw [he] at h
        obtain ⟨w, t, rfl, hw, ht, hlonger⟩ := ih (he.trans h)
        exact ⟨c :: w, t, rfl, by simpa [hc] using hw, ht, hlonger⟩
    · rw [if_neg hc] at h
      refine ⟨[], c :: s, rfl, by simp, h, ?_⟩
      rintro d t' ⟨⟩ hd
      exact absurd hd hc

/-- What follows matches neither at a character of the class nor behind the word. -/
theorem expand_fail {w s : Text} (hw : ∀ c ∈ w, p c = true) (hs : Stops p s)
    (hp : ∀ c t, p c = true → k (c :: t) = .fail) (h : k s = .fail) : expand p k (w ++ s) = .fail := by
  induction w with
  | nil => rwa [List.nil_append, expand_stop hs]
  | cons c w ih =>
    have hc := hw c List.mem_cons_self
    rw [List.cons_append, expand, if_pos hc, ih fun d hd => hw d (List.mem_cons_of_mem _ hd)]
    exact hp c _ hc

/-- What follows never starts with a character of the class: there is one choice. -/
theorem expand_dropWhile (hp : ∀ c t, p c = true → k (c :: t) = .fail) (s : Text) :
    expand p k s = k (s.dropWhile p) := by
  induction s with
  | nil => rfl
  | cons c s ih =>
    rw [expand]
    by_cases hc : p c = true
    · rw [if_pos hc, ih, List.dropWhile_cons_of_pos hc]
      cases hk : k (s.dropWhile p) with
      | fail => exact hp c s hc
      | error => rfl
      | ok a => rfl
    · rw [if_neg hc, List.dropWhile_cons_of_neg hc]

/-- The longest choice fails: the repetition gives up one character. -/
theorem expand_cons_fail {c : Char} {s : Text} (hc : p c = true) (h : expand p k s = .fail) :
    expand p k (c :: s) = k (c :: s) := by
  rw [expand, if_pos hc, h]

theorem expand_fail_all {s : Text} (h : ∀ t, t <:+ s → k t = .fail) : expand p k s = .fail := by
  induction s with
  | nil => exact h [] (List.suffix_refl _)
  | cons c s ih =>
    rw [expand, ih fun t ht => h t (ht.trans (List.suffix_cons c s)), h _ (List.suffix_refl _)]
    exact ite_self _

theorem expand_ne_fail {w s : Text} (hw : ∀ c ∈ w, p c = true) (h : k s ≠ .fail) : expand p k (w ++ s) ≠ .fail := by
  have hs : expand p k s ≠ .fail := by
    cases s with
    | nil => exact h
    | cons c s =>
      rw [expand]
      split
      · cases he : expand p k s <;> simp [h]
      · exact h
  rwa [expand_append hw hs]

end

/-! ## Items -/

section
variable {src : Text} {is : List Item} {caps : List Cap}

@[simp] theorem run_nil (s : Text) : run src [] caps s = .ok (caps, s) := rfl

@[simp] theorem run_one (p : Char → Bool) (c : Char) (s : Text) :
    run src (.chr p .one :: is) caps (c :: s) = if p c then run src is caps s else .fail := rfl

@[simp] theorem run_one_nil (p : Char → Bool) : run src (.chr p .one :: is) caps [] = .fail := rfl

@[simp] theorem run_star (p : Char → Bool) (s : Text) :
    run src (.chr p .star :: is) caps s = expand p (run src is caps) s := rfl

@[simp] theorem run_plus (p : Char → Bool) (c : Char) (s : Text) :
    run src (.chr p .plus :: is) caps (c :: s) = if p c then expand p (run src is caps) s else .fail := rfl

@[simp] theorem run_plus_nil (p : Char → Bool) : run src (.chr p .plus :: is) caps [] = .fail := rfl

/-- A repetition at the end of the pattern. -/
theorem run_last (p : Char → Bool) (s : Text) :
    run src [.chr p .star] caps s = .ok (caps, s.dropWhile p) := by
  have hw : ∀ c ∈ s.takeWhile p, p c = true := fun c hc => List.mem_takeWhile_imp hc
  rw [run_star]
  calc expand p (run src [] caps) s
      = expand p (run src [] caps) (s.takeWhile p ++ s.dropWhile p) := by rw [List.takeWhile_append_dropWhile]
    _ = .ok (caps, s.dropWhile p) := expand_word hw (stops_dropWhile p s) (by simp)

theorem run_opening (s : Text) (h : caps.length < maxCaptures) :
    run src (.opening :: is) caps s = run src is (.opened s :: caps) s := by
  rw [run, if_neg (by omega)]

/-- A capture that holds `w`. -/
theorem run_closing (w s : Text) :
    run src (.closing :: is) (.opened (w ++ s) :: caps) s = run src is (.text w :: caps) s := by
  simp [run, close]

theorem run_opening_ok {a : State} {s : Text} (h : run src (.opening :: is) caps s = .ok a) :
    run src is (.opened s :: caps) s = .ok a := by
  rw [run] at h
  split at h
  · simp at h
  · exact h

/-- What is captured by a class that stands at least once. -/
theorem capture_sound {p : Char → Bool} {s : Text} {a : State}
    (h : run src (.opening :: .chr p .plus :: .closing :: is) caps s = .ok a) :
    ∃ w t, s = w ++ t ∧ w ≠ [] ∧ (∀ c ∈ w, p c = true) ∧ run src is (.text w :: caps) t = .ok a := by
  have h := run_opening_ok h
  cases s with
  | nil => simp at h
  | cons c s =>
    rw [run_plus] at h
    by_cases hc : p c = true
    · rw [if_pos hc] at h
      obtain ⟨w, t, rfl, hw, ht, -⟩ := expand_sound h
      rw [← List.cons_append, run_closing] at ht
      exact ⟨c :: w, t, rfl, by simp, by simpa [hc] using hw, ht⟩
    · simp [hc] at h

/-- What is captured by a class that may be missing. -/
theorem capture_star_sound {p : Char → Bool} {s : Text} {a : State}
    (h : run src (.opening :: .chr p .star :: .closing :: is) caps s = .ok a) :
    ∃ w t, s = w ++ t ∧ (∀ c ∈ w, p c = true) ∧ run src is (.text w :: caps) t = .ok a := by
  obtain ⟨w, t, rfl, hw, ht, -⟩ := expand_sound (run_opening_ok h)
  rw [run_closing] at ht
  exact ⟨w, t, rfl, hw, ht⟩

theorem one_sound {p : Char → Bool} {s : Text} {a : State} (h : run src (.chr p .one :: is) caps s = .ok a) :
    ∃ c t, s = c :: t ∧ p c = true ∧ run src is caps t = .ok a := by
  cases s with
  | nil => simp at h
  | cons c s =>
    by_cases hc : p c = true
    · exact ⟨c, s, rfl, hc, by simpa [hc] using h⟩
    · simp [hc] at h

/-- A captured word: the class takes all of it if the rest matches behind. -/
theorem run_capture {p : Char → Bool} {w s : Text} (hcaps : caps.length < maxCaptures) (hne : w ≠ [])
    (hw : ∀ c ∈ w, p c = true) (hs : Stops p s) (h : run src is (.text w :: caps) s ≠ .fail) :
    run src (.opening :: .chr p .plus :: .closing :: is) caps (w ++ s) = run src is (.text w :: caps) s := by
  obtain ⟨c, w, rfl⟩ := List.exists_cons_of_ne_nil hne
  rw [run_opening _ hcaps, List.cons_append, run_plus, if_pos (hw c List.mem_cons_self), expand_word
    (fun d hd => hw d (List.mem_cons_of_mem _ hd)) hs]
  · rw [← List.cons_append, run_closing]
  · rwa [← List.cons_append, run_closing]

/-- A class that stands at least once, in front of something that never starts with it. -/
theorem run_plus_dropWhile {p : Char → Bool} (hp : ∀ c t, p c = true → run src is caps (c :: t) = .fail) (s : Text) :
    run src (.chr p .plus :: is) caps s =
      if s.takeWhile p = [] then .fail else run src is caps (s.dropWhile p) := by
  cases s with
  | nil => rfl
  | cons c s =>
    by_cases hc : p c = true
    · rw [run_plus, if_pos hc, expand_dropWhile hp, List.dropWhile_cons_of_pos hc, List.takeWhile_cons_of_pos hc,
        if_neg (List.cons_ne_nil _ _)]
    · rw [run_plus, if_neg hc, List.takeWhile_cons_of_neg hc, if_pos rfl]

theorem run_capture_dropWhile {p : Char → Bool} (hcaps : caps.length < maxCaptures)
    (hp : ∀ w c t, p c = true → run src is (.text w :: caps) (c :: t) = .fail) (s : Text) :
    run src (.opening :: .chr p .plus :: .closing :: is) caps s =
      if s.takeWhile p = [] then .fail else run src is (.text (s.takeWhile p) :: caps) (s.dropWhile p) := by
  have hclose := @run_closing src is caps (s.takeWhile p) (s.dropWhile p)
  rw [List.takeWhile_append_dropWhile] at hclose
  rw [run_opening _ hcaps, run_plus_dropWhile, hclose]
  · intro c t hc
    rw [run]
    simp only [close]
    exact hp _ c t hc

theorem run_capture_star_dropWhile {p : Char → Bool} (hcaps : caps.length < maxCaptures)
    (hp : ∀ w c t, p c = true → run src is (.text w :: caps) (c :: t) = .fail) (s : Text) :
    run src (.opening :: .chr p .star :: .closing :: is) caps s =
      run src is (.text (s.takeWhile p) :: caps) (s.dropWhile p) := by
  have hclose := @run_closing src is caps (s.takeWhile p) (s.dropWhile p)
  rw [List.takeWhile_append_dropWhile] at hclose
  rw [run_opening _ hcaps, run_star, expand_dropWhile, hclose]
  intro c t hc
  rw [run]
  simp only [close]
  exact hp _ c t hc

/-- **A field**: a captured word, one blank behind it, and blanks that the pattern may skip. -/
theorem run_field {p blank : Char → Bool} {w s : Text} {b : Char} (hcaps : caps.length < maxCaptures) (hne : w ≠ [])
    (hw : ∀ c ∈ w, p c = true) (hb : p b = false) (hblank : blank b = true) (hs : Stops blank s)
    (h : run src is (.text w :: caps) s ≠ .fail) :
    run src (.opening :: .chr p .plus :: .closing :: .chr blank .star :: is) caps (w ++ b :: s) =
      run src is (.text w :: caps) s := by
  have hskip : run src (.chr blank .star :: is) (.text w :: caps) (b :: s) = run src is (.text w :: caps) s := by
    rw [run_star]
    exact expand_word (w := [b]) (by simpa using hblank) hs h
  rw [run_capture hcaps hne hw (stops_cons.2 hb) (by rwa [hskip]), hskip]

end

/-! ## What is left -/

theorem expandLazy_sound {α : Type} {p : Char → Bool} {k : Text → Res α} {s : Text} {a : α}
    (h : expandLazy p k s = .ok a) : ∃ t, t <:+ s ∧ k t = .ok a := by
  induction s with
  | nil => exact ⟨[], List.suffix_refl _, h⟩
  | cons c s ih =>
    rw [expandLazy] at h
    cases hk : k (c :: s) with
    | fail =>
      rw [hk] at h
      by_cases hc : p c = true
      · obtain ⟨t, ht, hkt⟩ := ih (by simpa [hc] using h)
        exact ⟨t, ht.trans (List.suffix_cons c s), hkt⟩
      · simp [hc] at h
    | error => simp [hk] at h
    | ok b => exact ⟨c :: s, List.suffix_refl _, by rw [hk] at h ⊢; exact h⟩

theorem balanced_suffix {x y : Char} {n : Nat} {s t : Text} (h : balanced x y n s = some t) : t <:+ s := by
  induction s generalizing n with
  | nil => simp [balanced] at h
  | cons c s ih =>
    rw [balanced] at h
    split at h
    · split at h
      · obtain rfl := Option.some.inj h
        exact List.suffix_cons c s
      · exact (ih h).trans (List.suffix_cons c s)
    · exact (ih h).trans (List.suffix_cons c s)

/-- What is behind a match is the end of the text. -/
theorem run_suffix {src : Text} {is : List Item} {caps : List Cap} {s : Text} {a : State}
    (h : run src is caps s = .ok a) : a.2 <:+ s := by
  induction is generalizing caps s with
  | nil =>
    obtain rfl := Res.ok.inj h
    exact List.suffix_refl _
  | cons i is ih =>
    have hexpand : ∀ {p : Char → Bool} {s : Text}, expand p (run src is caps) s = .ok a → a.2 <:+ s := by
      intro p s h
      obtain ⟨w, t, rfl, -, ht, -⟩ := expand_sound h
      exact (ih ht).trans (List.suffix_append w t)
    cases i with
    | chr p r =>
      cases r with
      | one =>
        obtain ⟨c, t, rfl, -, ht⟩ := one_sound h
        exact (ih ht).trans (List.suffix_cons c t)
      | opt =>
        cases s with
        | nil => exact ih h
        | cons c s =>
          rw [run] at h
          split at h
          · cases hr : run src is caps s with
            | fail =>
              rw [hr] at h
              exact ih h
            | error => simp [hr] at h
            | ok b =>
              obtain rfl : b = a := by simpa [hr] using h
              exact (ih hr).trans (List.suffix_cons c s)
          · exact ih h
      | star => exact hexpand h
      | plus =>
        cases s with
        | nil => simp at h
        | cons c s =>
          rw [run_plus] at h
          split at h
          · exact (hexpand h).trans (List.suffix_cons c s)
          · simp at h
      | lazy =>
        obtain ⟨t, ht, hk⟩ := expandLazy_sound h
        exact (ih hk).trans ht
    | opening => exact ih (run_opening_ok h)
    | closing =>
      rw [run] at h
      split at h
      · simp at h
      · exact ih h
    | place =>
      rw [run] at h
      split at h
      · simp at h
      · exact ih h
    | atEnd =>
      rw [run] at h
      split at h
      · exact ih h
      · simp at h
    | backref n =>
      rw [run] at h
      split at h
      · split at h
        · exact (ih h).trans (List.drop_suffix _ s)
        · simp at h
      · simp at h
      · simp at h
    | balance x y =>
      cases s with
      | nil => simp [run] at h
      | cons c s =>
        rw [run] at h
        split at h
        · simp at h
        · split at h
          · simp at h
          next s' hb => exact (ih h).trans ((balanced_suffix hb).trans (List.suffix_cons _ _))
    | frontier p =>
      rw [run] at h
      split at h
      · exact ih h
      · simp at h
    | bad => simp [run] at h

/-! ## Hits -/

theorem search_of_run {src s : Text} {is : List Item} {a : State} (h : run src is [] s = .ok a) :
    search src is s = .ok ⟨s, a.1.reverse, a.2⟩ := by
  cases s with
  | nil => rw [search, h]; rfl
  | cons c s => rw [search, h]

theorem search_sound {src s : Text} {is : List Item} {h : Hit} (hs : search src is s = .ok h) :
    ∃ a, h.start <:+ s ∧ run src is [] h.start = .ok a ∧ h.caps = a.1.reverse ∧ h.rest = a.2 := by
  induction s with
  | nil =>
    rw [search] at hs
    cases hr : run src is [] [] with
    | fail => simp [hr, Res.map] at hs
    | error => simp [hr, Res.map] at hs
    | ok a =>
      simp only [hr, Res.map, Res.ok.injEq] at hs
      subst hs
      exact ⟨a, List.suffix_refl _, hr, rfl, rfl⟩
  | cons c s ih =>
    rw [search] at hs
    cases hr : run src is [] (c :: s) with
    | fail =>
      rw [hr] at hs
      obtain ⟨a, hsuf, h⟩ := ih hs
      exact ⟨a, hsuf.trans (List.suffix_cons c s), h⟩
    | error => simp [hr] at hs
    | ok a =>
      simp only [hr, Res.ok.injEq] at hs
      subst hs
      exact ⟨a, List.suffix_refl _, hr, rfl, rfl⟩

/-- A hit all of whose captures are texts. -/
theorem texts_of_text {start rest : Text} {ts : List Text} (hne : ts ≠ []) :
    (Hit.mk start (ts.map Cap.text) rest).texts = .ok ts := by
  have h1 : ¬ (ts.map Cap.text = []) := by simpa using hne
  rw [Hit.texts, if_neg h1]
  simp [List.map_map, Function.comp_def]

end Pattern
