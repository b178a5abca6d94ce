import T2Sde.Packages.Table
/-!
# A line of the package list

One Lua pattern takes a line apart. All its separators may be empty, so which text goes to which field is decided
by the order in which the matcher tries: every field takes what it can.

* `run_categories` — behind the slash, the categories take the longest front that is in their class.
* `run_tail` — a category `/` at the front is taken for the extra version.
* `readLine_head` — the five fields before that are the words of the line, if the rest matches at all.
* `readLine_wf` — what is read is well formed (`Pkg.WF`).
* `reread` — a written entry is read with the same fields up to its version.
-/
namespace T2Sde.Packages
open Shell Pattern Lua

/-! ## The pattern -/

def stageChar : Char → Bool := Class.test (.set false "0123456789?-".toList)
def priorityChar : Char → Bool := Class.test (.set false "0123456789.".toList)
def wordChar : Char → Bool := Class.test (.esc 'S')
def categoryChar : Char → Bool := Class.test (.set false "abcdefghijklmnopqrstuvwxyz0123456789/ ".toList)
def flagChar : Char → Bool :=
  Class.test (.set false "abcdefghijklmnopqrstuvwxyzABCDEFGHIJKLMNOPQRSTUVWXYZ0123456789 ._-".toList)
def space : Char → Bool := Class.test (.lit ' ')

theorem space_iff {c : Char} : space c = true ↔ c = ' ' := by simp [space, Class.test]

/-- A category character is a blank or belongs to a word. -/
theorem word_of_category {c : Char} (h : categoryChar c = true) (hc : c ≠ ' ') : wordChar c = true := by
  have hall : ("abcdefghijklmnopqrstuvwxyz0123456789/ ".toList.all fun x => x == ' ' || wordChar x) = true := by decide
  have hplain : ("abcdefghijklmnopqrstuvwxyz0123456789/ ".toList.all fun x => x != '%' && x != '-') = true := by decide
  have hmem := mem_of_setElems (fun x hx => by simpa using List.all_eq_true.1 hplain x hx)
    (by simpa [categoryChar, Class.test] using h)
  simpa [hc] using List.all_eq_true.1 hall c hmem

def flagItems : List Item :=
  [.opening, .chr flagChar .star, .closing, .chr space .one, .chr (Class.test (.lit '0')) .one]

def categoryItems : List Item := .opening :: .chr categoryChar .plus :: .closing :: .chr space .star :: flagItems

/-- From the extra version on. -/
def tailItems : List Item :=
  .opening :: .chr wordChar .star :: .closing :: .chr space .star :: .chr (Class.test (.lit '/')) .one ::
    .chr space .one :: categoryItems

def fieldItems (p : Char → Bool) (is : List Item) : List Item :=
  .opening :: .chr p .plus :: .closing :: .chr space .star :: is

def lineItems : List Item :=
  .opening :: .chr (Class.test (.set false "XO".toList)) .one :: .closing :: .chr space .star ::
    (fieldItems stageChar <| fieldItems priorityChar <| fieldItems wordChar <| fieldItems wordChar <|
      fieldItems wordChar tailItems)

theorem items_linePattern : items linePattern = lineItems := by
  have htoks : toks linePattern = [
      .opening, .chr (.set false "XO".toList) .one, .closing, .chr (.lit ' ') .star,
      .opening, .chr (.set false "0123456789?-".toList) .plus, .closing, .chr (.lit ' ') .star,
      .opening, .chr (.set false "0123456789.".toList) .plus, .closing, .chr (.lit ' ') .star,
      .opening, .chr (.esc 'S') .plus, .closing, .chr (.lit ' ') .star,
      .opening, .chr (.esc 'S') .plus, .closing, .chr (.lit ' ') .star,
      .opening, .chr (.esc 'S') .plus, .closing, .chr (.lit ' ') .star,
      .opening, .chr (.esc 'S') .star, .closing, .chr (.lit ' ') .star, .chr (.lit '/') .one, .chr (.lit ' ') .one,
      .opening, .chr (.set false "abcdefghijklmnopqrstuvwxyz0123456789/ ".toList) .plus, .closing,
      .chr (.lit ' ') .star,
      .opening, .chr (.set false "abcdefghijklmnopqrstuvwxyzABCDEFGHIJKLMNOPQRSTUVWXYZ0123456789 ._-".toList) .star,
      .closing, .chr (.lit ' ') .one, .chr (.lit '0') .one] := by
    decide +kernel
  rw [items, htoks]
  rfl

/-- A field of characters of the class. -/
structure Field (p : Char → Bool) (w : Text) : Prop where
  ne : w ≠ []
  chars : ∀ c ∈ w, p c = true

instance (p : Char → Bool) (w : Text) : Decidable (Field p w) :=
  decidable_of_iff (w ≠ [] ∧ w.all p = true)
    ⟨fun h => ⟨h.1, List.all_eq_true.1 h.2⟩, fun h => ⟨h.ne, List.all_eq_true.2 h.chars⟩⟩

theorem Field.stops {p : Char → Bool} {w : Text} (h : Field p w) (hp : p ' ' = false) (s : Text) :
    Stops space (w ++ s) := by
  obtain ⟨c, w, rfl⟩ := List.exists_cons_of_ne_nil h.ne
  have hc := h.chars c List.mem_cons_self
  rw [List.cons_append, stops_cons]
  by_contra hsp
  obtain rfl : c = ' ' := space_iff.1 (by simpa using hsp)
  simp [hp] at hc

/-! ## Categories and flags -/

section
variable {src : Text} {caps : List Cap}

theorem run_flags (hcaps : caps.length < maxCaptures) {z : Text} (hz : ∀ c ∈ z, flagChar c = true) :
    run src flagItems caps (z ++ [' ', '0']) = .ok (.text z :: caps, []) := by
  rw [flagItems, run_opening _ hcaps, run_star]
  have hend : ∀ w, run src [.closing, .chr space .one, .chr (Class.test (.lit '0')) .one]
      (.opened (w ++ [' ', '0']) :: caps) [' ', '0'] = .ok (.text w :: caps, []) := by
    intro w
    rw [run_closing]
    rfl
  -- the class has the blank and the zero as well, but nothing is left then
  have htail : expand flagChar (run src [.closing, .chr space .one, .chr (Class.test (.lit '0')) .one]
      (.opened (z ++ [' ', '0']) :: caps)) [' ', '0'] = .ok (.text z :: caps, []) := by
    rw [expand_cons_fail (by decide) (by rfl), hend]
  rw [expand_append hz (by rw [htail]; simp), htail]

/-- The final zero without its blank, and nothing at all, do not match. -/
theorem run_flags_fail (hcaps : caps.length < maxCaptures) {t : Text} (ht : t = [] ∨ t = ['0']) :
    run src flagItems caps t = .fail := by
  rw [flagItems, run_opening _ hcaps]
  rcases ht with rfl | rfl <;> rfl

theorem run_behind_fail (hcaps : caps.length + 1 < maxCaptures) (u : Text) {t : Text} (ht : t = [] ∨ t = ['0']) :
    run src (.closing :: .chr space .star :: flagItems) (.opened (u ++ t) :: caps) t = .fail := by
  have hstop : Stops space t := by
    rcases ht with rfl | rfl
    · exact stops_nil
    · exact stops_cons.2 (by decide)
  rw [run_closing, run_star, expand_stop hstop, run_flags_fail (by simpa using hcaps) ht]

/-- **The categories** are the longest front of their class, the flags the rest. -/
theorem run_categories (hcaps : caps.length + 1 < maxCaptures) {b : Text} (hne : b ≠ [])
    (hb : ∀ c, b.head? = some c → categoryChar c = true)
    (hz : ∀ c ∈ b.dropWhile categoryChar, flagChar c = true) :
    run src categoryItems caps (b ++ [' ', '0']) =
      .ok (.text (b.dropWhile categoryChar) :: .text (b.takeWhile categoryChar) :: caps, []) := by
  have hflags : ∀ m z : Text, (∀ c ∈ z, flagChar c = true) → Stops space z ∨ z = [] →
      run src (.closing :: .chr space .star :: flagItems) (.opened (m ++ (z ++ [' ', '0'])) :: caps)
        (z ++ [' ', '0']) = .ok (.text z :: .text m :: caps, []) := by
    intro m z hz hstop
    have hrun := @run_flags src (.text m :: caps) (by simpa using hcaps) _ hz
    rw [run_closing, run_star]
    cases z with
    | nil =>
      -- the blank is not skipped: the zero alone does not match
      rw [List.nil_append, expand_cons_fail (by decide)]
      · exact hrun
      · rw [expand_stop (stops_cons.2 (by decide)), run_flags_fail (by simpa using hcaps) (.inr rfl)]
    | cons c z =>
      rw [expand_stop, hrun]
      rcases hstop with h | h
      · exact h
      · simp at h
  have hsplit : b = b.takeWhile categoryChar ++ b.dropWhile categoryChar := List.takeWhile_append_dropWhile.symm
  have hm : ∀ c ∈ b.takeWhile categoryChar, categoryChar c = true := fun c hc => List.mem_takeWhile_imp hc
  have hmne : b.takeWhile categoryChar ≠ [] := by
    obtain ⟨c, b, rfl⟩ := List.exists_cons_of_ne_nil hne
    rw [List.takeWhile_cons_of_pos (hb c rfl)]
    simp
  have hstop : ∀ c z, b.dropWhile categoryChar = c :: z → categoryChar c = false := by
    intro c z h
    have := List.head?_dropWhile_not categoryChar b
    rw [h] at this
    simpa using this
  generalize b.takeWhile categoryChar = m at *
  generalize b.dropWhile categoryChar = z at *
  obtain ⟨c, m, rfl⟩ := List.exists_cons_of_ne_nil hmne
  rw [hsplit, categoryItems, run_opening _ (by omega), List.append_assoc, List.cons_append, run_plus,
    if_pos (hm c List.mem_cons_self)]
  have hm' : ∀ d ∈ m, categoryChar d = true := fun d hd => hm d (List.mem_cons_of_mem _ hd)
  have hk := hflags (c :: m) z hz
  cases z with
  | nil =>
    have htail := hk (.inr rfl)
    rw [List.nil_append] at htail ⊢
    have hlast : expand categoryChar (run src (.closing :: .chr space .star :: flagItems)
        (.opened (c :: (m ++ [' ', '0'])) :: caps)) [' ', '0'] = .ok (.text [] :: .text (c :: m) :: caps, []) := by
      have hzero := @run_behind_fail src _ hcaps (c :: m ++ [' ']) _ (.inr rfl : ['0'] = [] ∨ _)
      have hnil := @run_behind_fail src _ hcaps (c :: m ++ [' ', '0']) _ (.inl rfl)
      simp only [List.cons_append, List.append_assoc, List.nil_append, List.append_nil] at hzero hnil
      rw [expand_cons_fail (by decide)]
      · exact htail
      · rw [expand_cons_fail (p := categoryChar) (by decide) (by rw [expand, hnil]), hzero]
    rw [expand_append hm' (by rw [hlast]; simp), hlast]
  | cons d z =>
    have hd : Stops space (d :: z) := by
      have := hstop d z rfl
      rw [stops_cons]
      by_contra hsp
      obtain rfl : d = ' ' := space_iff.1 (by simpa using hsp)
      exact absurd this (by decide)
    have htail := hk (.inl hd)
    rw [expand_word hm' (by simpa using hstop d z rfl)]
    · exact htail
    · rw [← List.cons_append, htail]
      simp

/-! ## The tail -/

/-- What follows the slash: categories, then flags. -/
def Body (b : Text) : Prop :=
  ∃ c f, b = c ++ f ∧ (∀ x ∈ c, categoryChar x = true) ∧ ∀ x ∈ f, flagChar x = true

theorem Body.flags {b : Text} (h : Body b) : ∀ x ∈ b.dropWhile categoryChar, flagChar x = true := by
  obtain ⟨c, f, rfl, hc, hf⟩ := h
  rw [List.dropWhile_append_of_pos hc]
  exact fun x hx => hf x ((List.dropWhile_suffix _).subset hx)

theorem Body.of_suffix {a b : Text} (h : Body (a ++ b)) : Body b := by
  obtain ⟨c, f, he, hc, hf⟩ := h
  rcases List.append_eq_append_iff.1 he with ⟨d, rfl, rfl⟩ | ⟨d, rfl, rfl⟩
  · exact ⟨d, f, rfl, fun x hx => hc x (by simp [hx]), hf⟩
  · exact ⟨[], b, rfl, by simp, fun x hx => hf x (by simp [hx])⟩

/-- The categories behind a category `/`, if any can start there. -/
def slashed : Text → Option Text
  | '/' :: ' ' :: c :: b => if categoryChar c then some (c :: b) else none
  | _ => none

/-- The extra version, the categories and the flags that are read from a text without an extra version. -/
def tailOf (b : Text) : Text × Text × Text :=
  match slashed (b.dropWhile space) with
  | some b' => (['/'], b'.takeWhile categoryChar, b'.dropWhile categoryChar)
  | none => ([], b.takeWhile categoryChar, b.dropWhile categoryChar)

theorem slashed_some {b b' : Text} (h : slashed b = some b') :
    b = '/' :: ' ' :: b' ∧ b' ≠ [] ∧ ∀ c, b'.head? = some c → categoryChar c = true := by
  unfold slashed at h
  split at h
  · split at h
    next hc =>
      cases h
      exact ⟨rfl, by simp, by simpa using hc⟩
    · simp at h
  · simp at h

theorem run_slash (caps : List Cap) (s : Text) :
    run src (.chr (Class.test (.lit '/')) .one :: .chr space .one :: categoryItems) caps ('/' :: ' ' :: s) =
      run src categoryItems caps s := rfl

theorem run_categories_fail (hcaps : caps.length + 1 < maxCaptures) {s : Text}
    (hs : s = ['0'] ∨ s = [' ', '0'] ∨ ∃ c b, s = c :: b ∧ categoryChar c = false) :
    run src categoryItems caps s = .fail := by
  have hnil := fun u => @run_behind_fail src _ hcaps u _ (.inl rfl)
  have hzero := fun u => @run_behind_fail src _ hcaps u _ (.inr rfl : ['0'] = [] ∨ _)
  rcases hs with rfl | rfl | ⟨c, b, rfl, hc⟩
  · rw [categoryItems, run_opening _ (by omega), run_plus, if_pos (by decide), expand]
    exact hnil ['0']
  · rw [categoryItems, run_opening _ (by omega), run_plus, if_pos (by decide), expand_cons_fail (by decide)]
    · exact hzero [' ']
    · exact hnil [' ', '0']
  · rw [categoryItems, run_opening _ (by omega), run_plus, if_neg (by simp [hc])]

/-- Without categories behind a slash nothing matches from it on. -/
theorem run_slashed_none (hcaps : caps.length + 1 < maxCaptures) {b : Text} (h : slashed b = none)
    (hstop : Stops space b) :
    run src (.chr (Class.test (.lit '/')) .one :: .chr space .one :: categoryItems) caps (b ++ [' ', '0']) = .fail := by
  cases b with
  | nil => rfl
  | cons d b =>
    by_cases hd : d = '/'
    · subst hd
      rw [List.cons_append, run_one, if_pos (by decide)]
      cases b with
      | nil => exact run_categories_fail hcaps (.inl rfl)
      | cons e b =>
        by_cases he : e = ' '
        · subst he
          rw [List.cons_append, run_one, if_pos (by decide)]
          cases b with
          | nil => exact run_categories_fail hcaps (.inr (.inl rfl))
          | cons c b =>
            refine run_categories_fail hcaps (.inr (.inr ⟨c, b ++ [' ', '0'], rfl, ?_⟩))
            by_contra hc
            simp [slashed, hc] at h
        · rw [List.cons_append, run_one, if_neg (by simpa [space_iff] using he)]
    · rw [List.cons_append, run_one, if_neg (by simpa [Class.test] using hd)]

/-- The tail with an extra version. -/
theorem run_tail_extra (hcaps : caps.length + 2 < maxCaptures) {x b : Text} (hx : Field wordChar x) (hb : Body b)
    (hne : b ≠ []) (hhead : ∀ c, b.head? = some c → categoryChar c = true) :
    run src tailItems caps (x ++ (' ' :: '/' :: ' ' :: (b ++ [' ', '0']))) =
      .ok (.text (b.dropWhile categoryChar) :: .text (b.takeWhile categoryChar) :: .text x :: caps, []) := by
  have hcat := @run_categories src (.text x :: caps) (by simpa using hcaps) _ hne hhead hb.flags
  have hskip : run src (.chr space .star :: .chr (Class.test (.lit '/')) .one :: .chr space .one :: categoryItems)
      (.text x :: caps) (' ' :: '/' :: ' ' :: (b ++ [' ', '0'])) = run src categoryItems (.text x :: caps)
        (b ++ [' ', '0']) := by
    rw [run_star]
    refine expand_word (w := [' ']) (by simp [space_iff]) (stops_cons.2 (by decide)) ?_
    rw [run_slash, hcat]
    simp
  rw [tailItems, run_opening _ (by omega), run_star, expand_word hx.chars (stops_cons.2 (by decide))]
  · rw [run_closing, hskip, hcat]
  · rw [run_closing, hskip, hcat]
    simp

/-- The tail without an extra version: the slash is tried for it first. -/
theorem run_tail (hcaps : caps.length + 2 < maxCaptures) {b : Text} (hb : Body b)
    (hne : b ≠ []) (hhead : ∀ c, b.head? = some c → categoryChar c = true) :
    run src tailItems caps ('/' :: ' ' :: (b ++ [' ', '0'])) =
      .ok (.text (tailOf b).2.2 :: .text (tailOf b).2.1 :: .text (tailOf b).1 :: caps, []) := by
  have hstop : Stops space (b.dropWhile space) := by
    have hd := List.head?_dropWhile_not space b
    cases h : b.dropWhile space with
    | nil => trivial
    | cons d r => simpa [h] using hd
  have hsp : ∀ c ∈ b.takeWhile space, space c = true := fun c hc => List.mem_takeWhile_imp hc
  have hsplit : b = b.takeWhile space ++ b.dropWhile space := List.takeWhile_append_dropWhile.symm
  -- behind the slash taken for an extra version
  have hextra : run src (.closing :: .chr space .star :: .chr (Class.test (.lit '/')) .one :: .chr space .one ::
      categoryItems) (.opened ('/' :: ' ' :: (b ++ [' ', '0'])) :: caps) (' ' :: (b ++ [' ', '0'])) =
      expand space (run src (.chr (Class.test (.lit '/')) .one :: .chr space .one :: categoryItems)
        (.text ['/'] :: caps)) ((' ' :: b.takeWhile space) ++ (b.dropWhile space ++ [' ', '0'])) := by
    have := @run_closing src (.chr space .star :: .chr (Class.test (.lit '/')) .one :: .chr space .one ::
      categoryItems) caps ['/'] (' ' :: (b ++ [' ', '0']))
    rw [List.singleton_append] at this
    rw [this, run_star, List.cons_append, ← List.append_assoc, ← hsplit]
  have hsp' : ∀ c ∈ ' ' :: b.takeWhile space, space c = true := by
    intro c hc
    rcases List.mem_cons.1 hc with rfl | hc
    · decide
    · exact hsp c hc
  rw [tailItems, run_opening _ (by omega), run_star, expand, if_pos (by decide), expand_stop (stops_cons.2 (by decide)),
    hextra, tailOf]
  cases h : slashed (b.dropWhile space) with
  | some b' =>
    obtain ⟨hb', hne', hhead'⟩ := slashed_some h
    have hbody : Body b' := by
      refine Body.of_suffix (a := b.takeWhile space ++ ['/', ' ']) ?_
      rwa [List.append_assoc, List.cons_append, List.singleton_append, ← hb', ← hsplit]
    have hcat := @run_categories src (.text ['/'] :: caps) (by simpa using hcaps) _ hne' hhead'
      hbody.flags
    have hstop' : Stops space (b.dropWhile space ++ [' ', '0']) := by
      rw [hb']
      exact stops_cons.2 (by decide)
    rw [expand_word hsp' hstop']
    · rw [hb', List.cons_append, List.cons_append, run_slash, hcat]
    · rw [hb', List.cons_append, List.cons_append, run_slash, hcat]
      simp
  | none =>
    have hnone := @run_slashed_none src (.text ['/'] :: caps) (by simpa using hcaps) _ h hstop
    have hcat := @run_categories src (.text [] :: caps) (by simpa using hcaps) _ hne hhead hb.flags
    have hfail : expand space (run src (.chr (Class.test (.lit '/')) .one :: .chr space .one :: categoryItems)
        (.text ['/'] :: caps)) ((' ' :: b.takeWhile space) ++ (b.dropWhile space ++ [' ', '0'])) = .fail := by
      have hslash : ∀ c t, space c = true → run src (.chr (Class.test (.lit '/')) .one :: .chr space .one ::
          categoryItems) (.text ['/'] :: caps) (c :: t) = .fail := by
        intro c t hc
        obtain rfl := space_iff.1 hc
        rfl
      cases hd : b.dropWhile space with
      | nil =>
        rw [show (' ' :: b.takeWhile space) ++ ([] ++ [' ', '0']) = (' ' :: b.takeWhile space ++ [' ']) ++ ['0'] by
          simp]
        refine expand_fail (fun c hc => ?_) (stops_cons.2 (by decide)) hslash rfl
        rcases List.mem_append.1 hc with hc | hc
        · exact hsp' c hc
        · obtain rfl := List.mem_singleton.1 hc
          decide
      | cons d r =>
        rw [hd] at hstop hnone
        exact expand_fail hsp' hstop hslash hnone
    rw [hfail]
    have := @run_closing src (.chr space .star :: .chr (Class.test (.lit '/')) .one :: .chr space .one ::
      categoryItems) caps [] ('/' :: ' ' :: (b ++ [' ', '0']))
    rw [List.nil_append] at this
    simp only
    rw [this, run_star, expand_stop (stops_cons.2 (by decide)), run_slash, hcat]

end

/-! ## The head -/

/-- What a match captures. -/
structure Parts where
  status : Char
  stages : Text
  priority : Text
  repository : Text
  name : Text
  ver : Text
  extraver : Text
  categories : Text
  flags : Text

def Parts.headCaps (q : Parts) : List Cap :=
  [.text q.ver, .text q.name, .text q.repository, .text q.priority, .text q.stages, .text [q.status]]

def Parts.caps (q : Parts) : List Cap := .text q.flags :: .text q.categories :: .text q.extraver :: q.headCaps

/-- The part of a line before the extra version. -/
def Parts.headText (q : Parts) (tail : Text) : Text :=
  q.status :: ' ' :: (q.stages ++ ' ' :: (q.priority ++ ' ' :: (q.repository ++ ' ' :: (q.name ++ ' ' ::
    (q.ver ++ ' ' :: tail)))))

structure Parts.Head (q : Parts) : Prop where
  status : q.status = 'X' ∨ q.status = 'O'
  stages : Field stageChar q.stages
  priority : Field priorityChar q.priority
  repository : Field wordChar q.repository
  name : Field wordChar q.name
  ver : Field wordChar q.ver

theorem run_fieldItems {src : Text} {caps : List Cap} {p : Char → Bool} {w s : Text} {is : List Item} {r : State}
    (hcaps : caps.length < maxCaptures) (hw : Field p w) (hp : p ' ' = false) (hs : Stops space s)
    (h : run src is (.text w :: caps) s = .ok r) : run src (fieldItems p is) caps (w ++ ' ' :: s) = .ok r := by
  rw [fieldItems, run_field hcaps hw.ne hw.chars hp (by decide) hs (by rw [h]; simp), h]

/-- **The head**: if the rest of a line matches at all, the fields before it are its words. -/
theorem run_head {src : Text} {q : Parts} {tail : Text} {r : State} (hd : q.Head) (htail : Stops space tail)
    (h : run src tailItems q.headCaps tail = .ok r) : run src lineItems [] (q.headText tail) = .ok r := by
  obtain ⟨status, stages, priority, repository, name, ver, x, c, f⟩ := q
  have hfields : run src (fieldItems stageChar <| fieldItems priorityChar <| fieldItems wordChar <|
      fieldItems wordChar <| fieldItems wordChar tailItems) [.text [status]] (stages ++ ' ' :: (priority ++ ' ' ::
        (repository ++ ' ' :: (name ++ ' ' :: (ver ++ ' ' :: tail))))) = .ok r := by
    refine run_fieldItems (by simp [maxCaptures]) hd.stages (by decide) (hd.priority.stops (by decide) _) ?_
    refine run_fieldItems (by simp [maxCaptures]) hd.priority (by decide) (hd.repository.stops (by decide) _) ?_
    refine run_fieldItems (by simp [maxCaptures]) hd.repository (by decide) (hd.name.stops (by decide) _) ?_
    refine run_fieldItems (by simp [maxCaptures]) hd.name (by decide) (hd.ver.stops (by decide) _) ?_
    exact run_fieldItems (by simp [maxCaptures]) hd.ver (by decide) htail h
  have hstop : Stops space (stages ++ ' ' :: (priority ++ ' ' :: (repository ++ ' ' :: (name ++ ' ' ::
      (ver ++ ' ' :: tail))))) := hd.stages.stops (by decide) _
  unfold Parts.headText
  generalize stages ++ ' ' :: (priority ++ ' ' :: (repository ++ ' ' :: (name ++ ' ' :: (ver ++ ' ' :: tail)))) = s
    at *
  have hst : Class.test (.set false "XO".toList) status = true := by
    rcases hd.status with rfl | rfl <;> decide
  have hclose := @run_closing src (.chr space .star :: (fieldItems stageChar <|
    fieldItems priorityChar <| fieldItems wordChar <| fieldItems wordChar <| fieldItems wordChar tailItems))
    [] [status] (' ' :: s)
  rw [List.singleton_append] at hclose
  change run src lineItems [] (status :: ' ' :: s) = _
  rw [lineItems, run_opening _ (by decide), run_one, if_pos hst, hclose, run_star, ← hfields]
  exact expand_word (p := space) (w := [' ']) (by simp [space_iff]) hstop (by rw [hfields]; simp)

/-! ## What is read -/

/-- The captures of a match are of their classes. -/
structure Parts.Ok (q : Parts) : Prop extends q.Head where
  extraver : ∀ c ∈ q.extraver, wordChar c = true
  categoriesNe : q.categories ≠ []
  categories : ∀ c ∈ q.categories, categoryChar c = true
  flags : ∀ c ∈ q.flags, flagChar c = true
  flagsStop : Stops space q.flags

section
variable {src : Text} {caps : List Cap}

theorem flags_sound {s : Text} {a : State} (h : run src (.chr space .star :: flagItems) caps s = .ok a) :
    ∃ f, a.1 = .text f :: caps ∧ (∀ c ∈ f, flagChar c = true) ∧ Stops space f := by
  obtain ⟨sp, t, rfl, -, ht, hlonger⟩ := expand_sound h
  obtain ⟨f, u, rfl, hf, hu⟩ := capture_star_sound ht
  obtain ⟨b, u, rfl, hb, hu⟩ := one_sound hu
  obtain ⟨z, u, rfl, hz, hu⟩ := one_sound hu
  refine ⟨f, by cases hu; rfl, hf, ?_⟩
  cases f with
  | nil => trivial
  | cons c f =>
    rw [stops_cons]
    by_contra hc
    -- then the blank had been skipped, and the rest matched as well
    have hfail := hlonger c _ rfl (by simpa using hc)
    have hf' : ∀ d ∈ f, flagChar d = true := fun d hd => hf d (List.mem_cons_of_mem _ hd)
    refine expand_ne_fail (w := []) (by simp) ?_ hfail
    have hcaps : ¬ maxCaptures ≤ caps.length := by
      intro hle
      rw [flagItems, run, if_pos hle] at ht
      simp at ht
    change run src flagItems caps (f ++ b :: z :: u) ≠ .fail
    rw [flagItems, run_opening _ (by omega), run_star]
    refine expand_ne_fail hf' ?_
    rw [run_closing, run_one, if_pos hb, run_one, if_pos hz]
    simp

theorem tail_sound {s : Text} {a : State} (h : run src tailItems caps s = .ok a) :
    ∃ x c f, a.1 = .text f :: .text c :: .text x :: caps ∧ (∀ d ∈ x, wordChar d = true) ∧ c ≠ [] ∧
      (∀ d ∈ c, categoryChar d = true) ∧ (∀ d ∈ f, flagChar d = true) ∧ Stops space f ∧
      ∃ v, '/' :: ' ' :: (c ++ v) <:+ s := by
  obtain ⟨x, t, rfl, hx, ht⟩ := capture_star_sound h
  obtain ⟨sp, t, rfl, -, ht, -⟩ := expand_sound ht
  obtain ⟨d, t, rfl, hd, ht⟩ := one_sound ht
  obtain ⟨e, t, rfl, he, ht⟩ := one_sound ht
  obtain ⟨c, v, rfl, hne, hc, ht⟩ := capture_sound ht
  obtain ⟨f, ha, hf, hstop⟩ := flags_sound ht
  obtain rfl : d = '/' := by simpa [Class.test] using hd
  obtain rfl := space_iff.1 he
  refine ⟨x, c, f, ha, hx, hne, hc, hf, hstop, v, ?_⟩
  rw [← List.append_assoc]
  exact List.suffix_append _ _

theorem field_sound {p : Char → Bool} {is : List Item} {s : Text} {a : State}
    (h : run src (fieldItems p is) caps s = .ok a) :
    ∃ w t, Field p w ∧ t <:+ s ∧ run src is (.text w :: caps) t = .ok a := by
  obtain ⟨w, t, rfl, hne, hw, ht⟩ := capture_sound h
  obtain ⟨sp, t, rfl, -, ht, -⟩ := expand_sound ht
  refine ⟨w, t, ⟨hne, hw⟩, ?_, ht⟩
  rw [← List.append_assoc]
  exact List.suffix_append _ _

end

/-- The categories stand behind a slash and a blank. -/
theorem line_sound {src s : Text} {a : State} (h : run src lineItems [] s = .ok a) :
    ∃ q : Parts, a.1 = q.caps ∧ q.Ok ∧ ∃ v, '/' :: ' ' :: (q.categories ++ v) <:+ s := by
  obtain ⟨status, s, rfl, hst, h⟩ := one_sound (run_opening_ok h)
  have hclose := @run_closing src (.chr space .star :: (fieldItems stageChar <|
    fieldItems priorityChar <| fieldItems wordChar <| fieldItems wordChar <| fieldItems wordChar tailItems))
    [] [status] s
  rw [List.singleton_append] at hclose
  rw [hclose] at h
  obtain ⟨sp, s0, rfl, -, h, -⟩ := expand_sound h
  obtain ⟨stages, s1, hstages, h1, h⟩ := field_sound h
  obtain ⟨priority, s2, hpriority, h2, h⟩ := field_sound h
  obtain ⟨repository, s3, hrepository, h3, h⟩ := field_sound h
  obtain ⟨name, s4, hname, h4, h⟩ := field_sound h
  obtain ⟨ver, s5, hver, h5, h⟩ := field_sound h
  obtain ⟨x, c, f, ha, hx, hne, hc, hf, hstop, v, h6⟩ := tail_sound h
  have hstatus : status = 'X' ∨ status = 'O' := by simpa [Class.test, setElems] using hst
  have hsuf : '/' :: ' ' :: (c ++ v) <:+ status :: (sp ++ s0) :=
    (h6.trans <| h5.trans <| h4.trans <| h3.trans <| h2.trans h1).trans <|
      (List.suffix_append sp s0).trans (List.suffix_cons _ _)
  exact ⟨⟨status, stages, priority, repository, name, ver, x, c, f⟩, ha, ⟨⟨hstatus, hstages, hpriority, hrepository,
    hname, hver⟩, hx, hne, hc, hf, hstop⟩, v, hsuf⟩

/-- The entry of a match. -/
def Parts.pkg (q : Parts) : Pkg :=
  let status := if [q.status] = ['X'] then Status.X else .O
  { status, stages := q.stages, priority := q.priority, repository := q.repository, name := q.name, ver := q.ver,
    extraver := q.extraver, categories := trimCategories q.categories, flags := q.flags, pkgAlias := q.name,
    defaultStatus := status }

theorem linePattern_head : linePattern.head? ≠ some '^' := by decide

theorem readLine_of_run {line rest : Text} {q : Parts} (h : run line lineItems [] line = .ok (q.caps, rest)) :
    readLine line = some q.pkg := by
  have hm : strMatch linePattern line = .ok [[q.status], q.stages, q.priority, q.repository, q.name, q.ver,
      q.extraver, q.categories, q.flags] :=
    strMatch_of_run linePattern_head (by simp) (by rw [items_linePattern, h]; rfl)
  rw [readLine, hm]
  rfl

theorem readLine_sound {line : Text} {e : Pkg} (h : readLine line = some e) :
    ∃ q : Parts, q.Ok ∧ e = q.pkg ∧ ∃ v, '/' :: ' ' :: (q.categories ++ v) <:+ line := by
  unfold readLine at h
  split at h
  next status stages priority repository name ver x c f hm =>
    obtain ⟨t, caps, rest, hsuf, hrun, htexts⟩ := strMatch_sound linePattern_head hm
    rw [items_linePattern] at hrun
    obtain ⟨q, rfl, hq, v, hv⟩ := line_sound hrun
    refine ⟨q, hq, ?_, v, hv.trans hsuf⟩
    have hcaps : q.caps.reverse = [[q.status], q.stages, q.priority, q.repository, q.name, q.ver, q.extraver,
        q.categories, q.flags].map Cap.text := rfl
    rw [hcaps, texts_of_text (by simp)] at htexts
    simp only [Res.ok.injEq, List.cons.injEq, and_true] at htexts
    obtain ⟨rfl, rfl, rfl, rfl, rfl, rfl, rfl, rfl, rfl⟩ := htexts
    cases h
    rfl
  · simp at h

/-! ## Trimming -/

def trimItems : List Item :=
  [.opening, .chr (Class.test .any) .star, .chr wordChar .one, .closing, .chr space .star]

theorem items_trim : items "(.*%S) *".toList = trimItems := by
  have htoks : toks "(.*%S) *".toList = [.opening, .chr .any .star, .chr (.esc 'S') .one, .closing,
    .chr (.lit ' ') .star] := by decide
  rw [items, htoks]
  rfl

/-- Every text is without words, or has a last character of one. -/
theorem last_word (t : Text) : (∀ c ∈ t, wordChar c = false) ∨
    ∃ u c s, t = u ++ c :: s ∧ wordChar c = true ∧ ∀ d ∈ s, wordChar d = false := by
  induction t with
  | nil => exact .inl (by simp)
  | cons a t ih =>
    rcases ih with h | ⟨u, c, s, rfl, hc, hs⟩
    · by_cases ha : wordChar a = true
      · exact .inr ⟨[], a, t, rfl, ha, h⟩
      · refine .inl fun d hd => ?_
        rcases List.mem_cons.1 hd with rfl | hd
        · simpa using ha
        · exact h d hd
    · exact .inr ⟨a :: u, c, s, rfl, hc, hs⟩

theorem trimCategories_eq {u s : Text} {c : Char} (hc : wordChar c = true) (hs : ∀ d ∈ s, wordChar d = false) :
    trimCategories (u ++ c :: s) = some (u ++ [c]) := by
  have hend : run (u ++ c :: s) [.chr wordChar .one, .closing, .chr space .star] [.opened (u ++ c :: s)] (c :: s) =
      .ok ([.text (u ++ [c])], s.dropWhile space) := by
    have hclose := @run_closing (u ++ c :: s) [.chr space .star] [] (u ++ [c]) s
    rw [List.append_assoc, List.singleton_append] at hclose
    rw [run_one, if_pos hc, hclose, run_last]
  -- `.*` gives up what is behind the last word character
  have hbehind : expand (Class.test .any) (run (u ++ c :: s) [.chr wordChar .one, .closing, .chr space .star]
      [.opened (u ++ c :: s)]) s = .fail := by
    refine expand_fail_all fun t ht => ?_
    cases t with
    | nil => rfl
    | cons d t => rw [run_one, if_neg (by simp [hs d (ht.subset List.mem_cons_self)])]
  have hlast : expand (Class.test .any) (run (u ++ c :: s) [.chr wordChar .one, .closing, .chr space .star]
      [.opened (u ++ c :: s)]) (c :: s) = .ok ([.text (u ++ [c])], s.dropWhile space) := by
    rw [expand_cons_fail rfl hbehind, hend]
  have hrun : run (u ++ c :: s) trimItems [] (u ++ c :: s) = .ok ([.text (u ++ [c])], s.dropWhile space) := by
    rw [trimItems, run_opening _ (by decide), run_star,
      expand_append (p := Class.test .any) (fun _ _ => rfl) (by rw [hlast]; simp), hlast]
  have hm : strMatch "(.*%S) *".toList (u ++ c :: s) = .ok [u ++ [c]] :=
    strMatch_of_run (by decide) (by simp) (by rw [items_trim, hrun]; rfl)
  rw [trimCategories, hm]

theorem trimCategories_blank {t : Text} (h : ∀ c ∈ t, wordChar c = false) : trimCategories t = none := by
  unfold trimCategories
  split
  next c hm =>
    obtain ⟨s, caps, rest, hsuf, hrun, -⟩ := strMatch_sound (by decide) hm
    rw [items_trim] at hrun
    obtain ⟨w, s, rfl, -, hs, -⟩ := expand_sound (run_opening_ok hrun)
    obtain ⟨d, s, rfl, hd, -⟩ := one_sound hs
    simp [h d (hsuf.subset (by simp))] at hd
  · rfl

/-! ## Well-formed entries -/

/-- Categories as they are kept: trimmed at the end. -/
structure Categories (c : Text) : Prop where
  chars : ∀ x ∈ c, categoryChar x = true
  last : ∃ u x, c = u ++ [x] ∧ wordChar x = true

structure Pkg.WF (e : Pkg) : Prop where
  stages : Field stageChar e.stages
  priority : Field priorityChar e.priority
  repository : Field wordChar e.repository
  pkgAlias : Field wordChar e.pkgAlias
  ver : Field wordChar e.ver
  extraver : ∀ c ∈ e.extraver, wordChar c = true
  categories : ∃ c, e.categories = some c ∧ Categories c
  flags : ∀ c ∈ e.flags, flagChar c = true
  flagsStop : Stops space e.flags

theorem trimCategories_some {t : Text} (ht : ∀ c ∈ t, categoryChar c = true) (hw : ∃ c ∈ t, wordChar c = true) :
    ∃ c, trimCategories t = some c ∧ Categories c := by
  rcases last_word t with h | ⟨u, c, s, rfl, hc, hs⟩
  · obtain ⟨c, hc, hword⟩ := hw
    simp [h c hc] at hword
  · refine ⟨_, trimCategories_eq hc hs, fun x hx => ht x ?_, u, c, rfl, hc⟩
    rcases List.mem_append.1 hx with hx | hx
    · exact List.mem_append.2 (.inl hx)
    · exact List.mem_append.2 (.inr (List.mem_cons.2 (.inl (List.mem_singleton.1 hx))))

theorem Parts.Ok.wf {q : Parts} (hq : q.Ok) (hw : ∃ c ∈ q.categories, wordChar c = true) : q.pkg.WF :=
  ⟨hq.stages, hq.priority, hq.repository, hq.name, hq.ver, hq.extraver, trimCategories_some hq.categories hw, hq.flags,
    hq.flagsStop⟩

/-- **What is read** is well formed, unless it has nothing but blanks for categories. -/
theorem readLine_wf {line : Text} {e : Pkg} (h : readLine line = some e) (hc : e.categories ≠ none) : e.WF := by
  obtain ⟨q, hq, rfl, -⟩ := readLine_sound h
  refine hq.wf ?_
  by_contra hno
  refine hc (trimCategories_blank fun c hc => ?_)
  by_contra hw
  exact hno ⟨c, hc, by simpa using hw⟩

/-! ## Reading a written entry -/

/-- The extra version, the categories and the flags that are read back. -/
def retail (e : Pkg) (c : Text) : Text × Text × Text :=
  if e.extraver = [] then tailOf (body c e.flags)
  else (e.extraver, (body c e.flags).takeWhile categoryChar, (body c e.flags).dropWhile categoryChar)

/-- The entry that is read back. -/
def reread (e : Pkg) (c : Text) : Pkg :=
  { e with
    name := e.pkgAlias
    extraver := (retail e c).1
    categories := trimCategories (retail e c).2.1
    flags := (retail e c).2.2
    defaultStatus := e.status }

def Pkg.parts (e : Pkg) (x c f : Text) : Parts :=
  ⟨if e.status = .X then 'X' else 'O', e.stages, e.priority, e.repository, e.pkgAlias, e.ver, x, c, f⟩

theorem Pkg.WF.body {e : Pkg} (h : e.WF) {c : Text} (hc : Categories c) : Body (body c e.flags) := by
  refine ⟨c, if e.flags.length > 0 then ' ' :: e.flags else [], rfl, hc.chars, fun x hx => ?_⟩
  split at hx
  · rcases List.mem_cons.1 hx with rfl | hx
    · decide
    · exact h.flags x hx
  · simp at hx

theorem Categories.ne {c : Text} (h : Categories c) : c ≠ [] := by
  obtain ⟨u, x, rfl, -⟩ := h.last
  simp

theorem Categories.head {c : Text} (h : Categories c) (f : Text) : ∀ x, (T2Sde.Packages.body c f).head? = some x →
    categoryChar x = true := by
  intro x hx
  obtain ⟨y, c', rfl⟩ := List.exists_cons_of_ne_nil h.ne
  obtain rfl : y = x := by simpa [T2Sde.Packages.body] using hx
  exact h.chars y List.mem_cons_self

/-- What stands behind the version. -/
def Pkg.tail (e : Pkg) (c : Text) : Text :=
  if e.extraver = [] then '/' :: ' ' :: (T2Sde.Packages.body c e.flags ++ [' ', '0'])
  else e.extraver ++ ' ' :: '/' :: ' ' :: (T2Sde.Packages.body c e.flags ++ [' ', '0'])

theorem Pkg.live_cases {e : Pkg} (h : e.live = true) : e.status = .X ∨ e.status = .O := by
  unfold Pkg.live at h
  cases hs : e.status with
  | X => exact .inl rfl
  | O => exact .inr rfl
  | removed => simp [hs] at h

theorem writeLine_eq {e : Pkg} (hl : e.live = true) (c x c' f : Text) :
    writeLine e c = (e.parts x c' f).headText (e.tail c) := by
  unfold writeLine Pkg.head Pkg.tail
  cases hx : e.extraver with
  | nil => rcases Pkg.live_cases hl with h | h <;> simp [h, Pkg.parts, Parts.headText, Status.text]
  | cons y x => rcases Pkg.live_cases hl with h | h <;> simp [h, Pkg.parts, Parts.headText, Status.text]

theorem Pkg.WF.run_tail {e : Pkg} (h : e.WF) {c : Text} (hc : Categories c) (src : Text) (q : Parts) :
    run src tailItems q.headCaps (e.tail c) =
      .ok (.text (retail e c).2.2 :: .text (retail e c).2.1 :: .text (retail e c).1 :: q.headCaps, []) := by
  have hne : T2Sde.Packages.body c e.flags ≠ [] := by simp [T2Sde.Packages.body, hc.ne]
  unfold Pkg.tail retail
  by_cases hx : e.extraver = []
  · rw [if_pos hx, if_pos hx]
    exact T2Sde.Packages.run_tail (by simp [Parts.headCaps, maxCaptures]) (h.body hc) hne (hc.head _)
  · rw [if_neg hx, if_neg hx]
    exact run_tail_extra (by simp [Parts.headCaps, maxCaptures]) ⟨hx, h.extraver⟩ (h.body hc) hne (hc.head _)

/-- **A written line** is read, with the same fields up to the version. -/
theorem readLine_writeLine {e : Pkg} (h : e.WF) (hl : e.live = true) {c : Text} (hc : Categories c) :
    readLine (writeLine e c) = some (reread e c) := by
  have hhead : (e.parts (retail e c).1 (retail e c).2.1 (retail e c).2.2).Head := by
    refine ⟨?_, h.stages, h.priority, h.repository, h.pkgAlias, h.ver⟩
    rcases Pkg.live_cases hl with hs | hs <;> simp [Pkg.parts, hs]
  have hstop : Stops space (e.tail c) := by
    unfold Pkg.tail
    by_cases hx : e.extraver = []
    · rw [if_pos hx]
      exact stops_cons.2 (by decide)
    · rw [if_neg hx]
      exact Field.stops ⟨hx, h.extraver⟩ (by decide) _
  rw [@readLine_of_run _ [] (e.parts (retail e c).1 (retail e c).2.1 (retail e c).2.2)]
  · rcases Pkg.live_cases hl with hs | hs <;> simp [Parts.pkg, Pkg.parts, reread, hs]
  · rw [writeLine_eq hl c (retail e c).1 (retail e c).2.1 (retail e c).2.2]
    exact run_head hhead hstop (h.run_tail hc _ _)

theorem takeWhile_body {c : Text} (hc : ∀ x ∈ c, categoryChar x = true) (r : Text) :
    (c ++ r).takeWhile categoryChar = c ++ r.takeWhile categoryChar :=
  List.takeWhile_append_of_pos hc

theorem dropWhile_last {c u : Text} {y : Char} (hc : c = u ++ [y]) (hy : wordChar y = true) :
    ∃ v, c.dropWhile space = v ++ [y] := by
  have hsp : ¬ space y = true := by
    intro h
    obtain rfl := space_iff.1 h
    exact absurd hy (by decide)
  subst hc
  rw [List.dropWhile_append]
  split
  · exact ⟨[], by rw [List.dropWhile_cons_of_neg hsp]; rfl⟩
  · exact ⟨u.dropWhile space, rfl⟩

/-- The categories that are read back are not blank. -/
theorem retail_word {e : Pkg} (h : e.WF) {c : Text} (hc : Categories c) :
    ∃ x ∈ (retail e c).2.1, wordChar x = true := by
  obtain ⟨u, y, hcu, hy⟩ := hc.last
  have hfront : ∃ x ∈ (body c e.flags).takeWhile categoryChar, wordChar x = true := by
    rw [body, takeWhile_body hc.chars]
    exact ⟨y, by simp [hcu], hy⟩
  unfold retail tailOf
  by_cases hx : e.extraver = []
  · rw [if_pos hx]
    cases hs : slashed ((body c e.flags).dropWhile space) with
    | none => exact hfront
    | some b =>
      obtain ⟨hb, hne, hhead⟩ := slashed_some hs
      obtain ⟨v, hv⟩ : ∃ v, c.dropWhile space = v ++ [y] := dropWhile_last hcu hy
      have hvc : ∀ x ∈ v ++ [y], categoryChar x = true := by
        rw [← hv]
        exact fun x hx => hc.chars x ((List.dropWhile_suffix _).subset hx)
      have hdrop : (body c e.flags).dropWhile space =
          v ++ [y] ++ (if e.flags.length > 0 then ' ' :: e.flags else []) := by
        rw [body, List.dropWhile_append, hv]
        simp
      rw [hdrop] at hb
      match v, hvc, hb with
      | [], _, hb =>
        -- the categories are the slash alone: the flags are read for them
        simp only [List.nil_append, List.cons_append, List.cons.injEq] at hb
        obtain ⟨z, b, rfl⟩ := List.exists_cons_of_ne_nil hne
        have hz := hhead z rfl
        refine ⟨z, by simp [List.takeWhile_cons_of_pos hz], word_of_category hz fun hsp => ?_⟩
        have hstop := h.flagsStop
        split at hb
        · simp only [List.cons.injEq, true_and] at hb
          rw [hb.2, stops_cons, hsp] at hstop
          simp [space, Class.test] at hstop
        · simp at hb
      | [w], _, hb =>
        simp only [List.cons_append, List.nil_append, List.cons.injEq] at hb
        rw [hb.2.1] at hy
        exact absurd hy (by decide)
      | w :: w' :: v, hvc, hb =>
        simp only [List.cons_append, List.cons.injEq] at hb
        have hall : ∀ x ∈ v ++ [y], categoryChar x = true := fun x hx => hvc x (by simp at hx ⊢; tauto)
        refine ⟨y, ?_, hy⟩
        simp only [← hb.2.2]
        rw [takeWhile_body hall]
        simp
  · rw [if_neg hx]
    exact hfront

/-- What is read back is well formed again. -/
theorem reread_wf {e : Pkg} (h : e.WF) (hl : e.live = true) {c : Text} (hc : Categories c) : (reread e c).WF := by
  have hchars : ∀ x ∈ (retail e c).2.1, categoryChar x = true := by
    unfold retail tailOf
    intro x hx
    split at hx
    · split at hx <;> exact List.mem_takeWhile_imp hx
    · exact List.mem_takeWhile_imp hx
  obtain ⟨c', hc', -⟩ := trimCategories_some hchars (retail_word h hc)
  exact readLine_wf (readLine_writeLine h hl hc) (by simp [reread, hc'])

end T2Sde.Packages
