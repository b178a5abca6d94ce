import T2Sde.Packages.Printed
/-!
# From the `.desc` files to the table and back

A line that `Create-PkgList` prints is read by `pkglistread`, and `pkglistwrite` prints what was read. The
categories are a field of lower case letters, digits, slashes *and blanks*, so they go on into the flags as far
as these look the same (`run_categories`). Where that ends inside a flag, the flag is cut in two; where it ends
between two flags, the line is printed as it was.

* `line_roundTrip` — a line is reproduced iff its version is a word and no flag is cut (`Clean`).
* `pkglist_roundTrip` — the same for a list, with the tables that `pkgswitch` makes of it.
-/
namespace T2Sde.Packages
open Shell Pattern Lua
open Desc (Awk record printPackage spaced)

/-! ## Words with blanks between -/

/-- The characters of a category or flag. -/
def inWord (p : Char → Bool) (c : Char) : Bool := p c && c != ' '

/-- No word is cut: the first one that is not all of the category alphabet starts outside it. -/
def NoCut : List Text → Prop
  | [] => True
  | w :: ws => if w.all categoryChar then NoCut ws else ∀ c, w.head? = some c → categoryChar c = false

instance NoCut.decidable : (ws : List Text) → Decidable (NoCut ws)
  | [] => .isTrue trivial
  | w :: ws =>
    have : Decidable (NoCut ws) := NoCut.decidable ws
    have : Decidable (∀ c, w.head? = some c → categoryChar c = false) :=
      match w with
      | [] => .isTrue (by simp)
      | c :: _ => decidable_of_iff (categoryChar c = false) (by simp)
    inferInstanceAs
      (Decidable (if w.all categoryChar then NoCut ws else ∀ c, w.head? = some c → categoryChar c = false))

theorem noCut_append {us ws : List Text} (hu : ∀ w ∈ us, w.all categoryChar = true) : NoCut (us ++ ws) ↔ NoCut ws := by
  induction us with
  | nil => rfl
  | cons u us ih =>
    rw [List.cons_append, NoCut, if_pos (hu u List.mem_cons_self)]
    exact ih fun w hw => hu w (List.mem_cons_of_mem _ hw)

/-- Either all words are of the category alphabet, or the first that is not is split where it leaves it. -/
theorem words_cases (ws : List Text) :
    (∀ w ∈ ws, w.all categoryChar = true) ∨
    ∃ us a c w vs, ws = us ++ (a ++ c :: w) :: vs ∧ (∀ u ∈ us, u.all categoryChar = true) ∧
      (∀ x ∈ a, categoryChar x = true) ∧ categoryChar c = false ∧ (NoCut ws ↔ a = []) := by
  induction ws with
  | nil => exact .inl (by simp)
  | cons v ws ih =>
    by_cases hv : v.all categoryChar = true
    · rcases ih with h | ⟨us, a, c, w, vs, rfl, hus, ha, hc, hcut⟩
      · exact .inl (List.forall_mem_cons.2 ⟨hv, h⟩)
      · refine .inr ⟨v :: us, a, c, w, vs, rfl, List.forall_mem_cons.2 ⟨hv, hus⟩, ha, hc, ?_⟩
        rw [NoCut, if_pos hv, hcut]
    · have hsplit : v = v.takeWhile categoryChar ++ v.dropWhile categoryChar := List.takeWhile_append_dropWhile.symm
      cases hd : v.dropWhile categoryChar with
      | nil =>
        rw [hd, List.append_nil] at hsplit
        refine absurd (List.all_eq_true.2 fun x hx => ?_) hv
        rw [hsplit] at hx
        exact List.mem_takeWhile_imp hx
      | cons c w =>
        have hc : categoryChar c = false := by
          have := List.head?_dropWhile_not categoryChar v
          rw [hd] at this
          simpa using this
        refine .inr ⟨[], v.takeWhile categoryChar, c, w, ws, by rw [← hd, ← hsplit]; rfl, by simp,
          fun x hx => List.mem_takeWhile_imp hx, hc, ?_⟩
        rw [NoCut, if_neg hv]
        rw [hd] at hsplit
        constructor
        · intro h
          cases ht : v.takeWhile categoryChar with
          | nil => rfl
          | cons x a =>
            have hx : categoryChar x = true := List.mem_takeWhile_imp (l := v) (by simp [ht])
            rw [hsplit, ht] at h
            simp [h x rfl] at hx
        · intro h x hx
          rw [hsplit, h] at hx
          obtain rfl : c = x := by simpa using hx
          exact hc

theorem spaced_categoryChars {us : List Text} (hu : ∀ u ∈ us, u.all categoryChar = true) :
    ∀ c ∈ spaced us, categoryChar c = true := by
  intro c hc
  obtain ⟨u, hmem, hc⟩ := List.mem_flatMap.1 hc
  rcases List.mem_cons.1 hc with rfl | hc
  · decide
  · exact List.all_eq_true.1 (hu u hmem) c hc

/-- The text of words ends with a character of one. -/
theorem spaced_last {ws : List Text} (hne : ws ≠ []) (hw : ∀ w ∈ ws, w ≠ [] ∧ ∀ c ∈ w, c ≠ ' ') :
    ∃ u x, spaced ws = u ++ [x] ∧ x ≠ ' ' := by
  obtain ⟨us, w, rfl⟩ := (List.eq_nil_or_concat ws).resolve_left hne
  obtain ⟨hwne, hwc⟩ := hw w (by simp)
  obtain ⟨v, x, rfl⟩ := (List.eq_nil_or_concat w).resolve_left hwne
  refine ⟨spaced us ++ ' ' :: v, x, ?_, hwc x (by simp)⟩
  simp [spaced]

/-! ## Cutting -/

theorem takeWhile_split {p : Char → Bool} {a r : Text} {c : Char} (ha : ∀ x ∈ a, p x = true) (hc : p c = false) :
    (a ++ c :: r).takeWhile p = a ∧ (a ++ c :: r).dropWhile p = c :: r := by
  constructor
  · rw [List.takeWhile_append_of_pos ha, List.takeWhile_cons_of_neg (by simp [hc]), List.append_nil]
  · rw [List.dropWhile_append_of_pos ha, List.dropWhile_cons_of_neg (by simp [hc])]

theorem trim_self {u : Text} {x : Char} (hx : categoryChar x = true) (hsp : x ≠ ' ') (s : Text)
    (hs : ∀ d ∈ s, d = ' ') : trimCategories (u ++ x :: s) = some (u ++ [x]) := by
  refine trimCategories_eq (word_of_category hx hsp) fun d hd => ?_
  rw [hs d hd]
  decide

/-- What is printed for the categories and flags that are read from a text of words. -/
theorem body_trim {ws : List Text} {b : Text} (hw : ∀ w ∈ ws, w ≠ [] ∧ ∀ c ∈ w, c ≠ ' ')
    (hb : spaced ws = ' ' :: b) (hhead : ∀ c, b.head? = some c → categoryChar c = true) :
    ∃ c, trimCategories (b.takeWhile categoryChar) = some c ∧
      (body c (b.dropWhile categoryChar) = b ↔ NoCut ws) := by
  have hne : ws ≠ [] := by
    rintro rfl
    simp [spaced] at hb
  rcases words_cases ws with hall | ⟨us, a, c, w, vs, rfl, hus, ha, hc, hcut⟩
  · -- everything is taken for categories
    have hchars : ∀ x ∈ b, categoryChar x = true := fun x hx => spaced_categoryChars hall x (by simp [hb, hx])
    obtain ⟨u, x, hu, hx⟩ := spaced_last hne hw
    have hbx : ∃ u, b = u ++ [x] := by
      rw [hb] at hu
      cases u with
      | nil => simp only [List.nil_append, List.cons.injEq] at hu; exact absurd hu.1.symm hx
      | cons d u => exact ⟨u, by simpa using (List.cons.inj hu).2⟩
    obtain ⟨u, rfl⟩ := hbx
    refine ⟨u ++ [x], ?_, ?_⟩
    · rw [List.takeWhile_eq_self_iff.2 hchars]
      exact trim_self (hchars x (by simp)) hx [] (by simp)
    · have hn : NoCut ws := by
        rw [← List.append_nil ws, noCut_append hall]
        trivial
      rw [List.dropWhile_eq_nil_iff.2 hchars]
      simp [body, hn]
  · have hfront : ∀ x ∈ spaced us ++ ' ' :: a, categoryChar x = true := by
      intro x hx
      rcases List.mem_append.1 hx with hx | hx
      · exact spaced_categoryChars hus x hx
      · rcases List.mem_cons.1 hx with rfl | hx
        · decide
        · exact ha x hx
    have htext : ' ' :: b = (spaced us ++ ' ' :: a) ++ c :: (w ++ spaced vs) := by
      rw [← hb, spaced_append]
      simp [spaced]
    obtain ⟨m, hm⟩ : ∃ m, spaced us ++ ' ' :: a = ' ' :: m := by
      cases us with
      | nil => exact ⟨a, rfl⟩
      | cons u us => exact ⟨u ++ spaced us ++ ' ' :: a, by simp [spaced]⟩
    rw [hm] at htext hfront
    obtain rfl : b = m ++ c :: (w ++ spaced vs) := by simpa using htext
    have hmc : ∀ x ∈ m, categoryChar x = true := fun x hx => hfront x (List.mem_cons_of_mem _ hx)
    obtain ⟨htake, hdrop⟩ := takeWhile_split (r := w ++ spaced vs) hmc hc
    rw [htake, hdrop]
    rcases List.eq_nil_or_concat a with rfl | ⟨a', x, rfl⟩
    · -- the categories end with the blank before a flag
      have hus' : us ≠ [] := by
        rintro rfl
        obtain rfl : [] = m := by simpa [spaced] using hm
        simp [hhead c rfl] at hc
      obtain ⟨u, x, hu, hx⟩ := spaced_last hus' fun u hu => hw u (by simp [hu])
      rw [hu] at hm
      obtain ⟨v, rfl⟩ : ∃ v, m = v ++ x :: [' '] := by
        cases u with
        | nil => simp only [List.nil_append, List.cons_append, List.cons.injEq] at hm; exact absurd hm.1 hx
        | cons d u => exact ⟨u, by simpa using (List.cons.inj hm).2.symm⟩
      have hn := hcut.2 rfl
      refine ⟨v ++ [x], trim_self (hmc x (by simp)) hx [' '] (by simp), fun _ => hn, fun _ => ?_⟩
      simp [body]
    · -- they end inside a flag
      simp only [List.concat_eq_append] at *
      have hx : x ≠ ' ' := (hw (a' ++ [x] ++ c :: w) (by simp)).2 x (by simp)
      obtain ⟨v, rfl⟩ : ∃ v, m = v ++ [x] := by
        cases hs : spaced us with
        | nil => exact ⟨a', by rw [hs] at hm; simpa using hm.symm⟩
        | cons d r =>
          rw [hs, List.cons_append] at hm
          exact ⟨r ++ ' ' :: a', by simpa using (List.cons.inj hm).2.symm⟩
      refine ⟨v ++ [x], trim_self (hmc x (by simp)) hx [] (by simp), fun h => ?_, fun h => absurd (hcut.1 h) (by simp)⟩
      have := congrArg List.length h
      simp [body] at this

/-! ## A printed line -/

/-- Status, stages, priority, categories and flags are of their alphabets. -/
structure InAlphabets (s : Awk) : Prop where
  status : s.defset = ['X'] ∨ s.defset = ['O']
  stages : Field stageChar s.stages
  priority : Field priorityChar s.pri
  someCategory : s.categories ≠ []
  categories : ∀ c ∈ s.categories, Field (inWord categoryChar) c
  flags : ∀ f ∈ s.flags, Field (inWord flagChar) f

/-- The version is a word, and no flag is cut. -/
def Clean (s : Awk) : Prop := Desc.Word s.ver ∧ NoCut s.flags

theorem InAlphabets.words {s : Awk} (h : InAlphabets s) :
    ∀ w ∈ s.categories ++ s.flags, w ≠ [] ∧ ∀ c ∈ w, c ≠ ' ' := by
  intro w hw
  rcases List.mem_append.1 hw with hw | hw
  · exact ⟨(h.categories w hw).ne,
      fun c hc => by simpa using (Bool.and_eq_true_iff.1 ((h.categories w hw).chars c hc)).2⟩
  · exact ⟨(h.flags w hw).ne, fun c hc => by simpa using (Bool.and_eq_true_iff.1 ((h.flags w hw).chars c hc)).2⟩

theorem InAlphabets.categoryWords {s : Awk} (h : InAlphabets s) : ∀ w ∈ s.categories, w.all categoryChar = true :=
  fun w hw => List.all_eq_true.2 fun c hc => (Bool.and_eq_true_iff.1 ((h.categories w hw).chars c hc)).1

theorem InAlphabets.noCut {s : Awk} (h : InAlphabets s) : NoCut (s.categories ++ s.flags) ↔ NoCut s.flags :=
  noCut_append h.categoryWords

/-- The text between the slash and the zero. -/
theorem InAlphabets.text {s : Awk} (h : InAlphabets s) : ∃ b, spaced (s.categories ++ s.flags) = ' ' :: b ∧ Body b ∧
    b ≠ [] ∧ (∀ c, b.head? = some c → categoryChar c = true ∧ c ≠ ' ') := by
  obtain ⟨w, cs, hcs⟩ := List.exists_cons_of_ne_nil h.someCategory
  have hw := h.categories w (by simp [hcs])
  obtain ⟨x, w, rfl⟩ := List.exists_cons_of_ne_nil hw.ne
  refine ⟨(x :: w) ++ spaced cs ++ spaced s.flags, ?_, ?_, by simp, ?_⟩
  · rw [hcs, spaced_append]
    simp [spaced]
  · refine ⟨(x :: w) ++ spaced cs, spaced s.flags, rfl, fun c hc => ?_, fun c hc => ?_⟩
    · refine spaced_categoryChars h.categoryWords c ?_
      rw [hcs]
      simpa [spaced] using Or.inr hc
    · obtain ⟨f, hf, hc⟩ := List.mem_flatMap.1 hc
      rcases List.mem_cons.1 hc with rfl | hc
      · decide
      · exact (Bool.and_eq_true_iff.1 ((h.flags f hf).chars c hc)).1
  · intro c hc
    obtain rfl : x = c := by simpa using hc
    have := Bool.and_eq_true_iff.1 (hw.chars x (by simp))
    exact ⟨this.1, by simpa using this.2⟩

/-- The captures of a printed line. -/
def partsOf (s : Awk) (b : Text) : Parts :=
  ⟨s.defset.headD 'X', s.stages, s.pri, s.pkgtree, s.package, s.ver, (tailOf b).1, (tailOf b).2.1, (tailOf b).2.2⟩

theorem InAlphabets.headD {s : Awk} (h : InAlphabets s) : s.defset = [s.defset.headD 'X'] := by
  rcases h.status with hs | hs <;> rw [hs] <;> rfl

theorem print_eq {s : Awk} (h : InAlphabets s) {b : Text} (hb : spaced (s.categories ++ s.flags) = ' ' :: b) :
    printPackage s = (partsOf s b).headText ('/' :: ' ' :: (b ++ [' ', '0'])) := by
  rw [spaced_append] at hb
  rw [printPackage, hb, h.headD]
  simp [partsOf, Parts.headText]

theorem Printed.head {s : Awk} (hp : Printed s) (h : InAlphabets s) (hv : Desc.Word s.ver) (b : Text) :
    (partsOf s b).Head := by
  obtain ⟨arch, kernel, f, hf⟩ := hp
  obtain ⟨htree, hname⟩ := Desc.record_names hf
  refine ⟨?_, h.stages, h.priority, field_of_word (by simpa [partsOf, htree] using f.repositoryWord),
    field_of_word (by simpa [partsOf, hname] using f.nameWord), field_of_word hv⟩
  rcases h.status with hs | hs <;> simp [partsOf, hs]

/-- **A printed line is read**, if its version is a word. -/
theorem readLine_print {s : Awk} (hp : Printed s) (h : InAlphabets s) (hv : Desc.Word s.ver) {b : Text}
    (hb : spaced (s.categories ++ s.flags) = ' ' :: b) (hbody : Body b) (hne : b ≠ [])
    (hhead : ∀ c, b.head? = some c → categoryChar c = true) :
    readLine (printPackage s) = some (partsOf s b).pkg := by
  refine @readLine_of_run _ [] _ ?_
  rw [print_eq h hb]
  exact run_head (hp.head h hv b) (stops_cons.2 (by decide))
    (run_tail (by simp [Parts.headCaps, maxCaptures]) hbody hne hhead)

theorem headText_inj {q : Parts} {t t' : Text} : q.headText t = q.headText t' ↔ t = t' := by
  simp [Parts.headText]

/-- The tail that is written for the entry of a printed line. -/
theorem tail_eq_iff {s : Awk} (h : InAlphabets s) {b : Text} (hb : spaced (s.categories ++ s.flags) = ' ' :: b)
    (hhead : ∀ c, b.head? = some c → categoryChar c = true ∧ c ≠ ' ') :
    ∃ c, (partsOf s b).pkg.categories = some c ∧
      ((partsOf s b).pkg.tail c = '/' :: ' ' :: (b ++ [' ', '0']) ↔ NoCut s.flags) := by
  have hdrop : b.dropWhile space = b := by
    cases b with
    | nil => rfl
    | cons x b => exact List.dropWhile_cons_of_neg fun hx => (hhead x rfl).2 (space_iff.1 hx)
  rw [← h.noCut]
  cases hs : slashed b with
  | none =>
    obtain ⟨c, hc, hcut⟩ := body_trim h.words hb fun x hx => (hhead x hx).1
    refine ⟨c, by simpa [partsOf, Parts.pkg, tailOf, hdrop, hs] using hc, ?_⟩
    rw [← hcut]
    simp [Pkg.tail, partsOf, Parts.pkg, tailOf, hdrop, hs]
  | some b' =>
    obtain ⟨rfl, hne, hhead'⟩ := slashed_some hs
    -- the first category is the slash: it goes to the extra version
    obtain ⟨w, ws, hws⟩ : ∃ w ws, s.categories ++ s.flags = w :: ws := by
      obtain ⟨w, cs, hcs⟩ := List.exists_cons_of_ne_nil h.someCategory
      exact ⟨w, cs ++ s.flags, by rw [hcs, List.cons_append]⟩
    have hw := h.words
    rw [hws] at hb hw ⊢
    have hwords : w = ['/'] ∧ spaced ws = ' ' :: b' := by
      obtain ⟨hwne, hwc⟩ := hw w List.mem_cons_self
      obtain ⟨x, w, rfl⟩ := List.exists_cons_of_ne_nil hwne
      have hb : x :: (w ++ spaced ws) = '/' :: ' ' :: b' := by simpa [spaced] using hb
      obtain ⟨hx, hrest⟩ := List.cons.inj hb
      subst hx
      cases w with
      | nil => exact ⟨rfl, by simpa using hrest⟩
      | cons y w => exact absurd (List.cons.inj hrest).1 (hwc y (by simp))
    obtain ⟨rfl, hb'⟩ := hwords
    obtain ⟨c, hc, hcut⟩ := body_trim (fun w hmem => hw w (List.mem_cons_of_mem _ hmem)) hb' hhead'
    refine ⟨c, by simpa [partsOf, Parts.pkg, tailOf, hdrop, hs] using hc, ?_⟩
    rw [NoCut, if_pos (by decide), ← hcut]
    simp [Pkg.tail, partsOf, Parts.pkg, tailOf, hdrop, hs]

/-- A text up to the first blank. -/
theorem first_field {a a' s s' : Text} (ha : ∀ c ∈ a, c ≠ ' ') (ha' : ∀ c ∈ a', c ≠ ' ')
    (h : a ++ ' ' :: s = a' ++ ' ' :: s') : a = a' ∧ s = s' := by
  induction a generalizing a' with
  | nil =>
    cases a' with
    | nil => exact ⟨rfl, by simpa using h⟩
    | cons c a' =>
      simp only [List.nil_append, List.cons_append, List.cons.injEq] at h
      exact absurd h.1.symm (ha' c List.mem_cons_self)
  | cons d a ih =>
    cases a' with
    | nil =>
      simp only [List.nil_append, List.cons_append, List.cons.injEq] at h
      exact absurd h.1 (ha d List.mem_cons_self)
    | cons c a' =>
      simp only [List.cons_append, List.cons.injEq] at h
      obtain ⟨rfl, h⟩ := h
      obtain ⟨rfl, hs⟩ := ih (fun x hx => ha x (List.mem_cons_of_mem _ hx))
        (fun x hx => ha' x (List.mem_cons_of_mem _ hx)) h
      exact ⟨rfl, hs⟩

theorem Field.noBlank {p : Char → Bool} {w : Text} (h : Field p w) (hp : p ' ' = false) : ∀ c ∈ w, c ≠ ' ' := by
  rintro c hc rfl
  have := h.chars ' ' hc
  simp [hp] at this

/-- What is reproduced has a word for its version. -/
theorem ver_of_written {s : Awk} (hp : Printed s) (h : InAlphabets s) {e : Pkg} (he : e.WF) (hl : e.live = true)
    {c : Text} (hw : writeLine e c = printPackage s) : Desc.Word s.ver := by
  obtain ⟨b, hb, -, -, -⟩ := h.text
  obtain ⟨arch, kernel, f, hf⟩ := hp
  obtain ⟨htree, hname⟩ := Desc.record_names hf
  have hver : ∀ x ∈ s.ver, x ≠ ' ' := by
    rintro x hx rfl
    have := (Desc.record_fields hf).ver ' ' hx
    simp [Desc.isSep] at this
  rw [writeLine_eq hl c [] [] [], print_eq h hb] at hw
  have hword : ∀ {w : Text}, Field wordChar w → ∀ c ∈ w, c ≠ ' ' := fun hf => hf.noBlank (by decide)
  obtain ⟨-, hw⟩ := List.cons.inj hw
  obtain ⟨-, hw⟩ := List.cons.inj hw
  obtain ⟨-, hw⟩ := first_field (he.stages.noBlank (by decide)) (h.stages.noBlank (by decide)) hw
  obtain ⟨-, hw⟩ := first_field (he.priority.noBlank (by decide)) (h.priority.noBlank (by decide)) hw
  obtain ⟨-, hw⟩ := first_field (hword he.repository) (hword (field_of_word (by
    simpa [partsOf, htree] using f.repositoryWord))) hw
  obtain ⟨-, hw⟩ := first_field (hword he.pkgAlias) (hword (field_of_word (by
    simpa [partsOf, hname] using f.nameWord))) hw
  obtain ⟨hv, -⟩ := first_field (hword he.ver) hver hw
  exact hv ▸ word_of_field he.ver

/-- **One line** is reproduced iff its version is a word and no flag is cut. -/
theorem line_roundTrip {s : Awk} (hp : Printed s) (h : InAlphabets s) :
    (∃ e c, readLine (printPackage s) = some e ∧ e.categories = some c ∧ writeLine e c = printPackage s) ↔ Clean s := by
  obtain ⟨b, hb, hbody, hne, hhead⟩ := h.text
  obtain ⟨c, hc, hcut⟩ := tail_eq_iff h hb hhead
  have hread := fun hv => readLine_print hp h hv hb hbody hne fun x hx => (hhead x hx).1
  have hlive : ∀ b, (partsOf s b).pkg.live = true := by
    intro b
    rw [live_eq_true]
    rcases h.status with hs | hs <;> simp [partsOf, Parts.pkg, hs]
  have hwrite : ∀ hv : Desc.Word s.ver, writeLine (partsOf s b).pkg c = printPackage s ↔ NoCut s.flags := by
    intro hv
    have hhead : ∀ t, ((partsOf s b).pkg.parts [] [] []).headText t = (partsOf s b).headText t := by
      intro t
      rcases h.status with hs | hs <;> simp [Pkg.parts, partsOf, Parts.pkg, Parts.headText, hs]
    rw [writeLine_eq (hlive b) c [] [] [], hhead, print_eq h hb, headText_inj, hcut]
  constructor
  · rintro ⟨e, c', he, hc', hw⟩
    have hwf : e.WF := readLine_wf he (by simp [hc'])
    have hl := readLine_live he
    have hv := ver_of_written hp h hwf hl hw
    obtain rfl : (partsOf s b).pkg = e := Option.some.inj ((hread hv).symm.trans he)
    obtain rfl : c = c' := Option.some.inj (hc.symm.trans hc')
    exact ⟨hv, (hwrite hv).1 hw⟩
  · rintro ⟨hv, hn⟩
    exact ⟨_, c, hread hv, hc, (hwrite hv).2 hn⟩

/-! ## The list -/

theorem pkglistwrite_length (t : Table) : (pkglistwrite t).1.length ≤ t.length := by
  induction t with
  | nil => simp [pkglistwrite]
  | cons e t ih =>
    rw [pkglistwrite]
    split
    · split
      · simp
      · simpa using ih
    · exact le_trans ih (by simp)

theorem head_blank (e : Pkg) : ∃ u, e.head = u ++ [' '] :=
  ⟨e.status.text ++ [' '] ++ e.stages ++ [' '] ++ e.priority ++ [' '] ++ e.repository ++ [' '] ++ e.pkgAlias ++ [' '] ++
    e.ver ++ (if e.extraver.length > 0 then ' ' :: e.extraver else []) ++ [' ', '/'], by simp [Pkg.head]⟩

theorem print_zero (s : Awk) : ∃ u, printPackage s = u ++ ['0'] :=
  ⟨s.defset ++ ' ' :: (s.stages ++ ' ' :: (s.pri ++ ' ' :: (s.pkgtree ++ ' ' :: (s.package ++ ' ' ::
    (s.ver ++ ' ' :: '/' :: (spaced s.categories ++ spaced s.flags ++ [' '])))))), by simp [printPackage]⟩

/-- A list is reproduced only line by line. -/
theorem lines_of_list {rs : List Awk} (hrs : ∀ s ∈ rs, Printed s ∧ InAlphabets s)
    (h : (pkglistwrite (pkglistread (rs.map printPackage))).1 = rs.map printPackage) : ∀ s ∈ rs, Clean s := by
  induction rs with
  | nil => simp
  | cons s rs ih =>
    obtain ⟨hp, ha⟩ := hrs s List.mem_cons_self
    rw [List.map_cons, pkglistread, List.filterMap_cons] at h
    cases hread : readLine (printPackage s) with
    | none =>
      -- a dropped line is missing in the end
      rw [hread] at h
      have hlen := congrArg List.length h
      have hle := pkglistwrite_length (pkglistread (rs.map printPackage))
      have hle' : (pkglistread (rs.map printPackage)).length ≤ rs.length := by
        rw [← @List.length_map _ _ rs printPackage]
        exact List.length_filterMap_le _ _
      rw [pkglistread] at hle hle'
      simp only [List.length_cons, List.length_map] at hlen
      omega
    | some e =>
      rw [hread] at h
      simp only [pkglistwrite, readLine_live hread, if_true] at h
      cases hc : e.categories with
      | none =>
        rw [hc] at h
        -- an entry without categories is not written to its end
        obtain ⟨u, hu⟩ := head_blank e
        obtain ⟨v, hv⟩ := print_zero s
        have hline : u ++ [' '] = v ++ ['0'] := by
          rw [← hu, ← hv]
          exact (List.cons.inj h).1
        have := congrArg List.getLast? hline
        simp at this
      | some c =>
        rw [hc] at h
        obtain ⟨hhead, htail⟩ := List.cons.inj h
        refine List.forall_mem_cons.2 ⟨(line_roundTrip hp ha).1 ⟨e, c, hread, hc, hhead⟩, ?_⟩
        exact ih (fun s hs => hrs s (List.mem_cons_of_mem _ hs)) htail

/-- Reading the line of an entry gives it back, its status as the default. -/
def Stable (e : Pkg) : Prop := e.again = { e with defaultStatus := e.status }

theorem Stable.later {e e' : Pkg} (h : Later e e') (he : Stable e) : Stable e' := by
  obtain ⟨s, rfl, -⟩ := h
  have : Pkg.again { e with status := s } = { e.again with status := s, defaultStatus := s } := rfl
  rw [Stable, this, he]

/-- A table each entry of which is the one read from its line. -/
theorem table_of_clean {rs : List Awk} (hrs : ∀ s ∈ rs, Printed s ∧ InAlphabets s) (h : ∀ s ∈ rs, Clean s) :
    (pkglistread (rs.map printPackage)).map Pkg.line = rs.map printPackage ∧
      ∀ e ∈ pkglistread (rs.map printPackage), e.WF ∧ e.live = true ∧ Stable e := by
  induction rs with
  | nil => simp [pkglistread]
  | cons s rs ih =>
    obtain ⟨⟨hp, ha⟩, hrs⟩ := List.forall_mem_cons.1 hrs
    obtain ⟨hs, h⟩ := List.forall_mem_cons.1 h
    obtain ⟨e, c, hread, hc, hw⟩ := (line_roundTrip hp ha).2 hs
    obtain ⟨hlines, hall⟩ := ih hrs h
    have hwf : e.WF := readLine_wf hread (by simp [hc])
    have hl := readLine_live hread
    have hline : e.line = printPackage s := by rw [Pkg.line, hc, Option.getD_some, hw]
    have hagain : e.again = e := by
      have := readLine_line hwf hl
      rw [hline, hread] at this
      exact (Option.some.inj this).symm
    have hdef : e.defaultStatus = e.status := by
      obtain ⟨q, -, rfl, -⟩ := readLine_sound hread
      rfl
    rw [List.map_cons, pkglistread, List.filterMap_cons, hread]
    refine ⟨by rw [List.map_cons, hline]; exact congrArg _ hlines, List.forall_mem_cons.2 ⟨⟨hwf, hl, ?_⟩, hall⟩⟩
    rw [Stable, hagain]
    cases e
    cases hdef
    rfl

def switchAll (calls : List (Mode × List Text)) (t : Table) : Table :=
  calls.foldl (fun t c => (pkgswitch c.1 c.2 t).1) t

theorem switchAll_kept (calls : List (Mode × List Text)) (t : Table) : Kept t (switchAll calls t) := by
  induction calls generalizing t with
  | nil => exact Kept.refl t
  | cons c calls ih => exact (pkgswitch_kept c.1 c.2 t).trans (ih _)

/-- **The package list round trip**: a printed list is reproduced, and every table that `pkgswitch` makes of it is
written and read back without its removed entries, iff every version is a word and no flag is cut. -/
theorem pkglist_roundTrip (rs : List Awk) (hrs : ∀ s ∈ rs, Printed s ∧ InAlphabets s) :
    ((pkglistwrite (pkglistread (rs.map printPackage))).1 = rs.map printPackage ∧
      ∀ calls, pkglistread (pkglistwrite (switchAll calls (pkglistread (rs.map printPackage)))).1 =
        ((switchAll calls (pkglistread (rs.map printPackage))).filter Pkg.live).map
          fun e => { e with defaultStatus := e.status }) ↔
    ∀ s ∈ rs, Clean s := by
  constructor
  · rintro ⟨h, -⟩
    exact lines_of_list hrs h
  · intro h
    obtain ⟨hlines, hall⟩ := table_of_clean hrs h
    constructor
    · rw [pkglistwrite_eq fun e he => (hall e he).1, List.filter_eq_self.2 fun e he => (hall e he).2.1, hlines]
    · intro calls
      have hkept := switchAll_kept calls (pkglistread (rs.map printPackage))
      have hwf := hkept.wf fun e he => (hall e he).1
      have hstable := hkept.forall (P := Stable) (fun _ _ h he => he.later h) fun e he => (hall e he).2.2
      rw [cycle_eq hwf]
      exact List.map_congr_left fun e he => hstable e (List.mem_filter.1 he).1

/-- A description with a flag. -/
def flagged (flag : String) : Desc.DescFile where
  repository := "base".toList
  name := "zlib".toList
  lines := ["[C] extra/x11".toList, "[F] ".toList ++ flag.toList, "[V] 1.3".toList, "[P] X -----5---9 149.8".toList]
  repositoryWord := by decide
  nameWord := by decide
  nameNoSlash := by decide

def flaggedRecord (flag : String) : Awk where
  pkgtree := "base".toList
  package := "zlib".toList
  defset := ['X']
  pri := "149.8".toList
  stages := "-----5---9".toList
  ver := "1.3".toList
  verDup := true
  categories := ["extra/x11".toList]
  flags := [flag.toList]

theorem dietlibc_printed : Printed (flaggedRecord "DIETLIBC") ∧ InAlphabets (flaggedRecord "DIETLIBC") :=
  ⟨⟨[], [], flagged "DIETLIBC", by decide +kernel⟩,
    ⟨.inl rfl, by decide, by decide, by decide, by simp [flaggedRecord]; decide, by simp [flaggedRecord]; decide⟩⟩

/-- A flag in capitals. -/
theorem pkglist_roundTrip_dietlibc :
    (pkglistwrite (pkglistread ([flaggedRecord "DIETLIBC"].map printPackage))).1 =
        [flaggedRecord "DIETLIBC"].map printPackage ∧
      ∀ calls, pkglistread (pkglistwrite (switchAll calls
          (pkglistread ([flaggedRecord "DIETLIBC"].map printPackage)))).1 =
        ((switchAll calls (pkglistread ([flaggedRecord "DIETLIBC"].map printPackage))).filter Pkg.live).map
          fun e => { e with defaultStatus := e.status } :=
  (pkglist_roundTrip [flaggedRecord "DIETLIBC"] (by simpa using dietlibc_printed)).2 (by
    simp only [List.mem_singleton, forall_eq]
    exact ⟨by decide, by decide⟩)

/-- A flag that starts with a digit is cut: the line comes back with `3 DNOW`. -/
theorem pkglist_3dnow : Printed (flaggedRecord "3DNOW") ∧ InAlphabets (flaggedRecord "3DNOW") ∧
    (pkglistwrite (pkglistread ([flaggedRecord "3DNOW"].map printPackage))).1 =
      ["X -----5---9 149.8 base zlib 1.3 / extra/x11 3 DNOW 0".toList] ∧
    [flaggedRecord "3DNOW"].map printPackage ≠ ["X -----5---9 149.8 base zlib 1.3 / extra/x11 3 DNOW 0".toList] := by
  refine ⟨⟨[], [], flagged "3DNOW", by decide +kernel⟩,
    ⟨.inl rfl, by decide, by decide, by decide, by simp [flaggedRecord]; decide, by simp [flaggedRecord]; decide⟩,
    ?_, ?_⟩
  · decide +kernel
  · decide +kernel

end T2Sde.Packages
