import Mathlib.Algebra.Ring.Int.Defs
import Mathlib.Algebra.Ring.Nat
import Mathlib.Data.List.Basic
import Mathlib.Data.List.Infix
import Mathlib.Data.List.TakeWhile
import Mathlib.Tactic.Common
/-!
# Shell text: word splitting and `${s/pat/rep}`

A text is a list of characters. `words` is what an unquoted expansion splits into, `replaceFirst`
is `${s/pat/rep}` for a literal pattern: the first occurrence only.

* `words_append_blank` — a blank ends a word, so splitting distributes over it.
* `mem_words_replaceFirst` — cutting `" t "` out of a text loses no word but `t`.
* `words_cut` — cutting `" t"` (no blank after it) out of a text hits the first word that *starts
  with* `t`, and leaves what is behind `t` in that word (`cutPrefix`).
* `cutPrefix_eq_erase_iff` — so it removes the word `t` exactly if no earlier word starts with `t`.
-/
namespace Shell

abbrev Text := List Char

instance lawfulBEqText : LawfulBEq Text := inferInstance

/-- What holds of all characters of a text is looked up in the text, not among all characters. -/
instance (priority := 2000) decidableAll {p : Char → Prop} [DecidablePred p] (s : Text) : Decidable (∀ c ∈ s, p c) :=
  List.decidableBAll p s

instance (priority := 2000) decidableAny {p : Char → Prop} [DecidablePred p] (s : Text) : Decidable (∃ c ∈ s, p c) :=
  List.decidableBEx p s

instance (priority := 2000) decidableAllOption {p : Char → Prop} [DecidablePred p] :
    (o : Option Char) → Decidable (∀ c ∈ o, p c)
  | none => isTrue (by simp)
  | some c => decidable_of_iff (p c) (by simp)

instance (priority := 2000) decidableAnyOption {p : Char → Prop} [DecidablePred p] :
    (o : Option Char) → Decidable (∃ c ∈ o, p c)
  | none => isFalse (by simp)
  | some c => decidable_of_iff (p c) (by simp)

/-- A character of the default `IFS`. -/
def isBlank (c : Char) : Bool := c == ' ' || c == '\t' || c == '\n'

/-- Word splitting of an unquoted expansion. -/
def words (s : Text) : List Text := (s.splitOnP isBlank).filter fun w => !w.isEmpty

/-- A non-empty text without blanks. -/
def IsWord (w : Text) : Prop := w ≠ [] ∧ ∀ c ∈ w, isBlank c = false

instance (w : Text) : Decidable (IsWord w) :=
  decidable_of_iff (w ≠ [] ∧ (w.all fun c => !isBlank c) = true) (by simp [IsWord])

/-- `${s/pat/rep}` for a literal, non-empty `pat`. -/
def replaceFirst (pat rep : Text) : Text → Text
  | [] => []
  | c :: s => if pat <+: c :: s then rep ++ (c :: s).drop pat.length else c :: replaceFirst pat rep s

/-- Point update of an associative array read as a function. -/
def upd {κ α : Type} [DecidableEq κ] (f : κ → α) (k : κ) (a : α) : κ → α := fun x => if x = k then a else f x

@[simp] theorem upd_same {κ α : Type} [DecidableEq κ] (f : κ → α) (k : κ) (a : α) : upd f k a k = a := by
  simp [upd]

@[simp] theorem upd_self {κ α : Type} [DecidableEq κ] (f : κ → α) (k : κ) : upd f k (f k) = f := by
  funext x
  by_cases h : x = k <;> simp [upd, h]

@[simp] theorem upd_ne {κ α : Type} [DecidableEq κ] (f : κ → α) (k x : κ) (a : α) (h : x ≠ k) :
    upd f k a x = f x := by
  simp [upd, h]

/-! ## Splitting -/

@[simp] theorem words_nil : words [] = [] := rfl

theorem words_append_blank {c : Char} (hc : isBlank c = true) (a b : Text) :
    words (a ++ c :: b) = words a ++ words b := by
  simp [words, List.splitOnP_append_cons, hc]

theorem words_blank_cons {c : Char} (hc : isBlank c = true) (s : Text) : words (c :: s) = words s :=
  words_append_blank hc [] s

@[simp] theorem words_space_cons (s : Text) : words (' ' :: s) = words s := words_blank_cons rfl s

theorem words_append_space (s : Text) : words (s ++ [' ']) = words s := by
  simpa using words_append_blank (show isBlank ' ' = true from rfl) s []

theorem isWord_append {u v : Text} (hu : IsWord u) (hv : ∀ c ∈ v, isBlank c = false) : IsWord (u ++ v) :=
  ⟨by simp [hu.1], fun c hc => (List.mem_append.1 hc).elim (hu.2 c) (hv c)⟩

theorem splitOnP_of_noBlank {w : Text} (hw : ∀ c ∈ w, isBlank c = false) : w.splitOnP isBlank = [w] := by
  induction w with
  | nil => rfl
  | cons c w ih =>
    rw [List.splitOnP_cons_eq_if_modifyHead, ih fun d hd => hw d (List.mem_cons_of_mem _ hd)]
    simp [hw c List.mem_cons_self]

theorem words_of_isWord {w : Text} (hw : IsWord w) : words w = [w] := by
  rw [words, splitOnP_of_noBlank hw.2]
  simp [hw.1]

/-- `rest` is at its end or starts with a blank. -/
def AtBlank : Text → Prop
  | [] => True
  | c :: _ => isBlank c = true

theorem words_word_append {w rest : Text} (hw : IsWord w) (hr : AtBlank rest) :
    words (w ++ rest) = w :: words rest := by
  cases rest with
  | nil => simp [words_of_isWord hw]
  | cons c r => rw [words_append_blank hr, words_of_isWord hw, words_blank_cons hr]; rfl

/-- Every text is empty, or starts with a blank, or with a word that a blank or the end follows. -/
@[elab_as_elim]
theorem text_induction {P : Text → Prop} (nil : P [])
    (blank : ∀ c s, isBlank c = true → P s → P (c :: s))
    (word : ∀ w rest, IsWord w → AtBlank rest → P rest → P (w ++ rest)) : ∀ s, P s := by
  intro s
  induction hn : s.length using Nat.strongRecOn generalizing s with
  | _ n ih =>
    cases s with
    | nil => exact nil
    | cons c s =>
      cases hc : isBlank c with
      | true => exact blank c s hc (ih s.length (by simp [← hn]) s rfl)
      | false =>
        have hsplit := @List.takeWhile_append_dropWhile _ (fun d => !isBlank d) (c :: s)
        have htw : (c :: s).takeWhile (fun d => !isBlank d) = c :: s.takeWhile fun d => !isBlank d := by
          simp [hc]
        rw [← hsplit]
        refine word _ _ ⟨by rw [htw]; simp, fun d hd => by simpa using List.mem_takeWhile_imp hd⟩ ?_ ?_
        · have hd := List.head?_dropWhile_not (fun d => !isBlank d) (c :: s)
          cases h : (c :: s).dropWhile fun d => !isBlank d with
          | nil => trivial
          | cons d r => simpa [h, AtBlank] using hd
        · refine ih _ ?_ _ rfl
          have := congrArg List.length hsplit
          rw [List.length_append, htw] at this
          simp only [List.length_cons] at this hn
          omega

theorem isWord_of_mem_words {s w : Text} (h : w ∈ words s) : IsWord w := by
  induction s using text_induction with
  | nil => simp at h
  | blank c s hc ih => exact ih (by rwa [words_blank_cons hc] at h)
  | word v rest hv hr ih =>
    rw [words_word_append hv hr, List.mem_cons] at h
    rcases h with rfl | h
    · exact hv
    · exact ih h

theorem mem_of_mem_words {s w : Text} {c : Char} (hw : w ∈ words s) (hc : c ∈ w) : c ∈ s := by
  induction s using text_induction with
  | nil => cases hw
  | blank b s hb ih =>
    rw [words_blank_cons hb] at hw
    exact List.mem_cons_of_mem _ (ih hw)
  | word v rest hv hr ih =>
    rw [words_word_append hv hr] at hw
    rcases List.mem_cons.1 hw with rfl | hw
    · exact List.mem_append_left _ hc
    · exact List.mem_append_right _ (ih hw)

/-- A list of words printed with a space behind each. -/
theorem words_flatMap_append {ws : List Text} (h : ∀ w ∈ ws, IsWord w) :
    words (ws.flatMap (· ++ [' '])) = ws := by
  induction ws with
  | nil => rfl
  | cons w ws ih =>
    have hw := h w List.mem_cons_self
    simp only [List.flatMap_cons, List.append_assoc, List.singleton_append]
    rw [words_append_blank rfl, words_of_isWord hw, ih fun x hx => h x (List.mem_cons_of_mem _ hx)]
    rfl

/-- A list of words printed with a space before each. -/
theorem words_flatMap_cons {ws : List Text} (h : ∀ w ∈ ws, IsWord w) :
    words (ws.flatMap (' ' :: ·)) = ws := by
  induction ws with
  | nil => rfl
  | cons w ws ih =>
    have hw := h w List.mem_cons_self
    simp only [List.flatMap_cons, List.cons_append, words_space_cons]
    have ih' := ih fun x hx => h x (List.mem_cons_of_mem _ hx)
    cases ws with
    | nil => simp [words_of_isWord hw]
    | cons v vs =>
      rw [words_word_append hw (by simp [AtBlank, isBlank]), ih']

/-- Parts with a blank between them. -/
theorem words_joined {b : Char} (hb : isBlank b = true) (es : List Text) :
    words ([b].intercalate es) = es.flatMap words := by
  induction es with
  | nil => rfl
  | cons e es ih =>
    by_cases hnil : es = []
    · subst hnil
      simp
    · rw [List.intercalate_cons_of_ne_nil hnil, List.append_assoc, List.singleton_append, words_append_blank hb, ih,
        List.flatMap_cons]

theorem words_intercalate {b : Char} (hb : isBlank b = true) {ws : List Text} (h : ∀ w ∈ ws, IsWord w) :
    words ([b].intercalate ws) = ws := by
  rw [words_joined hb]
  induction ws with
  | nil => rfl
  | cons w ws ih =>
    obtain ⟨hw, hws⟩ := List.forall_mem_cons.1 h
    rw [List.flatMap_cons, words_of_isWord hw, ih hws, List.singleton_append]

/-! ## `${s/pat/rep}` -/

/-- Nothing is replaced, or the leftmost occurrence is. -/
theorem replaceFirst_cases (pat rep s : Text) (hp : pat ≠ []) :
    (¬ pat <:+: s ∧ replaceFirst pat rep s = s) ∨
    ∃ a b, s = a ++ pat ++ b ∧ replaceFirst pat rep s = a ++ rep ++ b ∧
      ∀ a' b', s = a' ++ pat ++ b' → a.length ≤ a'.length := by
  induction s with
  | nil => exact .inl ⟨by simpa using hp, rfl⟩
  | cons c s ih =>
    by_cases h : pat <+: c :: s
    · obtain ⟨b, hb⟩ := h
      refine .inr ⟨[], b, by simp [hb], ?_, fun _ _ _ => Nat.zero_le _⟩
      rw [replaceFirst, if_pos ⟨b, hb⟩, ← hb]
      simp
    · rw [replaceFirst, if_neg h]
      rcases ih with ⟨hno, heq⟩ | ⟨a, b, hs, heq, hmin⟩
      · exact .inl ⟨fun hin => (List.infix_cons_iff.1 hin).elim h hno, by rw [heq]⟩
      · refine .inr ⟨c :: a, b, by simp [hs], by simp [heq], fun a' b' h' => ?_⟩
        cases a' with
        | nil => exact absurd ⟨b', by simpa using h'.symm⟩ h
        | cons d a' =>
          simp only [List.cons_append, List.cons.injEq] at h'
          have := hmin a' b' h'.2
          simpa using this

theorem mem_replaceFirst {pat rep s : Text} (hp : pat ≠ []) {c : Char} (hc : c ∈ replaceFirst pat rep s) :
    c ∈ s ∨ c ∈ rep := by
  rcases replaceFirst_cases pat rep s hp with ⟨-, h⟩ | ⟨a, b, hs, h, -⟩
  · exact .inl (h ▸ hc)
  · rw [h] at hc
    simp only [List.mem_append] at hc
    rcases hc with (hc | hc) | hc
    · exact .inl (by simp [hs, hc])
    · exact .inr hc
    · exact .inl (by simp [hs, hc])

/-- A word that is cut out with the blanks around it takes no other word with it. -/
theorem mem_words_replaceFirst {t d : Text} (ht : IsWord t) (s : Text) (hd : d ∈ words s) (hne : d ≠ t) :
    d ∈ words (replaceFirst (' ' :: t ++ [' ']) [' '] s) := by
  rcases replaceFirst_cases (' ' :: t ++ [' ']) [' '] s (by simp) with ⟨-, h⟩ | ⟨a, b, hs, h, -⟩
  · rwa [h]
  · have hsplit : s = a ++ ' ' :: (t ++ ' ' :: b) := by simp [hs]
    rw [hsplit, words_append_blank rfl, words_append_blank rfl, words_of_isWord ht] at hd
    rw [h, List.append_assoc, List.singleton_append, words_append_blank rfl]
    simp only [List.mem_append, List.mem_singleton] at hd ⊢
    rcases hd with hd | hd | hd
    · exact .inl hd
    · exact absurd hd hne
    · exact .inr hd

theorem mem_of_mem_words_replaceFirst {t d : Text} (s : Text)
    (hd : d ∈ words (replaceFirst (' ' :: t ++ [' ']) [' '] s)) : d ∈ words s := by
  rcases replaceFirst_cases (' ' :: t ++ [' ']) [' '] s (by simp) with ⟨-, h⟩ | ⟨a, b, hs, h, -⟩
  · rwa [h] at hd
  · have hsplit : s = a ++ ' ' :: (t ++ ' ' :: b) := by simp [hs]
    rw [h, List.append_assoc, List.singleton_append, words_append_blank rfl] at hd
    rw [hsplit, words_append_blank rfl, words_append_blank rfl]
    simp only [List.mem_append] at hd ⊢
    rcases hd with hd | hd
    · exact .inl hd
    · exact .inr (.inr hd)

/-! ## Cutting `" t"` -/

/-- What cutting `" t"` does to the word list: the first word that starts with `t` loses it. -/
def cutPrefix (t : Text) : List Text → List Text
  | [] => []
  | w :: ws => if t <+: w then (if w = t then ws else w.drop t.length :: ws) else w :: cutPrefix t ws

theorem cutPrefix_of_not {t : Text} {ws : List Text} (h : ∀ w ∈ ws, ¬ t <+: w) : cutPrefix t ws = ws := by
  induction ws with
  | nil => rfl
  | cons w ws ih =>
    rw [cutPrefix, if_neg (h w List.mem_cons_self), ih fun x hx => h x (List.mem_cons_of_mem _ hx)]

theorem cutPrefix_append {t : Text} {us ws : List Text} (h : ∀ w ∈ us, ¬ t <+: w) :
    cutPrefix t (us ++ ws) = us ++ cutPrefix t ws := by
  induction us with
  | nil => rfl
  | cons u us ih =>
    rw [List.cons_append, cutPrefix, if_neg (h u List.mem_cons_self),
      ih fun x hx => h x (List.mem_cons_of_mem _ hx), List.cons_append]

/-- In a text whose blanks are spaces, every word stands behind a space once one is put in front. -/
theorem space_infix_of_mem_words {s w : Text} (hs : ∀ c ∈ s, isBlank c = true → c = ' ')
    (hw : w ∈ words s) : ∃ a b, ' ' :: s = a ++ (' ' :: w) ++ b ∧ AtBlank b := by
  induction s using text_induction with
  | nil => simp at hw
  | blank c s hc ih =>
    rw [words_blank_cons hc] at hw
    obtain ⟨a, b, h, hb⟩ := ih (fun d hd => hs d (List.mem_cons_of_mem _ hd)) hw
    obtain rfl := hs c List.mem_cons_self hc
    exact ⟨' ' :: a, b, by simp [h], hb⟩
  | word v rest hv hr ih =>
    rw [words_word_append hv hr, List.mem_cons] at hw
    rcases hw with rfl | hw
    · exact ⟨[], rest, by simp, hr⟩
    · cases rest with
      | nil => simp at hw
      | cons c r =>
        have hrs : ∀ d ∈ c :: r, isBlank d = true → d = ' ' :=
          fun d hd => hs d (List.mem_append.2 (.inr hd))
        obtain rfl := hrs c List.mem_cons_self hr
        obtain ⟨a, b, h, hb⟩ := ih hrs hw
        cases a with
        | nil =>
          -- the word would have to start with the space of `rest`
          simp only [List.nil_append, List.cons_append, List.cons.injEq, true_and] at h
          obtain ⟨x, xs, rfl⟩ := List.exists_cons_of_ne_nil (isWord_of_mem_words hw).1
          simp only [List.cons_append, List.cons.injEq] at h
          have := (isWord_of_mem_words hw).2 x List.mem_cons_self
          rw [← h.1] at this
          exact absurd this (by decide)
        | cons d a =>
          simp only [List.cons_append, List.cons.injEq] at h
          exact ⟨' ' :: v ++ a, b, by simp [h.2], hb⟩

/-- Cutting `t` off the front of a text leaves the words behind it. -/
theorem cutPrefix_words_append {t : Text} (ht : IsWord t) (b : Text) : cutPrefix t (words (t ++ b)) = words b := by
  induction b using text_induction with
  | nil => simp [words_of_isWord ht, cutPrefix]
  | blank c s hc _ =>
    rw [words_word_append ht (show AtBlank (c :: s) from hc)]
    simp [cutPrefix]
  | word u rest hu hr _ =>
    rw [← List.append_assoc, words_word_append (isWord_append ht hu.2) hr, words_word_append hu hr]
    have hne : t ++ u ≠ t := by simpa using hu.1
    simp [cutPrefix, hne]

/-- **Cutting `" t"`** out of `" s "`: the first word with the prefix `t` loses it, whether it is
`t` itself or a longer word. -/
theorem words_cut {t : Text} (ht : IsWord t) {s : Text} (hs : ∀ c ∈ s, isBlank c = true → c = ' ') :
    words (replaceFirst (' ' :: t) [' '] (' ' :: s ++ [' '])) = cutPrefix t (words s) := by
  have hsp : ∀ c ∈ s ++ [' '], isBlank c = true → c = ' ' := by
    intro c hc hb
    rcases List.mem_append.1 hc with hc | hc
    · exact hs c hc hb
    · simpa using hc
  rw [← words_append_space s, List.cons_append]
  generalize s ++ [' '] = s1 at hsp ⊢
  rcases replaceFirst_cases (' ' :: t) [' '] (' ' :: s1) (by simp) with ⟨hno, h⟩ | ⟨a, b, hab, h, hmin⟩
  · rw [h, words_space_cons, cutPrefix_of_not]
    rintro w hw ⟨u, rfl⟩
    obtain ⟨x, y, hxy, -⟩ := space_infix_of_mem_words hsp hw
    exact hno ⟨x, u ++ y, by simp [hxy]⟩
  · have hbefore : ∀ w ∈ words a, ¬ t <+: w := by
      rintro w hw ⟨u, rfl⟩
      cases a with
      | nil => simp at hw
      | cons c a1 =>
        -- an occurrence inside `a` would be further left
        simp only [List.cons_append, List.cons.injEq] at hab
        obtain ⟨rfl, hs1⟩ := hab
        have ha1 : ∀ d ∈ a1, isBlank d = true → d = ' ' := fun d hd => hsp d (by simp [hs1, hd])
        obtain ⟨x, y, hxy, -⟩ := space_infix_of_mem_words ha1 (by simpa using hw)
        have hle := hmin x (u ++ y ++ ' ' :: t ++ b) (by
          have : ' ' :: s1 = (' ' :: a1) ++ (' ' :: t) ++ b := by simp [hs1]
          rw [this, hxy]
          simp)
        have hlen := congrArg List.length hxy
        simp at hle hlen
        omega
    have hs1 : words s1 = words a ++ words (t ++ b) := by
      rw [← words_space_cons s1, hab, List.append_assoc, List.cons_append, words_append_blank rfl]
    rw [h, hs1, cutPrefix_append hbefore, cutPrefix_words_append ht, List.append_assoc, List.singleton_append,
      words_append_blank rfl]

/-- The cut removes exactly the word `t` iff no word before `t` starts with `t`. -/
theorem cutPrefix_eq_erase_iff {t : Text} {ws : List Text} (ht0 : t ≠ []) (ht : t ∈ ws) :
    cutPrefix t ws = ws.erase t ↔ ∀ u ∈ ws.takeWhile (· ≠ t), ¬ t <+: u := by
  induction ws with
  | nil => simp at ht
  | cons w ws ih =>
    by_cases hw : w = t
    · subst hw
      simp [cutPrefix]
    · have ht' : t ∈ ws := (List.mem_cons.1 ht).resolve_left (Ne.symm hw)
      rw [List.erase_cons_tail (by simpa using hw), List.takeWhile_cons_of_pos (by simpa using hw)]
      by_cases hpre : t <+: w
      · -- the longer word loses its front, and is not what `erase` leaves there
        have hdrop : w.drop t.length ≠ w := by
          intro h
          have hlen := congrArg List.length h
          have hle := hpre.length_le
          have hpos := List.length_pos_of_ne_nil ht0
          rw [List.length_drop] at hlen
          omega
        simp [cutPrefix, hpre, hw, hdrop]
      · simp [cutPrefix, hpre, ih ht']

end Shell
