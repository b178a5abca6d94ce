import T2Sde.Lib.Words
/-!
# Lists joined by a delimiter

The text of a list is its elements with a text `d` between them. `d` may be longer than a character and then overlap
itself or an element; `Aligned` says that it does not: it stands in the text only between two elements.

* `Aligned.split` — how an aligned text comes apart.
* `Aligned.sublist` — what is left out of an aligned list leaves it aligned.
* `aligned_singleton` — a delimiter of one character is always aligned.
* `intercalate_filter` — an element that is left out makes the text shorter.
-/
namespace Shell

variable {d : Text}

/-- `d` does not stand in an element, and no element is empty. -/
def Elements (d : Text) (l : List Text) : Prop := ∀ e ∈ l, e ≠ [] ∧ ¬ d <:+: e

/-- Where `d` stands in the text of the list, it stands between two elements. -/
def Aligned (d : Text) (l : List Text) : Prop :=
  ∀ u v, d.intercalate l = u ++ d ++ v →
    ∃ l₁ l₂, l = l₁ ++ l₂ ∧ l₁ ≠ [] ∧ l₂ ≠ [] ∧ u = d.intercalate l₁ ∧ v = d.intercalate l₂

theorem intercalate_cons {e : Text} {l : List Text} (hl : l ≠ []) :
    d.intercalate (e :: l) = e ++ d ++ d.intercalate l := by
  rw [List.intercalate_cons_of_ne_nil hl]

theorem intercalate_append {l₁ l₂ : List Text} (h₁ : l₁ ≠ []) (h₂ : l₂ ≠ []) :
    d.intercalate (l₁ ++ l₂) = d.intercalate l₁ ++ d ++ d.intercalate l₂ := by
  induction l₁ with
  | nil => exact absurd rfl h₁
  | cons e l₁ ih =>
    cases l₁ with
    | nil => rw [List.singleton_append, intercalate_cons h₂, List.intercalate_singleton]
    | cons f l₁ =>
      rw [List.cons_append, intercalate_cons (by simp), ih (by simp), intercalate_cons (l := f :: l₁) (by simp)]
      simp only [List.append_assoc]

/-- A character that is not in the delimiter. -/
theorem mem_intercalate {c : Char} (hc : c ∉ d) (l : List Text) : c ∈ d.intercalate l ↔ ∃ e ∈ l, c ∈ e := by
  induction l with
  | nil => simp
  | cons e l ih =>
    by_cases hnil : l = []
    · subst hnil
      simp
    · rw [intercalate_cons hnil, List.mem_append, List.mem_append, ih]
      simp [hc]

theorem intercalate_ne_nil {l : List Text} (hl : l ≠ []) (he : ∀ e ∈ l, e ≠ []) : d.intercalate l ≠ [] := by
  obtain ⟨e, l, rfl⟩ := List.exists_cons_of_ne_nil hl
  have hne : e ≠ [] := he e (by simp)
  cases l with
  | nil => simpa using hne
  | cons f l =>
    rw [intercalate_cons (by simp)]
    simp [hne]

/-- A text without `d` is the text of one element only. -/
theorem eq_singleton_of_intercalate {l : List Text} {x : Text} (hl : l ≠ []) (hx : ¬ d <:+: x)
    (h : d.intercalate l = x) : l = [x] := by
  obtain ⟨e, l, rfl⟩ := List.exists_cons_of_ne_nil hl
  cases l with
  | nil => rw [List.intercalate_singleton] at h; rw [h]
  | cons f l =>
    rw [intercalate_cons (by simp)] at h
    exact absurd ⟨e, _, h⟩ hx

namespace Aligned

/-- An aligned text comes apart at `d` into two lists that are aligned again. -/
theorem split {l : List Text} (h : Aligned d l) (hd : d ≠ []) {u v : Text}
    (huv : d.intercalate l = u ++ d ++ v) :
    ∃ l₁ l₂, l = l₁ ++ l₂ ∧ l₁ ≠ [] ∧ l₂ ≠ [] ∧ u = d.intercalate l₁ ∧ v = d.intercalate l₂ ∧ Aligned d l₂ := by
  obtain ⟨l₁, l₂, rfl, h₁, h₂, rfl, rfl⟩ := h u v huv
  refine ⟨l₁, l₂, rfl, h₁, h₂, rfl, rfl, fun u' v' huv' => ?_⟩
  obtain ⟨m₁, m₂, hm, hm₁, hm₂, hu, hv⟩ := h (d.intercalate l₁ ++ d ++ u') v'
    (by rw [intercalate_append h₁ h₂, huv']; simp only [List.append_assoc])
  obtain ⟨a, ha⟩ | ⟨a, ha⟩ := List.append_eq_append_iff.1 hm
  · refine ⟨a, m₂, ha.2, ?_, hm₂, ?_, hv⟩
    · rintro rfl
      rw [ha.1, List.append_nil] at hu
      have hlen := congrArg List.length hu
      have := List.length_pos_of_ne_nil hd
      simp only [List.length_append] at hlen
      omega
    · by_cases ha0 : a = []
      · subst ha0
        rw [ha.1, List.append_nil] at hu
        have hlen := congrArg List.length hu
        have := List.length_pos_of_ne_nil hd
        simp only [List.length_append] at hlen
        omega
      · rw [ha.1, intercalate_append h₁ ha0] at hu
        exact List.append_cancel_left hu
  · -- the second cut does not lie in front of the first
    exfalso
    have hlen := congrArg List.length hu
    have := List.length_pos_of_ne_nil hd
    by_cases ha0 : a = []
    · rw [ha.1, ha0, List.append_nil] at hlen
      simp only [List.length_append] at hlen
      omega
    · rw [ha.1, intercalate_append hm₁ ha0] at hlen
      simp only [List.length_append] at hlen
      omega

theorem tail {e : Text} {l : List Text} (h : Aligned d (e :: l)) (hd : d ≠ []) : Aligned d l := by
  intro u v huv
  by_cases hl : l = []
  · subst hl
    rw [List.intercalate_nil] at huv
    have := congrArg List.length huv
    have := List.length_pos_of_ne_nil hd
    simp only [List.length_append, List.length_nil] at *
    omega
  · obtain ⟨l₁, l₂, hl', h₁, h₂, hu, hv⟩ := h (e ++ d ++ u) v
      (by rw [intercalate_cons hl, huv]; simp only [List.append_assoc])
    obtain ⟨f, l₁, rfl⟩ := List.exists_cons_of_ne_nil h₁
    obtain ⟨rfl, rfl⟩ := List.cons.inj hl'
    refine ⟨l₁, l₂, rfl, ?_, h₂, ?_, hv⟩
    all_goals
      by_cases h0 : l₁ = []
      · have hlen := congrArg List.length hu
        have := List.length_pos_of_ne_nil hd
        rw [h0, List.intercalate_singleton] at hlen
        simp only [List.length_append] at hlen
        omega
    · exact h0
    · rw [intercalate_cons h0] at hu
      exact List.append_cancel_left hu

/-- In front of the second element `d` stands only once. -/
theorem not_prefix {e : Text} {l : List Text} (h : Aligned d (e :: l)) (hl : l ≠ []) {t : Text}
    (ht : t <:+ e ++ d) (hlong : t ≠ []) (hne : t ≠ d) : ¬ d <+: t ++ d.intercalate l := by
  rintro ⟨v, hv⟩
  obtain ⟨p, hp⟩ := ht
  obtain ⟨l₁, l₂, hl', h₁, h₂, hu, -⟩ :=
    h p v (by rw [intercalate_cons hl, ← hp, List.append_assoc, List.append_assoc, hv])
  obtain ⟨f, l₁, rfl⟩ := List.exists_cons_of_ne_nil h₁
  obtain ⟨rfl, rfl⟩ := List.cons.inj hl'
  have hlen := congrArg List.length hp
  have hpos := List.length_pos_of_ne_nil hlong
  by_cases h0 : l₁ = []
  · rw [h0, List.intercalate_singleton] at hu
    rw [hu] at hp
    exact hne (List.append_cancel_left hp)
  · rw [intercalate_cons h0] at hu
    rw [hu] at hlen
    simp only [List.length_append] at hlen
    omega

/-- An element in front of an aligned list, behind which `d` stands only once. -/
theorem cons {e : Text} {l : List Text} (hl : l ≠ [])
    (he : ∀ t, t <:+ e ++ d → t ≠ [] → t ≠ d → ¬ d <+: t ++ d.intercalate l) (h : Aligned d l) :
    Aligned d (e :: l) := by
  intro u v huv
  rw [intercalate_cons hl, List.append_assoc u] at huv
  obtain ⟨a, hu, hl'⟩ | ⟨t, hed, hv⟩ := List.append_eq_append_iff.1 huv
  · obtain ⟨l₁, l₂, rfl, h₁, h₂, ha, hv⟩ := h a v (by rw [hl', List.append_assoc])
    refine ⟨e :: l₁, l₂, rfl, by simp, h₂, ?_, hv⟩
    rw [intercalate_cons h₁, hu, ha]
  · by_cases ht : t = []
    · subst ht
      rw [List.nil_append] at hv
      rw [List.append_nil] at hed
      obtain ⟨l₁, l₂, rfl, h₁, h₂, h0, hv⟩ := h [] v hv.symm
      refine ⟨e :: l₁, l₂, rfl, by simp, h₂, ?_, hv⟩
      rw [intercalate_cons h₁, ← h0, ← hed, List.append_nil]
    · have htd : t = d := by
        by_contra hne
        exact he t ⟨u, hed.symm⟩ ht hne ⟨v, hv⟩
      subst htd
      exact ⟨[e], l, rfl, by simp, hl, by simpa using (List.append_cancel_right hed).symm, List.append_cancel_left hv⟩

theorem of_length_le_one (hd : d ≠ []) {l : List Text} (hl : l.length ≤ 1) (hel : Elements d l) : Aligned d l := by
  intro u v huv
  match l, hl, hel with
  | [], _, _ => simp [hd] at huv
  | [e], _, hel =>
    rw [List.intercalate_singleton] at huv
    exact absurd ⟨u, v, huv.symm⟩ (hel e (by simp)).2

/-- What `d` overlaps behind it is no further than the next delimiter. -/
theorem prefix_window {t f y z : Text} (h : d <+: t ++ (f ++ d ++ y)) : d <+: t ++ (f ++ d ++ z) := by
  have hw : d <+: t ++ (f ++ d) := by
    refine List.prefix_of_prefix_length_le h ⟨y, by simp⟩ ?_
    simp only [List.length_append]
    omega
  exact hw.trans ⟨z, by simp⟩

/-- A part of an aligned list is aligned. -/
theorem sublist {l l' : List Text} (hs : l'.Sublist l) (hd : d ≠ []) (hel : Elements d l) (h : Aligned d l) :
    Aligned d l' := by
  induction hs with
  | slnil => exact h
  | cons e _ ih => exact ih (fun f hf => hel f (by simp [hf])) (h.tail hd)
  | @cons_cons l' l e hs ih =>
    have hrest := ih (fun f hf => hel f (by simp [hf])) (h.tail hd)
    by_cases hl' : l' = []
    · subst hl'
      exact of_length_le_one hd (by simp) fun f hf => hel f (by simp_all)
    have hl : l ≠ [] := fun h0 => hl' (by simpa [h0] using hs)
    refine cons hl' (fun t ht hne htd hpre => ?_) hrest
    by_cases hlen : d.length < t.length
    · -- it starts in `e`, and ends before the delimiter does
      refine h.not_prefix hl ht hne htd ?_
      exact (List.prefix_of_prefix_length_le hpre (List.prefix_append _ _) hlen.le).trans (List.prefix_append _ _)
    -- it starts in the delimiter in front of the first of `l'`
    have htd' : t <:+ d := List.suffix_of_suffix_length_le ht (List.suffix_append _ _) (by omega)
    obtain ⟨f, r', rfl⟩ := List.exists_cons_of_ne_nil hl'
    obtain ⟨p, r, hpr, hr⟩ : ∃ p r, l = p ++ f :: r ∧ r'.Sublist r := by
      obtain ⟨p, q, rfl, hp, hq⟩ := List.cons_sublist_iff.1 hs
      obtain ⟨a, b, rfl⟩ := List.append_of_mem hp
      exact ⟨a, b ++ q, by simp, (hq.trans (List.sublist_append_right b q))⟩
    obtain ⟨g, q, hgq⟩ : ∃ g q, e :: l = q ++ g :: f :: r := by
      obtain rfl | ⟨p, g, rfl⟩ := List.eq_nil_or_concat' p
      · exact ⟨e, [], by rw [hpr]; rfl⟩
      · exact ⟨g, e :: p, by rw [hpr]; simp⟩
    have hg : Aligned d (g :: f :: r) := by
      clear hpre hrest ih hl
      rw [hgq] at h
      clear hgq hel
      induction q with
      | nil => exact h
      | cons a q ihq => exact ihq (h.tail hd)
    refine hg.not_prefix (by simp) (htd'.trans (List.suffix_append _ _)) hne htd ?_
    cases r' with
    | nil =>
      rw [List.intercalate_singleton] at hpre
      cases r with
      | nil => rwa [List.intercalate_singleton]
      | cons k r =>
        rw [intercalate_cons (by simp), List.append_assoc]
        exact hpre.trans ⟨_, by rw [List.append_assoc]⟩
    | cons k r' =>
      have hr0 : r ≠ [] := fun h0 => by simp [h0] at hr
      rw [intercalate_cons (by simp)] at hpre
      rw [intercalate_cons hr0]
      exact prefix_window hpre

end Aligned

/-! ## One character -/

theorem not_mem_of_elements {c : Char} {l : List Text} (h : Elements [c] l) {e : Text} (he : e ∈ l) : c ∉ e := by
  intro hc
  obtain ⟨s, t, rfl⟩ := List.append_of_mem hc
  exact (h _ he).2 ⟨s, t, by simp⟩

/-- A delimiter of one character stands between elements only. -/
theorem aligned_singleton {c : Char} {l : List Text} (h : Elements [c] l) : Aligned [c] l := by
  intro u v huv
  have hmem : ∀ e ∈ l, c ∉ e := fun e he => not_mem_of_elements h he
  clear h
  induction l generalizing u with
  | nil => simp at huv
  | cons e l ih =>
    by_cases hl : l = []
    · subst hl
      rw [List.intercalate_singleton] at huv
      exact absurd (huv ▸ by simp) (hmem e (by simp))
    · rw [intercalate_cons hl] at huv
      simp only [List.append_assoc, List.singleton_append] at huv
      obtain ⟨a, ha⟩ | ⟨a, ha⟩ := List.append_eq_append_iff.1 huv
      · cases a with
        | nil =>
          refine ⟨[e], l, rfl, by simp, hl, ?_, ?_⟩
          · simpa using ha.1
          · simpa using ha.2.symm
        | cons b a =>
          rw [List.cons_append] at ha
          obtain ⟨rfl, hrest⟩ := List.cons.inj ha.2
          obtain ⟨l₁, l₂, rfl, h₁, h₂, hu, hv⟩ := ih a (by simpa using hrest) fun e he => hmem e (by simp [he])
          refine ⟨e :: l₁, l₂, rfl, by simp, h₂, ?_, hv⟩
          rw [intercalate_cons h₁, ha.1, hu]
          simp
      · cases a with
        | nil =>
          refine ⟨[e], l, rfl, by simp, hl, ?_, ?_⟩
          · simpa using ha.1.symm
          · simpa using ha.2
        | cons b a =>
          rw [List.cons_append] at ha
          obtain ⟨rfl, -⟩ := List.cons.inj ha.2
          exact absurd (ha.1 ▸ by simp) (hmem e (by simp))

/-! ## Elements that are left out -/

theorem length_intercalate_cons {e : Text} {l : List Text} :
    (d.intercalate (e :: l)).length = e.length + (l.map fun f => d.length + f.length).sum := by
  induction l generalizing e with
  | nil => simp
  | cons f l ih =>
    rw [intercalate_cons (by simp), List.length_append, List.length_append, ih, List.map_cons, List.sum_cons]
    omega

theorem infix_intercalate {e : Text} {l : List Text} (he : e ∈ l) : e <:+: d.intercalate l := by
  induction l with
  | nil => exact absurd he List.not_mem_nil
  | cons f l ih =>
    cases l with
    | nil =>
      rw [List.mem_singleton.1 he, List.intercalate_singleton]
    | cons g l =>
      rw [intercalate_cons (List.cons_ne_nil g l), List.append_assoc]
      rcases List.mem_cons.1 he with rfl | he
      · exact ⟨[], _, rfl⟩
      · exact (ih he).trans ⟨f ++ d, [], by simp⟩

/-- The text of a list with the delimiter behind every element. -/
theorem length_joined {l : List Text} (hl : l ≠ []) :
    (d.intercalate l).length + d.length = (l.map fun f => d.length + f.length).sum := by
  obtain ⟨e, l, rfl⟩ := List.exists_cons_of_ne_nil hl
  rw [length_intercalate_cons, List.map_cons, List.sum_cons]
  omega

theorem sum_filter_lt (g : Text → Nat) {p : Text → Bool} {l : List Text} (hg : ∀ e ∈ l, 0 < g e)
    (h : ∃ e ∈ l, p e = false) : ((l.filter p).map g).sum < (l.map g).sum := by
  have hle : ∀ l : List Text, ((l.filter p).map g).sum ≤ (l.map g).sum := by
    intro l
    induction l with
    | nil => rfl
    | cons e l ih =>
      rw [List.filter_cons, List.map_cons, List.sum_cons]
      split
      · rw [List.map_cons, List.sum_cons]
        omega
      · omega
  induction l with
  | nil => simp at h
  | cons e l ih =>
    have hpos := hg e (by simp)
    by_cases he : p e = true
    · have h' : ∃ e ∈ l, p e = false := by
        obtain ⟨f, hf, hpf⟩ := h
        obtain rfl | hf := List.mem_cons.1 hf
        · simp [he] at hpf
        · exact ⟨f, hf, hpf⟩
      have := ih (fun e he => hg e (by simp [he])) h'
      simp only [List.filter_cons_of_pos he, List.map_cons, List.sum_cons]
      omega
    · have := hle l
      simp only [List.filter_cons_of_neg he, List.map_cons, List.sum_cons]
      omega

/-- The text of a list is the text of a part of it only when nothing is left out. -/
theorem intercalate_filter {p : Text → Bool} {l : List Text} (he : ∀ e ∈ l, e ≠ [])
    (h : d.intercalate l = d.intercalate (l.filter p)) : ∀ e ∈ l, p e = true := by
  by_contra hno
  have hout : ∃ e ∈ l, p e = false := by simpa using hno
  have hl : l ≠ [] := fun h0 => by simp [h0] at hout
  by_cases hf : l.filter p = []
  · rw [hf, List.intercalate_nil] at h
    exact intercalate_ne_nil hl he h
  · have hlt := sum_filter_lt (fun f => d.length + f.length)
      (fun e hmem => by have := List.length_pos_of_ne_nil (he e hmem); omega) hout
    rw [← length_joined hl, ← length_joined hf, h] at hlt
    omega

end Shell
