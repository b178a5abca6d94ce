import T2Sde.Lib.Glob
import T2Sde.Lib.Joined
/-!
# List variables (`scripts/core-functions.in`)

`var_append`, `var_insert` and `var_remove` keep a list in a variable, its elements joined by a delimiter.
`var_remove` takes the element off the middle with one `//`, whose matches do not overlap, and then once off the end and
once off the front: of two equal elements next to each other the second one often stays. Its own variables `a` and `b`
hide those of the caller.

| here | there |
| --- | --- |
| `inQuotes` | what `eval "…$2…"` makes of the delimiter :91, :95 |
| `varAppend` | `var_append` :90-93 |
| `varInsert` | `var_insert` :94-97 |
| `varRemove` | `var_remove` :98-105 |

* `varRemove_value` — the substitutions as steps on the list: `inner`, `dropEnd`, `dropFront`.
* `removed_iff` — when the steps leave no element behind.
* `list_variables_iff` — **when the three do what they say on a list**.
-/
namespace T2Sde.Build
open Shell

/-- The variables, by name. -/
abbrev Vars := Text → Text

/-- A text that `eval` reads between double quotes; `none` where it has an expansion or the closing quote. -/
def inQuotes : Text → Option Text
  | [] => some []
  | ['\\'] => none
  | '\\' :: c :: t =>
    if c = '\n' then inQuotes t
    else if c = '$' ∨ c = '`' ∨ c = '"' ∨ c = '\\' then (inQuotes t).map (c :: ·)
    else (inQuotes t).map ('\\' :: c :: ·)
  | c :: t => if c = '$' ∨ c = '`' ∨ c = '"' then none else (inQuotes t).map (c :: ·)

/-- `var_append $1 $2 $3` -/
def varAppend (vars : Vars) (name delimiter value : Text) : Option Vars :=
  (inQuotes delimiter).map fun d =>
    let vars := if vars name ≠ [] then upd vars name (vars name ++ d) else vars
    upd vars name (vars name ++ value)

/-- `var_insert $1 $2 $3` -/
def varInsert (vars : Vars) (name delimiter value : Text) : Option Vars :=
  (inQuotes delimiter).map fun d =>
    let vars := if vars name ≠ [] then upd vars name (d ++ vars name) else vars
    upd vars name (value ++ vars name)

/-- `${2//\/\\/}`: a slash with a backslash behind it is dropped. -/
def dropEscapes (t : Text) : Text := replaceAll "\\/\\\\".toList [] t

/-- `var_remove $1 $2 $3`; `a` and `b` are local. -/
def varRemove (vars : Vars) (name delimiter value : Text) : Vars :=
  let own := upd (upd vars ['a'] (dropEscapes delimiter)) ['b'] (dropEscapes value)
  let own := if own name = value then upd own name [] else own
  let own := upd own name (replaceAll (own ['a'] ++ own ['b'] ++ own ['a']) delimiter (own name))
  let own := upd own name (stripSuffix (own ['a'] ++ own ['b']) (own name))
  let own := upd own name (stripPrefix (own ['b'] ++ own ['a']) (own name))
  fun y => if y = ['a'] ∨ y = ['b'] then vars y else own y

/-! ## The steps on the list -/

section
variable (x : Text)

/-- `//`: an `x` between two elements goes, but not the one behind it. -/
def inner : List Text → List Text
  | [] => []
  | [e] => [e]
  | e :: f :: l => if f = x ∧ l ≠ [] then e :: inner l else e :: inner (f :: l)

/-- `%`, when there is something in front. -/
def dropEnd (l : List Text) : List Text := if l.getLast? = some x ∧ 1 < l.length then l.dropLast else l

/-- `#`, when there is something behind. -/
def dropFront : List Text → List Text
  | e :: f :: l => if e = x then f :: l else e :: f :: l
  | l => l

def removed (l : List Text) : List Text := if l = [x] then [] else dropFront x (dropEnd x (inner x l))

/-- Two equal `x` side by side stand at the front only, with something else behind, or at the end only. -/
def Apart (l : List Text) : Prop :=
  ∀ u v, l = u ++ x :: x :: v →
    (u = [] ∧ ∃ y v', v = y :: v' ∧ y ≠ x) ∨ (v = [] ∧ ∃ y u', u = u' ++ [y] ∧ y ≠ x)
end

/-! ## Two that stay -/

section
variable {x : Text}

theorem inner_cons (e : Text) (t : List Text) : ∃ t', inner x (e :: t) = e :: t' ∧ (t ≠ [] → t' ≠ []) := by
  cases t with
  | nil => exact ⟨[], rfl, fun h => absurd rfl h⟩
  | cons f l =>
    have hne : ∀ f l, inner x (f :: l) ≠ [] := by
      intro f l
      cases l with
      | nil => simp [inner]
      | cons g l =>
        rw [inner]
        split <;> simp
    rw [inner]
    split
    next h =>
      obtain ⟨g, l, rfl⟩ := List.exists_cons_of_ne_nil h.2
      exact ⟨_, rfl, fun _ => hne g l⟩
    · exact ⟨_, rfl, fun _ => hne f l⟩

/-- Pairs behind the first element stand at the end only. -/
def EndOnly (x : Text) (t : List Text) : Prop := ∀ u v, t = u ++ x :: x :: v → v = []

theorem endOnly_cons {e : Text} {t : List Text} :
    EndOnly x (e :: t) ↔ (∀ v, e = x → t = x :: v → v = []) ∧ EndOnly x t := by
  constructor
  · intro h
    refine ⟨fun v he ht => h [] v (by rw [he, ht]; rfl), fun u v ht => h (e :: u) v (by rw [ht]; rfl)⟩
  · rintro ⟨h₁, h₂⟩ u v huv
    cases u with
    | nil =>
      obtain ⟨rfl, rfl⟩ := List.cons.inj huv
      exact h₁ v rfl rfl
    | cons f u =>
      obtain ⟨rfl, rfl⟩ := List.cons.inj huv
      exact h₂ u v rfl

/-- What `//` leaves when pairs stand at the end only. -/
theorem inner_of_endOnly : ∀ (e : Text) {t : List Text} (ht : t ≠ []), EndOnly x t →
    inner x (e :: t) = e :: (t.dropLast.filter (· ≠ x) ++ [t.getLast ht])
  | e, [], ht, _ => absurd rfl ht
  | e, [f], _, _ => by simp [inner]
  | e, f :: g :: l, _, h => by
    obtain ⟨hf, hg⟩ := endOnly_cons.1 h
    by_cases hx : f = x
    · rw [inner, if_pos ⟨hx, by simp⟩]
      by_cases hl : l = []
      · simp [hl, hx, inner]
      · have hgx : g ≠ x := fun h => hl (hf l hx (by rw [h]))
        rw [inner_of_endOnly g hl (endOnly_cons.1 hg).2]
        obtain ⟨k, l, rfl⟩ := List.exists_cons_of_ne_nil hl
        simp [hx, hgx]
    · rw [inner, if_neg (fun h => hx h.1), inner_of_endOnly f (by simp) hg]
      simp [hx]

/-- A pair that stands elsewhere leaves an `x` inside. -/
theorem endOnly_of_inner : ∀ {e : Text} {t t' : List Text}, inner x (e :: t) = e :: t' → x ∉ t'.dropLast → EndOnly x t
  | _, [], _, _, _ => fun u v h => by simp at h
  | _, [f], _, _, _ => fun u v h => by cases u <;> simp at h
  | e, f :: g :: l, t', ht', hx => by
    by_cases hf : f = x
    · rw [inner, if_pos ⟨hf, by simp⟩] at ht'
      obtain ⟨G, hG, hGne⟩ := inner_cons (x := x) g l
      rw [hG] at ht'
      obtain ⟨-, rfl⟩ := List.cons.inj ht'
      by_cases hl : l = []
      · subst hl
        intro u v h
        rcases u with _ | ⟨a, _ | ⟨b, u⟩⟩ <;> simp_all
      · rw [List.dropLast_cons_of_ne_nil (hGne hl), List.mem_cons, not_or] at hx
        refine endOnly_cons.2 ⟨fun v _ h => absurd (List.cons.inj h).1.symm hx.1, endOnly_cons.2 ⟨?_, ?_⟩⟩
        · exact fun v h => absurd h.symm hx.1
        · exact endOnly_of_inner hG hx.2
    · rw [inner, if_neg (fun h => hf h.1)] at ht'
      obtain ⟨G, hG, hGne⟩ := inner_cons (x := x) f (g :: l)
      rw [hG] at ht'
      obtain ⟨-, rfl⟩ := List.cons.inj ht'
      rw [List.dropLast_cons_of_ne_nil (hGne (by simp)), List.mem_cons, not_or] at hx
      exact endOnly_cons.2 ⟨fun v h => absurd h hf, endOnly_of_inner hG hx.2⟩

theorem dropEnd_concat (l : List Text) (z : Text) (hl : l ≠ []) :
    dropEnd x (l ++ [z]) = if z = x then l else l ++ [z] := by
  simp [dropEnd, List.length_pos_of_ne_nil hl]

/-- The value of the steps, when something stands in front of the last element. -/
theorem removed_cons {e : Text} {t F : List Text} {z : Text} (h : inner x (e :: t) = e :: (F ++ [z])) (ht : t ≠ []) :
    removed x (e :: t) = dropFront x (if z = x then e :: F else e :: F ++ [z]) := by
  rw [removed, if_neg (by simp [ht]), h, ← List.cons_append, dropEnd_concat _ _ (by simp)]

theorem removed_triple : removed x [x, x, x] = [x] := by
  simp [removed, inner, dropEnd, dropFront]

theorem apart_of_removed {l : List Text} (h : x ∉ removed x l) : Apart x l := by
  cases l with
  | nil => exact fun u v h => by simp at h
  | cons e t =>
    by_cases ht : t = []
    · subst ht
      exact fun u v h => by cases u <;> simp at h
    obtain ⟨t', ht', hne⟩ := inner_cons (x := x) e t
    obtain ⟨F, z, hFz⟩ : ∃ F z, t' = F ++ [z] := ⟨_, _, (List.dropLast_append_getLast (hne ht)).symm⟩
    subst hFz
    have hF : x ∉ F := by
      rw [removed_cons ht' ht] at h
      intro hmem
      obtain ⟨f, F, rfl⟩ := List.exists_cons_of_ne_nil (List.ne_nil_of_mem hmem)
      refine h ?_
      by_cases hz : z = x <;> by_cases he : e = x <;> simp_all [dropFront]
    have hend : EndOnly x t := endOnly_of_inner ht' (by simpa using hF)
    have htriple : e :: t ≠ [x, x, x] := fun h3 => h (by rw [h3, removed_triple]; simp)
    intro u v huv
    cases u with
    | nil =>
      obtain ⟨rfl, rfl⟩ := List.cons.inj huv
      refine .inl ⟨rfl, ?_⟩
      cases v with
      | nil => exact absurd (by simp [removed, inner, dropEnd, dropFront]) h
      | cons y v =>
        refine ⟨y, v, rfl, ?_⟩
        rintro rfl
        have := hend [] v rfl
        subst this
        exact htriple rfl
    | cons a u =>
      obtain ⟨rfl, rfl⟩ := List.cons.inj huv
      obtain rfl := hend u v rfl
      refine .inr ⟨rfl, ?_⟩
      obtain rfl | ⟨u, y, rfl⟩ := List.eq_nil_or_concat' u
      · exact ⟨e, [], rfl, fun he => htriple (by rw [he]; rfl)⟩
      · refine ⟨y, e :: u, rfl, ?_⟩
        rintro rfl
        have := hend u [y] (by simp)
        simp at this

theorem removed_of_apart {l : List Text} (h : Apart x l) : removed x l = l.filter (· ≠ x) := by
  cases l with
  | nil => rfl
  | cons e t =>
    by_cases ht : t = []
    · subst ht
      by_cases he : e = x <;> simp [removed, he, inner, dropEnd, dropFront]
    have hend : EndOnly x t := by
      intro u v huv
      obtain ⟨hu, -⟩ | ⟨hv, -⟩ := h (e :: u) v (by rw [huv]; rfl)
      · simp at hu
      · exact hv
    rw [removed_cons (inner_of_endOnly e ht hend) ht]
    generalize hF : t.dropLast.filter (· ≠ x) = F
    generalize hz : t.getLast ht = z
    have hsplit : t.filter (· ≠ x) = F ++ [z].filter (· ≠ x) := by
      rw [← hF, ← hz, ← List.filter_append, List.dropLast_append_getLast]
    rw [List.filter_cons, hsplit]
    by_cases hzx : z = x
    · by_cases he : e = x
      · cases F with
        | cons f F => simp [hzx, he, dropFront]
        | nil =>
          -- something else stands in the list: it is not `x` alone
          exfalso
          have hall : ∀ f ∈ t, f = x := by simpa [hzx] using hsplit
          obtain ⟨f, v, rfl⟩ := List.exists_cons_of_ne_nil ht
          obtain ⟨-, y, v, rfl, hy⟩ | ⟨-, y, u, hu, -⟩ := h [] v (by rw [he, hall f (by simp)]; rfl)
          · exact hy (hall y (by simp))
          · simp at hu
      · cases F <;> simp [hzx, he, dropFront]
    · cases F <;> by_cases he : e = x <;> simp [hzx, he, dropFront]

/-- The steps leave no `x`, and only that, exactly when the pairs stand apart. -/
theorem removed_iff {l : List Text} : removed x l = l.filter (· ≠ x) ↔ Apart x l := by
  refine ⟨fun h => apart_of_removed (x := x) ?_, removed_of_apart⟩
  rw [h]
  simp

end

/-! ## The substitutions -/

/-- A character that a delimiter keeps through `eval`, the patterns and the replacement. -/
def delimiterChar (c : Char) : Bool := verbatimChar c && c != '$' && c != '`' && c != '"' && c != '&'

structure Delimiter where
  text : Text
  ne : text ≠ []
  plain : ∀ c ∈ text, delimiterChar c = true

/-- An element of a list with this delimiter. -/
def Element (d e : Text) : Prop := e ≠ [] ∧ ¬ d <:+: e ∧ Verbatim e

theorem inQuotes_eq {t : Text} (h : ∀ c ∈ t, delimiterChar c = true) : inQuotes t = some t := by
  fun_induction inQuotes t with
  | case1 => rfl
  | case2 => simp [delimiterChar, verbatimChar] at h
  | case3 | case4 | case5 => simp [delimiterChar, verbatimChar] at h
  | case6 c t _ _ hc => rcases hc with rfl | rfl | rfl <;> simp [delimiterChar, verbatimChar] at h
  | case7 c t _ _ hc ih => rw [ih fun c hc => h c (by simp [hc])]; rfl

theorem dropEscapes_eq {t : Text} (h : Verbatim t) : dropEscapes t = t := by
  refine replaceAll_of_not_fits fun s hs => ?_
  by_contra hf
  have hfit := (@fits_of_glob ['/', '\\'] "\\/\\\\".toList rfl s).1 (by simpa using hf)
  subst hfit
  have := h '\\' (hs.subset (by simp))
  simp [verbatimChar] at this

section
variable {d x : Text} {l : List Text}

theorem delimiter_plain (d : Delimiter) : Verbatim d.text := fun c hc => by
  have := d.plain c hc
  simp only [delimiterChar, Bool.and_eq_true] at this
  exact this.1.1.1.1

/-- `//` on the text of a list. -/
theorem replaceAll_list (hd : d ≠ []) (hpd : Verbatim d) (hx : Element d x) :
    ∀ {l : List Text}, Elements d l → Aligned d l →
      replaceAll (d ++ x ++ d) d (d.intercalate l) = d.intercalate (inner x l)
  | [], _, _ => rfl
  | [e], hl, _ => by
    have hskip := @replaceAll_skip (d ++ x ++ d) d
      (by simp [verbatim_append, hpd, hx.2.2]) e [] fun t ht _ hpre => by
        rw [List.append_nil] at hpre
        exact (hl e (by simp)).2
          (((List.prefix_append d (x ++ d)).trans (by simpa using hpre)).isInfix.trans ht.isInfix)
    rw [List.append_nil] at hskip
    rw [inner, List.intercalate_singleton, hskip]
    exact List.append_nil e
  | e :: f :: l, hl, ha => by
    have hp : Verbatim (d ++ x ++ d) := by simp [verbatim_append, hpd, hx.2.2]
    have hne : d ++ x ++ d ≠ [] := by simp [hd]
    have hld : d <+: d ++ x ++ d := ⟨x ++ d, by simp⟩
    by_cases h : f = x ∧ l ≠ []
    · have hIH := replaceAll_list hd hpd hx (l := l) (fun e he => hl e (by simp [he])) ((ha.tail hd).tail hd)
      obtain ⟨rfl, hl0⟩ := h
      have hin : inner f l ≠ [] := by
        obtain ⟨g, r, rfl⟩ := List.exists_cons_of_ne_nil hl0
        obtain ⟨t', ht', -⟩ := inner_cons (x := f) g r
        rw [ht']
        simp
      rw [inner, if_pos ⟨rfl, hl0⟩, intercalate_cons (by simp), intercalate_cons hl0, intercalate_cons hin, ← hIH]
      have htext : e ++ d ++ (f ++ d ++ d.intercalate l) = e ++ ((d ++ f ++ d) ++ d.intercalate l) := by simp
      rw [htext, replaceAll_skip hp, replaceAll_match hp hne, ← List.append_assoc]
      rintro t ht htne hpre
      refine ha.not_prefix (by simp) (t := t ++ d) ?_ (by simp [hd]) (by simp [htne]) (hld.trans ?_)
      · obtain ⟨p, rfl⟩ := ht
        exact ⟨p, by simp⟩
      · rw [intercalate_cons hl0]
        simpa using hpre
    · have hIH := replaceAll_list hd hpd hx (l := f :: l) (fun e he => hl e (by simp [he])) (ha.tail hd)
      have hin : inner x (f :: l) ≠ [] := by
        obtain ⟨t', ht', -⟩ := inner_cons (x := x) f l
        rw [ht']
        simp
      rw [inner, if_neg h, intercalate_cons (by simp), intercalate_cons hin, ← hIH, replaceAll_skip hp]
      intro t ht htne hpre
      by_cases htd : t = d
      · -- behind this delimiter comes `x` and another one
        subst htd
        obtain ⟨v, hv⟩ := hpre
        have hv' : t.intercalate (f :: l) = x ++ t ++ v := by
          refine @List.append_cancel_left _ t _ _ ?_
          rw [← hv]
          simp
        obtain ⟨l₁, l₂, hl', h₁, h₂, hxl, -⟩ := (ha.tail hd) x v hv'
        have := eq_singleton_of_intercalate h₁ hx.2.1 hxl.symm
        subst this
        obtain ⟨rfl, rfl⟩ := List.cons.inj hl'
        exact h ⟨rfl, h₂⟩
      · exact ha.not_prefix (by simp) ht htne htd (hld.trans hpre)

/-- `%` on the text of a list. -/
theorem stripSuffix_list (hpd : Verbatim d) (hx : Element d x) (ha : Aligned d l) :
    stripSuffix (d ++ x) (d.intercalate l) = d.intercalate (dropEnd x l) := by
  have hp : Verbatim (d ++ x) := by simp [verbatim_append, hpd, hx.2.2]
  by_cases h : d ++ x <:+ d.intercalate l
  · obtain ⟨u, hu⟩ := h
    obtain ⟨l₁, l₂, rfl, h₁, h₂, rfl, hxl⟩ := ha u x (by rw [← hu, List.append_assoc])
    obtain rfl := eq_singleton_of_intercalate h₂ hx.2.1 hxl.symm
    rw [dropEnd_concat _ _ h₁, if_pos rfl, ← hu, stripSuffix_append hp]
  · rw [stripSuffix_of_not hp h, dropEnd, if_neg]
    rintro ⟨hlast, hlen⟩
    obtain ⟨l₁, rfl⟩ := List.getLast?_eq_some_iff.1 hlast
    have h₁ : l₁ ≠ [] := by rintro rfl; simp at hlen
    exact h ⟨d.intercalate l₁, by rw [intercalate_append h₁ (by simp), List.intercalate_singleton, List.append_assoc]⟩

/-- `#` on the text of a list. -/
theorem stripPrefix_list (hpd : Verbatim d) (hx : Element d x) (ha : Aligned d l) :
    stripPrefix (x ++ d) (d.intercalate l) = d.intercalate (dropFront x l) := by
  have hp : Verbatim (x ++ d) := by simp [verbatim_append, hpd, hx.2.2]
  rw [stripPrefix_verbatim hp]
  by_cases h : x ++ d <+: d.intercalate l
  · obtain ⟨v, hv⟩ := h
    obtain ⟨l₁, l₂, rfl, h₁, h₂, hxl, rfl⟩ := ha x v hv.symm
    obtain rfl := eq_singleton_of_intercalate h₁ hx.2.1 hxl.symm
    obtain ⟨f, l₂, rfl⟩ := List.exists_cons_of_ne_nil h₂
    rw [if_pos ⟨_, hv⟩, ← hv, List.drop_left, List.singleton_append, dropFront, if_pos rfl]
  · rw [if_neg h]
    match l with
    | [] => rfl
    | [e] => rfl
    | e :: f :: l =>
      rw [dropFront, if_neg]
      rintro rfl
      exact h (by rw [intercalate_cons (by simp)]; exact List.prefix_append _ _)

theorem inner_sublist (l : List Text) : (inner x l).Sublist l := by
  fun_induction inner x l with
  | case1 => exact List.Sublist.refl _
  | case2 e => exact List.Sublist.refl _
  | case3 e f l _ ih => exact (ih.cons f).cons_cons e
  | case4 e f l _ ih => exact ih.cons_cons e

theorem dropEnd_sublist (l : List Text) : (dropEnd x l).Sublist l := by
  rw [dropEnd]
  split
  · exact List.dropLast_sublist l
  · exact List.Sublist.refl l

theorem dropFront_sublist (l : List Text) : (dropFront x l).Sublist l := by
  unfold dropFront
  split
  · split
    · exact List.sublist_cons_self _ _
    · exact List.Sublist.refl _
  · exact List.Sublist.refl l

theorem removed_sublist (l : List Text) : (removed x l).Sublist l := by
  rw [removed]
  split
  · exact List.nil_sublist l
  · exact ((dropFront_sublist _).trans (dropEnd_sublist _)).trans (inner_sublist l)

theorem filter_inner (l : List Text) : (inner x l).filter (· ≠ x) = l.filter (· ≠ x) := by
  fun_induction inner x l with
  | case1 => rfl
  | case2 e => rfl
  | case3 e f l h ih =>
    have hf : (f :: l).filter (· ≠ x) = l.filter (· ≠ x) := by simp [h.1]
    rw [List.filter_cons, List.filter_cons, ih, hf]
  | case4 e f l _ ih =>
    rw [List.filter_cons, ih]
    exact (List.filter_cons (p := fun y => decide (y ≠ x))).symm

theorem filter_dropEnd (l : List Text) : (dropEnd x l).filter (· ≠ x) = l.filter (· ≠ x) := by
  rw [dropEnd]
  split
  next h =>
    obtain ⟨l₁, rfl⟩ := List.getLast?_eq_some_iff.1 h.1
    simp
  · rfl

theorem filter_dropFront (l : List Text) : (dropFront x l).filter (· ≠ x) = l.filter (· ≠ x) := by
  unfold dropFront
  split
  · split
    next h => simp [h]
    · rfl
  · rfl

/-- Only `x` is left out. -/
theorem filter_removed (l : List Text) : (removed x l).filter (· ≠ x) = l.filter (· ≠ x) := by
  rw [removed]
  split
  next h => simp [h]
  · rw [filter_dropFront, filter_dropEnd, filter_inner]

end

section
variable (vars : Vars) (d : Delimiter) {name x : Text} {l : List Text}

theorem element_elements {d : Text} (hl : ∀ e ∈ l, Element d e) : Elements d l :=
  fun e he => ⟨(hl e he).1, (hl e he).2.1⟩

/-- The text of a list is one element's when it is the only one. -/
theorem intercalate_eq_iff {d x : Text} (hx : Element d x) : d.intercalate l = x ↔ l = [x] := by
  constructor
  · intro h
    refine eq_singleton_of_intercalate ?_ hx.2.1 h
    rintro rfl
    exact hx.1 h.symm
  · rintro rfl
    rw [List.intercalate_singleton]

/-- The value that `var_remove` leaves, and nothing else. -/
theorem varRemove_value (hx : Element d.text x) (hl : ∀ e ∈ l, Element d.text e) (ha : Aligned d.text l)
    (hname : name ≠ ['a'] ∧ name ≠ ['b']) (hv : vars name = d.text.intercalate l) :
    varRemove vars name d.text x = upd vars name (d.text.intercalate (removed x l)) := by
  have hd := delimiter_plain d
  have hel := element_elements hl
  have hsub := inner_sublist (x := x) l
  have hinner := ha.sublist hsub d.ne hel
  have hend := hinner.sublist (dropEnd_sublist (x := x) _) d.ne fun e he => hel e (hsub.subset he)
  have hsteps : stripPrefix (x ++ d.text) (stripSuffix (d.text ++ x) (replaceAll (d.text ++ x ++ d.text) d.text
      (if d.text.intercalate l = x then [] else d.text.intercalate l))) = d.text.intercalate (removed x l) := by
    by_cases h : l = [x]
    · rw [if_pos ((intercalate_eq_iff hx).2 h), removed, if_pos h]
      have hnil : Aligned d.text [] := .of_length_le_one d.ne (by simp) (by simp [Elements])
      exact (congrArg (stripPrefix _) (stripSuffix_list hd hx hnil)).trans (stripPrefix_list hd hx hnil)
    · rw [if_neg (fun h' => h ((intercalate_eq_iff hx).1 h')), replaceAll_list d.ne hd hx hel ha,
        stripSuffix_list hd hx hinner, stripPrefix_list hd hx hend, removed, if_neg h]
  have hab : name ≠ ['a'] ∧ name ≠ ['b'] ∧ ['a'] ≠ name ∧ ['b'] ≠ name :=
    ⟨hname.1, hname.2, hname.1.symm, hname.2.symm⟩
  have hcond : ∀ (f : Vars) (p : Prop) [Decidable p],
      (if p then upd f name [] else f) = upd f name (if p then [] else f name) := by
    intro f p _
    split
    · rfl
    · funext y
      by_cases hy : y = name <;> simp [hy]
  funext y
  simp only [varRemove, dropEscapes_eq hd, dropEscapes_eq hx.2.2, hcond]
  by_cases hy : y = name
  · subst hy
    simpa [hab, hv] using hsteps
  · by_cases ha : y = ['a'] <;> by_cases hb : y = ['b'] <;> simp [hy, ha, hb, hab]

/-- The variables of `var_remove` itself are the caller's again when it returns. -/
theorem varRemove_own (hname : name = ['a'] ∨ name = ['b']) : varRemove vars name d.text x = vars := by
  funext y
  unfold varRemove
  by_cases hy : y = ['a'] ∨ y = ['b']
  · simp [hy]
  · have hne : y ≠ name := fun h => hy (h ▸ hname)
    rw [not_or] at hy
    simp only [hy.1, hy.2, or_self, if_false]
    split <;> simp [hne, hy.1, hy.2]

theorem apart_of_not_mem (hx : x ∉ l) : Apart x l := fun u v h => absurd (by rw [h]; simp) hx

/-- The list `l` in the variable is the list with `x` behind, with `x` in front, without `x`, and nothing else is
changed. -/
def ListOps (vars : Vars) (name d x : Text) (l : List Text) : Prop :=
  varAppend vars name d x = some (upd vars name (d.intercalate (l ++ [x]))) ∧
    varInsert vars name d x = some (upd vars name (d.intercalate (x :: l))) ∧
      varRemove vars name d x = upd vars name (d.intercalate (l.filter (· ≠ x)))

/-- What is to be removed does not stand twice in a row but at one end, and is not in a variable of `var_remove`. -/
def Removable (name x : Text) (l : List Text) : Prop := x ∈ l → name ≠ ['a'] ∧ name ≠ ['b'] ∧ Apart x l

theorem varAppend_eq (hl : ∀ e ∈ l, Element d.text e) (hv : vars name = d.text.intercalate l) :
    varAppend vars name d.text x = some (upd vars name (d.text.intercalate (l ++ [x]))) := by
  rw [varAppend, inQuotes_eq d.plain, Option.map_some]
  congr 1
  by_cases h : l = []
  · subst h
    rw [List.intercalate_nil] at hv
    simp [hv]
  · have hne : vars name ≠ [] := hv ▸ intercalate_ne_nil h fun e he => (hl e he).1
    funext y
    by_cases hy : y = name
    · rw [hv] at hne
      simp [hy, hne, hv, intercalate_append h (List.cons_ne_nil x [])]
    · simp [hy, hne]

theorem varInsert_eq (hl : ∀ e ∈ l, Element d.text e) (hv : vars name = d.text.intercalate l) :
    varInsert vars name d.text x = some (upd vars name (d.text.intercalate (x :: l))) := by
  rw [varInsert, inQuotes_eq d.plain, Option.map_some]
  congr 1
  by_cases h : l = []
  · subst h
    rw [List.intercalate_nil] at hv
    simp [hv]
  · have hne : vars name ≠ [] := hv ▸ intercalate_ne_nil h fun e he => (hl e he).1
    funext y
    by_cases hy : y = name
    · rw [hv] at hne
      simp [hy, hne, hv, intercalate_cons h]
    · simp [hy, hne]

/-- **The three do what they say on a list exactly when what is to be removed does not stand twice in a row**, but for
the ends. -/
theorem list_variables_iff (hx : Element d.text x) (hl : ∀ e ∈ l, Element d.text e) (ha : Aligned d.text l)
    (hv : vars name = d.text.intercalate l) : ListOps vars name d.text x l ↔ Removable name x l := by
  have hne : ∀ e ∈ l, e ≠ [] := fun e he => (hl e he).1
  constructor
  · rintro ⟨-, -, h⟩ hmem
    have hout : ¬ d.text.intercalate l = d.text.intercalate (l.filter (· ≠ x)) := fun heq => by
      simpa using intercalate_filter hne heq x hmem
    have hname : name ≠ ['a'] ∧ name ≠ ['b'] := by
      rw [← not_or]
      intro hown
      rw [varRemove_own vars d hown] at h
      have := congrFun h name
      rw [upd_same, hv] at this
      exact hout this
    refine ⟨hname.1, hname.2, apart_of_removed fun hstay => ?_⟩
    rw [varRemove_value vars d hx hl ha hname hv] at h
    have heq := congrFun h name
    rw [upd_same, upd_same, ← filter_removed] at heq
    have hkept : ∀ e ∈ removed x l, e ≠ [] := fun e he => hne e ((removed_sublist l).subset he)
    simpa using intercalate_filter hkept heq x hstay
  · intro h
    refine ⟨varAppend_eq vars d hl hv, varInsert_eq vars d hl hv, ?_⟩
    by_cases hmem : x ∈ l
    · obtain ⟨h₁, h₂, hap⟩ := h hmem
      rw [varRemove_value vars d hx hl ha ⟨h₁, h₂⟩ hv, removed_of_apart hap]
    · have hfil : l.filter (· ≠ x) = l := List.filter_eq_self.2 fun e he => by
        simpa using fun h : e = x => hmem (h ▸ he)
      by_cases hown : name = ['a'] ∨ name = ['b']
      · rw [varRemove_own vars d hown, hfil, ← hv, upd_self]
      · rw [varRemove_value vars d hx hl ha (not_or.1 hown) hv, removed_of_apart (apart_of_not_mem hmem)]

/-- A delimiter of one character needs no further condition. -/
theorem list_variables_char_iff {c : Char} (hc : delimiterChar c = true) (hx : Element [c] x)
    (hl : ∀ e ∈ l, Element [c] e) (hv : vars name = [c].intercalate l) :
    ListOps vars name [c] x l ↔ Removable name x l :=
  list_variables_iff vars ⟨[c], by simp, by simpa using hc⟩ hx hl (aligned_singleton (element_elements hl)) hv

end

/-- `-O2` and `-g` in a list of words. -/
theorem list_variables_words :
    ListOps (fun _ => "-O2 -g -O2".toList) "CC".toList [' '] "-O2".toList ["-O2".toList, "-g".toList, "-O2".toList] ↔
      Removable "CC".toList "-O2".toList ["-O2".toList, "-g".toList, "-O2".toList] :=
  have hword : ∀ e ∈ ["-O2".toList, "-g".toList], Element [' '] e := by
    simp only [List.forall_mem_cons, List.not_mem_nil, false_imp_iff, implies_true, and_true]
    exact ⟨⟨by decide, by decide, List.all_eq_true.1 (by decide)⟩,
      ⟨by decide, by decide, List.all_eq_true.1 (by decide)⟩⟩
  list_variables_iff (fun _ => "-O2 -g -O2".toList) ⟨[' '], by simp, List.all_eq_true.1 (by decide)⟩
    (hword _ (by simp)) (fun e he => hword e (by simp at he ⊢; tauto))
    (aligned_singleton (element_elements fun e he => hword e (by simp at he ⊢; tauto))) (by decide)

/-- Two equal words, and nothing else: one of them stays. -/
theorem equal_words_stay :
    [' '].intercalate ["b".toList, "b".toList] = "b b".toList ∧
      varRemove (fun _ => "b b".toList) "X".toList [' '] "b".toList "X".toList = "b".toList ∧
        ¬ ListOps (fun _ => "b b".toList) "X".toList [' '] "b".toList ["b".toList, "b".toList] := by
  have hval : varRemove (fun _ => "b b".toList) "X".toList [' '] "b".toList "X".toList = "b".toList := by decide
  refine ⟨by decide, hval, ?_⟩
  rintro ⟨-, -, h⟩
  have := congrFun h "X".toList
  rw [hval] at this
  exact absurd this (by decide)

example : varRemove (fun _ => "a b b c".toList) "X".toList [' '] "b".toList "X".toList = "a b c".toList := by decide

end T2Sde.Build
