import T2Sde.Lib.Cut
import Mathlib.Data.List.Chain
import Mathlib.Data.List.DropRight
/-!
# Lists and regular expressions (`scripts/core-functions.in`)

`var_remove_regex` and `var_insert_before_regex` print a variable into `gawk`, which splits each line into an array,
copies it into another one, and prints this one with the delimiter in front of every element: `c1 > 0` holds of the
first one too. Between blanks `gawk` sees words, and no empty elements. The second array is not emptied for the next
line.

| here | there |
| --- | --- |
| `echo`                  | `echo "$VAR"`, which may be taken for an option |
| `Delim`, `Value`        | what may stand in the program between quotes |
| `Delim.split`, `fields` | `split($0, a, "$2")` |
| `insertLoop`            | the loop :110 |
| `gawk`                  | the program, line by line |
| `varRemoveRegex`        | `var_remove_regex` :106-108 |
| `varInsertBeforeRegex`  | `var_insert_before_regex` :109-111 |

* `elements_gawk` — the result has an empty element in front.
* `varRemoveRegex_iff`, `varInsertBeforeRegex_iff` — when that is the list that is meant.
* `regex_lists_iff` — **when the two do what they say on a list**.
-/
namespace T2Sde.Build
open Shell

/-! ## The two functions -/

/-- The characters that end a string of the program, or the program. -/
def quoting : Text := ['"', '\'', '\x60', '\\']

structure Delim where
  char : Char
  plain : char ∉ quoting
  single : char ≠ '\n'

structure Value where
  text : Text
  plain : ∀ c ∈ text, c ∉ quoting

/-- `echo "$VAR"` -/
def echo (arg : Text) : Text :=
  match arg with
  | '-' :: o => if o ≠ [] ∧ ∀ c ∈ o, c ∈ "neE".toList then (if 'n' ∈ o then [] else ['\n']) else arg ++ ['\n']
  | _ => arg ++ ['\n']

def Delim.split (d : Delim) (record : Text) : List Text :=
  if d.char = ' ' then words record else if record = [] then [] else record.splitOn d.char

/-- The array `b` with other elements from the first one on. -/
def store (b new : List Text) : List Text := new ++ b.drop new.length

/-- The array after each line. -/
def arrays (f : Text → List Text) : List Text → List Text → List (List Text)
  | _, [] => []
  | b, record :: records => store b (f record) :: arrays f (store b (f record)) records

/-- What is printed; the shell takes the newlines off its end. -/
def gawk (d : Delim) (f : Text → List Text) (records : List Text) : Text :=
  ((arrays f [] records).flatMap fun b => b.flatMap (d.char :: ·)).rdropWhile (· == '\n')

/-- `hit` is `~ /^$3$/`. -/
def varRemoveRegex (d : Delim) (hit : Text → Bool) (x : Text) : Text :=
  gawk d (fun record => (d.split record).filter (!hit ·)) (lines (echo x))

/-- The loop with its flag, and the line behind it. -/
def insertLoop (hit : Text → Bool) (v : Text) : Bool → List Text → List Text
  | flag, [] => if flag then [v] else []
  | flag, e :: es => if flag && hit e then v :: e :: insertLoop hit v false es else e :: insertLoop hit v flag es

/-- A newline in the value is an error of the program. -/
def varInsertBeforeRegex (d : Delim) (v : Value) (hit : Text → Bool) (x : Text) : Text :=
  if '\n' ∈ v.text then []
  else gawk d (fun record => insertLoop hit v.text true (d.split record)) (lines (echo x))

/-! ## The property -/

/-- The list in a variable. -/
def elements (d : Delim) (x : Text) : List Text := if x = [] then [] else x.splitOn d.char

/-- In front of the first one that matches, or at the end. -/
def insertBefore (hit : Text → Bool) (v : Text) : List Text → List Text
  | [] => [v]
  | e :: es => if hit e then v :: e :: es else e :: insertBefore hit v es

/-- The fields of all lines. -/
def fields (d : Delim) (x : Text) : List Text := (lines (echo x)).flatMap d.split

/-- No line leaves fewer fields than the line before. -/
def Growing (d : Delim) (hit : Text → Bool) (x : Text) : Prop :=
  ((lines (echo x)).map fun record => ((d.split record).filter (!hit ·)).length).IsChain (· ≤ ·)

/-- All of it goes; or an empty element is left in front of the words. -/
def RegexRemovable (d : Delim) (hit : Text → Bool) (x : Text) : Prop :=
  (elements d x).filter (!hit ·) = [] ∧ (fields d x).filter (!hit ·) = [] ∨
    d.char = ' ' ∧ (elements d x).filter (!hit ·) = [] :: (fields d x).filter (!hit ·) ∧
      (fields d x).filter (!hit ·) ≠ [] ∧ Growing d hit x

/-- An empty element is in front of the words, and not where the value is to be put; or it is what is put there. -/
def RegexInsertable (d : Delim) (v : Value) (hit : Text → Bool) (x : Text) : Prop :=
  d.char = ' ' ∧ '\n' ∉ v.text ∧ elements d x = [] :: words x ∧
    (hit [] = false ∨ v.text = [] ∧ ∃ w ws, words x = w :: ws ∧ hit w = true)

/-! ## The array -/

section
variable {f : Text → List Text} {b : List Text} {records : List Text}

theorem length_store (b new : List Text) : (store b new).length = max b.length new.length := by
  rw [store, List.length_append, List.length_drop]
  omega

theorem prefix_store (b new : List Text) : new <+: store b new := List.prefix_append new _

theorem store_of_le {new : List Text} (h : b.length ≤ new.length) : store b new = new := by
  rw [store, List.drop_eq_nil_of_le h, List.append_nil]

/-- The fields are in the arrays, in their order. -/
theorem sublist_arrays (f : Text → List Text) (b records : List Text) :
    (records.flatMap f).Sublist (arrays f b records).flatten := by
  induction records generalizing b with
  | nil => exact List.Sublist.refl []
  | cons record records ih =>
    rw [List.flatMap_cons, arrays, List.flatten_cons]
    exact (prefix_store b (f record)).sublist.append (ih _)

theorem arrays_of_growing (h : (b.length :: records.map fun r => (f r).length).IsChain (· ≤ ·)) :
    (arrays f b records).flatten = records.flatMap f := by
  induction records generalizing b with
  | nil => rfl
  | cons record records ih =>
    rw [List.map_cons, List.isChain_cons_cons] at h
    rw [arrays, store_of_le h.1, List.flatten_cons, ih h.2, List.flatMap_cons]

theorem growing_of_length (h : (arrays f b records).flatten.length ≤ (records.flatMap f).length) :
    (b.length :: records.map fun r => (f r).length).IsChain (· ≤ ·) := by
  induction records generalizing b with
  | nil => exact List.isChain_singleton _
  | cons record records ih =>
    have hrest := (sublist_arrays f (store b (f record)) records).length_le
    rw [arrays, List.flatten_cons, List.length_append, length_store, List.flatMap_cons, List.length_append] at h
    have hle : b.length ≤ (f record).length := by omega
    rw [List.map_cons, List.isChain_cons_cons]
    rw [store_of_le hle] at hrest h
    exact ⟨hle, ih (by omega)⟩

theorem isChain_zero_cons {l : List Nat} : (0 :: l).IsChain (· ≤ ·) ↔ l.IsChain (· ≤ ·) := by
  cases l with
  | nil => simp
  | cons n l => rw [List.isChain_cons_cons]; simp

theorem mem_arrays {e : Text} (h : e ∈ (arrays f b records).flatten) : e ∈ b ∨ ∃ r ∈ records, e ∈ f r := by
  induction records generalizing b with
  | nil => simp [arrays] at h
  | cons record records ih =>
    have hstore : e ∈ store b (f record) → e ∈ b ∨ ∃ r ∈ record :: records, e ∈ f r := by
      intro he
      rcases List.mem_append.1 he with he | he
      · exact .inr ⟨record, List.mem_cons_self, he⟩
      · exact .inl (List.mem_of_mem_drop he)
    rw [arrays, List.flatten_cons, List.mem_append] at h
    rcases h with h | h
    · exact hstore h
    · rcases ih h with h | ⟨r, hr, he⟩
      · exact hstore h
      · exact .inr ⟨r, List.mem_cons_of_mem record hr, he⟩

end

/-! ## What is printed -/

section
variable {d : Delim} {f : Text → List Text} {records : List Text}

theorem splitOn_printed {c : Char} {es : List Text} (hes : ∀ e ∈ es, c ∉ e) {u : Text} (hu : c ∉ u) :
    (u ++ es.flatMap (c :: ·)).splitOn c = u :: es := by
  induction es generalizing u with
  | nil => rw [List.flatMap_nil, List.append_nil, splitOn_single hu]
  | cons e es ih =>
    obtain ⟨he, hes⟩ := List.forall_mem_cons.1 hes
    rw [List.flatMap_cons, List.cons_append, splitOn_cons hu, ih hes he]

/-- **The result has an empty element in front**, unless there is nothing at all. -/
theorem elements_gawk (h : ∀ r ∈ records, ∀ e ∈ f r, d.char ∉ e ∧ '\n' ∉ e) :
    elements d (gawk d f records) =
      if (arrays f [] records).flatten = [] then [] else [] :: (arrays f [] records).flatten := by
  have hmem : ∀ e ∈ (arrays f [] records).flatten, d.char ∉ e ∧ '\n' ∉ e := by
    intro e he
    rcases mem_arrays he with he | ⟨r, hr, he⟩
    · cases he
    · exact h r hr e he
  have hprint : ((arrays f [] records).flatMap fun b => b.flatMap (d.char :: ·)) =
      (arrays f [] records).flatten.flatMap (d.char :: ·) := by
    rw [← List.flatMap_id, List.flatMap_assoc]
    rfl
  rw [gawk, hprint]
  generalize (arrays f [] records).flatten = es at hmem
  have hnewline : (es.flatMap (d.char :: ·)).rdropWhile (· == '\n') = es.flatMap (d.char :: ·) := by
    refine List.rdropWhile_eq_self_iff.2 fun hne => ?_
    have hlast := List.getLast_mem hne
    intro hnew
    rw [beq_iff_eq.1 hnew, List.mem_flatMap] at hlast
    obtain ⟨e, he, hin⟩ := hlast
    rcases List.mem_cons.1 hin with hin | hin
    · exact d.single hin.symm
    · exact (hmem e he).2 hin
  rw [hnewline]
  by_cases hes : es = []
  · rw [if_pos hes, hes]
    rfl
  · have hne : es.flatMap (d.char :: ·) ≠ [] := by
      obtain ⟨e, es, rfl⟩ := List.exists_cons_of_ne_nil hes
      simp
    rw [if_neg hes, elements, if_neg hne]
    exact splitOn_printed (u := []) (fun e he => (hmem e he).1) (by simp)

theorem newline_not_mem_line {s r : Text} (h : r ∈ lines s) : '\n' ∉ r := by
  apply splitOn_parts '\n' s
  rw [lines] at h
  split at h
  · exact List.dropLast_subset _ h
  · exact h

/-- Another character than the delimiter is in one of the parts. -/
theorem mem_iff_splitOn {c b : Char} (hcb : c ≠ b) (s : Text) : c ∈ s ↔ ∃ e ∈ s.splitOn b, c ∈ e := by
  have hjoin : ∀ es : List Text, c ∈ [b].intercalate es ↔ ∃ e ∈ es, c ∈ e := by
    intro es
    induction es with
    | nil => simp
    | cons e es ih =>
      by_cases hnil : es = []
      · subst hnil
        simp
      · rw [List.intercalate_cons_of_ne_nil hnil, List.mem_append, List.mem_append, List.mem_singleton, ih]
        simp [hcb]
  rw [← hjoin, List.intercalate_splitOn]

/-- The fields of a line have no delimiter and no newline. -/
theorem split_spec {r e : Text} (hr : '\n' ∉ r) (he : e ∈ d.split r) : d.char ∉ e ∧ '\n' ∉ e := by
  rw [Delim.split] at he
  split at he
  · rename_i hblank
    have hw := (isWord_of_mem_words he).2
    refine ⟨fun h => ?_, fun h => ?_⟩
    · have hspace := hw _ h
      rw [hblank] at hspace
      simp [isBlank] at hspace
    · simpa [isBlank] using hw _ h
  · split at he
    · cases he
    · refine ⟨splitOn_parts d.char r e he, fun h => hr ?_⟩
      exact (mem_iff_splitOn (Ne.symm d.single) r).2 ⟨e, he, h⟩

end

/-! ## Elements and fields -/

section
variable {d : Delim} {hit : Text → Bool} {x : Text}

/-- At blanks, the words of the parts are the words of the text. -/
theorem flatMap_words {b : Char} (hb : isBlank b = true) (s : Text) : (s.splitOn b).flatMap words = words s := by
  rw [← words_joined hb, List.intercalate_splitOn]

/-- Elements that are words are among the words. -/
theorem filter_sublist_words {p : Text → Bool} {es : List Text} (h : ∀ e ∈ es, p e = true → words e = [e]) :
    (es.filter p).Sublist (es.flatMap words) := by
  induction es with
  | nil => exact List.Sublist.refl []
  | cons e es ih =>
    obtain ⟨he, hes⟩ := List.forall_mem_cons.1 h
    rw [List.flatMap_cons]
    by_cases hp : p e = true
    · rw [List.filter_cons_of_pos hp, he hp]
      exact (ih hes).cons_cons e
    · rw [List.filter_cons_of_neg hp]
      exact (ih hes).trans (List.sublist_append_right _ _)

/-- `echo` takes the variable for an option. -/
def IsOption (x : Text) : Prop := ∃ o, x = '-' :: o ∧ o ≠ [] ∧ ∀ c ∈ o, c ∈ "neE".toList

theorem lines_echo (h : ¬ IsOption x) : lines (echo x) = x.splitOn '\n' := by
  have hecho : echo x = x ++ ['\n'] := by
    unfold echo
    split
    · rename_i o
      rw [if_neg fun ho => h ⟨o, rfl, ho.1, ho.2⟩]
    · rfl
  have hjoin : x ++ ['\n'] = unlines (x.splitOn '\n') := by
    rw [← intercalate_newline (List.splitOn_ne_nil '\n' x), List.intercalate_splitOn]
  rw [hecho, hjoin, lines_unlines (splitOn_parts '\n' x)]

theorem lines_option (h : IsOption x) : lines (echo x) = [] ∨ lines (echo x) = [[]] := by
  obtain ⟨o, rfl, hne, ho⟩ := h
  rw [echo, if_pos ⟨hne, ho⟩]
  by_cases hn : 'n' ∈ o
  · rw [if_pos hn]
    exact .inl rfl
  · rw [if_neg hn]
    exact .inr (by decide)

theorem split_nil (d : Delim) : d.split [] = [] := by
  rw [Delim.split]
  split <;> simp

/-- What the program makes of the lines. -/
theorem flatMap_fields (hit : Text → Bool) (x : Text) :
    ((lines (echo x)).flatMap fun r => (d.split r).filter (!hit ·)) = (fields d x).filter (!hit ·) := by
  rw [fields, List.filter_flatMap]

theorem fields_words (hd : d.char = ' ') (h : ¬ IsOption x) : fields d x = words x := by
  have hsplit : d.split = words := by
    funext r
    rw [Delim.split, if_pos hd]
  rw [fields, lines_echo h, hsplit, flatMap_words (by decide)]

theorem elements_words (hd : d.char = ' ') (x : Text) : (elements d x).flatMap words = words x := by
  rw [elements]
  by_cases hx : x = []
  · rw [if_pos hx, hx]
    rfl
  · rw [if_neg hx, flatMap_words (by rw [hd]; decide)]

/-! ## Removing -/

/-- The array is as long as what is printed at the end, at least. -/
theorem varRemoveRegex_eq_iff (d : Delim) (hit : Text → Bool) (x : Text) :
    elements d (varRemoveRegex d hit x) = (elements d x).filter (!hit ·) ↔
      (elements d x).filter (!hit ·) =
        let b := (arrays (fun r => (d.split r).filter (!hit ·)) [] (lines (echo x))).flatten
        if b = [] then [] else [] :: b := by
  rw [varRemoveRegex, elements_gawk]
  · exact eq_comm
  · intro r hr e he
    exact split_spec (newline_not_mem_line hr) (List.mem_filter.1 he).1

/-- An option prints nothing that is left. -/
theorem not_isOption (h : (arrays (fun r => (d.split r).filter (!hit ·)) [] (lines (echo x))).flatten ≠ []) :
    ¬ IsOption x := by
  intro ho
  apply h
  rw [List.eq_nil_iff_forall_not_mem]
  intro e he
  rcases mem_arrays he with he | ⟨r, hr, he⟩
  · cases he
  · rcases lines_option ho with hl | hl
    · rw [hl] at hr
      cases hr
    · rw [hl, List.mem_singleton] at hr
      simp [hr, split_nil] at he

/-- Between blanks. -/
theorem regexRemovable_of_blank (hd : d.char = ' ') {b : List Text}
    (hb : (arrays (fun r => (d.split r).filter (!hit ·)) [] (lines (echo x))).flatten = b) (hne : b ≠ [])
    (h : (elements d x).filter (!hit ·) = [] :: b) : RegexRemovable d hit x := by
  have hsub := sublist_arrays (fun r => (d.split r).filter (!hit ·)) [] (lines (echo x))
  rw [hb, flatMap_fields] at hsub
  have hoption : ¬ IsOption x := not_isOption (hb ▸ hne)
  have hword : ∀ e ∈ b, IsWord e := by
    intro e he
    rw [← hb] at he
    rcases mem_arrays he with he | ⟨r, -, he⟩
    · cases he
    · have hin := (List.mem_filter.1 he).1
      rw [Delim.split, if_pos hd] at hin
      exact isWord_of_mem_words hin
  -- what is left of the elements but for the empty one in front is among the words that are left
  have hfilter : (elements d x).filter (fun e => decide (e ≠ []) && !hit e) = b := by
    rw [← List.filter_filter, h, List.filter_cons_of_neg (by simp), List.filter_eq_self]
    exact fun e he => decide_eq_true (hword e he).1
  have hwords : b.Sublist (fields d x) := by
    rw [fields_words hd hoption, ← elements_words hd, ← hfilter]
    apply filter_sublist_words
    intro e he hp
    exact words_of_isWord (hword e (by rw [← hfilter]; exact List.mem_filter.2 ⟨he, hp⟩))
  have hkeep : b.filter (!hit ·) = b := by
    rw [List.filter_eq_self]
    intro e he
    rw [← hfilter] at he
    exact (Bool.and_eq_true_iff.1 (List.mem_filter.1 he).2).2
  have hle : b.length ≤ ((fields d x).filter (!hit ·)).length := by
    have hlen := (hwords.filter (!hit ·)).length_le
    rwa [hkeep] at hlen
  have heq : (fields d x).filter (!hit ·) = b := hsub.eq_of_length_le hle
  refine .inr ⟨hd, by rw [h, heq], by rwa [heq], ?_⟩
  apply isChain_zero_cons.1
  apply growing_of_length (f := fun r => (d.split r).filter (!hit ·)) (b := [])
  rw [hb, flatMap_fields, heq]

theorem splitOn_front_eq {c : Char} {u : Text} (hu : c ∉ u) (s : Text) :
    (u ++ s).splitOn c = (u ++ (s.splitOn c).headD []) :: (s.splitOn c).tail := by
  by_cases hs : c ∈ s
  · obtain ⟨e, t, rfl, he⟩ := List.eq_append_cons_of_mem hs
    have hue : c ∉ u ++ e := by simp [hu, he]
    rw [← List.append_assoc, splitOn_cons hue, splitOn_cons he]
    rfl
  · rw [splitOn_single hs, splitOn_single (by simp [hu, hs])]
    rfl

theorem count_split_le (hd : d.char ≠ ' ') (u : Text) : (d.split u).count [] ≤ (u.splitOn d.char).count [] := by
  rw [Delim.split, if_neg hd]
  split
  · exact Nat.zero_le _
  · exact le_rfl

/-- Only the elements in front of a newline, and those behind the first one after it, can be empty. -/
theorem count_splitOn_append {c : Char} (hd : d.char ≠ ' ') (hc : c ≠ d.char) (u v : Text) :
    ((u ++ c :: v).splitOn d.char).count [] ≤ (d.split u).count [] + (v.splitOn d.char).tail.count [] := by
  induction hn : u.length using Nat.strong_induction_on generalizing u with
  | _ n ih =>
    by_cases hu : d.char ∈ u
    · obtain ⟨e, u', rfl, he⟩ := List.eq_append_cons_of_mem hu
      have ih := ih u'.length (by simp [← hn]; omega) u' rfl
      have hle := count_split_le hd u'
      have hsplit : d.split (e ++ d.char :: u') = e :: u'.splitOn d.char := by
        rw [Delim.split, if_neg hd, if_neg (by simp), splitOn_cons he]
      rw [List.append_assoc, List.cons_append, splitOn_cons he, hsplit, List.count_cons, List.count_cons]
      omega
    · have hfront : d.char ∉ u ++ [c] := by simp [hu, Ne.symm hc]
      have happ : u ++ c :: v = (u ++ [c]) ++ v := by simp
      rw [happ, splitOn_front_eq hfront, List.count_cons_of_ne (by simp)]
      exact Nat.le_add_left _ _

theorem count_tail_le {ls : List Text} (hd : d.char ≠ ' ') (hne : ls ≠ []) :
    (((['\n'].intercalate ls).splitOn d.char).tail).count [] ≤ (ls.flatMap d.split).count [] := by
  induction ls with
  | nil => exact absurd rfl hne
  | cons l ls ih =>
    rw [List.flatMap_cons, List.count_append]
    by_cases hnil : ls = []
    · subst hnil
      have hone : ['\n'].intercalate [l] = l := by simp
      rw [hone]
      by_cases hl : l = []
      · subst hl
        simp
      · have hsplit : d.split l = l.splitOn d.char := by rw [Delim.split, if_neg hd, if_neg hl]
        rw [hsplit]
        exact ((List.tail_sublist _).count_le []).trans (Nat.le_add_right _ _)
    · have hcount := count_splitOn_append hd (Ne.symm d.single) l (['\n'].intercalate ls)
      rw [List.intercalate_cons_of_ne_nil hnil, List.append_assoc, List.singleton_append]
      have htail := (List.tail_sublist ((l ++ '\n' :: ['\n'].intercalate ls).splitOn d.char)).count_le []
      have ih := ih hnil
      omega

/-- The empty elements are among the fields. -/
theorem count_elements (hd : d.char ≠ ' ') (h : ¬ IsOption x) : (elements d x).count [] ≤ (fields d x).count [] := by
  rw [fields, lines_echo h, elements]
  by_cases hx : x = []
  · rw [if_pos hx]
    exact Nat.zero_le _
  rw [if_neg hx]
  obtain ⟨l, ls, hls⟩ := List.exists_cons_of_ne_nil (List.splitOn_ne_nil '\n' x)
  have hjoin : x = ['\n'].intercalate (l :: ls) := by rw [← hls, List.intercalate_splitOn]
  rw [hls, List.flatMap_cons, List.count_append]
  by_cases hnil : ls = []
  · subst hnil
    obtain rfl : x = l := by simpa using hjoin
    have hsplit : d.split x = x.splitOn d.char := by rw [Delim.split, if_neg hd, if_neg hx]
    rw [hsplit]
    exact Nat.le_add_right _ _
  · have hcount := count_splitOn_append hd (Ne.symm d.single) l (['\n'].intercalate ls)
    have htail := count_tail_le hd hnil
    rw [hjoin, List.intercalate_cons_of_ne_nil hnil, List.append_assoc, List.singleton_append]
    omega

/-- Another delimiter: nothing is left. -/
theorem not_removed_of_other (hd : d.char ≠ ' ') {b : List Text}
    (hb : (arrays (fun r => (d.split r).filter (!hit ·)) [] (lines (echo x))).flatten = b) (hne : b ≠ []) :
    (elements d x).filter (!hit ·) ≠ [] :: b := by
  intro h
  have hoption : ¬ IsOption x := not_isOption (hb ▸ hne)
  have hsub := sublist_arrays (fun r => (d.split r).filter (!hit ·)) [] (lines (echo x))
  rw [hb, flatMap_fields] at hsub
  have hhit : hit [] = false := by
    have hmem : [] ∈ (elements d x).filter (!hit ·) := by rw [h]; exact List.mem_cons_self
    simpa using (List.mem_filter.1 hmem).2
  have hcount (es : List Text) : (es.filter (!hit ·)).count [] = es.count [] :=
    List.count_filter (by simp [hhit])
  have h₁ := hcount (elements d x)
  have h₂ := hcount (fields d x)
  have h₃ := count_elements hd hoption
  have h₄ := hsub.count_le []
  rw [h, List.count_cons_self] at h₁
  omega

theorem varRemoveRegex_iff (d : Delim) (hit : Text → Bool) (x : Text) :
    elements d (varRemoveRegex d hit x) = (elements d x).filter (!hit ·) ↔ RegexRemovable d hit x := by
  rw [varRemoveRegex_eq_iff]
  generalize hb : (arrays (fun r => (d.split r).filter (!hit ·)) [] (lines (echo x))).flatten = b
  have hsub := sublist_arrays (fun r => (d.split r).filter (!hit ·)) [] (lines (echo x))
  rw [hb, flatMap_fields] at hsub
  constructor
  · intro h
    by_cases hnil : b = []
    · subst hnil
      exact .inl ⟨h, List.sublist_nil.1 hsub⟩
    · simp only [if_neg hnil] at h
      by_cases hd : d.char = ' '
      · exact regexRemovable_of_blank hd hb hnil h
      · exact absurd h (not_removed_of_other hd hb hnil)
  · rintro (⟨hel, hfi⟩ | ⟨-, hel, hne, hgrow⟩)
    · have hnil : b = [] := by
        rw [← hb, List.eq_nil_iff_forall_not_mem]
        intro e he
        rcases mem_arrays he with he | he
        · cases he
        · rw [← List.mem_flatMap, flatMap_fields, hfi] at he
          cases he
      simp only [if_pos hnil]
      exact hel
    · have heq := @arrays_of_growing (fun r => (d.split r).filter (!hit ·)) [] _ (isChain_zero_cons.2 hgrow)
      rw [hb, flatMap_fields] at heq
      rw [heq]
      simp only [if_neg hne]
      exact hel

end

/-! ## Inserting -/

section
variable {d : Delim} {v : Value} {hit : Text → Bool} {x : Text}

theorem insertLoop_false (hit : Text → Bool) (v : Text) (es : List Text) : insertLoop hit v false es = es := by
  induction es with
  | nil => rfl
  | cons e es ih =>
    rw [insertLoop, ih]
    simp

/-- The flag says that the value is not there yet. -/
theorem insertLoop_true (hit : Text → Bool) (v : Text) (es : List Text) :
    insertLoop hit v true es = insertBefore hit v es := by
  induction es with
  | nil => rfl
  | cons e es ih =>
    rw [insertLoop, insertBefore, insertLoop_false, ih]
    simp

theorem length_insertBefore (hit : Text → Bool) (v : Text) (es : List Text) :
    (insertBefore hit v es).length = es.length + 1 := by
  induction es with
  | nil => rfl
  | cons e es ih =>
    rw [insertBefore]
    split
    · rfl
    · rw [List.length_cons, ih, List.length_cons]

theorem mem_insertBefore {hit : Text → Bool} {v e : Text} {es : List Text} :
    e ∈ insertBefore hit v es ↔ e = v ∨ e ∈ es := by
  induction es with
  | nil => simp [insertBefore]
  | cons a es ih =>
    rw [insertBefore]
    split
    · rw [List.mem_cons]
    · rw [List.mem_cons, ih, List.mem_cons]
      tauto

/-- The first one that matches, with the value in front, is not another one. -/
theorem insertBefore_ne {e v : Text} {es es' : List Text} (he : hit e = true) (hv : hit v = false) :
    insertBefore hit v es' ≠ e :: es := by
  cases es' with
  | nil =>
    rintro h
    obtain ⟨rfl, -⟩ := List.cons.inj h
    simp [he] at hv
  | cons a es' =>
    rw [insertBefore]
    split
    · rintro h
      obtain ⟨rfl, -⟩ := List.cons.inj h
      simp [he] at hv
    · rintro h
      obtain ⟨rfl, -⟩ := List.cons.inj h
      contradiction

theorem insertBefore_inj {v : Text} {es es' : List Text} (h : insertBefore hit v es = insertBefore hit v es') :
    es = es' := by
  induction es generalizing es' with
  | nil =>
    have hlen := congrArg List.length h
    rw [length_insertBefore, length_insertBefore, List.length_nil] at hlen
    exact (List.eq_nil_of_length_eq_zero (by omega)).symm
  | cons e es ih =>
    cases es' with
    | nil =>
      have hlen := congrArg List.length h
      rw [length_insertBefore, length_insertBefore] at hlen
      simp at hlen
    | cons e' es' =>
      rw [insertBefore, insertBefore] at h
      by_cases he : hit e = true
      · by_cases he' : hit e' = true
        · rw [if_pos he, if_pos he'] at h
          exact (List.cons.inj h).2
        · rw [if_pos he, if_neg he'] at h
          obtain ⟨rfl, hrest⟩ := List.cons.inj h
          exact absurd hrest.symm (insertBefore_ne he (by simpa using he'))
      · by_cases he' : hit e' = true
        · rw [if_neg he, if_pos he'] at h
          obtain ⟨rfl, hrest⟩ := List.cons.inj h
          exact absurd hrest (insertBefore_ne he' (by simpa using he))
        · rw [if_neg he, if_neg he'] at h
          obtain ⟨rfl, hrest⟩ := List.cons.inj h
          rw [ih hrest]

/-- The arrays of the program. -/
def insertArrays (d : Delim) (v : Value) (hit : Text → Bool) (x : Text) : List Text :=
  (arrays (fun r => insertBefore hit v.text (d.split r)) [] (lines (echo x))).flatten

theorem mem_insertArrays {e : Text} (h : e ∈ insertArrays d v hit x) :
    e = v.text ∨ ∃ r ∈ lines (echo x), e ∈ d.split r := by
  rcases mem_arrays h with h | ⟨r, hr, h⟩
  · cases h
  · exact (mem_insertBefore.1 h).imp_right fun h => ⟨r, hr, h⟩

theorem insertArrays_line (hoption : ¬ IsOption x) (hx : '\n' ∉ x) :
    insertArrays d v hit x = insertBefore hit v.text (d.split x) := by
  rw [insertArrays, lines_echo hoption, splitOn_single hx, arrays, arrays, store_of_le (Nat.zero_le _)]
  simp

/-- What the variable has then. -/
theorem elements_varInsertBeforeRegex (hv : d.char ∉ v.text) (hnew : '\n' ∉ v.text) :
    elements d (varInsertBeforeRegex d v hit x) =
      if insertArrays d v hit x = [] then [] else [] :: insertArrays d v hit x := by
  have hloop : (fun record => insertLoop hit v.text true (d.split record)) =
      fun record => insertBefore hit v.text (d.split record) := funext fun r => insertLoop_true hit v.text (d.split r)
  rw [varInsertBeforeRegex, if_neg hnew, hloop, elements_gawk]
  · rfl
  · intro r hr e he
    rcases mem_insertBefore.1 he with rfl | he
    · exact ⟨hv, hnew⟩
    · exact split_spec (newline_not_mem_line hr) he

/-- One element is the variable itself. -/
theorem elements_singleton {e : Text} (h : elements d x = [e]) : x = e ∧ x ≠ [] := by
  rw [elements] at h
  by_cases hx : x = []
  · rw [if_pos hx] at h
    cases h
  · rw [if_neg hx] at h
    have hjoin : [d.char].intercalate (x.splitOn d.char) = x := List.intercalate_splitOn d.char
    rw [h] at hjoin
    exact ⟨by simpa using hjoin.symm, hx⟩

/-- An option is one element, and no field. -/
theorem not_inserted_option (ho : IsOption x) (hne : insertArrays d v hit x ≠ []) :
    insertBefore hit v.text (elements d x) ≠ [] :: insertArrays d v hit x := by
  intro h
  have hone : insertArrays d v hit x = [v.text] := by
    rcases lines_option ho with hl | hl
    · rw [insertArrays, hl] at hne
      exact absurd rfl hne
    · rw [insertArrays, hl, arrays, split_nil]
      rfl
  have hlen := congrArg List.length h
  rw [length_insertBefore, hone] at hlen
  obtain ⟨e, he⟩ := List.length_eq_one_iff.1 (by simpa using hlen)
  obtain ⟨rfl, hx⟩ := elements_singleton he
  rw [he, hone, insertBefore, insertBefore] at h
  split at h
  · have hv : v.text = [] ∧ x = v.text := by simpa using h
    exact hx (hv.2.trans hv.1)
  · exact hx (List.cons.inj h).1

/-- The elements are those of one line. -/
theorem newline_not_mem {b : List Text} (hb : ∀ e ∈ b, '\n' ∉ e)
    (h : insertBefore hit v.text (elements d x) = [] :: b) : '\n' ∉ x := by
  intro hx
  have hne : x ≠ [] := List.ne_nil_of_mem hx
  obtain ⟨e, he, hin⟩ := (mem_iff_splitOn (Ne.symm d.single) x).1 hx
  have hmem : e ∈ [] :: b := by
    rw [← h, mem_insertBefore, elements, if_neg hne]
    exact .inr he
  rcases List.mem_cons.1 hmem with rfl | hmem
  · cases hin
  · exact hb e hmem hin

/-- An empty element in front of what the program inserts into. -/
theorem regexInsertable_of_line {W : List Text} (hE : elements d x ≠ [[]])
    (h : insertBefore hit v.text (elements d x) = [] :: insertBefore hit v.text W) :
    elements d x = [] :: W ∧ (hit [] = false ∨ v.text = [] ∧ ∃ w ws, W = w :: ws ∧ hit w = true) := by
  cases hel : elements d x with
  | nil =>
    have hlen := congrArg List.length h
    rw [length_insertBefore, List.length_cons, length_insertBefore, hel] at hlen
    simp at hlen
  | cons e es =>
    rw [hel, insertBefore] at h
    by_cases he : hit e = true
    · rw [if_pos he] at h
      obtain ⟨hv, hrest⟩ := List.cons.inj h
      cases W with
      | nil =>
        rw [insertBefore, hv] at hrest
        exact absurd (hel.trans hrest) hE
      | cons w ws =>
        rw [insertBefore] at hrest
        by_cases hw : hit w = true
        · rw [if_pos hw, hv] at hrest
          exact ⟨hrest, .inr ⟨hv, w, ws, rfl, hw⟩⟩
        · rw [if_neg hw] at hrest
          obtain ⟨rfl, -⟩ := List.cons.inj hrest
          exact absurd he hw
    · rw [if_neg he] at h
      obtain ⟨rfl, hrest⟩ := List.cons.inj h
      exact ⟨by rw [insertBefore_inj hrest], .inl (by simpa using he)⟩

theorem varInsertBeforeRegex_iff (d : Delim) (v : Value) (hv : d.char ∉ v.text) (hit : Text → Bool) (x : Text) :
    elements d (varInsertBeforeRegex d v hit x) = insertBefore hit v.text (elements d x) ↔
      RegexInsertable d v hit x := by
  by_cases hnew : '\n' ∈ v.text
  · refine iff_of_false (fun h => ?_) fun h => h.2.1 hnew
    have hlen := congrArg List.length h
    rw [varInsertBeforeRegex, if_pos hnew, length_insertBefore] at hlen
    simp [elements] at hlen
  rw [elements_varInsertBeforeRegex hv hnew]
  have hE : elements d x ≠ [[]] := fun h => (elements_singleton h).2 (elements_singleton h).1
  constructor
  · intro h
    have hne : insertArrays d v hit x ≠ [] := by
      intro hnil
      rw [if_pos hnil] at h
      have hlen := congrArg List.length h
      rw [length_insertBefore] at hlen
      simp at hlen
    rw [if_neg hne] at h
    have hoption : ¬ IsOption x := fun ho => not_inserted_option ho hne h.symm
    have hx : '\n' ∉ x := by
      refine newline_not_mem (fun e he => ?_) h.symm
      rcases mem_insertArrays he with rfl | ⟨r, hr, he⟩
      · exact hnew
      · exact (split_spec (newline_not_mem_line hr) he).2
    rw [insertArrays_line hoption hx] at h
    obtain ⟨hel, hhit⟩ := regexInsertable_of_line hE h.symm
    have hd : d.char = ' ' := by
      by_contra hd
      rw [Delim.split, if_neg hd] at hel
      exact List.cons_ne_self _ _ hel.symm
    have hsplit : d.split x = words x := by rw [Delim.split, if_pos hd]
    rw [hsplit] at hel hhit
    exact ⟨hd, hnew, hel, hhit⟩
  · rintro ⟨hd, -, hel, hhit⟩
    have hsplit : d.split x = words x := by rw [Delim.split, if_pos hd]
    have hne : x ≠ [] := by
      rintro rfl
      simp [elements] at hel
    have hW : words x ≠ [] := fun h => hE (by rw [hel, h])
    have hparts : x.splitOn d.char = [] :: words x := by rw [← hel, elements, if_neg hne]
    have hspace : x = ' ' :: [d.char].intercalate (words x) := by
      have hjoin : [d.char].intercalate (x.splitOn d.char) = x := List.intercalate_splitOn d.char
      rw [hparts, List.intercalate_cons_of_ne_nil hW, hd] at hjoin
      rw [hd]
      exact hjoin.symm
    have hoption : ¬ IsOption x := by
      rintro ⟨o, ho, -⟩
      rw [hspace] at ho
      simp at ho
    have hx : '\n' ∉ x := by
      intro hx
      obtain ⟨e, he, hin⟩ := (mem_iff_splitOn (Ne.symm d.single) x).1 hx
      rw [hparts] at he
      rcases List.mem_cons.1 he with rfl | he
      · cases hin
      · simpa [isBlank] using (isWord_of_mem_words he).2 _ hin
    have hlong : insertBefore hit v.text (words x) ≠ [] := by
      intro h
      have hlen := congrArg List.length h
      rw [length_insertBefore] at hlen
      simp at hlen
    rw [insertArrays_line hoption hx, hsplit, if_neg hlong, hel]
    rcases hhit with hhit | ⟨hv, w, ws, hwords, hw⟩
    · rw [insertBefore, if_neg (by simp [hhit])]
    · rw [hwords, hv, insertBefore, if_pos hw, insertBefore]
      by_cases hnil : hit [] = true
      · rw [if_pos hnil]
      · rw [if_neg hnil, insertBefore, if_pos hw]

end

/-- **When the two do what they say on a list**: `var_remove_regex` if nothing is left, or an empty element in front of
words; `var_insert_before_regex` if there is an empty element in front of words. -/
theorem regex_lists_iff (d : Delim) (hit : Text → Bool) (x : Text) :
    (elements d (varRemoveRegex d hit x) = (elements d x).filter (!hit ·) ↔ RegexRemovable d hit x) ∧
      ∀ v : Value, d.char ∉ v.text →
        (elements d (varInsertBeforeRegex d v hit x) = insertBefore hit v.text (elements d x) ↔
          RegexInsertable d v hit x) :=
  ⟨varRemoveRegex_iff d hit x, fun v hv => varInsertBeforeRegex_iff d v hv hit x⟩

/-- A list with an empty element in front, from which `-O2` is removed. -/
theorem regex_lists_blank :
    let d : Delim := ⟨' ', by decide, by decide⟩
    let hit : Text → Bool := fun e => decide (e = "-O2".toList)
    elements d (varRemoveRegex d hit " -O2 -g".toList) = (elements d " -O2 -g".toList).filter (!hit ·) := by
  intro d hit
  have hgrow : Growing d hit " -O2 -g".toList := by
    unfold Growing
    decide +kernel
  exact (regex_lists_iff d hit " -O2 -g".toList).1.2 (.inr ⟨rfl, by decide +kernel, by decide +kernel, hgrow⟩)

/-- `a` removed from `a:b` leaves an empty element in front of `b`. -/
theorem regex_list_grows :
    let d : Delim := ⟨':', by decide, by decide⟩
    varRemoveRegex d (fun e => decide (e = ['a'])) "a:b".toList = ":b".toList ∧
      elements d (varRemoveRegex d (fun e => decide (e = ['a'])) "a:b".toList) ≠
        (elements d "a:b".toList).filter (fun e => !decide (e = ['a'])) ∧
      varInsertBeforeRegex d ⟨['x'], by decide⟩ (fun e => decide (e = ['b'])) "a:b".toList = ":a:x:b".toList := by
  decide +kernel

end T2Sde.Build
