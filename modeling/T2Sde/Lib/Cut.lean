import T2Sde.Lib.Words
/-!
# Lines, and the fields of a line

`lines` is what a program reads that takes its input line by line, `cutRest` is `cut -f2-` and `cutSecond` is
`cut -f2`, for any delimiter. `uptoLast` is `${s%pattern*}`.

* `lines_cons` — a line in front.
* `lines_unlines` — what is written line by line is read back.
* `cutRest_append`, `cutSecond_append` — a front without the delimiter is cut off.
* `uptoLast_append`, `uptoLast_eq_some` — the last place where the pattern stands.
* `pairwise_sort_nodup` — `sort` of lines of which no two are equal.
* `pairwise_sortReverse`, `sortReverse_sorted` — `sort -r`, of any list and of a sorted one.
-/
namespace Shell

/-- The lines of a text; the last one may lack its newline. -/
def lines (s : Text) : List Text :=
  let parts := s.splitOn '\n'
  if parts.getLast? = some [] then parts.dropLast else parts

def unlines (ls : List Text) : Text := ls.flatMap (· ++ ['\n'])

/-- What is behind the first character of a kind. -/
def behindFirst (p : Char → Bool) : Text → Option Text
  | [] => none
  | c :: s => if p c then some s else behindFirst p s

/-- `cut -d d -f2-`; a line without the delimiter is left as it is. -/
def cutRest (d : Char) (s : Text) : Text := (behindFirst (· == d) s).getD s

/-- `cut -d d -f2` -/
def cutSecond (d : Char) (s : Text) : Text := ((behindFirst (· == d) s).map (·.takeWhile (· != d))).getD s

/-- What is in front of the last place from which on the text is as `p` says. -/
def uptoLast (p : Text → Bool) : Text → Option Text
  | [] => none
  | c :: s =>
    match uptoLast p s with
    | some u => some (c :: u)
    | none => if p (c :: s) then some [] else none

/-- The order of `sort` -/
def Before (s u : Text) : Prop := List.lt s u

instance (s u : Text) : Decidable (Before s u) := List.decidableLT s u

/-- `sort` -/
def sort (ls : List Text) : List Text := ls.mergeSort fun s u => decide (¬ Before u s)

/-- `sort -r` -/
def sortReverse (ls : List Text) : List Text := ls.mergeSort fun s u => decide (¬ Before s u)

/-! ## Lines -/

/-- What stands between two delimiters has none. -/
theorem splitOn_parts (d : Char) (s : Text) : ∀ x ∈ s.splitOn d, d ∉ x := by
  rw [List.splitOn]
  induction s with
  | nil => simp
  | cons c s ih =>
    rw [List.splitOnP_cons_eq_if_modifyHead]
    split
    · exact List.forall_mem_cons.2 ⟨List.not_mem_nil, ih⟩
    next hc =>
      cases hs : s.splitOnP (· == d) with
      | nil => simp
      | cons y ys =>
        rw [hs] at ih
        obtain ⟨hy, hys⟩ := List.forall_mem_cons.1 ih
        have hd : d ∉ c :: y := by
          rw [List.mem_cons, not_or]
          exact ⟨fun h => hc (by simp [h]), hy⟩
        exact List.forall_mem_cons.2 ⟨hd, hys⟩

/-- A part in front. -/
theorem splitOn_cons {d : Char} {u : Text} (hu : d ∉ u) (s : Text) : (u ++ d :: s).splitOn d = u :: s.splitOn d := by
  have hone : u.splitOn d = [u] := by
    simpa using List.splitOn_intercalate d (show ∀ w ∈ [u], d ∉ w by simpa using hu) (by simp)
  rw [List.splitOn, List.splitOnP_append_cons, ← List.splitOn, ← List.splitOn, hone] <;> simp

/-- A front without the delimiter is the front of the first part. -/
theorem splitOn_front {d : Char} {u : Text} (hu : d ∉ u) (s : Text) : ∃ y ys, (u ++ s).splitOn d = (u ++ y) :: ys := by
  induction u with
  | nil =>
    obtain ⟨y, ys, hy⟩ := List.exists_cons_of_ne_nil (List.splitOn_ne_nil d s)
    exact ⟨y, ys, hy⟩
  | cons c u ih =>
    rw [List.mem_cons, not_or] at hu
    obtain ⟨y, ys, hy⟩ := ih hu.2
    rw [List.splitOn] at hy
    refine ⟨y, ys, ?_⟩
    rw [List.cons_append, List.splitOn, List.splitOnP_cons_eq_if_modifyHead, if_neg (by simpa using Ne.symm hu.1), hy]
    rfl

/-- A text without the delimiter is one part. -/
theorem splitOn_single {d : Char} {u : Text} (hu : d ∉ u) : u.splitOn d = [u] := by
  simpa using List.splitOn_intercalate d (show ∀ w ∈ [u], d ∉ w by simpa using hu) (by simp)

theorem length_splitOn (d : Char) (s : Text) : (s.splitOn d).length = s.count d + 1 := by
  rw [List.splitOn]
  induction s with
  | nil => simp
  | cons c s ih =>
    rw [List.splitOnP_cons_eq_if_modifyHead, List.count_cons]
    split
    · rw [List.length_cons, ih]
    · rw [List.length_modifyHead, ih, Nat.add_zero]

@[simp] theorem lines_nil : lines [] = [] := by
  simp [lines, List.splitOn]

theorem lines_cons {l : Text} (hl : '\n' ∉ l) (s : Text) : lines (l ++ '\n' :: s) = l :: lines s := by
  obtain ⟨y, ys, hy⟩ := List.exists_cons_of_ne_nil (List.splitOn_ne_nil '\n' s)
  simp only [lines, splitOn_cons hl, hy, List.getLast?_cons_cons, List.dropLast_cons_cons]
  split <;> rfl

/-- A last line without its newline. -/
theorem lines_last {l : Text} (hl : '\n' ∉ l) (hne : l ≠ []) : lines l = [l] := by
  simp [lines, splitOn_single hl, hne]

theorem lines_unlines {ls : List Text} (hls : ∀ l ∈ ls, '\n' ∉ l) : lines (unlines ls) = ls := by
  induction ls with
  | nil => exact lines_nil
  | cons l ls ih =>
    obtain ⟨hl, hls⟩ := List.forall_mem_cons.1 hls
    rw [unlines, List.flatMap_cons, List.append_assoc, List.singleton_append, lines_cons hl, ← unlines, ih hls]

/-! ## Fields -/

theorem unlines_cons (l : Text) (ls : List Text) : unlines (l :: ls) = l ++ '\n' :: unlines ls := by
  simp [unlines]

/-- Lines that are joined are ended by one more line end. -/
theorem intercalate_newline {ls : List Text} (h : ls ≠ []) : ['\n'].intercalate ls ++ ['\n'] = unlines ls := by
  induction ls with
  | nil => exact absurd rfl h
  | cons l ls ih =>
    cases ls with
    | nil => simp [unlines]
    | cons k ls => rw [List.intercalate_cons_cons, unlines_cons, ← ih (by simp)]; simp

theorem length_le_unlines (ls : List Text) : ls.length ≤ (unlines ls).length := by
  induction ls with
  | nil => rfl
  | cons l ls ih =>
    rw [unlines_cons, List.length_append, List.length_cons, List.length_cons]
    omega

theorem behindFirst_append {p : Char → Bool} {u : Text} (hu : ∀ c ∈ u, p c = false) (v : Text) :
    behindFirst p (u ++ v) = behindFirst p v := by
  induction u with
  | nil => rfl
  | cons c u ih =>
    obtain ⟨hc, hu⟩ := List.forall_mem_cons.1 hu
    rw [List.cons_append, behindFirst, if_neg (by simp [hc]), ih hu]

theorem behindFirst_cons {p : Char → Bool} {c : Char} (hc : p c = true) (s : Text) :
    behindFirst p (c :: s) = some s := by
  rw [behindFirst, if_pos hc]

/-- What is behind the first one is kept, with all that follows. -/
theorem behindFirst_of_mem {p : Char → Bool} {u : Text} (hu : ∃ c ∈ u, p c = true) (v : Text) :
    ∃ u', behindFirst p (u ++ v) = some (u' ++ v) := by
  induction u with
  | nil => simp at hu
  | cons c u ih =>
    by_cases hc : p c = true
    · exact ⟨u, behindFirst_cons hc _⟩
    · have hu : ∃ c ∈ u, p c = true := by
        obtain ⟨d, hd, hpd⟩ := hu
        rcases List.mem_cons.1 hd with rfl | hd
        · exact absurd hpd hc
        · exact ⟨d, hd, hpd⟩
      rw [List.cons_append, behindFirst, if_neg hc]
      exact ih hu

theorem behindFirst_delim {d : Char} {u : Text} (hu : d ∉ u) (v : Text) :
    behindFirst (· == d) (u ++ d :: v) = some v := by
  have hne : ∀ c ∈ u, (c == d) = false := by
    intro c hc
    rw [beq_eq_false_iff_ne]
    rintro rfl
    exact hu hc
  rw [behindFirst_append hne, behindFirst_cons (by simp)]

/-- The first delimiters of one text are the same. -/
theorem delim_inj {d : Char} {u u' v v' : Text} (hu : d ∉ u) (hu' : d ∉ u') (h : u ++ d :: v = u' ++ d :: v') :
    u = u' ∧ v = v' := by
  have hrest := congrArg (behindFirst (· == d)) h
  rw [behindFirst_delim hu, behindFirst_delim hu'] at hrest
  obtain rfl := Option.some.inj hrest
  exact ⟨List.append_cancel_right h, rfl⟩

theorem cutRest_append {d : Char} {u : Text} (hu : d ∉ u) (v : Text) : cutRest d (u ++ d :: v) = v := by
  rw [cutRest, behindFirst_delim hu, Option.getD_some]

theorem cutSecond_append {d : Char} {u : Text} (hu : d ∉ u) (v : Text) :
    cutSecond d (u ++ d :: v) = v.takeWhile (· != d) := by
  rw [cutSecond, behindFirst_delim hu, Option.map_some, Option.getD_some]

/-! ## The last place -/

theorem uptoLast_cons {p : Text → Bool} {c : Char} {s : Text} (hs : uptoLast p s = none) (h : p (c :: s) = true) :
    uptoLast p (c :: s) = some [] := by
  rw [uptoLast, hs]
  exact if_pos h

theorem uptoLast_append {p : Text → Bool} {s x : Text} (hs : uptoLast p s = some x) (u : Text) :
    uptoLast p (u ++ s) = some (u ++ x) := by
  induction u with
  | nil => exact hs
  | cons c u ih => rw [List.cons_append, uptoLast, ih, List.cons_append]

theorem uptoLast_eq_none {p : Text → Bool} {s : Text} :
    uptoLast p s = none ↔ ∀ u c v, s = u ++ c :: v → p (c :: v) = false := by
  induction s with
  | nil => simp [uptoLast]
  | cons d s ih =>
    constructor
    · intro h u c v heq
      have hs : uptoLast p s = none := by
        cases hs : uptoLast p s with
        | none => rfl
        | some x => simp [uptoLast, hs] at h
      cases u with
      | nil =>
        obtain ⟨rfl, rfl⟩ := List.cons.inj heq
        simpa [uptoLast, hs] using h
      | cons e u => exact ih.1 hs u c v (List.cons.inj heq).2
    · intro h
      have hs : uptoLast p s = none := ih.2 fun u c v heq => h (d :: u) c v (by rw [heq]; rfl)
      rw [uptoLast, hs]
      exact if_neg (by simp [h [] d s rfl])

theorem uptoLast_eq_some {p : Text → Bool} {s u : Text} (h : uptoLast p s = some u) :
    ∃ c v, s = u ++ c :: v ∧ p (c :: v) = true ∧ uptoLast p v = none := by
  induction s generalizing u with
  | nil => cases h
  | cons d s ih =>
    rw [uptoLast] at h
    cases hs : uptoLast p s with
    | some x =>
      obtain rfl : d :: x = u := by simpa [hs] using h
      obtain ⟨c, v, rfl, hp, hv⟩ := ih hs
      exact ⟨c, v, rfl, hp, hv⟩
    | none =>
      simp only [hs] at h
      split at h
      next hp =>
        obtain rfl := Option.some.inj h
        exact ⟨d, s, rfl, hp, hs⟩
      · cases h

/-! ## Sorted lines -/

theorem before_irrefl (s : Text) : ¬ Before s s := List.lt_irrefl s

theorem not_before_trans {s u v : Text} (h : ¬ Before s u) (h' : ¬ Before u v) : ¬ Before s v :=
  fun hsv => List.le_trans h' h hsv

theorem not_before_total (s u : Text) : ¬ Before s u ∨ ¬ Before u s := (List.le_total u s).imp id id

theorem not_before_antisymm {s u : Text} (h : ¬ Before s u) (h' : ¬ Before u s) : s = u := List.le_antisymm h' h

theorem before_asymm {s u : Text} (h : Before s u) : ¬ Before u s := List.le_of_lt h

theorem before_cons_self (c : Char) (s u : Text) : Before (c :: s) (c :: u) ↔ Before s u := List.cons_lt_cons_self

theorem before_append_left (v s u : Text) : Before (v ++ s) (v ++ u) ↔ Before s u := by
  induction v with
  | nil => rfl
  | cons c v ih => exact (before_cons_self c _ _).trans ih

/-- Nothing is before its front. -/
theorem not_before_front (s u : Text) : ¬ Before (s ++ u) s := List.le_append_left

theorem perm_sort (ls : List Text) : (sort ls).Perm ls := List.mergeSort_perm ls _

theorem pairwise_sort (ls : List Text) : (sort ls).Pairwise fun s u => ¬ Before u s := by
  have h : (sort ls).Pairwise fun s u => decide (¬ Before u s) = true := by
    refine List.pairwise_mergeSort (fun s u v hsu huv => ?_) (fun s u => ?_) ls
    · exact decide_eq_true (not_before_trans (of_decide_eq_true huv) (of_decide_eq_true hsu))
    · rw [Bool.or_eq_true, decide_eq_true_iff, decide_eq_true_iff]
      exact not_before_total u s
  exact h.imp of_decide_eq_true

/-- `sort` of lines of which no two are equal. -/
theorem pairwise_sort_nodup {ls : List Text} (h : ls.Nodup) : (sort ls).Pairwise Before := by
  have hne : (sort ls).Pairwise fun s u => s ≠ u := (perm_sort ls).nodup_iff.2 h
  refine ((pairwise_sort ls).and hne).imp fun {s u} hsu => ?_
  by_contra hb
  exact hsu.2 (not_before_antisymm hb hsu.1)

theorem perm_sortReverse (ls : List Text) : (sortReverse ls).Perm ls := List.mergeSort_perm ls _

theorem mem_sortReverse {ls : List Text} {s : Text} : s ∈ sortReverse ls ↔ s ∈ ls := (perm_sortReverse ls).mem_iff

theorem pairwise_sortReverse (ls : List Text) : (sortReverse ls).Pairwise fun s u => ¬ Before s u := by
  have h : (sortReverse ls).Pairwise fun s u => decide (¬ Before s u) = true := by
    refine List.pairwise_mergeSort (fun s u v hsu huv => ?_) (fun s u => ?_) ls
    · exact decide_eq_true (not_before_trans (of_decide_eq_true hsu) (of_decide_eq_true huv))
    · rw [Bool.or_eq_true, decide_eq_true_iff, decide_eq_true_iff]
      exact not_before_total s u
  exact h.imp of_decide_eq_true

/-- A sorted list is turned round. -/
theorem sortReverse_sorted {ls : List Text} (h : ls.Pairwise Before) : sortReverse ls = ls.reverse := by
  have hreverse : ls.reverse.Pairwise fun s u => ¬ Before s u := by
    rw [List.pairwise_reverse]
    exact h.imp before_asymm
  exact ((perm_sortReverse ls).trans (List.reverse_perm ls).symm).eq_of_pairwise
    (fun _ _ _ _ hsu hus => not_before_antisymm hsu hus) (pairwise_sortReverse ls) hreverse

end Shell
