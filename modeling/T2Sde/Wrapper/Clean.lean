import T2Sde.Lib.Cut
import T2Sde.Lib.Joined
import T2Sde.Wrapper.Others
/-!
# Clean variables (`misc/tools-source/cmd_wrapper.c`)

`cleanenv` goes through a variable once and writes a delimiter only behind something else; the one that is then at the
end is cut off. What it leaves is its segments, joined.

* `cleanenv_eq` — the stored value, from the segments.
* `cleanenv_canonical` — **the same segments, and no delimiter too many**.
-/
namespace T2Sde.Wrapper
open Shell

/-- What stands between the delimiters, without what is empty. -/
def segments (ch : Char) (s : Text) : List Text := (s.splitOn ch).filter (· ≠ [])

/-- The end of `cleanenv`. -/
def trimLast (ch : Char) (t : Text) : Text := if t.getLast? = some ch then t.dropLast else t

section
variable {ch : Char}

theorem trimLast_cons {c : Char} {t : Text} (h : t ≠ [] ∨ c ≠ ch) : trimLast ch (c :: t) = c :: trimLast ch t := by
  cases t with
  | nil =>
    have hc : c ≠ ch := h.resolve_left fun hne => hne rfl
    simp [trimLast, hc]
  | cons d t =>
    rw [trimLast, trimLast, List.getLast?_cons_cons, List.dropLast_cons_cons]
    split <;> rfl

theorem splitOn_delim (s : Text) : (ch :: s).splitOn ch = [] :: s.splitOn ch := by
  simpa using splitOn_cons (d := ch) (u := []) (by simp) s

theorem splitOn_char {c : Char} (hc : c ≠ ch) {s y : Text} {ys : List Text} (h : s.splitOn ch = y :: ys) :
    (c :: s).splitOn ch = (c :: y) :: ys := by
  rw [List.splitOn] at h ⊢
  rw [List.splitOnP_cons_eq_if_modifyHead, if_neg (by simpa using hc), h]
  rfl

theorem segments_delim (s : Text) : segments ch (ch :: s) = segments ch s := by
  rw [segments, splitOn_delim]
  rfl

/-- What a segment goes on with. -/
def joinRest (ch : Char) (segs : List Text) : Text := if segs = [] then [] else ch :: [ch].intercalate segs

/-- The loop, behind a delimiter and in a segment. -/
theorem cleanLoop_eq (s : Text) :
    (trimLast ch (cleanLoop ch true s) = [ch].intercalate (segments ch s) ∧
      (cleanLoop ch true s = [] ↔ segments ch s = [])) ∧
    ∀ y ys, s.splitOn ch = y :: ys →
      trimLast ch (cleanLoop ch false s) = y ++ joinRest ch (ys.filter (· ≠ [])) := by
  induction s with
  | nil =>
    refine ⟨⟨rfl, iff_of_true rfl rfl⟩, ?_⟩
    intro y ys h
    obtain ⟨rfl, rfl⟩ := List.cons.inj (show [([] : Text)] = y :: ys from h)
    rfl
  | cons c s ih =>
    obtain ⟨⟨hjoin, hnil⟩, hin⟩ := ih
    by_cases hc : c = ch
    · subst hc
      rw [cleanLoop, if_pos rfl, if_pos rfl, segments_delim]
      refine ⟨⟨hjoin, hnil⟩, ?_⟩
      intro y ys h
      rw [splitOn_delim] at h
      obtain ⟨rfl, rfl⟩ := List.cons.inj h
      rw [cleanLoop, if_pos rfl, if_neg (by simp), List.nil_append, ← segments, joinRest]
      by_cases hempty : segments c s = []
      · rw [hnil.2 hempty, if_pos hempty]
        simp [trimLast]
      · rw [if_neg hempty, trimLast_cons (.inl (mt hnil.1 hempty)), hjoin]
    · obtain ⟨y, ys, hsplit⟩ := List.exists_cons_of_ne_nil (List.splitOn_ne_nil ch s)
      have hstep := splitOn_char hc hsplit
      have hloop : ∀ b, cleanLoop ch b (c :: s) = c :: cleanLoop ch false s := fun b => if_neg hc
      have hsegs : segments ch (c :: s) = (c :: y) :: ys.filter (· ≠ []) := by
        rw [segments, hstep]
        rfl
      have htrim : trimLast ch (c :: cleanLoop ch false s) = c :: (y ++ joinRest ch (ys.filter (· ≠ []))) := by
        rw [trimLast_cons (.inr hc), hin y ys hsplit]
      rw [hloop, hsegs]
      refine ⟨⟨?_, by simp⟩, ?_⟩
      · rw [htrim, joinRest]
        split
        next hnone => rw [hnone, List.intercalate_singleton, List.append_nil]
        next hsome =>
          rw [intercalate_cons hsome]
          simp
      · intro z zs h
        rw [hstep] at h
        obtain ⟨rfl, rfl⟩ := List.cons.inj h
        rw [hloop, htrim, List.cons_append]

/-- **What is stored**: the segments, joined. -/
theorem cleanenv_eq (ch : Char) (v : Option Text) : cleanenv ch v = [ch].intercalate (segments ch (v.getD [])) :=
  (cleanLoop_eq (v.getD [])).1.1

theorem segments_spec {s x : Text} (h : x ∈ segments ch s) : x ≠ [] ∧ ch ∉ x := by
  obtain ⟨hx, hne⟩ := List.mem_filter.1 h
  exact ⟨by simpa using hne, splitOn_parts ch s x hx⟩

/-- Segments that are joined come apart again. -/
theorem splitOn_joined {segs : List Text} (hsegs : ∀ x ∈ segs, x ≠ [] ∧ ch ∉ x) (hne : segs ≠ []) :
    ([ch].intercalate segs).splitOn ch = segs :=
  List.splitOn_intercalate ch (fun x hx => (hsegs x hx).2) hne

theorem segments_joined {segs : List Text} (hsegs : ∀ x ∈ segs, x ≠ [] ∧ ch ∉ x) :
    segments ch ([ch].intercalate segs) = segs := by
  by_cases hne : segs = []
  · rw [hne]
    rfl
  · rw [segments, splitOn_joined hsegs hne]
    exact List.filter_eq_self.2 fun x hx => by simpa using (hsegs x hx).1

/-- With delimiters side by side or at an end, something between them is empty. -/
theorem nil_mem_splitOn {s u v : Text} (h : s = u ++ ch :: v) (hempty : u = [] ∨ v = [] ∨ v.head? = some ch) :
    [] ∈ s.splitOn ch := by
  have hsplit : s.splitOn ch = u.splitOn ch ++ v.splitOn ch := by
    rw [h, List.splitOn, List.splitOnP_append_cons _ _ (by simp)]
    rfl
  rw [hsplit, List.mem_append]
  rcases hempty with rfl | rfl | hhead
  · exact .inl (by simp)
  · exact .inr (by simp)
  · right
    cases v with
    | nil => cases hhead
    | cons c v =>
      obtain rfl : c = ch := Option.some.inj hhead
      rw [splitOn_delim]
      exact List.mem_cons_self

theorem cleanLoop_sublist (d : Bool) (s : Text) : (cleanLoop ch d s).Sublist s := by
  induction s generalizing d with
  | nil => exact List.Sublist.slnil
  | cons c s ih =>
    rw [cleanLoop]
    split
    next hc =>
      subst hc
      split
      · exact (ih true).cons _
      · exact (ih true).cons_cons _
    next => exact (ih false).cons_cons _

theorem length_cleanenv_le (ch : Char) (v : Option Text) : (cleanenv ch v).length ≤ (v.getD []).length := by
  have hloop := (@cleanLoop_sublist ch true (v.getD [])).length_le
  rw [cleanenv]
  split
  · rw [List.length_dropLast]
    omega
  · exact hloop

end

/-- **A clean value** has the same segments, no delimiter in front, behind, or beside another one, is no longer than it
was, and stays as it is. -/
theorem cleanenv_canonical (ch : Char) (v : Option Text) :
    segments ch (cleanenv ch v) = segments ch (v.getD []) ∧
      (cleanenv ch v).head? ≠ some ch ∧ (cleanenv ch v).getLast? ≠ some ch ∧ ¬ [ch, ch] <:+: cleanenv ch v ∧
      (cleanenv ch v).length ≤ (v.getD []).length ∧ cleanenv ch (some (cleanenv ch v)) = cleanenv ch v := by
  have hsegs : ∀ x ∈ segments ch (v.getD []), x ≠ [] ∧ ch ∉ x := fun x hx => segments_spec hx
  have hsame : segments ch (cleanenv ch v) = segments ch (v.getD []) := by
    rw [cleanenv_eq]
    exact segments_joined hsegs
  have hclean : ∀ u t, cleanenv ch v = u ++ ch :: t → u = [] ∨ t = [] ∨ t.head? = some ch → False := by
    intro u t h hempty
    have hmem := nil_mem_splitOn h hempty
    have hne : segments ch (v.getD []) ≠ [] := by
      intro hnil
      rw [cleanenv_eq, hnil, List.intercalate_nil] at h
      simp at h
    rw [cleanenv_eq, splitOn_joined hsegs hne] at hmem
    exact (hsegs [] hmem).1 rfl
  refine ⟨hsame, ?_, ?_, ?_, length_cleanenv_le ch v, ?_⟩
  · intro hhead
    obtain ⟨t, ht⟩ : ∃ t, cleanenv ch v = ch :: t := by
      cases hs : cleanenv ch v with
      | nil => rw [hs] at hhead; cases hhead
      | cons c t => exact ⟨t, by rw [hs] at hhead; rw [Option.some.inj hhead]⟩
    exact hclean [] t ht (.inl rfl)
  · intro hlast
    obtain ⟨u, hu⟩ := List.getLast?_eq_some_iff.1 hlast
    exact hclean u [] hu (.inr (.inl rfl))
  · rintro ⟨u, t, ht⟩
    exact hclean u (ch :: t) (by rw [← ht]; simp) (.inr (.inr rfl))
  · rw [cleanenv_eq ch (some _), Option.getD_some, hsame, ← cleanenv_eq]

end T2Sde.Wrapper
