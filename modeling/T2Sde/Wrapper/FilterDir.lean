import T2Sde.Lib.Joined
import T2Sde.Wrapper.Log
import T2Sde.Wrapper.RealPath
/-!
# Directories that are left out of the log (`misc/tools-source/fl_wrapper.c.sh`)

`FLWRAPPER_FILTERDIR` is copied at the start and taken apart in place: `strtok` writes a NUL over the colon behind each
token. Later the buffer is read again as a list of texts with a NUL behind each. But `strtok` steps over more colons and
leaves them, and they are then in front of the next text: a directory behind an empty component is never found.

| here | there |
| --- | --- |
| `copyGetenv`  | `copy_getenv` :416-432 for a buffer with two NULs at its end; none if it aborts |
| `splitLoop`   | the `strtok` loop :452-453 |
| `walk`        | the texts of the buffer :568 |
| `dropped`     | :565-577 |

* `walk_splitLoop` — the texts are the components, each with the colons in front of it that are left.
* `filter_iff` — **when a path is dropped as the components say**.
-/
namespace T2Sde.Wrapper
open Shell

/-! ## The program -/

/-- A buffer of zeros, with the variable in it. -/
def copyGetenv : Option Text → Option Text
  | none => some (List.replicate pathMax nul)
  | some v => if v.length < pathMax - 1 then some (v ++ List.replicate (pathMax - v.length) nul) else none

/-- The first `n` tokens; the text is the one at the pointer of `strtok`. -/
def splitLoop : Nat → Text → Text
  | 0, s => s
  | n + 1, s =>
    let rest := s.dropWhile (· == ':')
    let token := rest.takeWhile fun c => c != ':' && c != nul
    if token = [] then s
    else
      match rest.drop token.length with
      | ':' :: t => s.takeWhile (· == ':') ++ token ++ nul :: splitLoop n t
      | _ => s

/-- The first `n` texts, up to an empty one. -/
def walk : Nat → Text → List Text
  | 0, _ => []
  | n + 1, s => if cstr s = [] then [] else cstr s :: walk n (s.drop ((cstr s).length + 1))

/-- Whether an access is left out; none if there is no process. -/
def dropped (filterdir : Option Text) (cwd file : Text) : Option Bool :=
  (copyGetenv filterdir).map fun buf =>
    (walk buf.length (splitLoop buf.length buf)).any fun t => t.isPrefixOf (sortOfRealpath cwd file)

/-! ## The property -/

/-- A component that is not empty is a prefix. -/
def Filtered (filterdir absfile : Text) : Prop := ∃ c ∈ filterdir.splitOn ':', c ≠ [] ∧ c <+: absfile

/-- Such a component that is the first one, or has another that is not empty in front of it. -/
def FilteredAt (filterdir absfile : Text) : Prop :=
  ∃ pre c post, filterdir.splitOn ':' = pre ++ c :: post ∧ c ≠ [] ∧ c <+: absfile ∧ pre.getLast? ≠ some []

/-! ## The buffer -/

/-- The texts of the buffer, for components with `k` colons in front. -/
def pieces : Nat → List Text → List Text
  | _, [] => []
  | k, [c] => if k = 0 ∧ c = [] then [] else [List.replicate k ':' ++ c]
  | k, c :: d :: cs => if c = [] then pieces (k + 1) (d :: cs) else (List.replicate k ':' ++ c) :: pieces 0 (d :: cs)

section
variable {c s f : Text} {cs : List Text} {k : Nat}

theorem ne_of_not_mem {x : Char} (h : x ∉ s) : ∀ y ∈ s, y ≠ x := fun _ hy he => h (he ▸ hy)

theorem cstr_zeros (hs : nul ∉ s) (z : Nat) : cstr (s ++ List.replicate z nul) = s := by
  have hz : cstr (List.replicate z nul) = [] := by cases z <;> rfl
  rw [cstr_front hs, hz, List.append_nil]

theorem walk_zeros (m z : Nat) : walk m (List.replicate z nul) = [] := by
  have hz : cstr (List.replicate z nul) = [] := cstr_zeros List.not_mem_nil z
  cases m with
  | zero => rfl
  | succ m => rw [walk, if_pos hz]

theorem walk_last (hs : nul ∉ s) (hne : s ≠ []) (m z : Nat) : walk (m + 1) (s ++ List.replicate z nul) = [s] := by
  rw [walk, cstr_zeros hs, if_neg hne, List.drop_append, List.drop_eq_nil_of_le (Nat.le_succ _), List.nil_append,
    List.drop_replicate, walk_zeros]

theorem walk_nul (hs : nul ∉ s) (hne : s ≠ []) (m : Nat) (t : Text) : walk (m + 1) (s ++ nul :: t) = s :: walk m t := by
  rw [walk, cstr_text hs, if_neg hne, List.drop_append, List.drop_eq_nil_of_le (Nat.le_succ _), Nat.add_sub_cancel_left]
  rfl

/-- `strtok` steps over the colons in front. -/
theorem colons_front (k : Nat) (hs : s.head? ≠ some ':') :
    (List.replicate k ':' ++ s).takeWhile (· == ':') = List.replicate k ':' ∧
      (List.replicate k ':' ++ s).dropWhile (· == ':') = s := by
  have hk : ∀ y ∈ List.replicate k ':', (y == ':') = true := fun y hy => by simpa using List.eq_of_mem_replicate hy
  rw [List.takeWhile_append_of_pos hk, List.dropWhile_append_of_pos hk]
  cases s with
  | nil => exact ⟨List.append_nil _, rfl⟩
  | cons y t =>
    have hy : ¬ (y == ':') = true := fun he => hs (congrArg some (beq_iff_eq.1 he))
    exact ⟨by rw [List.takeWhile_cons_of_neg (by exact hy), List.append_nil],
      List.dropWhile_cons_of_neg (by exact hy)⟩

theorem head_token (hc : ':' ∉ c) (hs : c = [] → s.head? ≠ some ':') : (c ++ s).head? ≠ some ':' := by
  cases c with
  | nil => exact hs rfl
  | cons x c =>
    intro h
    exact hc (by rw [← Option.some.inj h]; exact List.mem_cons_self)

theorem token_eq (hc : ':' ∉ c) (hnul : nul ∉ c) (hs : ∀ x ∈ s.head?, x = ':' ∨ x = nul) :
    (c ++ s).takeWhile (fun x => x != ':' && x != nul) = c := by
  rw [List.takeWhile_append_of_pos fun y hy => by simp [ne_of_not_mem hc y hy, ne_of_not_mem hnul y hy]]
  cases s with
  | nil => exact List.append_nil c
  | cons x s =>
    rw [List.takeWhile_cons_of_neg (by rcases hs x rfl with rfl | rfl <;> simp), List.append_nil]

theorem nul_not_mem_colons (k : Nat) (hnul : nul ∉ c) : nul ∉ List.replicate k ':' ++ c := by
  intro h
  rcases List.mem_append.1 h with h | h
  · exact absurd (List.eq_of_mem_replicate h) (by decide)
  · exact hnul h

/-- **The texts** that are found in the buffer. -/
theorem walk_splitLoop : ∀ (cs : List Text) (k n m z : Nat), (∀ c ∈ cs, ':' ∉ c ∧ nul ∉ c) → cs ≠ [] →
    cs.length ≤ n → cs.length ≤ m →
    walk m (splitLoop n (List.replicate k ':' ++ ([':'].intercalate cs ++ List.replicate z nul))) = pieces k cs
  | [], _, _, _, _, _, hne, _, _ => absurd rfl hne
  | [c], k, n + 1, m + 1, z, hcs, _, _, _ => by
    obtain ⟨hc, hnul⟩ := hcs c List.mem_cons_self
    have hz : ∀ x ∈ (List.replicate z nul).head?, x = ':' ∨ x = nul := fun x hx =>
      .inr (List.eq_of_mem_replicate (List.mem_of_mem_head? hx))
    have hcol : (List.replicate z nul).head? ≠ some ':' := fun h =>
      absurd (List.eq_of_mem_replicate (List.mem_of_mem_head? h)) (by decide)
    obtain ⟨-, hrest⟩ := colons_front k (head_token hc fun _ => hcol)
    have hk := nul_not_mem_colons k hnul
    -- what follows the last token is a NUL, and the loop stops with the buffer as it is
    have hloop : splitLoop (n + 1) (List.replicate k ':' ++ (c ++ List.replicate z nul)) =
        List.replicate k ':' ++ c ++ List.replicate z nul := by
      rw [splitLoop, hrest, token_eq hc hnul hz, List.append_assoc]
      split
      · rfl
      · rw [List.drop_left]
        cases z <;> rfl
    rw [List.intercalate_singleton, hloop, pieces]
    split
    · next h =>
      obtain ⟨rfl, rfl⟩ := h
      exact walk_zeros _ _
    · next h =>
      refine walk_last hk (fun hnil => h ?_) m z
      obtain ⟨hk, hc⟩ := List.append_eq_nil_iff.1 hnil
      exact ⟨List.replicate_eq_nil_iff _ |>.1 hk, hc⟩
  | c :: d :: cs, k, n + 1, m + 1, z, hcs, _, hn, hm => by
    obtain ⟨hc, hnul⟩ := hcs c List.mem_cons_self
    have htail : ∀ e ∈ d :: cs, ':' ∉ e ∧ nul ∉ e := fun e he => hcs e (List.mem_cons_of_mem c he)
    rw [intercalate_cons (List.cons_ne_nil d cs), pieces]
    split
    · next h =>
      -- nothing stands between the colons: one more is in front of the next component
      subst h
      have ih := walk_splitLoop (d :: cs) (k + 1) (n + 1) (m + 1) z htail (List.cons_ne_nil d cs)
        (Nat.le_of_succ_le hn) (Nat.le_of_succ_le hm)
      rw [← ih, List.replicate_succ']
      simp
    · next hne =>
      have ih := walk_splitLoop (d :: cs) 0 n m z htail (List.cons_ne_nil d cs)
        (Nat.le_of_succ_le_succ hn) (Nat.le_of_succ_le_succ hm)
      generalize ht : [':'].intercalate (d :: cs) ++ List.replicate z nul = t at ih
      obtain ⟨hfront, hrest⟩ := colons_front (s := c ++ ':' :: t) k (head_token hc fun h => absurd h hne)
      have htoken : (c ++ ':' :: t).takeWhile (fun x => x != ':' && x != nul) = c :=
        token_eq hc hnul fun x hx => .inl (Option.some.inj hx).symm
      have hloop : splitLoop (n + 1) (List.replicate k ':' ++ (c ++ ':' :: t)) =
          List.replicate k ':' ++ c ++ nul :: splitLoop n t := by
        rw [splitLoop, hrest, htoken, if_neg hne, List.drop_left, hfront]
        rfl
      have htext : c ++ [':'] ++ [':'].intercalate (d :: cs) ++ List.replicate z nul = c ++ ':' :: t := by
        rw [List.append_assoc, List.append_assoc, ht]
        rfl
      rw [htext, hloop, walk_nul (nul_not_mem_colons k hnul) fun h => hne (List.append_eq_nil_iff.1 h).2]
      exact congrArg _ ih

/-! ## The path -/

/-- A component that counts, when `k` colons are in front of the first. -/
def Found (k : Nat) (cs : List Text) (f : Text) : Prop :=
  ∃ pre c post, cs = pre ++ c :: post ∧ c ≠ [] ∧ c <+: f ∧ (pre = [] → k = 0) ∧ pre.getLast? ≠ some []

theorem found_cons :
    Found k (c :: cs) f ↔ (k = 0 ∧ c ≠ [] ∧ c <+: f) ∨ Found (if c = [] then k + 1 else 0) cs f := by
  constructor
  · rintro ⟨pre, e, post, heq, hne, hf, hk, hlast⟩
    cases pre with
    | nil =>
      obtain ⟨rfl, rfl⟩ := List.cons.inj heq
      exact .inl ⟨hk rfl, hne, hf⟩
    | cons x pre =>
      obtain ⟨rfl, rfl⟩ := List.cons.inj heq
      refine .inr ⟨pre, e, post, rfl, hne, hf, fun hpre => ?_, fun h => hlast ?_⟩
      · subst hpre
        exact if_neg fun (h : c = []) => hlast (congrArg some h)
      · rw [List.getLast?_cons, h]
        rfl
  · rintro (⟨hk, hne, hf⟩ | ⟨pre, e, post, rfl, hne, hf, hk, hlast⟩)
    · exact ⟨[], c, cs, rfl, hne, hf, fun _ => hk, by simp⟩
    · refine ⟨c :: pre, e, post, rfl, hne, hf, fun h => absurd h (List.cons_ne_nil c pre), ?_⟩
      cases pre with
      | nil =>
        intro h
        have hc : c = [] := Option.some.inj h
        have hzero := hk rfl
        rw [if_pos hc] at hzero
        omega
      | cons x pre =>
        rw [List.getLast?_cons_cons]
        exact hlast

/-- A text with a colon in front is no prefix. -/
theorem colons_prefix (hf : f.head? = some '/') : List.replicate k ':' ++ c <+: f ↔ k = 0 ∧ c <+: f := by
  cases k with
  | zero => simp
  | succ k =>
    refine ⟨?_, fun h => absurd h.1 (Nat.succ_ne_zero k)⟩
    rintro ⟨t, rfl⟩
    exact absurd hf (by simp [List.replicate_succ])

theorem found_pieces (hf : f.head? = some '/') : ∀ (cs : List Text) (k : Nat), cs ≠ [] →
    ((∃ x ∈ pieces k cs, x <+: f) ↔ Found k cs f)
  | [], _, hne => absurd rfl hne
  | [c], k, _ => by
    have hnone : ¬ Found (if c = [] then k + 1 else 0) [] f := by
      rintro ⟨pre, e, post, h, -⟩
      simp at h
    rw [found_cons, or_iff_left hnone, pieces]
    by_cases hc : k = 0 ∧ c = []
    · rw [if_pos hc]
      simp [hc.2]
    · rw [if_neg hc]
      simp only [List.mem_singleton, exists_eq_left, colons_prefix hf]
      exact ⟨fun h => ⟨h.1, fun hnil => hc ⟨h.1, hnil⟩, h.2⟩, fun h => ⟨h.1, h.2.2⟩⟩
  | c :: d :: cs, k, _ => by
    rw [found_cons, pieces]
    by_cases hc : c = []
    · rw [if_pos hc, if_pos hc, found_pieces hf (d :: cs) (k + 1) (List.cons_ne_nil d cs)]
      exact ⟨.inr, fun h => h.resolve_left fun h' => h'.2.1 hc⟩
    · rw [if_neg hc, if_neg hc, ← found_pieces hf (d :: cs) 0 (List.cons_ne_nil d cs)]
      simp only [List.mem_cons, exists_eq_or_imp, colons_prefix hf, ne_eq, hc, not_false_eq_true, true_and]

theorem found_splitOn {v : Text} : Found 0 (v.splitOn ':') f ↔ FilteredAt v f := by
  refine exists_congr fun pre => exists_congr fun c => exists_congr fun post => ?_
  simp

end

/-! ## An absolute path starts with a slash -/

section
variable {dst src file : Text}

theorem stopAt_last (h : dst.getLast? = some '/') : (stopAt dst).getLast? = some '/' := by
  induction dst with
  | nil => exact h
  | cons c dst ih =>
    rw [stopAt]
    split
    · next hc =>
      apply ih
      cases dst with
      | nil => exact absurd rfl hc.1
      | cons d dst => rwa [List.getLast?_cons_cons] at h
    · exact h

theorem backUp_last (h : dst.getLast? = some '/') : (backUp dst).getLast? = some '/' := by
  apply stopAt_last
  split
  · next hlen =>
    match dst, hlen, h with
    | c :: d :: dst, _, h => rwa [List.getLast?_cons_cons] at h
  · exact h

theorem cons_last (c : Char) (h : dst.getLast? = some '/') : (c :: dst).getLast? = some '/' := by
  rw [List.getLast?_cons, h]
  rfl

/-- Every branch of the loop leaves the slash at the start. -/
theorem walkUpTo_last (n : Nat) (h : dst.getLast? = some '/') : (walkUpTo n dst src).getLast? = some '/' := by
  induction n generalizing dst src with
  | zero => rwa [walkUpTo]
  | succ n ih =>
    cases src with
    | nil =>
      rw [walkUpTo]
      · exact h
      · exact Nat.succ_ne_zero n
    | cons c src =>
      rw [walkUpTo]
      split_ifs
      · exact ih (cons_last _ h)
      · exact ih (backUp_last h)
      · exact ih h
      · exact ih (cons_last _ h)
      · exact h

theorem trim_last (h : dst.getLast? = some '/') : (trim dst).getLast? = some '/' := by
  induction dst with
  | nil => exact h
  | cons c dst ih =>
    rw [trim]
    split
    · next hc =>
      apply ih
      cases dst with
      | nil => simp at hc
      | cons d dst => rwa [List.getLast?_cons_cons] at h
    · exact h

theorem sortOfRealpath_head (cwd : Text) (habs : file.head? = some '/') :
    (sortOfRealpath cwd file).head? = some '/' := by
  obtain ⟨src, rfl⟩ : ∃ src, file = '/' :: src := by
    cases file with
    | nil => simp at habs
    | cons c src => exact ⟨src, by rw [Option.some.inj habs]⟩
  have hstart : (walkUpTo ('/' :: src).length [] ('/' :: src)).getLast? = some '/' := by
    rw [List.length_cons, walkUpTo, if_pos (by decide)]
    split
    · exact walkUpTo_last _ rfl
    · rw [if_neg fun h => absurd h.1 (by decide), if_neg fun h => absurd h.1 (by decide)]
      exact walkUpTo_last _ rfl
  rw [sortOfRealpath, if_pos habs, List.head?_reverse]
  exact trim_last hstart

end

/-! ## When a path is dropped as the components say -/

theorem filteredAt_filtered {v f : Text} (h : FilteredAt v f) : Filtered v f := by
  obtain ⟨pre, c, post, heq, hne, hf, -⟩ := h
  exact ⟨c, by rw [heq]; exact List.mem_append_right _ List.mem_cons_self, hne, hf⟩

theorem dropped_iff {v file : Text} (cwd : Text) (hnul : nul ∉ v) (habs : file.head? = some '/')
    (hlen : v.length + 1 < pathMax) :
    ∃ b, dropped (some v) cwd file = some b ∧ (b = true ↔ FilteredAt v (sortOfRealpath cwd file)) := by
  have hcopy : copyGetenv (some v) = some (v ++ List.replicate (pathMax - v.length) nul) :=
    if_pos (Nat.lt_sub_of_add_lt hlen)
  refine ⟨_, by rw [dropped, hcopy, Option.map_some], ?_⟩
  have hparts : ∀ c ∈ v.splitOn ':', ':' ∉ c ∧ nul ∉ c := fun c hc =>
    ⟨splitOn_parts ':' v c hc, fun h => by
      have hpart := infix_intercalate (d := [':']) hc
      rw [List.intercalate_splitOn] at hpart
      exact hnul (hpart.subset h)⟩
  have hne : v.splitOn ':' ≠ [] := List.splitOn_ne_nil ':' v
  have hcount : (v.splitOn ':').length ≤ (v ++ List.replicate (pathMax - v.length) nul).length := by
    have hle : v.count ':' ≤ v.length := List.count_le_length
    rw [length_splitOn, List.length_append, List.length_replicate]
    omega
  have hwalk := walk_splitLoop (v.splitOn ':') 0 _ _ (pathMax - v.length) hparts hne hcount hcount
  rw [List.intercalate_splitOn, List.replicate_zero, List.nil_append] at hwalk
  rw [hwalk, List.any_eq_true, ← found_splitOn, ← found_pieces (sortOfRealpath_head cwd habs) _ 0 hne]
  simp only [List.isPrefixOf_iff_prefix]

/-- **The components decide** when the value fits, and one that decides is the first or has another in front of it. -/
theorem filter_iff {v cwd file : Text} (hnul : nul ∉ v) (habs : file.head? = some '/') :
    (∃ b, dropped (some v) cwd file = some b ∧ (b = true ↔ Filtered v (sortOfRealpath cwd file))) ↔
      v.length + 1 < pathMax ∧
        (Filtered v (sortOfRealpath cwd file) → FilteredAt v (sortOfRealpath cwd file)) := by
  constructor
  · rintro ⟨b, hb, hiff⟩
    have hlen : v.length + 1 < pathMax := by
      by_contra hlen
      have hcopy : copyGetenv (some v) = none := if_neg fun h => hlen (Nat.add_lt_of_lt_sub h)
      rw [dropped, hcopy] at hb
      simp at hb
    obtain ⟨b', hb', hiff'⟩ := dropped_iff cwd hnul habs hlen
    rw [hb] at hb'
    obtain rfl := Option.some.inj hb'
    exact ⟨hlen, fun h => hiff'.1 (hiff.2 h)⟩
  · rintro ⟨hlen, himp⟩
    obtain ⟨b, hb, hiff⟩ := dropped_iff cwd hnul habs hlen
    exact ⟨b, hb, hiff.trans ⟨filteredAt_filtered, himp⟩⟩

theorem dropped_build :
    (∃ b, dropped (some "/tmp:/build:".toList) "/".toList "/build/./src/a.c".toList = some b ∧
      (b = true ↔ Filtered "/tmp:/build:".toList (sortOfRealpath "/".toList "/build/./src/a.c".toList))) ∧
    dropped (some "/tmp:/build:".toList) "/".toList "/build/./src/a.c".toList = some true := by
  refine ⟨(filter_iff (by decide) (by decide)).2 ⟨by decide, fun _ => ?_⟩, by decide +kernel⟩
  exact ⟨["/tmp".toList], "/build".toList, [[]], by decide +kernel, by decide, by decide +kernel, by decide⟩

/-- The second colon is in front of the name. -/
theorem doubled_kept :
    dropped (some "/tmp::/build".toList) "/".toList "/build/a.c".toList = some false ∧
      Filtered "/tmp::/build".toList (sortOfRealpath "/".toList "/build/a.c".toList) := by
  refine ⟨by decide +kernel, "/build".toList, ?_, by decide, by decide +kernel⟩
  decide +kernel

end T2Sde.Wrapper
