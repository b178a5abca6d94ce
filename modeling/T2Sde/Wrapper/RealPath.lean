import T2Sde.Wrapper.Guard
/-!
# The absolute name of a file (`misc/tools-source/fl_wrapper.c.sh`)

`sort_of_realpath` goes through the characters of a path and takes out `./` and `../` where it meets them, also behind
other characters of a name. A name that ends with one dot is joined with the name behind it; one that ends with more
takes itself away. Such a difference from the normal form stays until the path is back at the root.

| here | there |
| --- | --- |
| `stopAt`, `backUp`  | :518-520 |
| `walkUpTo`          | the loop :513-532 |
| `trim`              | :535-536 |
| `sortOfRealpath`    | :501-537; `file` and `absfile` are two buffers if the path is absolute |
| `Walk`              | what is written, as names |
| `names`             | what stands between the slashes |

* `walkUpTo_names` — the loop goes from name to name.
* `along` — where the walk along a path agrees with its normal form.
* `realpath_iff` — **when the result is the normal form**.
-/
namespace T2Sde.Wrapper
open Shell

/-! ## The loop -/

/-- What is written is given with the last character first, and has a slash at its end. -/
def stopAt : Text → Text
  | [] => []
  | c :: dst => if dst ≠ [] ∧ c ≠ '/' then stopAt dst else c :: dst

def backUp (dst : Text) : Text := stopAt (if 1 < dst.length then dst.tail else dst)

/-- A slash follows, or nothing. -/
def atEnd (src : Text) : Prop := src = [] ∨ src.head? = some '/'

instance (src : Text) : Decidable (atEnd src) := inferInstanceAs (Decidable (_ ∨ _))

def skip (src : Text) : Text := src.dropWhile (· == '/')

/-- The first `n` turns of the loop. -/
def walkUpTo : Nat → Text → Text → Text
  | 0, dst, _ => dst
  | _, dst, [] => dst
  | n + 1, dst, c :: src =>
    if dst.length < pathMax then
      if c = '/' ∧ src.head? = some '/' then walkUpTo n ('/' :: dst) (skip src)
      else if c = '.' ∧ src.head? = some '.' ∧ atEnd src.tail then walkUpTo n (backUp dst) (skip src.tail.tail)
      else if c = '.' ∧ atEnd src then walkUpTo n dst (skip src.tail)
      else walkUpTo n (c :: dst) src
    else dst

/-- Slashes at the end. -/
def trim : Text → Text
  | [] => []
  | c :: dst => if 1 < dst.length ∧ c = '/' then trim dst else c :: dst

def sortOfRealpath (cwd file : Text) : Text :=
  let src := if file.head? = some '/' then file else (cwd ++ '/' :: file).take (pathMax - 1)
  (trim (walkUpTo src.length [] src)).reverse

/-! ## Names -/

def names (path : Text) : List Text := (path.splitOn '/').filter fun c => c ≠ [] ∧ c ≠ ['.']

/-- The names that are written, and what is written behind the last slash. -/
structure Walk where
  done : List Text
  part : Text
  deriving DecidableEq, Repr

def Walk.text (w : Walk) : Text := '/' :: w.done.flatMap (· ++ ['/']) ++ w.part

/-- What a name does that stands behind a slash. -/
def Walk.step (w : Walk) (c : Text) : Walk :=
  if ['.', '.'] <:+ c then ⟨if w.part ++ c.dropLast.dropLast = [] then w.done.dropLast else w.done, []⟩
  else if ['.'] <:+ c then ⟨w.done, w.part ++ c.dropLast⟩
  else ⟨w.done ++ [w.part ++ c], []⟩

def Walk.names (w : Walk) : List Text := w.done ++ if w.part = [] then [] else [w.part]

def Clean (c : Text) : Prop := c ≠ [] ∧ '/' ∉ c

structure Walk.Ok (w : Walk) : Prop where
  done : ∀ c ∈ w.done, Clean c
  part : '/' ∉ w.part

/-- The normal form of a list of names. -/
abbrev normal (cs : List Text) : List Text := cs.foldl push []

/-- The name ends with a dot, and is neither `.` nor `..`. -/
def Dotted (c : Text) : Prop := ['.'] <:+ c ∧ c ≠ ['.'] ∧ c ≠ ['.', '.']

instance (c : Text) : Decidable (Dotted c) := inferInstanceAs (Decidable (_ ∧ _))

/-- The path is at the root again behind the name; or the name ends with one dot, and `..` takes it away at once. -/
def Mended (pre : List Text) (c : Text) (post : List Text) : Prop :=
  (∃ u, u <+: post ∧ normal (pre ++ c :: u) = []) ∨ (¬ ['.', '.'] <:+ c ∧ post.head? = some ['.', '.'])

/-- So with every name that ends with a dot. -/
def Settled (cs : List Text) : Prop := ∀ pre c post, cs = pre ++ c :: post → Dotted c → Mended pre c post

/-! ## From character to character -/

section
variable {n : Nat} {dst src c u v : Text}

theorem skip_head (src : Text) : (skip src).head? ≠ some '/' := by
  intro h
  have hd := List.head?_dropWhile_not (· == '/') src
  rw [skip] at h
  rw [h] at hd
  simp at hd

theorem skip_length (src : Text) : (skip src).length ≤ src.length := (List.dropWhile_sublist _).length_le

theorem not_atEnd_append (hc : Clean c) (src : Text) : ¬ atEnd (c ++ src) := by
  obtain ⟨x, c, rfl⟩ := List.exists_cons_of_ne_nil hc.1
  rintro (h | h)
  · simp at h
  · exact hc.2 (Option.some.inj h ▸ List.mem_cons_self)

theorem skip_tail (hsrc : atEnd src) : skip src.tail = skip src := by
  cases src with
  | nil => rfl
  | cons x src =>
    obtain rfl : x = '/' := by simpa [atEnd] using hsrc
    rfl

/-- A character that is not a dot at the end of a name. -/
theorem walkUpTo_char {x : Char} (hlen : dst.length < pathMax) (hx : x ≠ '/')
    (hup : ¬ (x = '.' ∧ src.head? = some '.' ∧ atEnd src.tail)) (hdot : ¬ (x = '.' ∧ atEnd src)) :
    walkUpTo (n + 1) dst (x :: src) = walkUpTo n (x :: dst) src := by
  rw [walkUpTo, if_pos hlen, if_neg (fun h => hx h.1), if_neg hup, if_neg hdot]

theorem walkUpTo_slash (hlen : dst.length < pathMax) :
    walkUpTo (n + 1) dst ('/' :: src) = walkUpTo n ('/' :: dst) (skip src) := by
  rw [walkUpTo, if_pos hlen]
  by_cases h : src.head? = some '/'
  · rw [if_pos ⟨rfl, h⟩]
  · have hskip : skip src = src := by
      cases src with
      | nil => rfl
      | cons x src => exact List.dropWhile_cons_of_neg (by simpa using h)
    rw [if_neg (fun h' => h h'.2), if_neg (by simp), if_neg (by simp), hskip]

theorem walkUpTo_up (hlen : dst.length < pathMax) (hsrc : atEnd src) :
    walkUpTo (n + 1) dst ('.' :: '.' :: src) = walkUpTo n (backUp dst) (skip src) := by
  rw [walkUpTo, if_pos hlen, if_neg (by simp), if_pos ⟨rfl, rfl, hsrc⟩]
  exact congrArg _ (skip_tail hsrc)

theorem walkUpTo_dot (hlen : dst.length < pathMax) (hsrc : atEnd src) :
    walkUpTo (n + 1) dst ('.' :: src) = walkUpTo n dst (skip src) := by
  have hno : ¬ src.head? = some '.' := by
    rintro h
    rcases hsrc with rfl | h'
    · simp at h
    · simp [h] at h'
  rw [walkUpTo, if_pos hlen, if_neg (by simp), if_neg (fun h => hno h.2.1), if_pos ⟨rfl, hsrc⟩, skip_tail hsrc]

/-- What two dots are in front of the end of a name. -/
theorem dot_of_tail (hu : '/' ∉ u) (hsrc : atEnd src) (hhead : (u ++ src).head? = some '.')
    (htail : atEnd (u ++ src).tail) : u = ['.'] := by
  cases u with
  | nil =>
    rcases hsrc with rfl | h
    · simp at hhead
    · rw [List.nil_append, h] at hhead
      simp at hhead
  | cons x u =>
    rw [List.mem_cons, not_or] at hu
    obtain rfl : x = '.' := by simpa using hhead
    have hnil : u = [] := by
      by_contra hne
      exact not_atEnd_append ⟨hne, hu.2⟩ src htail
    rw [hnil]

/-- Characters up to the dots at the end of a name. -/
theorem walkUpTo_copy (hu : '/' ∉ u) (hv : '/' ∉ v) (hlen : dst.length + u.length ≤ pathMax)
    (hdots : ∀ t, t <:+ u → t ≠ [] → t ++ v ≠ ['.'] ∧ t ++ v ≠ ['.', '.']) (hsrc : atEnd src) :
    walkUpTo (n + u.length) dst (u ++ (v ++ src)) = walkUpTo n (u.reverse ++ dst) (v ++ src) := by
  induction u generalizing dst with
  | nil => rfl
  | cons x u ih =>
    rw [List.mem_cons, not_or] at hu
    rw [List.length_cons] at hlen
    obtain ⟨hone, htwo⟩ := hdots (x :: u) List.suffix_rfl (List.cons_ne_nil x u)
    have hw : '/' ∉ u ++ v := by simp [hu.2, hv]
    have hrest : u ++ (v ++ src) = (u ++ v) ++ src := (List.append_assoc u v src).symm
    have hend : atEnd (u ++ (v ++ src)) → u ++ v = [] := by
      rw [hrest]
      intro h
      by_contra hne
      exact not_atEnd_append ⟨hne, hw⟩ src h
    have hup : ¬ (x = '.' ∧ (u ++ (v ++ src)).head? = some '.' ∧ atEnd (u ++ (v ++ src)).tail) := by
      rintro ⟨rfl, hhead, htail⟩
      rw [hrest] at hhead htail
      exact htwo (congrArg ('.' :: ·) (dot_of_tail hw hsrc hhead htail))
    have hdot : ¬ (x = '.' ∧ atEnd (u ++ (v ++ src))) := by
      rintro ⟨rfl, h⟩
      exact hone (congrArg ('.' :: ·) (hend h))
    rw [List.cons_append, List.length_cons, ← Nat.add_assoc,
      walkUpTo_char (by omega) (Ne.symm hu.1) hup hdot,
      ih hu.2 (by rw [List.length_cons]; omega) fun t ht => hdots t (ht.trans (List.suffix_cons x u)),
      List.reverse_cons, List.append_assoc, List.singleton_append]

/-- A name with two dots at the end. -/
theorem walkUpTo_name_up (hu : '/' ∉ u) (hlen : dst.length + (n + 1 + u.length) ≤ pathMax) (hsrc : atEnd src) :
    walkUpTo (n + 1 + u.length) dst (u ++ ['.', '.'] ++ src) = walkUpTo n (backUp (u.reverse ++ dst)) (skip src) := by
  have hdots : ∀ t, t <:+ u → t ≠ [] → t ++ ['.', '.'] ≠ ['.'] ∧ t ++ ['.', '.'] ≠ ['.', '.'] := by
    intro t _ ht
    have hpos := List.length_pos_iff.2 ht
    refine ⟨fun h => ?_, fun h => ?_⟩ <;>
    · have hl := congrArg List.length h
      rw [List.length_append] at hl
      simp only [List.length_cons, List.length_nil] at hl
      omega
  rw [List.append_assoc, walkUpTo_copy hu (by simp) (by omega) hdots hsrc]
  exact walkUpTo_up (by simp; omega) hsrc

/-- A name with one dot at the end. -/
theorem walkUpTo_name_dot (hu : '/' ∉ u) (hone : ¬ ['.'] <:+ u) (hlen : dst.length + (n + 1 + u.length) ≤ pathMax)
    (hsrc : atEnd src) :
    walkUpTo (n + 1 + u.length) dst (u ++ ['.'] ++ src) = walkUpTo n (u.reverse ++ dst) (skip src) := by
  have hdots : ∀ t, t <:+ u → t ≠ [] → t ++ ['.'] ≠ ['.'] ∧ t ++ ['.'] ≠ ['.', '.'] := by
    intro t ht hne
    refine ⟨fun h => hne (by simpa using h), fun h => ?_⟩
    obtain rfl : t = ['.'] := List.append_cancel_right h
    exact hone ht
  rw [List.append_assoc, walkUpTo_copy hu (by simp) (by omega) hdots hsrc]
  exact walkUpTo_dot (by simp; omega) hsrc

/-- A name without. -/
theorem walkUpTo_name (hu : '/' ∉ u) (hone : ¬ ['.'] <:+ u) (hlen : dst.length + (n + u.length) ≤ pathMax)
    (hsrc : atEnd src) : walkUpTo (n + u.length) dst (u ++ src) = walkUpTo n (u.reverse ++ dst) src := by
  have hdots : ∀ t, t <:+ u → t ≠ [] → t ++ [] ≠ ['.'] ∧ t ++ [] ≠ ['.', '.'] := by
    intro t ht _
    rw [List.append_nil]
    constructor
    · rintro rfl
      exact hone ht
    · rintro rfl
      exact hone (List.IsSuffix.trans ⟨['.'], rfl⟩ ht)
  exact @walkUpTo_copy n dst src u [] hu (by simp) (by omega) hdots hsrc

end

/-! ## What is written -/

section
variable {done : List Text} {p q dst : Text}

theorem stopAt_append (hq : '/' ∉ q) : stopAt (q ++ '/' :: dst) = '/' :: dst := by
  induction q with
  | nil => simp [stopAt]
  | cons x q ih =>
    rw [List.mem_cons, not_or] at hq
    rw [List.cons_append, stopAt, if_pos ⟨by simp, Ne.symm hq.1⟩, ih hq.2]

theorem text_concat (done : List Text) (c : Text) :
    (Walk.mk (done ++ [c]) []).text.reverse = '/' :: (Walk.mk done c).text.reverse := by
  simp [Walk.text]

theorem text_part (done : List Text) (p q : Text) :
    (Walk.mk done (p ++ q)).text.reverse = q.reverse ++ (Walk.mk done p).text.reverse := by
  simp [Walk.text]

theorem length_text_concat (done : List Text) (c : Text) :
    (Walk.mk (done ++ [c]) []).text.length = (Walk.mk done c).text.length + 1 := by
  have h := congrArg List.length (text_concat done c)
  rwa [List.length_cons, List.length_reverse, List.length_reverse] at h

theorem length_text_part (done : List Text) (p q : Text) :
    (Walk.mk done (p ++ q)).text.length = (Walk.mk done p).text.length + q.length := by
  have h := congrArg List.length (text_part done p q)
  rw [List.length_append, List.length_reverse, List.length_reverse, List.length_reverse] at h
  omega

theorem text_slash (done : List Text) : ∃ dst, (Walk.mk done []).text.reverse = '/' :: dst := by
  rcases List.eq_nil_or_concat' done with rfl | ⟨done, c, rfl⟩
  · exact ⟨[], rfl⟩
  · exact ⟨_, text_concat done c⟩

/-- Back behind the slash in front of what is written last. -/
theorem backUp_text (hp : '/' ∉ p) (hdone : ∀ c ∈ done, Clean c) :
    backUp (Walk.mk done p).text.reverse = (Walk.mk (if p = [] then done.dropLast else done) []).text.reverse := by
  by_cases h : p = []
  · subst h
    rw [if_pos rfl]
    rcases List.eq_nil_or_concat' done with rfl | ⟨done, c, rfl⟩
    · rfl
    · obtain ⟨dst, hdst⟩ := text_slash done
      have hc : '/' ∉ c.reverse := by simpa using (hdone c (by simp)).2
      rw [text_concat, List.dropLast_concat, ← List.nil_append c, text_part, hdst, backUp, List.tail_cons,
        if_pos (by simp only [List.length_cons, List.length_append]; omega), stopAt_append hc]
  · rw [if_neg h]
    obtain ⟨dst, hdst⟩ := text_slash done
    obtain ⟨x, q, hq⟩ := List.exists_cons_of_ne_nil (mt List.reverse_eq_nil_iff.1 h)
    have hnot : '/' ∉ x :: q := by rw [← hq]; simpa using hp
    rw [← List.nil_append p, text_part, hdst, hq, List.cons_append, backUp, List.tail_cons,
      if_pos (by simp only [List.length_cons, List.length_append]; omega),
      stopAt_append (fun h => hnot (List.mem_cons_of_mem x h))]

theorem flatMap_slash (done : List Text) (c : Text) :
    done.flatMap (· ++ ['/']) ++ c = ['/'].intercalate (done ++ [c]) := by
  induction done with
  | nil => simp
  | cons d done ih =>
    rw [List.flatMap_cons, List.append_assoc, ih, List.cons_append, List.intercalate_cons_of_ne_nil (by simp)]

/-- The slash at the end goes. -/
theorem trim_text {w : Walk} (hw : w.Ok) : (trim w.text.reverse).reverse = '/' :: ['/'].intercalate w.names := by
  obtain ⟨done, part⟩ := w
  have hlast {done : List Text} {c : Text} (hc : Clean c) :
      (trim (Walk.mk done c).text.reverse).reverse = '/' :: ['/'].intercalate (done ++ [c]) := by
    obtain ⟨x, q, hq⟩ := List.exists_cons_of_ne_nil (mt List.reverse_eq_nil_iff.1 hc.1)
    have hx : x ≠ '/' := fun h => hc.2 (List.mem_reverse.1 (by rw [hq, h]; exact List.mem_cons_self))
    have htext : (Walk.mk done c).text.reverse = x :: (q ++ (Walk.mk done []).text.reverse) := by
      rw [← List.nil_append c, text_part, hq, List.cons_append]
    rw [htext, trim, if_neg (fun h => hx h.2), ← htext, List.reverse_reverse, Walk.text, List.cons_append,
      flatMap_slash]
  by_cases hp : part = []
  · subst hp
    rw [Walk.names, if_pos rfl, List.append_nil]
    rcases List.eq_nil_or_concat' done with rfl | ⟨done, c, rfl⟩
    · rfl
    · have hc : Clean c := hw.done c (by simp)
      have hpos : 0 < c.length := List.length_pos_iff.2 hc.1
      have hlong : 1 < (Walk.mk done c).text.reverse.length := by
        simp [Walk.text]
        omega
      rw [text_concat, trim, if_pos ⟨hlong, rfl⟩, hlast hc]
  · rw [Walk.names, if_neg hp]
    exact hlast ⟨hp, hw.part⟩

end

/-! ## From name to name -/

section
variable {w : Walk} {c src : Text}

theorem Walk.step_ok (hw : w.Ok) (hc : Clean c) : (w.step c).Ok := by
  unfold Walk.step
  split
  · refine ⟨fun x hx => ?_, by simp⟩
    split at hx
    · exact hw.done x (List.dropLast_subset _ hx)
    · exact hw.done x hx
  · split
    · refine ⟨hw.done, fun h => ?_⟩
      rcases List.mem_append.1 h with h | h
      · exact hw.part h
      · exact hc.2 (List.dropLast_subset _ h)
    · refine ⟨fun x hx => ?_, by simp⟩
      rcases List.mem_append.1 hx with hx | hx
      · exact hw.done x hx
      · obtain rfl := List.mem_singleton.1 hx
        exact ⟨by simp [hc.1], by simp [hw.part, hc.2]⟩

theorem Walk.step_up (w : Walk) (u : Text) :
    w.step (u ++ ['.', '.']) = ⟨if w.part ++ u = [] then w.done.dropLast else w.done, []⟩ := by
  have hu : (u ++ ['.', '.']).dropLast.dropLast = u := by simp [List.dropLast_append_of_ne_nil]
  rw [Walk.step, if_pos (List.suffix_append u _), hu]

theorem Walk.step_one (w : Walk) {u : Text} (hu : ¬ ['.'] <:+ u) : w.step (u ++ ['.']) = ⟨w.done, w.part ++ u⟩ := by
  have hno : ¬ ['.', '.'] <:+ u ++ ['.'] := by
    rintro ⟨t, ht⟩
    have h : t ++ ['.'] ++ ['.'] = u ++ ['.'] := by rw [List.append_assoc, ← ht]; rfl
    exact hu ⟨t, List.append_cancel_right h⟩
  rw [Walk.step, if_neg hno, if_pos (List.suffix_append u _), List.dropLast_concat]

theorem Walk.step_name (w : Walk) (hc : ¬ ['.'] <:+ c) : w.step c = ⟨w.done ++ [w.part ++ c], []⟩ := by
  have hno : ¬ ['.', '.'] <:+ c := fun h => hc (List.IsSuffix.trans ⟨['.'], rfl⟩ h)
  rw [Walk.step, if_neg hno, if_neg hc]

theorem Walk.step_dot (w : Walk) : w.step ['.'] = w := by
  have h := w.step_one (u := []) (by simp)
  rwa [List.append_nil] at h

/-- How a name ends. -/
theorem name_cases (c : Text) :
    (∃ u, c = u ++ ['.', '.']) ∨ (∃ u, c = u ++ ['.'] ∧ ¬ ['.'] <:+ u) ∨ ¬ ['.'] <:+ c := by
  by_cases hc : ['.'] <:+ c
  · obtain ⟨u, rfl⟩ := hc
    by_cases hu : ['.'] <:+ u
    · obtain ⟨u, rfl⟩ := hu
      exact .inl ⟨u, List.append_assoc u _ _⟩
    · exact .inr (.inl ⟨u, rfl, hu⟩)
  · exact .inr (.inr hc)

/-- The name in front of a path that does not start with a slash. -/
theorem exists_name (hhead : src.head? ≠ some '/') (hne : src ≠ []) : ∃ c r, src = c ++ r ∧ Clean c ∧ atEnd r := by
  refine ⟨src.takeWhile (· != '/'), src.dropWhile (· != '/'), (List.takeWhile_append_dropWhile).symm, ⟨?_, ?_⟩, ?_⟩
  · obtain ⟨x, src, rfl⟩ := List.exists_cons_of_ne_nil hne
    rw [List.takeWhile_cons_of_pos (by simpa using hhead)]
    exact List.cons_ne_nil x _
  · intro h
    simpa using List.mem_takeWhile_imp h
  · have hd := List.head?_dropWhile_not (· != '/') src
    cases h : src.dropWhile (· != '/') with
    | nil => exact .inl rfl
    | cons x r =>
      rw [h] at hd
      exact .inr (by simpa using hd)

theorem text_done_le (done : List Text) (p : Text) (q : Prop) [Decidable q] :
    (Walk.mk (if q then done.dropLast else done) []).text.length ≤ (Walk.mk done p).text.length := by
  rcases List.eq_nil_or_concat' done with rfl | ⟨done, c, rfl⟩
  · split <;> simp [Walk.text]
  · split <;> simp [Walk.text]

theorem names_slash (src : Text) : Wrapper.names ('/' :: src) = Wrapper.names src := by
  have h := @splitOn_cons '/' [] (by simp) src
  rw [List.nil_append] at h
  rw [Wrapper.names, h]
  rfl

theorem names_skip (src : Text) : Wrapper.names (skip src) = Wrapper.names src := by
  induction src with
  | nil => rfl
  | cons x src ih =>
    by_cases hx : x = '/'
    · subst hx
      rw [names_slash, ← ih]
      rfl
    · rw [skip, List.dropWhile_cons_of_neg (by simpa using hx)]

/-- The name in front. -/
theorem names_append (hc : Clean c) (hsrc : atEnd src) :
    Wrapper.names (c ++ src) = (if c = ['.'] then [] else [c]) ++ Wrapper.names (skip src) := by
  have hsplit : Wrapper.names (c ++ src) = [c].filter (fun c => c ≠ [] ∧ c ≠ ['.']) ++ Wrapper.names (skip src) := by
    rw [names_skip]
    cases src with
    | nil =>
      rw [List.append_nil, Wrapper.names, splitOn_single hc.2]
      simp [Wrapper.names]
    | cons x src =>
      obtain rfl : x = '/' := by simpa [atEnd] using hsrc
      rw [names_slash, Wrapper.names, splitOn_cons hc.2]
      exact List.filter_append [c] _
  rw [hsplit]
  by_cases h : c = ['.'] <;> simp [h, hc.1]

/-- The names of a path, one after another. -/
def Walk.run (w : Walk) (cs : List Text) : Walk := cs.foldl Walk.step w

theorem Walk.run_append (w : Walk) (hc : Clean c) (hsrc : atEnd src) :
    w.run (Wrapper.names (c ++ src)) = (w.step c).run (Wrapper.names (skip src)) := by
  rw [names_append hc hsrc]
  by_cases h : c = ['.']
  · subst h
    rw [if_pos rfl, Walk.step_dot, List.nil_append]
  · rw [if_neg h]
    rfl

/-- **The loop** goes from name to name. -/
theorem walkUpTo_names {n : Nat} (hw : w.Ok) (hhead : src.head? ≠ some '/') (hn : src.length ≤ n)
    (hmax : w.text.length + n ≤ pathMax) :
    (trim (walkUpTo n w.text.reverse src)).reverse = '/' :: ['/'].intercalate (w.run (Wrapper.names src)).names := by
  induction n using Nat.strong_induction_on generalizing w src with
  | _ n ih =>
    by_cases hnil : src = []
    · subst hnil
      have hend : walkUpTo n w.text.reverse [] = w.text.reverse := by cases n <;> rfl
      rw [hend]
      exact trim_text hw
    obtain ⟨c, r, rfl, hc, hr⟩ := exists_name hhead hnil
    have hok := Walk.step_ok hw hc
    have hskip := skip_length r
    have hlen : w.text.reverse.length = w.text.length := List.length_reverse
    rw [List.length_append] at hn
    rw [Walk.run_append w hc hr]
    obtain ⟨u, rfl⟩ | ⟨u, rfl, hu⟩ | hdot := name_cases c
    · have hslash : '/' ∉ u := fun h => hc.2 (List.mem_append_left _ h)
      have hshort : _ ≤ w.text.length := text_done_le w.done w.part (w.part ++ u = [])
      rw [List.length_append] at hn
      simp only [List.length_cons, List.length_nil] at hn
      obtain ⟨k, rfl⟩ : ∃ k, n = k + 1 + u.length := ⟨n - 1 - u.length, by omega⟩
      rw [walkUpTo_name_up hslash (by omega) hr, ← text_part, backUp_text (by simp [hw.part, hslash]) hw.done,
        ← w.step_up u]
      rw [← w.step_up u] at hshort
      exact ih k (by omega) hok (skip_head r) (by omega) (by omega)
    · have hslash : '/' ∉ u := fun h => hc.2 (List.mem_append_left _ h)
      have hlong : (w.step (u ++ ['.'])).text.length = w.text.length + u.length := by
        rw [w.step_one hu]
        exact length_text_part w.done w.part u
      rw [List.length_append, List.length_singleton] at hn
      obtain ⟨k, rfl⟩ : ∃ k, n = k + 1 + u.length := ⟨n - 1 - u.length, by omega⟩
      rw [walkUpTo_name_dot hslash hu (by omega) hr, ← text_part, ← w.step_one hu]
      exact ih k (by omega) hok (skip_head r) (by omega) (by omega)
    · have hpos := List.length_pos_iff.2 hc.1
      have hlong : (w.step c).text.length = w.text.length + c.length + 1 := by
        rw [w.step_name hdot, length_text_concat]
        exact congrArg (· + 1) (length_text_part w.done w.part c)
      obtain ⟨k, rfl⟩ : ∃ k, n = k + c.length := ⟨n - c.length, by omega⟩
      rw [walkUpTo_name hc.2 hdot (by omega) hr, ← text_part]
      cases r with
      | nil =>
        have hend : walkUpTo k (Walk.mk w.done (w.part ++ c)).text.reverse [] =
            (Walk.mk w.done (w.part ++ c)).text.reverse := by cases k <;> rfl
        have hok' : (Walk.mk w.done (w.part ++ c)).Ok := ⟨hw.done, by simp [hw.part, hc.2]⟩
        rw [hend, trim_text hok', w.step_name hdot]
        simp [Walk.names, Walk.run, Wrapper.names, skip, hc.1]
      | cons x r =>
        obtain rfl : x = '/' := by simpa [atEnd] using hr
        rw [List.length_cons] at hn
        obtain ⟨k, rfl⟩ : ∃ j, k = j + 1 := ⟨k - 1, by omega⟩
        have hone : (Walk.mk w.done (w.part ++ c)).text.reverse.length = w.text.length + c.length := by
          rw [List.length_reverse]
          exact length_text_part w.done w.part c
        rw [walkUpTo_slash (by omega), ← text_concat, ← w.step_name hdot]
        exact ih k (by omega) hok (skip_head _) ((skip_length r).trans (by omega)) (by omega)

/-- A path that starts with a slash, and is not too long. -/
theorem sortOfRealpath_names (cwd : Text) {path : Text} (habs : path.head? = some '/') (hlen : path.length < pathMax) :
    sortOfRealpath cwd path = '/' :: ['/'].intercalate ((Walk.mk [] []).run (Wrapper.names path)).names := by
  cases path with
  | nil => simp at habs
  | cons x src =>
    obtain rfl : x = '/' := by simpa using habs
    rw [List.length_cons] at hlen
    have hok : (Walk.mk [] []).Ok := ⟨by simp, by simp⟩
    have hwalk := walkUpTo_names hok (skip_head src) (skip_length src) (by simp [Walk.text]; omega)
    rw [names_skip] at hwalk
    simp only [sortOfRealpath, habs, if_true, List.length_cons]
    rw [walkUpTo_slash (by simp [pathMax]), names_slash]
    exact hwalk

end

/-! ## The walk and the normal form -/

/-- What the loop makes of it. -/
abbrev walked (cs : List Text) : Walk := (Walk.mk [] []).run cs

section
variable {cs pre post : List Text} {c x : Text}

theorem components_names (path : Text) : components path = normal (Wrapper.names path) := by
  have hfold : ∀ (cs stack : List Text),
      cs.foldl push stack = (cs.filter fun c => c ≠ [] ∧ c ≠ ['.']).foldl push stack := by
    intro cs
    induction cs with
    | nil => exact fun _ => rfl
    | cons c cs ih =>
      intro stack
      by_cases hc : c ≠ [] ∧ c ≠ ['.']
      · rw [List.filter_cons_of_pos (by simpa using hc), List.foldl_cons, List.foldl_cons, ih]
      · have hpush : push stack c = stack := if_pos (by tauto)
        rw [List.filter_cons_of_neg (by simpa using hc), List.foldl_cons, hpush, ih]
  exact hfold _ []

theorem names_spec {path : Text} (hc : c ∈ Wrapper.names path) : Clean c ∧ c ≠ ['.'] := by
  obtain ⟨hc, hne⟩ := List.mem_filter.1 hc
  have hne : c ≠ [] ∧ c ≠ ['.'] := by simpa using hne
  exact ⟨⟨hne.1, splitOn_parts '/' path c hc⟩, hne.2⟩

theorem normal_up (cs : List Text) : normal (cs ++ [['.', '.']]) = (normal cs).dropLast := by
  simp [List.foldl_append, push]

theorem normal_name (hne : x ≠ []) (hdot : x ≠ ['.']) (hup : x ≠ ['.', '.']) (cs : List Text) :
    normal (cs ++ [x]) = normal cs ++ [x] := by
  simp [List.foldl_append, push, hne, hdot, hup]

theorem walked_concat (cs : List Text) (x : Text) : walked (cs ++ [x]) = (walked cs).step x := by
  simp [Walk.run, List.foldl_append]

theorem Mended.concat (h : Mended pre c post) (x : Text) : Mended pre c (post ++ [x]) := by
  rcases h with ⟨u, hu, hroot⟩ | ⟨hc, hhead⟩
  · exact .inl ⟨u, hu.trans (List.prefix_append post [x]), hroot⟩
  · refine .inr ⟨hc, ?_⟩
    cases post with
    | nil => simp at hhead
    | cons y post => exact hhead

theorem settled_concat :
    Settled (cs ++ [x]) ↔
      (∀ pre c post, cs = pre ++ c :: post → Dotted c → Mended pre c (post ++ [x])) ∧ (Dotted x → Mended cs x []) := by
  constructor
  · intro h
    refine ⟨fun pre c post hcs => h pre c (post ++ [x]) (by simp [hcs]), h cs x [] rfl⟩
  · rintro ⟨hcs, hx⟩ pre c post heq hc
    rcases List.eq_nil_or_concat' post with rfl | ⟨post, y, rfl⟩
    · obtain ⟨rfl, hxc⟩ := List.append_inj' heq rfl
      obtain rfl := List.singleton_inj.1 hxc
      exact hx hc
    · rw [← List.cons_append, ← List.append_assoc] at heq
      obtain ⟨rfl, hxy⟩ := List.append_inj' heq rfl
      obtain rfl := List.singleton_inj.1 hxy
      exact hcs pre c post rfl hc

theorem settled_concat_of_settled (h : Settled cs) (hx : Dotted x → Mended cs x []) : Settled (cs ++ [x]) :=
  settled_concat.2 ⟨fun pre c post hcs hc => (h pre c post hcs hc).concat x, hx⟩

/-- The name has taken the path away from its normal form for as long as the path is not at the root again. -/
structure Lost (cs : List Text) (pre : List Text) (c : Text) (post : List Text) : Prop where
  place : cs = pre ++ c :: post
  dotted : Dotted c
  away : ∀ u, u <+: post → normal (pre ++ c :: u) ≠ []
  next : ['.', '.'] <:+ c ∨ post ≠ [] ∧ post.head? ≠ some ['.', '.']

/-- Where the walk along a path agrees with its normal form: as far as it has come, or but for the dot at the end of its
last name; or names are missing. -/
inductive Along (cs : List Text) : Prop
  | settled (hwalk : walked cs = ⟨normal cs, []⟩) (h : Settled cs)
  | pending (pre : List Text) (u : Text) (hcs : cs = pre ++ [u ++ ['.']]) (hne : u ≠ []) (hu : ¬ ['.'] <:+ u)
      (hwalk : walked pre = ⟨normal pre, []⟩) (h : Settled pre)
  | lost (pre : List Text) (c : Text) (post : List Text) (hlost : Lost cs pre c post)
      (hlen : (walked cs).names.length < (normal cs).length)

theorem Walk.length_names (w : Walk) : w.names.length = w.done.length + if w.part = [] then 0 else 1 := by
  rw [Walk.names, List.length_append]
  split <;> rfl

theorem Walk.step_names_le (w : Walk) (x : Text) : (w.step x).names.length ≤ w.done.length + 1 := by
  obtain ⟨u, rfl⟩ | ⟨u, rfl, hu⟩ | hx := name_cases x
  · rw [w.step_up, Walk.length_names]
    split <;> simp
    omega
  · rw [w.step_one hu, Walk.length_names]
    split <;> simp
  · rw [w.step_name hx, Walk.length_names]
    simp

theorem Walk.step_up_names (w : Walk) : (w.step ['.', '.']).names.length = w.names.length - 1 := by
  have hstep := w.step_up []
  rw [List.nil_append, List.append_nil] at hstep
  rw [hstep, Walk.length_names, Walk.length_names]
  split <;> simp

theorem not_dotted_up : ¬ Dotted ['.', '.'] := fun h => h.2.2 rfl

/-- From a part of the path that agrees. -/
theorem along_of_settled (hwalk : walked cs = ⟨normal cs, []⟩) (h : Settled cs) (hne : x ≠ []) (hdot : x ≠ ['.']) :
    Along (cs ++ [x]) := by
  by_cases hup : x = ['.', '.']
  · subst hup
    refine .settled ?_ (settled_concat_of_settled h fun hd => absurd hd not_dotted_up)
    have hstep := (walked cs).step_up []
    rw [List.nil_append] at hstep
    rw [walked_concat, hstep, normal_up, hwalk]
    rfl
  have hnormal := normal_name hne hdot hup cs
  obtain ⟨u, rfl⟩ | ⟨u, rfl, hu⟩ | hx := name_cases x
  · have hu : u ≠ [] := fun h => hup (by rw [h]; rfl)
    refine .lost cs (u ++ ['.', '.']) [] ⟨rfl, ⟨⟨u ++ ['.'], by simp⟩, hdot, hup⟩, ?_, .inl (List.suffix_append u _)⟩ ?_
    · intro v hv
      rw [List.prefix_nil.1 hv, hnormal]
      simp
    · rw [walked_concat, Walk.step_up, hwalk, hnormal, Walk.length_names]
      simp [hu]
  · exact .pending cs u rfl (fun h => hdot (by rw [h]; rfl)) hu hwalk h
  · refine .settled ?_ (settled_concat_of_settled h fun hd => absurd hd.1 hx)
    rw [walked_concat, Walk.step_name _ hx, hwalk, hnormal]
    rfl

/-- From a name with one dot. -/
theorem along_of_pending {u : Text} (hcs : cs = pre ++ [u ++ ['.']]) (hu : u ≠ []) (hone : ¬ ['.'] <:+ u)
    (hwalk : walked pre = ⟨normal pre, []⟩) (h : Settled pre) (hne : x ≠ []) (hdot : x ≠ ['.']) :
    Along (cs ++ [x]) := by
  subst hcs
  have hnot : ¬ ['.', '.'] <:+ u ++ ['.'] := by
    rintro ⟨t, ht⟩
    have heq : t ++ ['.'] ++ ['.'] = u ++ ['.'] := by rw [List.append_assoc, ← ht]; rfl
    exact hone ⟨t, List.append_cancel_right heq⟩
  have hup : u ++ ['.'] ≠ ['.', '.'] := fun h => hnot (h ▸ List.suffix_rfl)
  have hsingle : u ++ ['.'] ≠ ['.'] := fun h => hu (by simpa using h)
  have hwalk' : walked (pre ++ [u ++ ['.']]) = ⟨normal pre, u⟩ := by
    rw [walked_concat, Walk.step_one _ hone, hwalk]
    rfl
  have hnormal := normal_name (by simp) hsingle hup pre
  by_cases hx : x = ['.', '.']
  · subst hx
    refine .settled ?_ (settled_concat.2 ⟨?_, fun hd => absurd hd not_dotted_up⟩)
    · have hstep := (walked (pre ++ [u ++ ['.']])).step_up []
      rw [List.nil_append] at hstep
      rw [walked_concat, hstep, normal_up, hnormal, hwalk', List.dropLast_concat]
      simp [hu]
    · intro pre' c post heq hc
      rcases List.eq_nil_or_concat' post with rfl | ⟨post, y, rfl⟩
      · obtain ⟨-, hcu⟩ := List.append_inj' heq rfl
        obtain rfl := List.singleton_inj.1 hcu
        exact .inr ⟨hnot, rfl⟩
      · rw [← List.cons_append, ← List.append_assoc] at heq
        obtain ⟨rfl, -⟩ := List.append_inj' heq rfl
        exact ((h pre' c post rfl hc).concat y).concat _
  · have hnormal' := normal_name hne hdot hx (pre ++ [u ++ ['.']])
    refine .lost pre (u ++ ['.']) [x]
      ⟨by simp, ⟨List.suffix_append u _, hsingle, hup⟩, ?_, .inr ⟨by simp, by simpa using hx⟩⟩ ?_
    · intro v hv
      rcases List.prefix_cons_iff.1 hv with rfl | ⟨t, rfl, ht⟩
      · rw [hnormal]
        simp
      · rw [List.prefix_nil.1 ht]
        have hplace : pre ++ (u ++ ['.']) :: [x] = pre ++ [u ++ ['.']] ++ [x] := by simp
        rw [hplace, hnormal']
        simp
    · have hle := (walked (pre ++ [u ++ ['.']])).step_names_le x
      rw [hwalk'] at hle
      change _ ≤ (normal pre).length + 1 at hle
      rw [walked_concat, hwalk', hnormal', hnormal]
      simp only [List.length_append, List.length_singleton]
      omega

/-- From a part of the path with a name that is lost. -/
theorem along_of_lost (h : Lost cs pre c post) (hlen : (walked cs).names.length < (normal cs).length) (hne : x ≠ [])
    (hdot : x ≠ ['.']) : Along (cs ++ [x]) := by
  by_cases hroot : normal (cs ++ [x]) = []
  · have hup : x = ['.', '.'] := by
      by_contra hup
      rw [normal_name hne hdot hup] at hroot
      simp at hroot
    subst hup
    have hzero : (walked (cs ++ [['.', '.']])).names.length = 0 := by
      have hle := congrArg List.length hroot
      rw [normal_up, List.length_dropLast, List.length_nil] at hle
      rw [walked_concat, Walk.step_up_names]
      omega
    refine .settled ?_ fun pre' c' post' heq _ => .inl ⟨post', List.prefix_rfl, ?_⟩
    · rw [hroot]
      rw [Walk.length_names] at hzero
      generalize walked (cs ++ [['.', '.']]) = w at hzero
      obtain ⟨done, part⟩ := w
      have hpart : part = [] := by
        by_contra hp
        simp [hp] at hzero
      have hdone : done = [] := by simpa [hpart] using hzero
      rw [hpart, hdone]
    · rw [← heq]
      exact hroot
  · refine .lost pre c (post ++ [x]) ⟨by simp [h.place], h.dotted, ?_, ?_⟩ ?_
    · intro u hu
      rcases List.prefix_concat_iff.1 hu with rfl | hu
      · have hplace : pre ++ c :: (post ++ [x]) = cs ++ [x] := by simp [h.place]
        rwa [hplace]
      · exact h.away u hu
    · refine h.next.imp_right fun hnext => ⟨by simp, ?_⟩
      obtain ⟨y, post, rfl⟩ := List.exists_cons_of_ne_nil hnext.1
      exact hnext.2
    · rw [walked_concat]
      by_cases hup : x = ['.', '.']
      · subst hup
        have hpos : 0 < (normal (cs ++ [['.', '.']])).length := List.length_pos_iff.2 hroot
        rw [normal_up, List.length_dropLast] at hpos ⊢
        rw [Walk.step_up_names]
        omega
      · have hle := (walked cs).step_names_le x
        have hnames := (walked cs).length_names
        rw [normal_name hne hdot hup, List.length_append, List.length_singleton]
        omega

/-- **The walk along a path**, from name to name. -/
theorem along (h : ∀ c ∈ cs, c ≠ [] ∧ c ≠ ['.']) : Along cs := by
  induction cs using List.reverseRecOn with
  | nil => exact .settled rfl fun pre c post heq => by simp at heq
  | append_singleton cs x ih =>
    obtain ⟨hne, hdot⟩ := h x (by simp)
    cases ih fun c hc => h c (List.mem_append_left _ hc) with
    | settled hwalk h => exact along_of_settled hwalk h hne hdot
    | pending pre u hcs hu hone hwalk h => exact along_of_pending hcs hu hone hwalk h hne hdot
    | lost pre c post hlost hlen => exact along_of_lost hlost hlen hne hdot

/-- **The loop comes to the normal form** of the names where each dot at the end of one is made good. -/
theorem walked_eq_normal_iff (h : ∀ c ∈ cs, c ≠ [] ∧ c ≠ ['.']) : (walked cs).names = normal cs ↔ Settled cs := by
  cases along h with
  | settled hwalk hs =>
    refine iff_of_true ?_ hs
    rw [hwalk]
    simp [Walk.names]
  | pending pre u hcs hu hone hwalk hs =>
    subst hcs
    have hup : u ++ ['.'] ≠ ['.', '.'] := fun h => hone (by
      obtain rfl : u = ['.'] := List.append_cancel_right h
      exact List.suffix_rfl)
    have hsingle : u ++ ['.'] ≠ ['.'] := fun h => hu (by simpa using h)
    have hnormal := normal_name (by simp) hsingle hup pre
    refine iff_of_false (fun heq => ?_) fun hs => ?_
    · rw [walked_concat, Walk.step_one _ hone, hwalk, hnormal, Walk.names] at heq
      simp [hu] at heq
    · rcases hs pre (u ++ ['.']) [] rfl ⟨List.suffix_append u _, hsingle, hup⟩ with ⟨v, hv, hroot⟩ | ⟨-, hhead⟩
      · rw [List.prefix_nil.1 hv, hnormal] at hroot
        simp at hroot
      · simp at hhead
  | lost pre c post hlost hlen =>
    refine iff_of_false (fun heq => ?_) fun hs => ?_
    · rw [heq] at hlen
      exact lt_irrefl _ hlen
    · rcases hs pre c post hlost.place hlost.dotted with ⟨u, hu, hroot⟩ | ⟨hc, hhead⟩
      · exact hlost.away u hu hroot
      · rcases hlost.next with hnext | ⟨-, hnext⟩
        · exact hc hnext
        · exact hnext hhead

theorem intercalate_slash_inj {ds : List Text} (hcs : ∀ c ∈ cs, Clean c) (hds : ∀ c ∈ ds, Clean c)
    (h : ['/'].intercalate cs = ['/'].intercalate ds) : cs = ds := by
  have hnil {cs : List Text} (hcs : ∀ c ∈ cs, Clean c) (h : ['/'].intercalate cs = []) : cs = [] := by
    rcases List.eq_nil_or_concat' cs with rfl | ⟨cs, c, rfl⟩
    · rfl
    · rw [← flatMap_slash] at h
      exact absurd (List.append_eq_nil_iff.1 h).2 (hcs c (by simp)).1
  by_cases hc : cs = []
  · subst hc
    exact (hnil hds h.symm).symm
  by_cases hd : ds = []
  · subst hd
    exact hnil hcs h
  rw [← List.splitOn_intercalate '/' (fun c hc => (hcs c hc).2) hc, h,
    List.splitOn_intercalate '/' (fun c hc => (hds c hc).2) hd]

theorem Walk.run_ok {w : Walk} (hw : w.Ok) (hcs : ∀ c ∈ cs, Clean c) : (w.run cs).Ok := by
  induction cs generalizing w with
  | nil => exact hw
  | cons c cs ih =>
    obtain ⟨hc, hcs⟩ := List.forall_mem_cons.1 hcs
    exact ih (Walk.step_ok hw hc) hcs

theorem Walk.names_clean {w : Walk} (hw : w.Ok) : ∀ c ∈ w.names, Clean c := by
  intro c hc
  rcases List.mem_append.1 hc with hc | hc
  · exact hw.done c hc
  · split at hc
    · cases hc
    · obtain rfl := List.mem_singleton.1 hc
      exact ⟨‹_›, hw.part⟩

end

/-- **When the result is the normal form** of an absolute path: behind each name that ends with a dot the path is at the
root again, or `..` takes it away at once. -/
theorem realpath_iff (cwd path : Text) (habs : path.head? = some '/') (hlen : path.length < pathMax) :
    sortOfRealpath cwd path = normalize path ↔ Settled (Wrapper.names path) := by
  have hspec : ∀ c ∈ Wrapper.names path, Clean c ∧ c ≠ ['.'] := fun c => names_spec
  have hok : (walked (Wrapper.names path)).Ok :=
    Walk.run_ok ⟨by simp, by simp⟩ fun c hc => (hspec c hc).1
  rw [← walked_eq_normal_iff fun c hc => ⟨(hspec c hc).1.1, (hspec c hc).2⟩, sortOfRealpath_names cwd habs hlen,
    normalize, components_names, List.cons.injEq]
  refine ⟨fun h => ?_, fun h => ⟨rfl, congrArg _ h⟩⟩
  have hclean : ∀ c ∈ normal (Wrapper.names path), Clean c := by
    rw [← components_names]
    exact components_spec path
  exact intercalate_slash_inj (Walk.names_clean hok) hclean h.2

theorem settled_of_no_dots {cs : List Text} (h : ∀ c ∈ cs, ¬ Dotted c) : Settled cs :=
  fun pre c post hcs hc => absurd hc (h c (by simp [hcs]))

/-- No name ends with a dot. -/
theorem realpath_usr :
    sortOfRealpath [] "//usr/./lib/..x/../../bin/".toList = normalize "//usr/./lib/..x/../../bin/".toList :=
  (realpath_iff [] "//usr/./lib/..x/../../bin/".toList (by decide) (by decide)).2
    (settled_of_no_dots (by decide +kernel))

/-- A name that ends with a dot is joined with the next one, and one that ends with more takes itself away. -/
theorem realpath_joins :
    sortOfRealpath [] "/a./b".toList = "/ab".toList ∧ sortOfRealpath [] "/b/a../c".toList = "/b/c".toList ∧
      sortOfRealpath [] "/a./b".toList ≠ normalize "/a./b".toList := by
  decide +kernel

end T2Sde.Wrapper
