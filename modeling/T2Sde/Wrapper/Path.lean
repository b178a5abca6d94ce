import T2Sde.Lib.Glob
import T2Sde.Lib.Cut
/-!
# The wrapper directory in `PATH`

`cmd_wrapper.c` copies the components of `PATH` that are not its directory. `install_wrapper.sh` takes its directory out
with three substitutions: once between two colons, once at the front, once at the end. It stays when it stands between
two others more than once, or when there is nothing else. The one leaves out empty components, the other keeps them.

| here | there |
| --- | --- |
| `pathTokens`, `stripLoop` | the loop over the tokens (`misc/tools-source/cmd_wrapper.c`) :466-473 |
| `cmdPath`     | :455-474; none if the wrapper ends there |
| `installPath` | `misc/tools-source/install_wrapper.sh` :8-10 |

* `cmdPath_stripped` — the one strips its directory, always.
* `installPath_eq` — the three substitutions, on the components.
* `path_stripped_iff` — **when the other one does**.
-/
namespace T2Sde.Wrapper
open Shell

/-! ## The two wrappers -/

/-- The tokens of `strtok`. -/
def pathTokens (path : Text) : List Text := (path.splitOn ':').filter (· ≠ [])

/-- `optbuf` behind the loop. -/
def stripLoop (wrdir : Text) : List Text → Text → Text
  | [], optbuf => optbuf
  | delim :: ts, optbuf =>
    if delim ≠ wrdir then stripLoop wrdir ts ((if optbuf ≠ [] then optbuf ++ [':'] else optbuf) ++ delim)
    else stripLoop wrdir ts optbuf

/-- `PATH` for the new command. -/
def cmdPath (wrdir path : Text) : Option Text :=
  if path ≠ [] ∧ wrdir ≠ [] then some (stripLoop wrdir (pathTokens path) []) else none

def installPath (mypath path : Text) : Text :=
  let path := replaceOnce (':' :: mypath ++ [':']) [':'] path
  let path := stripPrefix (mypath ++ [':']) path
  stripSuffix (':' :: mypath) path

/-! ## The property -/

def dirs (path : Text) : List Text := path.splitOn ':'

/-- The directory is gone, and the other components are there in their order. -/
def Stripped (d path path' : Text) : Prop :=
  d ∉ dirs path' ∧
    (dirs path').filter (· ≠ []) = (dirs path).filter fun c => c ≠ [] ∧ c ≠ d

/-- The directory stands between two others once at most, and is not alone. -/
def StandsOnce (d path : Text) : Prop :=
  (dirs path).tail.dropLast.count d ≤ 1 ∧ ∃ c ∈ dirs path, c ≠ d

instance (d path path' : Text) : Decidable (Stripped d path path') := inferInstanceAs (Decidable (_ ∧ _))

instance (d path : Text) : Decidable (StandsOnce d path) := inferInstanceAs (Decidable (_ ∧ _))

/-! ## Components -/

section
variable {d : Text}

theorem mem_dirs {path c : Text} (h : c ∈ dirs path) : ':' ∉ c := splitOn_parts ':' path c h

theorem dirs_ne_nil (path : Text) : dirs path ≠ [] := List.splitOn_ne_nil ':' path

/-- The components with a colon between two. -/
abbrev joined (cs : List Text) : Text := [':'].intercalate cs

theorem joined_dirs (path : Text) : joined (dirs path) = path := List.intercalate_splitOn ':'

theorem dirs_joined {cs : List Text} (hcs : ∀ c ∈ cs, ':' ∉ c) (hne : cs ≠ []) : dirs (joined cs) = cs :=
  List.splitOn_intercalate ':' hcs hne

theorem joined_cons (c : Text) {cs : List Text} (hne : cs ≠ []) : joined (c :: cs) = c ++ ':' :: joined cs := by
  rw [joined, List.intercalate_cons_of_ne_nil hne]
  simp

theorem joined_singleton (c : Text) : joined [c] = c := by simp [joined]

theorem joined_concat {cs : List Text} (hne : cs ≠ []) (c : Text) : joined (cs ++ [c]) = joined cs ++ ':' :: c := by
  induction cs with
  | nil => exact absurd rfl hne
  | cons b cs ih =>
    by_cases hcs : cs = []
    · subst hcs
      rw [List.singleton_append, joined_cons b (List.cons_ne_nil c []), joined_singleton, joined_singleton]
    · rw [List.cons_append, joined_cons b (by simp), ih hcs, joined_cons b hcs, List.append_assoc, List.cons_append]

theorem joined_eq_nil {cs : List Text} (hcs : ∀ c ∈ cs, c ≠ []) : joined cs = [] ↔ cs = [] := by
  refine ⟨fun h => ?_, fun h => h ▸ rfl⟩
  by_contra hne
  obtain ⟨c, cs, rfl⟩ := List.exists_cons_of_ne_nil hne
  apply (List.forall_mem_cons.1 hcs).1
  by_cases hnil : cs = []
  · rwa [hnil, joined_singleton] at h
  · rw [joined_cons c hnil] at h
    exact (List.append_eq_nil_iff.1 h).1

/-! ## The loop over the tokens -/

/-- What is copied, behind what was copied before. -/
theorem stripLoop_eq (wrdir : Text) {ts done : List Text} (hts : ∀ t ∈ ts, t ≠ []) (hdone : ∀ t ∈ done, t ≠ []) :
    stripLoop wrdir ts (joined done) = joined (done ++ ts.filter (· ≠ wrdir)) := by
  induction ts generalizing done with
  | nil => rw [stripLoop, List.filter_nil, List.append_nil]
  | cons t ts ih =>
    obtain ⟨ht, hts⟩ := List.forall_mem_cons.1 hts
    rw [stripLoop]
    by_cases h : t = wrdir
    · rw [if_neg (not_not.2 h), ih hts hdone, List.filter_cons_of_neg (by simpa using h)]
    · have hjoin : (if joined done ≠ [] then joined done ++ [':'] else joined done) ++ t = joined (done ++ [t]) := by
        by_cases hd : done = []
        · subst hd
          rw [List.nil_append, joined_singleton]
          rfl
        · rw [if_pos (mt (joined_eq_nil hdone).1 hd), joined_concat hd, List.append_assoc, List.singleton_append]
      have hdone' : ∀ u ∈ done ++ [t], u ≠ [] := by
        simpa [or_imp, forall_and] using ⟨hdone, ht⟩
      rw [if_pos h, hjoin, ih hts hdone', List.filter_cons_of_pos (by simpa using h), List.append_assoc,
        List.singleton_append]

theorem cmdPath_eq {path : Text} (hpath : path ≠ []) (hd : d ≠ []) :
    cmdPath d path = some (joined ((pathTokens path).filter (· ≠ d))) := by
  have hts : ∀ t ∈ pathTokens path, t ≠ [] := fun t ht => by simpa using (List.mem_filter.1 ht).2
  rw [cmdPath, if_pos ⟨hpath, hd⟩]
  exact congrArg some (@stripLoop_eq d (pathTokens path) [] hts (by simp))

/-- **`cmd_wrapper.c` strips its directory** whenever it goes on to the command. -/
theorem cmdPath_stripped {path path' : Text} (h : cmdPath d path = some path') : Stripped d path path' := by
  have hne : path ≠ [] ∧ d ≠ [] := by
    by_contra hn
    rw [cmdPath, if_neg hn] at h
    cases h
  rw [cmdPath_eq hne.1 hne.2] at h
  obtain rfl := Option.some.inj h
  have hfilter : (pathTokens path).filter (· ≠ d) = (dirs path).filter fun c => c ≠ [] ∧ c ≠ d := by
    rw [pathTokens, List.filter_filter, dirs]
    exact List.filter_congr fun c _ => by simp [and_comm]
  rw [Stripped, hfilter]
  by_cases hnil : (dirs path).filter (fun c => c ≠ [] ∧ c ≠ d) = []
  · rw [hnil]
    exact ⟨by simpa [dirs] using hne.2, rfl⟩
  · have hmem : ∀ c ∈ (dirs path).filter (fun c => c ≠ [] ∧ c ≠ d), ':' ∉ c ∧ c ≠ [] ∧ c ≠ d := by
      intro c hc
      obtain ⟨hc, hcd⟩ := List.mem_filter.1 hc
      exact ⟨mem_dirs hc, by simpa using hcd⟩
    rw [dirs_joined (fun c hc => (hmem c hc).1) hnil]
    refine ⟨fun hd => (hmem d hd).2.2 rfl, List.filter_eq_self.2 fun c hc => ?_⟩
    simpa using (hmem c hc).2.1

end

/-! ## The three substitutions -/

/-- The first one of these that is not the last is left out. -/
def dropBetween (d : Text) : List Text → List Text
  | c :: e :: cs => if c = d then e :: cs else c :: dropBetween d (e :: cs)
  | cs => cs

/-- `${PATH/:d:/:}` -/
def dropMiddle (d : Text) : List Text → List Text
  | [] => []
  | c :: cs => c :: dropBetween d cs

/-- `${PATH#d:}` -/
def dropFirst (d : Text) : List Text → List Text
  | c :: e :: cs => if c = d then e :: cs else c :: e :: cs
  | cs => cs

/-- `${PATH%:d}` -/
def dropLastOne (d : Text) (cs : List Text) : List Text :=
  if cs.getLast? = some d ∧ 1 < cs.length then cs.dropLast else cs

section
variable {d : Text}

theorem dropBetween_ne_nil {cs : List Text} (h : cs ≠ []) : dropBetween d cs ≠ [] := by
  rcases cs with _ | ⟨c, _ | ⟨e, cs⟩⟩
  · exact h
  · exact h
  · rw [dropBetween]
    split <;> simp

theorem dropMiddle_ne_nil {cs : List Text} (h : cs ≠ []) : dropMiddle d cs ≠ [] := by
  obtain ⟨c, cs, rfl⟩ := List.exists_cons_of_ne_nil h
  exact List.cons_ne_nil c _

theorem dropFirst_ne_nil {cs : List Text} (h : cs ≠ []) : dropFirst d cs ≠ [] := by
  rcases cs with _ | ⟨c, _ | ⟨e, cs⟩⟩
  · exact h
  · exact h
  · rw [dropFirst]
    split <;> simp

theorem dropLastOne_ne_nil {cs : List Text} (h : cs ≠ []) : dropLastOne d cs ≠ [] := by
  rw [dropLastOne]
  by_cases hlast : cs.getLast? = some d ∧ 1 < cs.length
  · rw [if_pos hlast, ← List.length_pos_iff, List.length_dropLast]
    omega
  · rwa [if_neg hlast]

theorem dropBetween_sublist (cs : List Text) : (dropBetween d cs).Sublist cs := by
  induction cs with
  | nil => exact List.Sublist.refl []
  | cons c cs ih =>
    cases cs with
    | nil => exact List.Sublist.refl [c]
    | cons e cs =>
      rw [dropBetween]
      split
      · exact List.sublist_cons_self c _
      · exact ih.cons_cons c

theorem dropMiddle_sublist (cs : List Text) : (dropMiddle d cs).Sublist cs := by
  cases cs with
  | nil => exact List.Sublist.refl []
  | cons c cs => exact (dropBetween_sublist cs).cons_cons c

theorem dropFirst_sublist (cs : List Text) : (dropFirst d cs).Sublist cs := by
  rcases cs with _ | ⟨c, _ | ⟨e, cs⟩⟩
  · exact List.Sublist.refl []
  · exact List.Sublist.refl [c]
  · rw [dropFirst]
    split
    · exact List.sublist_cons_self c _
    · exact List.Sublist.refl _

theorem dropLastOne_sublist (cs : List Text) : (dropLastOne d cs).Sublist cs := by
  rw [dropLastOne]
  split
  · exact List.dropLast_sublist cs
  · exact List.Sublist.refl cs

theorem dropBetween_concat (m : List Text) (z : Text) : dropBetween d (m ++ [z]) = m.erase d ++ [z] := by
  induction m with
  | nil => rfl
  | cons c m ih =>
    obtain ⟨e, cs, he⟩ := List.exists_cons_of_ne_nil (List.append_ne_nil_of_right_ne_nil m (List.cons_ne_nil z []))
    rw [List.cons_append, he, dropBetween, ← he]
    by_cases h : c = d
    · rw [if_pos h, h, List.erase_cons_head]
    · rw [if_neg h, ih, List.erase_cons_tail (by simpa using h), List.cons_append]

theorem dropFirst_cons {a : Text} {cs : List Text} (hcs : cs ≠ []) :
    dropFirst d (a :: cs) = (if a = d then [] else [a]) ++ cs := by
  obtain ⟨e, cs, rfl⟩ := List.exists_cons_of_ne_nil hcs
  rw [dropFirst]
  split <;> rfl

theorem dropLastOne_concat (n : List Text) (z : Text) :
    dropLastOne d (n ++ [z]) = n ++ if z = d ∧ n ≠ [] then [] else [z] := by
  have hcond : ((n ++ [z]).getLast? = some d ∧ 1 < (n ++ [z]).length) ↔ z = d ∧ n ≠ [] := by
    rw [List.getLast?_concat, Option.some_inj, List.length_append, List.length_singleton, ← List.length_pos_iff]
    exact and_congr_right fun _ => by omega
  rw [dropLastOne, List.dropLast_concat]
  by_cases h : z = d ∧ n ≠ []
  · rw [if_pos (hcond.2 h), if_pos h, List.append_nil]
  · rw [if_neg (mt hcond.1 h), if_neg h]

variable (hd : ':' ∉ d)
include hd

/-- The directory and a colon are in front where it is a component before others. -/
theorem front_iff {cs : List Text} (hcs : ∀ c ∈ cs, ':' ∉ c) (hne : cs ≠ []) :
    d ++ [':'] <+: joined cs ↔ ∃ rest, rest ≠ [] ∧ cs = d :: rest := by
  constructor
  · rintro ⟨t, ht⟩
    refine ⟨dirs t, dirs_ne_nil t, ?_⟩
    have hjoin : joined (d :: dirs t) = joined cs := by
      rw [joined_cons d (dirs_ne_nil t), joined_dirs, ← ht, List.append_assoc, List.singleton_append]
    have hmem : ∀ c ∈ d :: dirs t, ':' ∉ c := List.forall_mem_cons.2 ⟨hd, fun c hc => mem_dirs hc⟩
    rw [← dirs_joined hcs hne, ← hjoin, dirs_joined hmem (List.cons_ne_nil d _)]
  · rintro ⟨rest, hrest, rfl⟩
    exact ⟨joined rest, by rw [joined_cons d hrest, List.append_assoc, List.singleton_append]⟩

theorem back_iff {cs : List Text} (hcs : ∀ c ∈ cs, ':' ∉ c) (hne : cs ≠ []) :
    ':' :: d <:+ joined cs ↔ ∃ ini, ini ≠ [] ∧ cs = ini ++ [d] := by
  constructor
  · rintro ⟨t, ht⟩
    refine ⟨dirs t, dirs_ne_nil t, ?_⟩
    have hjoin : joined (dirs t ++ [d]) = joined cs := by
      rw [joined_concat (dirs_ne_nil t), joined_dirs, ← ht]
    have hmem : ∀ c ∈ dirs t ++ [d], ':' ∉ c := by
      simpa [or_imp, forall_and] using ⟨fun c hc => mem_dirs hc, hd⟩
    rw [← dirs_joined hcs hne, ← hjoin, dirs_joined hmem (by simp)]
  · rintro ⟨ini, hini, rfl⟩
    exact ⟨joined ini, (joined_concat hini d).symm⟩

variable (hp : Verbatim d)
include hp

omit hd in
theorem verbatim_between : Verbatim (':' :: d ++ [':']) := by
  rw [verbatim_append, verbatim_cons]
  exact ⟨⟨by decide, hp⟩, by simp [Verbatim, verbatimChar]⟩

omit hd in
/-- Nothing is found before the next colon. -/
theorem replaceOnce_component {c : Text} (hc : ':' ∉ c) (s : Text) :
    replaceOnce (':' :: d ++ [':']) [':'] (c ++ s) = c ++ replaceOnce (':' :: d ++ [':']) [':'] s := by
  induction c with
  | nil => rfl
  | cons x c ih =>
    rw [List.mem_cons, not_or] at hc
    have hno : ¬ ':' :: d ++ [':'] <+: x :: (c ++ s) := fun h => hc.1 (List.cons_prefix_cons.1 h).1
    change replaceOnce _ _ (x :: (c ++ s)) = x :: (c ++ _)
    rw [replaceOnce_verbatim (verbatim_between hp), if_neg hno, ih hc.2]

omit hd in
theorem replaceOnce_alone {c : Text} (hc : ':' ∉ c) : replaceOnce (':' :: d ++ [':']) [':'] c = c := by
  have h := replaceOnce_component hp hc []
  rwa [List.append_nil, replaceOnce, List.append_nil] at h

theorem replaceOnce_colon {cs : List Text} (hcs : ∀ c ∈ cs, ':' ∉ c) (hne : cs ≠ []) :
    replaceOnce (':' :: d ++ [':']) [':'] (':' :: joined cs) = ':' :: joined (dropBetween d cs) := by
  induction cs with
  | nil => exact absurd rfl hne
  | cons c cs ih =>
    obtain ⟨hc, hcs'⟩ := List.forall_mem_cons.1 hcs
    have hfront : ':' :: d ++ [':'] <+: ':' :: joined (c :: cs) ↔ c = d ∧ cs ≠ [] := by
      rw [List.cons_append, List.cons_prefix_cons, front_iff hd hcs hne]
      constructor
      · rintro ⟨-, rest, hrest, heq⟩
        obtain ⟨rfl, rfl⟩ := List.cons.inj heq
        exact ⟨rfl, hrest⟩
      · rintro ⟨rfl, hcs⟩
        exact ⟨rfl, cs, hcs, rfl⟩
    rw [replaceOnce_verbatim (verbatim_between hp)]
    rcases cs with _ | ⟨e, cs⟩
    · rw [if_neg (fun h => (hfront.1 h).2 rfl), joined_singleton, replaceOnce_alone hp hc, dropBetween,
        joined_singleton]
      simp
    · by_cases h : c = d
      · subst h
        rw [if_pos (hfront.2 ⟨rfl, List.cons_ne_nil e cs⟩), dropBetween, if_pos rfl,
          joined_cons c (List.cons_ne_nil e cs)]
        simp
      · rw [if_neg (fun h' => h (hfront.1 h').1), joined_cons c (List.cons_ne_nil e cs), replaceOnce_component hp hc,
          ih hcs' (List.cons_ne_nil e cs), dropBetween, if_neg h,
          joined_cons c (dropBetween_ne_nil (List.cons_ne_nil e cs))]

theorem replaceOnce_path {cs : List Text} (hcs : ∀ c ∈ cs, ':' ∉ c) :
    replaceOnce (':' :: d ++ [':']) [':'] (joined cs) = joined (dropMiddle d cs) := by
  cases cs with
  | nil => rfl
  | cons c cs =>
    obtain ⟨hc, hcs⟩ := List.forall_mem_cons.1 hcs
    by_cases hne : cs = []
    · subst hne
      rw [joined_singleton, replaceOnce_alone hp hc, dropMiddle, dropBetween]
      · exact (joined_singleton c).symm
      · simp
    · rw [joined_cons c hne, replaceOnce_component hp hc, replaceOnce_colon hd hp hcs hne, dropMiddle,
        joined_cons c (dropBetween_ne_nil hne)]

theorem stripPrefix_path {cs : List Text} (hcs : ∀ c ∈ cs, ':' ∉ c) (hne : cs ≠ []) :
    stripPrefix (d ++ [':']) (joined cs) = joined (dropFirst d cs) := by
  have hw : Verbatim (d ++ [':']) := verbatim_append.2 ⟨hp, by simp [Verbatim, verbatimChar]⟩
  have hfront := front_iff hd hcs hne
  rw [stripPrefix_verbatim hw]
  rcases cs with _ | ⟨c, _ | ⟨e, cs⟩⟩
  · exact absurd rfl hne
  · have hno : ¬ d ++ [':'] <+: joined [c] := fun h => by simpa using hfront.1 h
    rw [if_neg hno]
    rfl
  · by_cases h : c = d
    · subst h
      rw [if_pos (hfront.2 ⟨e :: cs, List.cons_ne_nil e cs, rfl⟩), dropFirst, if_pos rfl,
        joined_cons c (List.cons_ne_nil e cs)]
      simp
    · have hno : ¬ d ++ [':'] <+: joined (c :: e :: cs) := fun h' => by simpa [h] using hfront.1 h'
      rw [if_neg hno, dropFirst, if_neg h]

theorem stripSuffix_path {cs : List Text} (hcs : ∀ c ∈ cs, ':' ∉ c) (hne : cs ≠ []) :
    stripSuffix (':' :: d) (joined cs) = joined (dropLastOne d cs) := by
  have hw : Verbatim (':' :: d) := verbatim_cons.2 ⟨by decide, hp⟩
  obtain ⟨n, z, rfl⟩ := (List.eq_nil_or_concat' cs).resolve_left hne
  have hback := back_iff hd hcs hne
  rw [dropLastOne_concat]
  by_cases h : z = d ∧ n ≠ []
  · obtain ⟨rfl, hn⟩ := h
    rw [if_pos ⟨rfl, hn⟩, List.append_nil, joined_concat hn, stripSuffix_append hw]
  · rw [if_neg h]
    apply stripSuffix_of_not hw
    intro h'
    obtain ⟨ini, hini, heq⟩ := hback.1 h'
    obtain ⟨rfl, hz⟩ := List.append_inj' heq rfl
    exact h ⟨List.singleton_inj.1 hz, hini⟩

end

/-- What is left of the components. -/
def stripped (d : Text) (cs : List Text) : List Text := dropLastOne d (dropFirst d (dropMiddle d cs))

section
variable {d : Text}

/-- The first, those between, the last: each loses at most one. -/
theorem stripped_ends (a : Text) (m : List Text) (z : Text) :
    stripped d (a :: (m ++ [z])) =
      (if a = d then [] else [a]) ++ m.erase d ++
        if z = d ∧ (if a = d then [] else [a]) ++ m.erase d ≠ [] then [] else [z] := by
  have hcons : m.erase d ++ [z] ≠ [] := by simp
  rw [stripped, dropMiddle, dropBetween_concat, dropFirst_cons hcons, ← List.append_assoc, dropLastOne_concat]

theorem stripped_singleton (c : Text) : stripped d [c] = [c] := by simp [stripped, dropMiddle, dropBetween, dropFirst,
  dropLastOne]

/-- A list of components is one of these two. -/
theorem ends_of_ne_nil {cs : List Text} (h : cs ≠ []) : (∃ c, cs = [c]) ∨ ∃ a m z, cs = a :: (m ++ [z]) := by
  rcases cs with _ | ⟨a, cs⟩
  · exact absurd rfl h
  rcases List.eq_nil_or_concat' cs with rfl | ⟨m, z, rfl⟩
  · exact .inl ⟨a, rfl⟩
  · exact .inr ⟨a, m, z, rfl⟩

theorem stripped_ne_nil {cs : List Text} (h : cs ≠ []) : stripped d cs ≠ [] :=
  dropLastOne_ne_nil (dropFirst_ne_nil (dropMiddle_ne_nil h))

theorem stripped_sublist (cs : List Text) : (stripped d cs).Sublist cs :=
  (dropLastOne_sublist _).trans ((dropFirst_sublist _).trans (dropMiddle_sublist cs))

theorem filter_erase_self (m : List Text) : (m.erase d).filter (· ≠ d) = m.filter (· ≠ d) := by
  rw [← List.erase_filter, List.erase_of_not_mem (by simp)]

/-- Only the directory is taken out. -/
theorem filter_stripped {cs : List Text} (h : cs ≠ []) : (stripped d cs).filter (· ≠ d) = cs.filter (· ≠ d) := by
  obtain ⟨c, rfl⟩ | ⟨a, m, z, rfl⟩ := ends_of_ne_nil h
  · rw [stripped_singleton]
  · have hfirst : (if a = d then [] else [a] : List Text).filter (· ≠ d) = [a].filter (· ≠ d) := by
      split <;> simp_all
    have hlast (p : Prop) [Decidable p] :
        (if z = d ∧ p then [] else [z] : List Text).filter (· ≠ d) = [z].filter (· ≠ d) := by
      split <;> simp_all
    rw [stripped_ends, List.filter_append, List.filter_append, filter_erase_self, hfirst, hlast, ← List.filter_append,
      ← List.filter_append, List.append_assoc, List.singleton_append]

theorem not_mem_stripped {cs : List Text} (h : cs ≠ []) :
    d ∉ stripped d cs ↔ cs.tail.dropLast.count d ≤ 1 ∧ ∃ c ∈ cs, c ≠ d := by
  obtain ⟨c, rfl⟩ | ⟨a, m, z, rfl⟩ := ends_of_ne_nil h
  · rw [stripped_singleton]
    simp [eq_comm]
  · have hcount : d ∉ m.erase d ↔ m.count d ≤ 1 := by
      rw [← List.count_eq_zero, List.count_erase_self]
      omega
    have hfront : d ∉ (if a = d then [] else [a] : List Text) := by
      by_cases ha : a = d
      · rw [if_pos ha]
        exact List.not_mem_nil
      · rw [if_neg ha, List.mem_singleton]
        exact Ne.symm ha
    rw [stripped_ends, List.tail_cons, List.dropLast_concat, ← hcount]
    generalize hn : (if a = d then [] else [a] : List Text) ++ m.erase d = n
    have hmem : d ∉ n ↔ d ∉ m.erase d := by
      rw [← hn, List.mem_append, not_or]
      exact and_iff_right hfront
    rw [List.mem_append, not_or, hmem]
    -- behind the middle one, only the last can still be the directory
    refine and_congr_right fun hm => ?_
    by_cases hz : z = d
    · subst hz
      have hothers : n ≠ [] ↔ ∃ c ∈ a :: (m ++ [z]), c ≠ z := by
        constructor
        · intro hne
          obtain ⟨c, hc⟩ := List.exists_mem_of_ne_nil n hne
          refine ⟨c, ?_, fun h => hmem.2 hm (h ▸ hc)⟩
          rw [← hn, List.mem_append] at hc
          rcases hc with hc | hc
          · have ha : c = a := by
              split at hc <;> simp_all
            exact ha ▸ List.mem_cons_self
          · exact List.mem_cons_of_mem a (List.mem_append_left [z] (List.mem_of_mem_erase hc))
        · rintro ⟨c, hc, hcz⟩ hnil
          obtain ⟨hfirst, hrest⟩ := List.append_eq_nil_iff.1 (hn.trans hnil)
          rcases List.mem_cons.1 hc with rfl | hc
          · rw [if_neg hcz] at hfirst
            cases hfirst
          · rcases List.mem_append.1 hc with hc | hc
            · have hin : c ∈ m.erase z := (List.mem_erase_of_ne hcz).2 hc
              rw [hrest] at hin
              cases hin
            · exact hcz (List.mem_singleton.1 hc)
      by_cases hne : n = []
      · rw [if_neg (fun h => h.2 hne), ← hothers]
        simpa using hne
      · rw [if_pos ⟨rfl, hne⟩, ← hothers]
        simpa using hne
    · rw [if_neg (fun h => hz h.1)]
      exact ⟨fun _ => ⟨z, by simp, hz⟩, fun _ => by simpa using Ne.symm hz⟩

end

section
variable {d : Text} (hd : ':' ∉ d) (hp : Verbatim d)
include hd hp

/-- The script works on the components. -/
theorem installPath_eq (path : Text) : installPath d path = joined (stripped d (dirs path)) := by
  have h₀ := dirs_ne_nil path
  have h₁ : dropMiddle d (dirs path) ≠ [] := dropMiddle_ne_nil h₀
  have h₂ : dropFirst d (dropMiddle d (dirs path)) ≠ [] := dropFirst_ne_nil h₁
  have hsub₁ := dropMiddle_sublist (d := d) (dirs path)
  have hsub₂ := (dropFirst_sublist (d := d) (dropMiddle d (dirs path))).trans hsub₁
  have hmiddle := @replaceOnce_path d hd hp (dirs path) fun c => mem_dirs
  rw [joined_dirs] at hmiddle
  simp only [installPath]
  rw [hmiddle, stripPrefix_path hd hp (fun c hc => mem_dirs (hsub₁.subset hc)) h₁,
    stripSuffix_path hd hp (fun c hc => mem_dirs (hsub₂.subset hc)) h₂]
  rfl

/-- **When `install_wrapper.sh` strips its directory.** -/
theorem installPath_stripped_iff (path : Text) : Stripped d path (installPath d path) ↔ StandsOnce d path := by
  have hne := dirs_ne_nil path
  have hcomp : dirs (installPath d path) = stripped d (dirs path) := by
    rw [installPath_eq hd hp, dirs_joined _ (stripped_ne_nil hne)]
    exact fun c hc => mem_dirs ((stripped_sublist _).subset hc)
  rw [Stripped, hcomp, StandsOnce, ← not_mem_stripped hne]
  refine and_iff_left_of_imp fun hmem => ?_
  have hself : stripped d (dirs path) = (dirs path).filter (· ≠ d) := by
    rw [← filter_stripped hne, eq_comm, List.filter_eq_self]
    exact fun c hc => decide_eq_true fun h : c = d => hmem (h ▸ hc)
  rw [hself, List.filter_filter]
  exact List.filter_congr fun c _ => by rw [← Bool.decide_and]

end

/-- **The two ways to strip the directory from `PATH`.** -/
theorem path_stripped_iff (d path : Text) :
    (∀ path', cmdPath d path = some path' → Stripped d path path') ∧
      (':' ∉ d → Verbatim d → (Stripped d path (installPath d path) ↔ StandsOnce d path)) :=
  ⟨fun _ h => cmdPath_stripped h, fun hd hp => installPath_stripped_iff hd hp path⟩

/-- `/w` in front, and once between two others. -/
theorem path_stripped_once :
    Stripped "/w".toList "/w:/bin:/w:/sbin".toList "/bin:/sbin".toList ∧
      installPath "/w".toList "/w:/bin:/w:/sbin".toList = "/bin:/sbin".toList ∧
      Stripped "/w".toList "/w:/bin:/w:/sbin".toList (installPath "/w".toList "/w:/bin:/w:/sbin".toList) :=
  have h := path_stripped_iff "/w".toList "/w:/bin:/w:/sbin".toList
  ⟨h.1 _ (by decide +kernel), by decide +kernel, (h.2 (by decide) (by unfold Verbatim; decide)).2 (by decide +kernel)⟩

/-- Twice between others: one is left, and the command that is started is the wrapper again. -/
theorem wrapper_left_in_path :
    installPath "/w".toList "/x:/w:/y:/w:/z".toList = "/x:/y:/w:/z".toList ∧
      ¬ Stripped "/w".toList "/x:/w:/y:/w:/z".toList (installPath "/w".toList "/x:/w:/y:/w:/z".toList) := by
  decide +kernel

end T2Sde.Wrapper
