import T2Sde.Lib.Glob
/-!
# Device-mapper names (`package/base/mkinitrd/initrdinit.sh`)

The device mapper knows a logical volume by one name: the two names with each `-` doubled, and a single `-` between
them. `mapper2lvm` makes a tab of each `--`, then a slash of the `-` that is left, then a `-` of each tab. The pairs are
found from the front, so dashes at the end of the first name go in pairs and the one behind them is left.

| here | there |
| --- | --- |
| `echo`       | `echo $x` :34 |
| `mapper2lvm` | :28-35 |

* `tabs_doubled` — what the first step makes of a doubled name.
* `mapper2lvm_mapperName` — **the two names come back**.
-/
namespace T2Sde.Initrd
open Shell

/-! ## The decoder -/

/-- The words of a text without pattern characters, after the options. -/
def echo : List Text → Text
  | [] => ['\n']
  | w :: ws =>
    if w.head? = some '-' ∧ w.tail ≠ [] ∧ ∀ c ∈ w.tail, c ∈ "neE".toList then
      if 'n' ∈ w.tail then (echo ws).dropLast else echo ws
    else [' '].intercalate (w :: ws) ++ ['\n']

def mapper2lvm (arg : Text) : Text :=
  let x := stripPrefix "mapper/".toList arg
  let x :=
    if x ≠ arg ∧ stripPrefix "*-".toList x ≠ x then
      replaceAll ['\t'] ['-'] (replaceOnce ['-'] ['/'] (replaceAll "--".toList ['\t'] x))
    else x
  echo (words x)

/-! ## Names -/

/-- A name of letters, digits and `+`, `_`, `.`, `-`, or of other characters without a meaning for the shell. -/
structure LvmName where
  text : Text
  plain : ∀ c ∈ text, verbatimChar c = true ∧ isBlank c = false
  start : text.head? ≠ some '-'

/-- Each dash twice. -/
def doubled (name : Text) : Text := name.flatMap fun c => if c = '-' then ['-', '-'] else [c]

def mapperName (vg lv : LvmName) : Text := doubled vg.text ++ '-' :: doubled lv.text

/-! ## The steps -/

/-- Each dash as a tab. -/
def tabs (name : Text) : Text := name.map fun c => if c = '-' then '\t' else c

section
variable {name s : Text}

theorem dash_verbatim : Verbatim ['-'] := by simp [Verbatim, verbatimChar]

theorem dashes_verbatim : Verbatim ['-', '-'] := by simp [Verbatim, verbatimChar]

/-- A dash that has no other one behind it stays, as does another character. -/
theorem replaceAll_dashes_cons {c : Char} (h : ¬ ['-', '-'] <+: c :: s) :
    replaceAll ['-', '-'] ['\t'] (c :: s) = c :: replaceAll ['-', '-'] ['\t'] s := by
  refine replaceAll_skip (u := [c]) dashes_verbatim fun t ht hne => ?_
  have hlen := ht.length_le
  have hpos := List.length_pos_iff.2 hne
  have ht' : t = [c] := ht.eq_of_length (by rw [List.length_singleton] at hlen ⊢; omega)
  rw [ht']
  exact h

/-- **The pairs** of a doubled name, whatever follows. -/
theorem tabs_doubled (name s : Text) :
    replaceAll ['-', '-'] ['\t'] (doubled name ++ s) = tabs name ++ replaceAll ['-', '-'] ['\t'] s := by
  induction name with
  | nil => rfl
  | cons c name ih =>
    rw [doubled, List.flatMap_cons, tabs, List.map_cons, List.append_assoc]
    by_cases hc : c = '-'
    · rw [if_pos hc, if_pos hc, replaceAll_match dashes_verbatim (by simp)]
      exact congrArg ('\t' :: ·) ih
    · rw [if_neg hc, if_neg hc, List.singleton_append, replaceAll_dashes_cons, List.cons_append]
      · exact congrArg (c :: ·) ih
      · intro h
        exact hc (List.cons_prefix_cons.1 h).1.symm

theorem doubled_head (h : name.head? ≠ some '-') : (doubled name).head? ≠ some '-' := by
  cases name with
  | nil => simp [doubled]
  | cons c name =>
    have hc : c ≠ '-' := by simpa using h
    simp [doubled, hc]

theorem dash_not_mem_tabs (name : Text) : '-' ∉ tabs name := by
  intro h
  obtain ⟨c, -, hc⟩ := List.mem_map.1 h
  split at hc
  · exact absurd hc (by decide)
  · contradiction

/-- The dash in front is the first one. -/
theorem replaceOnce_dash (h : '-' ∉ name) (s : Text) :
    replaceOnce ['-'] ['/'] (name ++ '-' :: s) = name ++ '/' :: s := by
  induction name with
  | nil =>
    rw [List.nil_append, replaceOnce, longest_verbatim dash_verbatim, if_pos ⟨s, rfl⟩]
    rfl
  | cons c name ih =>
    obtain ⟨hc, hname⟩ := not_or.1 (mt List.mem_cons.2 h)
    have hnot : ¬ ['-'] <+: c :: (name ++ '-' :: s) := fun hp => hc (List.cons_prefix_cons.1 hp).1
    rw [List.cons_append, replaceOnce, longest_verbatim dash_verbatim, if_neg hnot]
    exact congrArg (c :: ·) (ih hname)

/-- The tabs were dashes. -/
theorem replaceAll_tabs (h : ∀ c ∈ name, isBlank c = false) :
    (tabs name).flatMap (fun d => if d = '\t' then ['-'] else [d]) = name := by
  induction name with
  | nil => rfl
  | cons c name ih =>
    obtain ⟨hc, hname⟩ := List.forall_mem_cons.1 h
    rw [tabs, List.map_cons, List.flatMap_cons]
    refine congrArg₂ (· ++ ·) (?_ : _ = [c]) (ih hname)
    by_cases hdash : c = '-'
    · rw [if_pos hdash, if_pos rfl, hdash]
    · have htab : c ≠ '\t' := by
        rintro rfl
        simp [isBlank] at hc
      rw [if_neg hdash, if_neg htab]

end

/-! ## The two names -/

/-- **The two names** come back with a slash between them, for any dashes in them. -/
theorem mapper2lvm_mapperName (vg lv : LvmName) :
    mapper2lvm ("mapper/".toList ++ mapperName vg lv) = vg.text ++ '/' :: lv.text ++ ['\n'] := by
  have hstrip : stripPrefix "mapper/".toList ("mapper/".toList ++ mapperName vg lv) = mapperName vg lv :=
    stripPrefix_literal (by decide) _
  have hdash : stripPrefix "*-".toList (mapperName vg lv) ≠ mapperName vg lv := by
    have hmem : '-' ∈ mapperName vg lv := List.mem_append_right _ List.mem_cons_self
    obtain ⟨u, t, ht, hu⟩ := List.eq_append_cons_of_mem hmem
    have hup : stripPrefix "*-".toList (u ++ '-' :: t) = t := stripPrefix_upTo (by decide) hu t
    intro h
    rw [ht, hup] at h
    have hlen := congrArg List.length h
    rw [List.length_append, List.length_cons] at hlen
    omega
  have hpairs : replaceAll ['-', '-'] ['\t'] (mapperName vg lv) = tabs vg.text ++ '-' :: tabs lv.text := by
    rw [mapperName, tabs_doubled, replaceAll_dashes_cons]
    · have hlast := tabs_doubled lv.text []
      rw [List.append_nil] at hlast
      rw [hlast]
      exact congrArg (tabs vg.text ++ '-' :: ·) (List.append_nil _)
    · rintro ⟨t, ht⟩
      exact doubled_head lv.start (by rw [← (List.cons.inj ht).2]; rfl)
  have hsteps : replaceAll ['\t'] ['-'] (replaceOnce ['-'] ['/'] (replaceAll ['-', '-'] ['\t'] (mapperName vg lv))) =
      vg.text ++ '/' :: lv.text := by
    rw [hpairs, replaceOnce_dash (dash_not_mem_tabs _), replaceAll_char (by decide), List.flatMap_append,
      List.flatMap_cons, replaceAll_tabs fun c hc => (vg.plain c hc).2, replaceAll_tabs fun c hc => (lv.plain c hc).2]
    rfl
  have hword : IsWord (vg.text ++ '/' :: lv.text) := by
    refine ⟨by simp, fun c hc => ?_⟩
    rcases List.mem_append.1 hc with hc | hc
    · exact (vg.plain c hc).2
    · rcases List.mem_cons.1 hc with rfl | hc
      · decide
      · exact (lv.plain c hc).2
  have hstart : (vg.text ++ '/' :: lv.text).head? ≠ some '-' := by
    have hvg := vg.start
    cases h : vg.text with
    | nil => simp
    | cons c name =>
      rw [h] at hvg
      exact hvg
  have hname : mapperName vg lv ≠ "mapper/".toList ++ mapperName vg lv := fun h => by
    have hlen := congrArg List.length h
    rw [List.length_append] at hlen
    have hseven : "mapper/".toList.length = 7 := rfl
    omega
  rw [mapper2lvm, hstrip, if_pos ⟨hname, hdash⟩]
  change echo (words (replaceAll ['\t'] ['-'] (replaceOnce ['-'] ['/']
    (replaceAll ['-', '-'] ['\t'] (mapperName vg lv))))) = _
  rw [hsteps, words_of_isWord hword, echo, if_neg fun h => hstart h.1, List.intercalate_singleton]

end T2Sde.Initrd
