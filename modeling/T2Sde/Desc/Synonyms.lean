import T2Sde.Desc.Overlay
import T2Sde.Desc.PkgList
/-!
# Tag synonyms (`misc/share/PKG-DESC-FORMAT`)

One line of a `.desc` file gets another name of its tag. `parse_desc` files both under one variable if the names have
the same key, which is the first letter in most cases; `Create-PkgList` treats them alike if they are in the same
rule. The name itself becomes a value where a line has none, and where a line before runs into it.

* `parseDesc_congr`, `reads_of_parseDesc` — the variables are the lines that are read under each key.
* `reads_renamed` — what is read under the keys stays the same exactly if `ParseSame`.
* `print_renamed` — the line of the package list stays the same exactly if `PrintSame`.
* `synonym_invariant` — **when a synonym can be taken**.
-/
namespace T2Sde.Desc
open Shell

/-- The names of each tag. -/
def synonyms : List (List Text) :=
  [["I", "TITLE"], ["T", "TEXT"], ["U", "URL"], ["A", "AUTHOR"], ["M", "MAINTAINER"], ["C", "CATEGORY"],
    ["F", "FLAG"], ["R", "ARCH", "ARCHITECTURE"], ["K", "KERN", "KERNEL"], ["E", "DEP", "DEPENDENCY"],
    ["L", "LICENSE"], ["V", "VER", "VERSION"], ["P", "PRI", "PRIORITY"], ["D", "DOWN", "DOWNLOAD"],
    ["SRC", "SOURCEPACKAGE"]].map fun names => names.map String.toList

/-- A line of a file, and two names of its tag. -/
structure Renaming where
  pre : List Text
  /-- The line behind its tag. -/
  rest : Text
  post : List Text
  tag : Text
  synonym : Text
  listed : ∃ names ∈ synonyms, tag ∈ names ∧ synonym ∈ names
  ne : tag ≠ synonym
  lineEnd : ∀ l ∈ rest :: (pre ++ post), '\n' ∉ l

theorem upper_of_synonym {t : Text} (h : ∃ names ∈ synonyms, t ∈ names) :
    t ≠ [] ∧ (∀ c ∈ t, Lua.isUpper c = true) ∧ ∃ c, key t = some c ∧ c ≠ [] := by
  obtain ⟨names, hnames, ht⟩ := h
  have hall : (synonyms.all fun names => names.all fun t => !t.isEmpty && t.all Lua.isUpper &&
      (key t).any fun k => !k.isEmpty) = true := by decide +kernel
  have h := List.all_eq_true.1 (List.all_eq_true.1 hall names hnames) t ht
  simp only [Bool.and_eq_true, Bool.not_eq_true', List.isEmpty_eq_false_iff, List.all_eq_true,
    Option.any_eq_true] at h
  exact ⟨h.1.1, h.1.2, h.2⟩

section
variable (r : Renaming)

theorem Renaming.tag_upper : ∀ c ∈ r.tag, Lua.isUpper c = true := by
  obtain ⟨names, hnames, ht, -⟩ := r.listed
  exact (upper_of_synonym ⟨names, hnames, ht⟩).2.1

theorem Renaming.synonym_upper : ∀ c ∈ r.synonym, Lua.isUpper c = true := by
  obtain ⟨names, hnames, -, ht⟩ := r.listed
  exact (upper_of_synonym ⟨names, hnames, ht⟩).2.1

/-- The lines of the file, with a name of the tag. -/
def Renaming.lines (t : Text) : List Text := r.pre ++ (bracketed t ++ r.rest) :: r.post

theorem Renaming.lines_lineEnd {t : Text} (ht : ∀ c ∈ t, Lua.isUpper c = true) : ∀ l ∈ r.lines t, '\n' ∉ l := by
  obtain ⟨hrest, hothers⟩ := List.forall_mem_cons.1 r.lineEnd
  intro l hl
  rcases List.mem_append.1 hl with hl | hl
  · exact hothers l (List.mem_append_left _ hl)
  · rcases List.mem_cons.1 hl with rfl | hl
    · intro hc
      rcases List.mem_append.1 hc with hc | hc
      · have := (isWord_bracketed ht).2 _ hc
        revert this; decide
      · exact hrest hc
    · exact hothers l (List.mem_append_right _ hl)

def Renaming.before : File := ⟨r.lines r.tag, r.lines_lineEnd r.tag_upper⟩

def Renaming.after : File := ⟨r.lines r.synonym, r.lines_lineEnd r.synonym_upper⟩

end

/-! ## `parse_desc` -/

/-- `parse_desc` knows a file by what is read of it. -/
theorem parseDesc_congr {f g : File} (h : ∀ k, reads k f = reads k g) (pre post : List File) :
    parseDesc (pre ++ f :: post) = parseDesc (pre ++ g :: post) := by
  have hlast : ∀ k, lastReads k (pre ++ f :: post) = lastReads k (pre ++ g :: post) := fun k => by
    simp [lastReads, h k]
  by_cases hnamed : ∀ x ∈ pre ++ f :: post, reads [] x = []
  · have hnamed' : ∀ x ∈ pre ++ g :: post, reads [] x = [] := by
      intro x hx
      rcases List.mem_append.1 hx with hx | hx
      · exact hnamed x (List.mem_append_left _ hx)
      · rcases List.mem_cons.1 hx with rfl | hx
        · exact (h []).symm.trans (hnamed f (by simp))
        · exact hnamed x (List.mem_append_right _ (List.mem_cons_of_mem _ hx))
    obtain ⟨v, hv, hdesc, hver⟩ := parseDesc_eq hnamed
    obtain ⟨v', hv', hdesc', hver'⟩ := parseDesc_eq hnamed'
    have hd : v.desc = v'.desc := funext fun k => by rw [hdesc, hdesc', hlast]
    rw [← hd, ← hver, Prod.mk.injEq] at hver'
    rw [hv, hv']
    cases v
    cases v'
    simp_all
  · simp only [not_forall] at hnamed
    obtain ⟨x, hx, hr⟩ := hnamed
    rw [parseDesc_none hx hr]
    rcases List.mem_append.1 hx with hx | hx
    · rw [parseDesc_none (List.mem_append_left _ hx) hr]
    · rcases List.mem_cons.1 hx with rfl | hx
      · rw [parseDesc_none (f := g) (by simp) (by rwa [← h])]
      · rw [parseDesc_none (List.mem_append_right _ (List.mem_cons_of_mem _ hx)) hr]

/-- The variables of one file tell what is read of it. -/
theorem reads_of_parseDesc {f g : File} (h : parseDesc [f] = parseDesc [g]) :
    (reads [] f ≠ [] ∧ reads [] g ≠ []) ∨ ∀ k, reads k f = reads k g := by
  by_cases hf : reads [] f = []
  · obtain ⟨v, hv, hdesc, -⟩ := parseDesc_eq (show ∀ x ∈ [f], reads [] x = [] by simpa using hf)
    by_cases hg : reads [] g = []
    · obtain ⟨v', hv', hdesc', -⟩ := parseDesc_eq (show ∀ x ∈ [g], reads [] x = [] by simpa using hg)
      obtain rfl : v = v' := by
        rw [hv, hv'] at h
        exact Option.some.inj h
      refine .inr fun k => ?_
      have hk := (hdesc k).symm.trans (hdesc' k)
      rw [lastReads_cons, lastReads_cons] at hk
      by_cases h1 : reads k f = [] <;> by_cases h2 : reads k g = []
      · rw [h1, h2]
      · simp [lastReads, h1, h2] at hk
      · simp [lastReads, h1, h2] at hk
      · simp only [lastReads, List.map_nil, List.filter_nil, List.getLast?_nil, Option.none_or, h1, h2, if_false,
          Option.map_some, Option.some.injEq, appendAll_reads] at hk
        exact (intercalate_inj (fun v hv => (mem_reads hv).2.1) (fun v hv => (mem_reads hv).2.1) h1 h2).1 hk
    · rw [hv, parseDesc_none (List.mem_singleton_self g) hg] at h
      simp at h
  · by_cases hg : reads [] g = []
    · obtain ⟨v', hv', -⟩ := parseDesc_eq (show ∀ x ∈ [g], reads [] x = [] by simpa using hg)
      rw [hv', parseDesc_none (List.mem_singleton_self f) hf] at h
      simp at h
    · exact .inl ⟨hf, hg⟩

theorem under_append (k : Text) (ms ms' : List (List ReadChar)) : under k (ms ++ ms') = under k ms ++ under k ms' :=
  List.filterMap_append

/-- The keys tell what a line is filed as. -/
theorem under_eq_iff {m m' : List ReadChar} : (∀ k, under k [m] = under k [m']) ↔ filed m = filed m' := by
  refine ⟨fun h => ?_, fun h k => by rw [under, under, List.filterMap_cons, List.filterMap_cons, h]⟩
  cases hm : filed m with
  | none =>
    cases hm' : filed m' with
    | none => rfl
    | some x =>
      have := h x.1
      simp [under, hm, hm'] at this
  | some x =>
    have hx := h x.1
    cases hm' : filed m' with
    | none => simp [under, hm, hm'] at hx
    | some y =>
      by_cases hk : y.1 = x.1
      · have hv : x.2 = y.2 := by simpa [under, hm, hm', hk] using hx
        rw [Prod.ext hk.symm hv]
      · simp [under, hm, hm', hk] at hx

def taggedLines (ls : List Text) : List Text := ls.filter fun l => (tagLine l).isSome

/-- The value that is read of a line and what is joined to it is not blank. -/
def HasValue (r : Renaming) : Prop := runsOn r.rest = true ∨ trimEnd (text (unescape (r.rest.drop 1)).1) ≠ []

/-- No line before runs into the line, the names have one key, and there is a value; or the line is joined to one that
is passed over. -/
def FiledSame (r : Renaming) : Prop :=
  match running none (taggedLines r.pre) with
  | none => key r.tag = key r.synonym ∧ HasValue r
  | some l => ((tagLine l).bind fun x => key x.1) = none

/-- The line has no blank behind its tag, or the command gives up, or the file ends before the line; or it is filed as
before. -/
def ParseSame (r : Renaming) : Prop :=
  r.rest.head? ≠ some ' ' ∨ reads [] r.before ≠ [] ∨ behind (runsOn r.rest) (taggedLines r.post) = none ∨ FiledSame r

section
variable {r : Renaming}

theorem unescape_bracketed {t : Text} (ht : ∀ c ∈ t, Lua.isUpper c = true) (rest : Text) :
    unescape (bracketed t ++ rest) = (plain (bracketed t) ++ (unescape rest).1, (unescape rest).2) :=
  unescape_append (not_mem_bracketed ht) rest

/-- The line with a name of the tag, what is left before it, and what is joined to it. -/
def Renaming.place (r : Renaming) (t : Text) (z : List ReadChar) : List ReadChar :=
  leftOver [] (taggedLines r.pre) ++ (plain (bracketed t) ++ (unescape r.rest).1 ++ z)

theorem reads_place {t : Text} (ht : ∀ c ∈ t, Lua.isUpper c = true) (hspace : r.rest.head? = some ' ') (f : File)
    (hf : f.lines = r.lines t) (k : Text) :
    reads k f = under k (logical (taggedLines r.pre)) ++
      (under k ((behind (runsOn r.rest) (taggedLines r.post)).map (r.place t)).toList ++
        under k ((starts (runsOn r.rest) (taggedLines r.post)).filterMap fun x => joined x.1 x.2)) := by
  have htag : tagLine (bracketed t ++ r.rest) = some (t, r.rest.drop 1) := by
    rw [tagLine_bracketed ht, if_pos hspace]
  have htagged : f.tagged = taggedLines r.pre ++ (bracketed t ++ r.rest) :: taggedLines r.post := by
    rw [File.tagged, hf, Renaming.lines, List.filter_append, List.filter_cons_of_pos (by simp [htag])]
    rfl
  have hrun : runsOn (bracketed t ++ r.rest) = runsOn r.rest := by rw [runsOn, unescape_bracketed ht]; rfl
  rw [reads, htagged, logical_middle, hrun, under_append, under_append, unescape_bracketed ht]
  rfl

theorem bracketed_inj {a b : Text} (h : bracketed a = bracketed b) : a = b := by
  simpa [bracketed] using h

theorem trimEnd_bracketed {t : Text} (ht : ∀ c ∈ t, Lua.isUpper c = true) (s : Text) :
    trimEnd (bracketed t ++ s) = bracketed t ++ trimEnd s := by
  rw [trimEnd_append]
  split
  next h =>
    rw [h, List.append_nil]
    simpa using trimEnd_append_word (s := []) (isWord_bracketed ht)
  · rfl

/-- A value in which the name of a tag stands. -/
theorem valueOf_bracketed {t₀ t : Text} (ht : ∀ c ∈ t, Lua.isUpper c = true) (x s : List ReadChar) :
    valueOf t₀ (x ++ (plain (bracketed t) ++ s)) = text x ++ (bracketed t ++ trimEnd (text s)) := by
  have hne : bracketed t ++ trimEnd (text s) ≠ [] := by simp [bracketed]
  have htrim : trimEnd (text (x ++ (plain (bracketed t) ++ s))) = text x ++ (bracketed t ++ trimEnd (text s)) := by
    rw [text_append, text_append, text_plain, trimEnd_append, trimEnd_bracketed ht, if_neg hne]
  rw [valueOf, htrim, if_neg (by simp [hne])]

/-- What is joined to a line that runs on is not blank. -/
theorem hasValue_iff {z : List ReadChar} (hz : behind (runsOn r.rest) (taggedLines r.post) = some z) :
    trimEnd (text ((unescape (r.rest.drop 1)).1 ++ z)) ≠ [] ↔ HasValue r := by
  unfold HasValue
  cases hrun : runsOn r.rest with
  | false =>
    obtain rfl : z = [] := by simpa [behind, hrun] using hz.symm
    simp
  | true =>
    simp only [true_or, iff_true]
    cases hpost : taggedLines r.post with
    | nil => simp [behind, hrun, hpost] at hz
    | cons l ls =>
      simp only [behind, hrun, hpost, if_true] at hz
      obtain ⟨⟨t, v⟩, ht⟩ := Option.isSome_iff_exists.1
        (List.mem_filter.1 (show l ∈ taggedLines r.post from hpost ▸ List.mem_cons_self)).2
      obtain ⟨y, rfl⟩ := joined_front hz
      rw [unescape_tagged ht, Ne, trimEnd_eq_nil]
      intro hall
      have := hall '[' (by simp [bracketed])
      revert this; decide

theorem place_eq (hspace : r.rest.head? = some ' ') (t : Text) (z : List ReadChar) :
    r.place t z = leftOver [] (taggedLines r.pre) ++
      (plain (bracketed t) ++ (' ', false) :: ((unescape (r.rest.drop 1)).1 ++ z)) := by
  rw [Renaming.place]
  cases hrest : r.rest with
  | nil => simp [hrest] at hspace
  | cons c v =>
    obtain rfl : c = ' ' := by simpa [hrest] using hspace
    rw [unescape_cons (by decide)]
    simp

/-- No line runs into the line: it is filed under the key of its name. -/
theorem filed_alone (hspace : r.rest.head? = some ' ') (hrun : running none (taggedLines r.pre) = none) {t : Text}
    (ht : ∀ c ∈ t, Lua.isUpper c = true) (z : List ReadChar) :
    filed (r.place t z) = (key t).map (·, valueOf t ((unescape (r.rest.drop 1)).1 ++ z)) := by
  have hstart := startedBy_leftOver (taggedLines r.pre) (show StartedBy none [] from rfl)
  rw [hrun] at hstart
  rw [place_eq hspace, show leftOver [] (taggedLines r.pre) = [] from hstart, List.nil_append, filed_word ht]

/-- A line runs into it: it is filed under the key of that line, with the name in the value. -/
theorem filed_behind (hspace : r.rest.head? = some ' ') {l : Text} (hrun : running none (taggedLines r.pre) = some l)
    (z : List ReadChar) : ∃ x v, ∀ t, (∀ c ∈ t, Lua.isUpper c = true) →
      filed (r.place t z) = ((tagLine l).bind fun x => key x.1).map (·, x ++ (bracketed t ++ v)) := by
  have hstart := startedBy_leftOver (taggedLines r.pre) (show StartedBy none [] from rfl)
  rw [hrun] at hstart
  obtain ⟨y, hy⟩ := hstart
  have hmem := (mem_running hrun).resolve_left (by simp)
  obtain ⟨⟨t₀, v₀⟩, ht₀⟩ := Option.isSome_iff_exists.1 (List.mem_filter.1 hmem).2
  refine ⟨text ((unescape v₀).1 ++ y), trimEnd (text ((' ', false) :: ((unescape (r.rest.drop 1)).1 ++ z))),
    fun t ht => ?_⟩
  rw [place_eq hspace, hy, List.append_assoc, filed_tagged ht₀, ← List.append_assoc, valueOf_bracketed ht, ht₀,
    Option.bind_some]

/-- **The line** is filed as the same. -/
theorem filed_same_iff (hspace : r.rest.head? = some ' ') {z : List ReadChar}
    (hz : behind (runsOn r.rest) (taggedLines r.post) = some z) :
    filed (r.place r.tag z) = filed (r.place r.synonym z) ↔ FiledSame r := by
  unfold FiledSame
  cases hrun : running none (taggedLines r.pre) with
  | none =>
    obtain ⟨names, hnames, ht, hs⟩ := r.listed
    obtain ⟨-, -, k, hk, -⟩ := upper_of_synonym ⟨names, hnames, ht⟩
    obtain ⟨-, -, k', hk', -⟩ := upper_of_synonym ⟨names, hnames, hs⟩
    rw [filed_alone hspace hrun r.tag_upper, filed_alone hspace hrun r.synonym_upper]
    simp only [hk, hk', Option.map_some, Option.some.injEq, Prod.mk.injEq, ← hasValue_iff hz, valueOf]
    refine and_congr_right fun _ => ?_
    split
    next hblank => exact iff_of_false (fun h => r.ne (bracketed_inj h)) (not_not.2 hblank)
    next hblank => exact iff_of_true rfl hblank
  | some l =>
    obtain ⟨x, v, hfiled⟩ := filed_behind hspace hrun z
    rw [hfiled _ r.tag_upper, hfiled _ r.synonym_upper]
    cases hk : (tagLine l).bind fun x => key x.1 with
    | none => exact iff_of_true rfl hk
    | some k =>
      refine iff_of_false (fun h => ?_) (by simp [hk])
      simp only [Option.map_some, Option.some.injEq, Prod.mk.injEq, true_and] at h
      exact r.ne (bracketed_inj (List.append_cancel_right (List.append_cancel_left h)))

/-- Whether the line has an empty key does not depend on its name. -/
theorem under_nil_place (hspace : r.rest.head? = some ' ') (z : List ReadChar) :
    under [] [r.place r.tag z] = [] ↔ under [] [r.place r.synonym z] = [] := by
  cases hrun : running none (taggedLines r.pre) with
  | none =>
    obtain ⟨names, hnames, ht, hs⟩ := r.listed
    obtain ⟨-, -, k, hk, hne⟩ := upper_of_synonym ⟨names, hnames, ht⟩
    obtain ⟨-, -, k', hk', hne'⟩ := upper_of_synonym ⟨names, hnames, hs⟩
    simp [under, filed_alone hspace hrun r.tag_upper, filed_alone hspace hrun r.synonym_upper, hk, hk', hne, hne']
  | some l =>
    obtain ⟨x, v, hfiled⟩ := filed_behind hspace hrun z
    simp only [under, List.filterMap_cons, hfiled _ r.tag_upper, hfiled _ r.synonym_upper]
    cases (tagLine l).bind fun x => key x.1 with
    | none => simp
    | some k => by_cases hk : k = [] <;> simp [hk]

theorem tagged_of_noSpace (hspace : r.rest.head? ≠ some ' ') : r.before.tagged = r.after.tagged := by
  have hnot : ∀ t, (∀ c ∈ t, Lua.isUpper c = true) → tagLine (bracketed t ++ r.rest) = none := fun t ht => by
    rw [tagLine_bracketed ht, if_neg hspace]
  simp [File.tagged, Renaming.before, Renaming.after, Renaming.lines, hnot _ r.tag_upper,
    hnot _ r.synonym_upper]

/-- What is read under the keys. -/
theorem reads_renamed (hspace : r.rest.head? = some ' ') {z : List ReadChar}
    (hz : behind (runsOn r.rest) (taggedLines r.post) = some z) :
    (reads [] r.before = [] ↔ reads [] r.after = []) ∧
      ((∀ k, reads k r.before = reads k r.after) ↔ FiledSame r) := by
  have hbefore := fun k => reads_place r.tag_upper hspace r.before rfl k
  have hafter := fun k => reads_place r.synonym_upper hspace r.after rfl k
  simp only [hz, Option.map_some, Option.toList_some] at hbefore hafter
  refine ⟨?_, ?_⟩
  · rw [hbefore, hafter, List.append_eq_nil_iff, List.append_eq_nil_iff, List.append_eq_nil_iff,
      List.append_eq_nil_iff, under_nil_place hspace]
  · rw [← filed_same_iff hspace hz, ← under_eq_iff]
    refine forall_congr' fun k => ?_
    rw [hbefore, hafter, List.append_cancel_left_eq, List.append_cancel_right_eq]

/-- **`parse_desc`** gives the same variables, whatever the other files are, exactly if `ParseSame`. -/
theorem parse_renamed (r : Renaming) :
    (∀ pre post, parseDesc (pre ++ r.before :: post) = parseDesc (pre ++ r.after :: post)) ↔ ParseSame r := by
  unfold ParseSame
  by_cases hspace : r.rest.head? = some ' '
  · cases hz : behind (runsOn r.rest) (taggedLines r.post) with
    | none =>
      have hsame : ∀ k, reads k r.before = reads k r.after := fun k => by
        rw [reads_place r.tag_upper hspace r.before rfl, reads_place r.synonym_upper hspace r.after rfl, hz]
        rfl
      exact iff_of_true (parseDesc_congr hsame) (.inr (.inr (.inl rfl)))
    | some z =>
      obtain ⟨habort, hsame⟩ := reads_renamed hspace hz
      constructor
      · intro h
        rcases reads_of_parseDesc (h [] []) with ⟨hb, -⟩ | hreads
        · exact .inr (.inl hb)
        · exact .inr (.inr (.inr (hsame.1 hreads)))
      · rintro (h | h | h | h) pre post
        · exact absurd hspace h
        · rw [parseDesc_none (by simp) h, parseDesc_none (by simp) (mt habort.2 h)]
        · simp at h
        · exact parseDesc_congr (hsame.2 h) pre post
  · refine iff_of_true (parseDesc_congr fun k => ?_) (.inl hspace)
    rw [reads, reads, tagged_of_noSpace hspace]

end

/-! ## `Create-PkgList` -/

/-- The tags of the rules. -/
def ruleTags : List (List String) :=
  [["P", "PRI", "PRIORITY"], ["V", "VER", "VERSION"], ["C", "CATEGORY"], ["F", "FLAGS"],
    ["R", "ARCH", "ARCHITECTURE"], ["K", "KERN", "KERNEL"]]

/-- The line of a file in the package list. -/
def listLine (arch kernel : Text) (f : DescFile) : Option Text := (record arch kernel f).map printPackage

/-- An architecture or kernel selection that leaves the package out. -/
def drops (arch kernel l : Text) : Bool :=
  hasTag ["R", "ARCH", "ARCHITECTURE"] l && !selected arch (split l) ||
    hasTag ["K", "KERN", "KERNEL"] l && !selected kernel (split l)

/-- What a line adds to the flags. -/
def lineFlags (l : Text) : List Text := if hasTag ["F", "FLAGS"] l then listed (split l) else []

theorem bracketed_prefix {t u : Text} (ht : ']' ∉ t) (hu : ']' ∉ u) {s : Text} (h : bracketed t <+: bracketed u ++ s) :
    t = u := by
  obtain ⟨s', hs⟩ := h
  have heq : t ++ ']' :: s' = u ++ ']' :: s := by simpa [bracketed] using hs
  have htake := congrArg (List.takeWhile (· != ']')) heq
  have hne : ∀ {w : Text}, ']' ∉ w → ∀ c ∈ w, (c != ']') = true := fun hw c hc => by
    rw [bne_iff_ne]
    rintro rfl
    exact hw hc
  rwa [List.takeWhile_append_of_pos (hne ht), List.takeWhile_append_of_pos (hne hu),
    List.takeWhile_cons_of_neg (by simp), List.takeWhile_cons_of_neg (by simp), List.append_nil,
    List.append_nil] at htake

theorem ruleTags_noBracket : ∀ tags ∈ ruleTags, ∀ t ∈ tags, ']' ∉ t.toList := by decide

/-- A line that starts with a tag is in the rules that name it. -/
theorem hasTag_bracketed {tags : List String} (htags : tags ∈ ruleTags) {t : Text} (ht : ']' ∉ t) (rest : Text) :
    hasTag tags (bracketed t ++ rest) = tags.any (·.toList == t) := by
  rw [Bool.eq_iff_iff, hasTag, List.any_eq_true, List.any_eq_true]
  refine exists_congr fun u => and_congr_right fun hu => ?_
  rw [List.isPrefixOf_iff_prefix, beq_iff_eq]
  constructor
  · exact fun h => bracketed_prefix (ruleTags_noBracket tags htags u hu) ht h
  · rintro rfl
    exact List.prefix_append _ _

/-- No line is in two rules. -/
theorem hasTag_disjoint {tags tags' : List String} (htags : tags ∈ ruleTags) (htags' : tags' ∈ ruleTags)
    (hne : ∀ t ∈ tags, t ∉ tags') {l : Text} (h : hasTag tags l = true) : hasTag tags' l = false := by
  obtain ⟨t, ht, hpre⟩ := List.any_eq_true.1 h
  obtain ⟨rest, rfl⟩ := List.isPrefixOf_iff_prefix.1 hpre
  have hbracket := ruleTags_noBracket tags htags t ht
  rw [Bool.eq_false_iff]
  intro h'
  rw [show ('[' :: t.toList ++ [']']) = bracketed t.toList from rfl, hasTag_bracketed htags' hbracket] at h'
  obtain ⟨u, hu, heq⟩ := List.any_eq_true.1 h'
  exact hne t ht (String.toList_inj.1 (beq_iff_eq.1 heq) ▸ hu)

theorem splitFields_append {w : Text} (hw : ∀ c ∈ w, isSep c = false) (s : Text) :
    splitFields (w ++ s) = (splitFields s).modifyHead (w ++ ·) := by
  induction w with
  | nil =>
    rw [List.nil_append]
    cases splitFields s <;> rfl
  | cons c w ih =>
    obtain ⟨hc, hw⟩ := List.forall_mem_cons.1 hw
    rw [List.cons_append, splitFields, if_neg (by simp [hc]), ih hw]
    cases splitFields s <;> rfl

theorem split_bracketed {t : Text} (ht : ∀ c ∈ t, Lua.isUpper c = true) (rest : Text) :
    (split (bracketed t ++ rest)).drop 1 = (splitFields rest).drop 1 := by
  have hsep : ∀ c ∈ bracketed t, isSep c = false := by
    intro c hc
    have hblank := (isWord_bracketed ht).2 c hc
    simp only [isBlank, Bool.or_eq_false_iff] at hblank
    simp [isSep, hblank.1.1, hblank.1.2]
  rw [split, if_neg (by simp [bracketed]), splitFields_append hsep]
  cases splitFields rest <;> rfl

theorem field_drop (a : List Text) (i : Nat) : field a (i + 2) = (a.drop 1).getD i [] := by
  simp [field, List.getD_eq_getElem?_getD]

/-- A line acts by its rules and its fields behind the first one. -/
theorem Awk.line_congr {l l' : Text} (htags : ∀ tags ∈ ruleTags, hasTag tags l = hasTag tags l')
    (hfields : (split l).drop 1 = (split l').drop 1) (arch kernel : Text) (s : Awk) :
    s.line arch kernel l = s.line arch kernel l' := by
  have hdrop : (split l).drop 2 = (split l').drop 2 := by
    rw [← List.drop_drop (i := 1) (j := 1), hfields, List.drop_drop]
  have hfield : ∀ i, field (split l) (i + 2) = field (split l') (i + 2) := fun i => by
    rw [field_drop, field_drop, hfields]
  have hselected : ∀ me, selected me (split l) = selected me (split l') := fun me => by
    rw [selected, selected, hfield 0, hdrop, hfields]
  have hlisted : listed (split l) = listed (split l') := by rw [listed, listed, hfields]
  simp only [ruleTags, List.forall_mem_cons, List.not_mem_nil, false_implies, implies_true, and_true] at htags
  obtain ⟨h1, h2, h3, h4, h5, h6⟩ := htags
  simp only [Awk.line, h1, h2, h3, h4, h5, h6, hselected, hlisted, hfield 0, hfield 1, hfield 2]

theorem Awk.line_pkgtree (arch kernel l : Text) (s : Awk) :
    (s.line arch kernel l).pkgtree = if drops arch kernel l then [] else s.pkgtree := by
  have hother : ∀ tags ∈ ruleTags, (∀ t ∈ tags, t ∉ ["R", "ARCH", "ARCHITECTURE"]) →
      (∀ t ∈ tags, t ∉ ["K", "KERN", "KERNEL"]) → hasTag tags l = true → drops arch kernel l = false := by
    intro tags htags hR hK h
    rw [drops, hasTag_disjoint htags (by decide) hR h, hasTag_disjoint htags (by decide) hK h]
    rfl
  unfold Awk.line
  simp only
  split
  next h => rw [hother _ (by decide) (by decide) (by decide) h]; rfl
  split
  next h => rw [hother _ (by decide) (by decide) (by decide) h]; rfl
  split
  next h => rw [hother _ (by decide) (by decide) (by decide) h]; rfl
  split
  next h => rw [hother _ (by decide) (by decide) (by decide) h]; rfl
  split
  next h =>
    have hK : hasTag ["K", "KERN", "KERNEL"] l = false := hasTag_disjoint (by decide) (by decide) (by decide) h
    rw [drops, h, hK]
    cases selected arch (split l) <;> rfl
  next h =>
    split
    next hK =>
      rw [drops, hK, Bool.eq_false_iff.2 h]
      cases selected kernel (split l) <;> rfl
    next hK =>
      rw [drops, Bool.eq_false_iff.2 h, Bool.eq_false_iff.2 hK]
      rfl

/-- The flags stand apart from the rest of the state. -/
theorem Awk.line_flags (arch kernel l : Text) (s : Awk) (g : List Text) :
    ({ s with flags := g } : Awk).line arch kernel l = { s.line arch kernel l with flags := g ++ lineFlags l } := by
  have hother : ∀ tags ∈ ruleTags, (∀ t ∈ tags, t ∉ ["F", "FLAGS"]) → hasTag tags l = true → lineFlags l = [] := by
    intro tags htags hF h
    rw [lineFlags, hasTag_disjoint htags (by decide) hF h]
    rfl
  unfold Awk.line
  simp only
  split
  next h => rw [hother _ (by decide) (by decide) h]; simp
  split
  next h => rw [hother _ (by decide) (by decide) h]; simp
  split
  next h => rw [hother _ (by decide) (by decide) h]; simp
  split
  next h => simp [lineFlags, h]
  next hF =>
    have hnil : lineFlags l = [] := by simp [lineFlags, hF]
    rw [hnil, List.append_nil]
    split
    · split <;> rfl
    · split
      · split <;> rfl
      · rfl

theorem foldl_pkgtree (arch kernel : Text) (ls : List Text) (s : Awk) :
    (ls.foldl (Awk.line arch kernel) s).pkgtree = if ls.any (drops arch kernel) then [] else s.pkgtree := by
  induction ls generalizing s with
  | nil => rfl
  | cons l ls ih =>
    rw [List.foldl_cons, ih, Awk.line_pkgtree, List.any_cons]
    cases ls.any (drops arch kernel) <;> cases drops arch kernel l <;> rfl

theorem foldl_flags (arch kernel : Text) (ls : List Text) (s : Awk) (g : List Text) :
    ls.foldl (Awk.line arch kernel) { s with flags := g } =
      { ls.foldl (Awk.line arch kernel) s with flags := g ++ ls.flatMap lineFlags } := by
  induction ls generalizing s g with
  | nil => simp
  | cons l ls ih =>
    rw [List.foldl_cons, Awk.line_flags, ih, List.foldl_cons]
    simp

/-- Flags more or less show in the line that is printed. -/
theorem printPackage_flags {s : Awk} {g ws g' : List Text}
    (h : printPackage { s with flags := g ++ (ws ++ g') } = printPackage { s with flags := g ++ g' }) : ws = [] := by
  have hspaced : (spaced ws).length = 0 := by
    have hlen := congrArg List.length h
    simp only [printPackage, spaced, List.length_append, List.length_cons, List.flatMap_append] at hlen ⊢
    omega
  cases ws with
  | nil => rfl
  | cons w ws => simp [spaced] at hspaced

def flagTag : Text := "F".toList
def longFlagTag : Text := "FLAG".toList

/-- The flags of the line. -/
def Renaming.flags (r : Renaming) : List Text := ((splitFields r.rest).drop 1).takeWhile truthy

/-- The names are in one rule, as all but `F` and `FLAG` are; or the line has no flags, or the package is left out for
every architecture and kernel. -/
def PrintSame (r : Renaming) : Prop :=
  (r.tag ≠ flagTag ∧ r.tag ≠ longFlagTag) ∨ r.flags = [] ∨
    ∀ arch kernel, ∃ l ∈ r.pre ++ r.post, drops arch kernel l = true

theorem sameRule_or_flag {a b : Text} (h : ∃ names ∈ synonyms, a ∈ names ∧ b ∈ names) :
    (∀ tags ∈ ruleTags, tags.any (·.toList == a) = tags.any (·.toList == b)) ∨
      (a = flagTag ∨ a = longFlagTag) ∧ (b = flagTag ∨ b = longFlagTag) := by
  obtain ⟨names, hnames, ha, hb⟩ := h
  have hall : ∀ names ∈ synonyms, ∀ a ∈ names, ∀ b ∈ names,
      (∀ tags ∈ ruleTags, tags.any (·.toList == a) = tags.any (·.toList == b)) ∨
        (a = flagTag ∨ a = longFlagTag) ∧ (b = flagTag ∨ b = longFlagTag) := by decide +kernel
  exact hall names hnames a ha b hb

/-- Only `F` and `FLAG` are in different rules. -/
theorem noFlag_of_sameRule {a b : Text} (h : ∃ names ∈ synonyms, a ∈ names ∧ b ∈ names) (hne : a ≠ b)
    (hrules : ∀ tags ∈ ruleTags, tags.any (·.toList == a) = tags.any (·.toList == b)) :
    a ≠ flagTag ∧ a ≠ longFlagTag := by
  obtain ⟨names, hnames, ha, hb⟩ := h
  have hall : ∀ names ∈ synonyms, ∀ a ∈ names, ∀ b ∈ names, a ≠ b →
      (∀ tags ∈ ruleTags, tags.any (·.toList == a) = tags.any (·.toList == b)) →
        a ≠ flagTag ∧ a ≠ longFlagTag := by decide +kernel
  exact hall names hnames a ha b hb hne hrules

theorem noBracket_of_upper {t : Text} (ht : ∀ c ∈ t, Lua.isUpper c = true) : ']' ∉ t := by
  intro hc
  have := ht _ hc
  revert this; decide

section
variable {r : Renaming} {arch kernel : Text}

/-- The state at the end without the line. -/
def Renaming.around (r : Renaming) (arch kernel : Text) (d : DescFile) : Awk :=
  (r.pre ++ r.post).foldl (Awk.line arch kernel) (Awk.start d)

theorem flag_line (s : Awk) (rest : Text) :
    s.line arch kernel (bracketed flagTag ++ rest) =
      { s with flags := s.flags ++ ((splitFields rest).drop 1).takeWhile truthy } := by
  have htag : ∀ tags ∈ ruleTags, hasTag tags (bracketed flagTag ++ rest) = tags.any (·.toList == flagTag) :=
    fun tags htags => hasTag_bracketed htags (by decide) rest
  have hlisted : listed (split (bracketed flagTag ++ rest)) = ((splitFields rest).drop 1).takeWhile truthy := by
    rw [listed, split_bracketed (by simp [flagTag]; decide)]
  unfold Awk.line
  simp only [htag _ (show ["P", "PRI", "PRIORITY"] ∈ ruleTags by decide),
    htag _ (show ["V", "VER", "VERSION"] ∈ ruleTags by decide), htag _ (show ["C", "CATEGORY"] ∈ ruleTags by decide),
    htag _ (show ["F", "FLAGS"] ∈ ruleTags by decide), hlisted]
  rfl

theorem longFlag_line (s : Awk) (rest : Text) : s.line arch kernel (bracketed longFlagTag ++ rest) = s := by
  have htag : ∀ tags ∈ ruleTags, hasTag tags (bracketed longFlagTag ++ rest) = tags.any (·.toList == longFlagTag) :=
    fun tags htags => hasTag_bracketed htags (by decide) rest
  unfold Awk.line
  simp only [htag _ (show ["P", "PRI", "PRIORITY"] ∈ ruleTags by decide),
    htag _ (show ["V", "VER", "VERSION"] ∈ ruleTags by decide), htag _ (show ["C", "CATEGORY"] ∈ ruleTags by decide),
    htag _ (show ["F", "FLAGS"] ∈ ruleTags by decide), htag _ (show ["R", "ARCH", "ARCHITECTURE"] ∈ ruleTags by decide),
    htag _ (show ["K", "KERN", "KERNEL"] ∈ ruleTags by decide)]
  rfl

/-- The line of the package list, from the flags that the line adds. -/
theorem listLine_eq (d : DescFile) {t : Text} {g : List Text}
    (hline : ∀ s : Awk, s.line arch kernel (bracketed t ++ r.rest) = { s with flags := s.flags ++ g }) :
    listLine arch kernel { d with lines := r.lines t } =
      if truthy (r.around arch kernel d).pkgtree then
        some (printPackage { r.around arch kernel d with
          flags := (r.pre.foldl (Awk.line arch kernel) (Awk.start d)).flags ++ (g ++ r.post.flatMap lineFlags) })
      else none := by
  have hfold : (r.lines t).foldl (Awk.line arch kernel) (Awk.start d) = { r.around arch kernel d with
      flags := (r.pre.foldl (Awk.line arch kernel) (Awk.start d)).flags ++ (g ++ r.post.flatMap lineFlags) } := by
    rw [Renaming.lines, List.foldl_append, List.foldl_cons, hline, foldl_flags, Renaming.around, List.foldl_append,
      List.append_assoc]
  have hne : ¬ r.lines t = [] := by simp [Renaming.lines]
  rw [listLine, record, if_neg hne]
  simp only [show Awk.start { d with lines := r.lines t } = Awk.start d from rfl, hfold]
  split <;> rfl

theorem around_pkgtree (d : DescFile) :
    (r.around arch kernel d).pkgtree = if (r.pre ++ r.post).any (drops arch kernel) then [] else d.repository :=
  foldl_pkgtree arch kernel _ _

/-- With `F` the flags of the line show, with `FLAG` they do not. -/
theorem flag_renamed (r : Renaming) :
    (∀ arch kernel (d : DescFile), listLine arch kernel { d with lines := r.lines flagTag } =
      listLine arch kernel { d with lines := r.lines longFlagTag }) ↔
      r.flags = [] ∨ ∀ arch kernel, ∃ l ∈ r.pre ++ r.post, drops arch kernel l = true := by
  have hlong : ∀ {arch kernel : Text} (s : Awk), s.line arch kernel (bracketed longFlagTag ++ r.rest) =
      { s with flags := s.flags ++ [] } := fun s => by rw [longFlag_line, List.append_nil]
  constructor
  · intro h
    by_cases hflags : r.flags = []
    · exact .inl hflags
    · refine .inr fun arch kernel => ?_
      by_contra hnone
      have hany : (r.pre ++ r.post).any (drops arch kernel) = false := by
        rw [Bool.eq_false_iff]
        exact fun hany => hnone (List.any_eq_true.1 hany)
      have hsame := h arch kernel ⟨"base".toList, "zlib".toList, [], by decide, by decide, by decide⟩
      rw [listLine_eq _ fun s => flag_line s r.rest, listLine_eq _ hlong, around_pkgtree, hany, if_pos (by decide),
        if_pos (by decide), Option.some.injEq] at hsame
      exact hflags (printPackage_flags hsame)
  · rintro (hflags | hdrops) arch kernel d
    · rw [listLine_eq d fun s => flag_line s r.rest, listLine_eq d hlong, ← Renaming.flags, hflags]
    · have hany : (r.pre ++ r.post).any (drops arch kernel) = true := List.any_eq_true.2 (hdrops arch kernel)
      rw [listLine_eq d fun s => flag_line s r.rest, listLine_eq d hlong, around_pkgtree, hany]
      rfl

/-- With two names in one rule the line acts alike. -/
theorem record_sameRule (hrules : ∀ tags ∈ ruleTags, tags.any (·.toList == r.tag) = tags.any (·.toList == r.synonym))
    (d : DescFile) :
    record arch kernel { d with lines := r.lines r.tag } =
      record arch kernel { d with lines := r.lines r.synonym } := by
  have hline : ∀ s : Awk, s.line arch kernel (bracketed r.tag ++ r.rest) =
      s.line arch kernel (bracketed r.synonym ++ r.rest) := by
    refine Awk.line_congr (fun tags htags => ?_) ?_ arch kernel
    · rw [hasTag_bracketed htags (noBracket_of_upper r.tag_upper),
        hasTag_bracketed htags (noBracket_of_upper r.synonym_upper), hrules tags htags]
    · rw [split_bracketed r.tag_upper, split_bracketed r.synonym_upper]
  have hfold : ∀ s : Awk, (r.lines r.tag).foldl (Awk.line arch kernel) s =
      (r.lines r.synonym).foldl (Awk.line arch kernel) s := fun s => by
    simp only [Renaming.lines, List.foldl_append, List.foldl_cons, hline]
  have hne : ∀ t, r.lines t ≠ [] := fun t => by simp [Renaming.lines]
  rw [record, record, if_neg (hne _), if_neg (hne _)]
  simp only [hfold]
  rfl

/-- **`Create-PkgList`** prints the same line exactly if `PrintSame`. -/
theorem print_renamed (r : Renaming) :
    (∀ arch kernel (d : DescFile), listLine arch kernel { d with lines := r.lines r.tag } =
      listLine arch kernel { d with lines := r.lines r.synonym }) ↔ PrintSame r := by
  unfold PrintSame
  rcases sameRule_or_flag r.listed with hrules | ⟨htag, hsyn⟩
  · refine iff_of_true (fun arch kernel d => ?_) (.inl (noFlag_of_sameRule r.listed r.ne hrules))
    rw [listLine, listLine, record_sameRule hrules]
  · have hne := r.ne
    rcases htag with htag | htag
    · have hsyn : r.synonym = longFlagTag := hsyn.resolve_left fun h => hne (htag.trans h.symm)
      rw [htag, hsyn, flag_renamed]
      simp
    · have hsyn : r.synonym = flagTag := hsyn.resolve_right fun h => hne (htag.trans h.symm)
      have hsymm : (∀ arch kernel (d : DescFile), listLine arch kernel { d with lines := r.lines longFlagTag } =
          listLine arch kernel { d with lines := r.lines flagTag }) ↔
          ∀ arch kernel (d : DescFile), listLine arch kernel { d with lines := r.lines flagTag } =
            listLine arch kernel { d with lines := r.lines longFlagTag } :=
        ⟨fun h arch kernel d => (h arch kernel d).symm, fun h arch kernel d => (h arch kernel d).symm⟩
      rw [htag, hsyn, hsymm, flag_renamed]
      simp

end

/-- **When a synonym can be taken**: the variables and the line of the package list stay the same. -/
theorem synonym_invariant (r : Renaming) :
    ((∀ pre post, parseDesc (pre ++ r.before :: post) = parseDesc (pre ++ r.after :: post)) ∧
      ∀ arch kernel (d : DescFile), listLine arch kernel { d with lines := r.before.lines } =
        listLine arch kernel { d with lines := r.after.lines }) ↔ ParseSame r ∧ PrintSame r :=
  and_congr (parse_renamed r) (print_renamed r)

/-- `[I] zlib` and `[TITLE] zlib` -/
def titled : Renaming where
  pre := []
  rest := " zlib".toList
  post := []
  tag := "I".toList
  synonym := "TITLE".toList
  listed := by decide +kernel
  ne := by decide
  lineEnd := by decide

/-- `[F] DIETLIBC` and `[FLAG] DIETLIBC` -/
def flagged : Renaming where
  pre := []
  rest := " DIETLIBC".toList
  post := []
  tag := "F".toList
  synonym := "FLAG".toList
  listed := by decide +kernel
  ne := by decide
  lineEnd := by decide

/-- The title is filed as the description, and the flag is not listed. -/
theorem synonym_differs :
    parseDesc [titled.before] ≠ parseDesc [titled.after] ∧
      listLine "x86".toList "linux".toList ⟨"base".toList, "zlib".toList, flagged.before.lines,
          by decide, by decide, by decide⟩ ≠
        listLine "x86".toList "linux".toList ⟨"base".toList, "zlib".toList, flagged.after.lines,
          by decide, by decide, by decide⟩ := by
  constructor
  · intro h
    have htitle : (parseDesc [titled.before]).map (fun v => v.desc ['I']) = some (some "zlib".toList) := by
      decide +kernel
    rw [h] at htitle
    revert htitle
    decide +kernel
  · decide +kernel

end T2Sde.Desc
