import T2Sde.Desc.Parse
/-!
# Overlays

What a variable of `parse_desc` should hold are the values of the last file with a line under its key, as they
stand (`values`). What it holds are the values of the last file from which a line is read under it (`reads`). The
two are the same where the lines are written so that `read` leaves them alone (`Clean`).

* `reads_eq_values` — a file is read as it stands exactly if it is clean.
* `desc_eq_expected` — so is a variable, unless an earlier file repeats what is lost.
* `version_eq` — `ver` and `extraver` are the first word and the rest.
* `parseDesc_meets` — **when `parse_desc` gives the overlays**.
-/
namespace T2Sde.Desc
open Shell

/-- The values under a key as they stand in the file. -/
def values (k : Text) (f : File) : List Text :=
  f.lines.filterMap fun l => (tagLine l).bind fun x => if key x.1 = some k then some x.2 else none

/-- The last file with a line under the key. -/
def lastWith (k : Text) (files : List File) : Option File := (files.filter (values k · ≠ [])).getLast?

def expected (k : Text) (files : List File) : Option Text :=
  (lastWith k files).map fun f => ['\n'].intercalate (values k f)

/-- The last `V` value. -/
def lastVersion (files : List File) : Text :=
  ((lastWith ['V'] files).bind fun f => (values ['V'] f).getLast?).getD []

def firstWord (s : Text) : Text := (s.dropWhile isBlank).takeWhile (!isBlank ·)

/-- What stands behind the first word and one blank. -/
def restOf (s : Text) : Text := ((s.dropWhile isBlank).dropWhile (!isBlank ·)).drop 1

/-- The values of the last files that have them, and the parts of the version. -/
def Meets (files : List File) : Prop :=
  ∃ v, parseDesc files = some v ∧ (∀ c : Char, v.desc [c] = expected [c] files) ∧
    v.ver = firstWord (lastVersion files) ∧ v.extraver = restOf (lastVersion files)

/-! ## Clean files -/

/-- A value that `read` leaves alone: not empty, no backslash, no blank at the end. -/
structure PlainValue (v : Text) : Prop where
  ne : v ≠ []
  backslash : '\\' ∉ v
  trim : trimEnd v = v

/-- The lines under the key are plain, and no line before runs into one of them. -/
def Clean (k : Text) : Bool → List Text → Prop
  | _, [] => True
  | into, l :: ls =>
    (∀ t v, tagLine l = some (t, v) → key t = some k → into = false ∧ PlainValue v) ∧ Clean k (runsOn l) ls

/-- What is read of the lines under a key. -/
def readsFrom (k : Text) (into : Bool) (lines : List Text) : List Text :=
  (starts into lines).filterMap fun x =>
    (joined x.1 x.2).bind fun m => (filed m).bind fun x => if x.1 = k then some x.2 else none

def valuesFrom (k : Text) (lines : List Text) : List Text :=
  lines.filterMap fun l => (tagLine l).bind fun x => if key x.1 = some k then some x.2 else none

theorem runsOn_tagged {l t v : Text} (h : tagLine l = some (t, v)) : runsOn l = runsOn v := by
  rw [runsOn, unescape_tagged h]
  rfl

theorem PlainValue.runsOn {v : Text} (h : PlainValue v) : runsOn v = false := by
  rw [Shell.runsOn, unescape_plain h.backslash]

/-- A value is read as it stands only if it is plain. -/
theorem plain_of_valueOf {t v : Text} (ht : ∀ c ∈ t, Lua.isUpper c = true) {z : List ReadChar}
    (hz : z = [] ∨ z.head? = some ('[', false)) (h : valueOf t ((unescape v).1 ++ z) = v) : PlainValue v := by
  have hback : '\\' ∉ v := by
    unfold valueOf at h
    split at h
    · -- the tag stands for the value
      exact h ▸ not_mem_bracketed ht
    · have hpre : trimEnd (text ((unescape v).1 ++ z)) <+: text ((unescape v).1 ++ z) := List.rdropWhile_prefix _ _
      rw [h, text_append] at hpre
      refine not_mem_of_prefix_unescape ?_ hpre
      rcases hz with rfl | hz
      · simp
      · cases z with
        | nil => simp
        | cons x z =>
          obtain rfl : x = ('[', false) := by simpa using hz
          simp
  exact ⟨h ▸ valueOf_ne t _, hback, by rw [← h]; exact trimEnd_valueOf ht _⟩

theorem valueOf_plain {t v : Text} (h : PlainValue v) : valueOf t (unescape v).1 = v := by
  rw [unescape_plain h.backslash, valueOf, text_plain, h.trim, if_neg h.ne]

/-- One line under the key: it is read as it stands exactly if its value is plain. -/
theorem read_line {k l t v : Text} {ls : List Text} (hl : tagLine l = some (t, v)) (hk : key t = some k)
    (hls : ∀ l' ∈ ls, (tagLine l').isSome = true) :
    (joined l ls).bind (fun m => (filed m).bind fun x => if x.1 = k then some x.2 else none) = some v ↔
      PlainValue v := by
  constructor
  · intro h
    obtain ⟨m, hm, h⟩ := Option.bind_eq_some_iff.1 h
    obtain ⟨z, hz, hr⟩ := filed_joined hl hls hm
    rw [hr, hk, Option.map_some, Option.bind_some, if_pos rfl] at h
    exact plain_of_valueOf (tagLine_eq hl).2 hz (Option.some.inj h)
  · intro h
    have hr := filed_tagged hl []
    rw [List.append_nil, List.append_nil, valueOf_plain h, hk] at hr
    rw [joined_alone ((runsOn_tagged hl).trans h.runsOn), Option.bind_some, hr]
    simp

/-- A line that is not under the key. -/
theorem read_other {k l t v : Text} {ls : List Text} (hl : tagLine l = some (t, v)) (hk : key t ≠ some k)
    (hls : ∀ l' ∈ ls, (tagLine l').isSome = true) :
    (joined l ls).bind (fun m => (filed m).bind fun x => if x.1 = k then some x.2 else none) = none := by
  cases hm : joined l ls with
  | none => rfl
  | some m =>
    obtain ⟨z, -, hr⟩ := filed_joined hl hls hm
    rw [Option.bind_some, hr]
    cases ht : key t with
    | none => rfl
    | some k' =>
      have hne : k' ≠ k := fun h => hk (by rw [ht, h])
      simp [hne]

/-- **A file is read as it stands** exactly if it is clean; nothing is read that is not there. -/
theorem readsFrom_eq {k : Text} {lines : List Text} (htag : ∀ l ∈ lines, (tagLine l).isSome = true) (into : Bool) :
    (readsFrom k into lines).length ≤ (valuesFrom k lines).length ∧
      (readsFrom k into lines = valuesFrom k lines ↔ Clean k into lines) := by
  induction lines generalizing into with
  | nil => simp [readsFrom, valuesFrom, starts, Clean]
  | cons l ls ih =>
    obtain ⟨hl, hls⟩ := List.forall_mem_cons.1 htag
    obtain ⟨⟨t, v⟩, ht⟩ := Option.isSome_iff_exists.1 hl
    obtain ⟨hlen, hiff⟩ := ih hls (runsOn l)
    by_cases hk : key t = some k
    · have hvalues : valuesFrom k (l :: ls) = v :: valuesFrom k ls := by simp [valuesFrom, ht, hk]
      have hclean : Clean k into (l :: ls) ↔ (into = false ∧ PlainValue v) ∧ Clean k (runsOn l) ls := by
        simp [Clean, ht, hk]
      rw [hvalues, hclean]
      cases into with
      | true =>
        have hreads : readsFrom k true (l :: ls) = readsFrom k (runsOn l) ls := rfl
        rw [hreads, List.length_cons]
        refine ⟨by omega, fun h => ?_, by simp⟩
        have := congrArg List.length h
        rw [List.length_cons] at this
        omega
      | false =>
        have hline := read_line ht hk hls
        have hreads : readsFrom k false (l :: ls) =
            ((joined l ls).bind fun m => (filed m).bind fun x => if x.1 = k then some x.2 else none).toList ++
              readsFrom k (runsOn l) ls := by
          rw [readsFrom, starts, if_neg (by simp), List.filterMap_cons]
          split <;> simp_all [readsFrom]
        rw [hreads]
        cases hr : (joined l ls).bind fun m => (filed m).bind fun x => if x.1 = k then some x.2 else none with
        | none =>
          rw [hr] at hline
          have hnot : ¬ PlainValue v := fun h => by simpa using hline.2 h
          simp only [Option.toList_none, List.nil_append, List.length_cons, hnot, and_false, false_and, iff_false]
          refine ⟨by omega, fun h => ?_⟩
          have := congrArg List.length h
          rw [List.length_cons] at this
          omega
        | some w =>
          rw [hr, Option.some.injEq] at hline
          simp [hline, hiff, hlen]
    · have hvalues : valuesFrom k (l :: ls) = valuesFrom k ls := by simp [valuesFrom, ht, hk]
      have hclean : Clean k into (l :: ls) ↔ Clean k (runsOn l) ls := by simp [Clean, ht, hk]
      have hreads : readsFrom k into (l :: ls) = readsFrom k (runsOn l) ls := by
        cases into with
        | true => rfl
        | false =>
          have hother := read_other ht hk hls
          rw [readsFrom, starts, if_neg (by simp), List.filterMap_cons]
          simp only [hother]
          rfl
      rw [hvalues, hclean, hreads]
      exact ⟨hlen, hiff⟩

theorem values_eq (k : Text) (f : File) : values k f = valuesFrom k f.tagged := by
  unfold values valuesFrom File.tagged
  rw [List.filterMap_filter]
  congr 1
  funext l
  cases tagLine l <;> rfl

theorem reads_eq_readsFrom (k : Text) (f : File) : reads k f = readsFrom k false f.tagged := reads_eq k f

theorem length_reads_le (k : Text) (f : File) : (reads k f).length ≤ (values k f).length := by
  rw [reads_eq, values_eq]
  exact (readsFrom_eq (fun l => tagged_isSome) false).1

theorem reads_eq_values (k : Text) (f : File) : reads k f = values k f ↔ Clean k false f.tagged := by
  rw [reads_eq, values_eq]
  exact (readsFrom_eq (fun l => tagged_isSome) false).2

/-! ## Several files -/

/-- Nothing is read of the lines under the key, and the last file of which something is read says the same. -/
def Repeated (k : Text) (files : List File) (f : File) : Prop := reads k f = [] ∧ lastReads k files = some (values k f)

/-- The last file with a line under the key is clean. -/
def Faithful (k : Text) (files : List File) : Prop :=
  ∀ f, lastWith k files = some f → Clean k false f.tagged ∨ Repeated k files f

theorem lastWith_cons (k : Text) (f : File) (files : List File) :
    lastWith k (f :: files) = (lastWith k files).or (if values k f = [] then none else some f) := by
  unfold lastWith
  by_cases h : values k f = []
  · rw [List.filter_cons_of_neg (by simp [h]), if_pos h, Option.or_none]
  · rw [List.filter_cons_of_pos (by simp [h]), if_neg h, List.getLast?_cons]
    cases (files.filter (values k · ≠ [])).getLast? <;> rfl

theorem values_lastWith {k : Text} {files : List File} {f : File} (h : lastWith k files = some f) :
    f ∈ files ∧ values k f ≠ [] := by
  have hmem := List.mem_of_getLast? h
  simpa using List.mem_filter.1 hmem

/-- Where nothing stands, nothing is read, and the file that is read last is the last one with a line. -/
theorem lastReads_of_lastWith (k : Text) (files : List File) :
    (lastWith k files = none → lastReads k files = none) ∧
      ∀ f, lastWith k files = some f → reads k f ≠ [] → lastReads k files = some (reads k f) := by
  induction files with
  | nil => exact ⟨fun _ => rfl, fun f hf => by simp [lastWith] at hf⟩
  | cons g files ih =>
    rw [lastWith_cons, lastReads_cons]
    cases hw : lastWith k files with
    | some f =>
      refine ⟨by simp, fun f' hf' hr => ?_⟩
      obtain rfl : f = f' := by simpa using hf'
      rw [ih.2 f hw hr]
      rfl
    | none =>
      rw [ih.1 hw, Option.none_or, Option.none_or]
      by_cases hv : values k g = []
      · have hr : reads k g = [] := by
          have hlen := length_reads_le k g
          rw [hv] at hlen
          exact List.eq_nil_of_length_eq_zero (by simpa using hlen)
        simp [hv, hr]
      · refine ⟨by simp [hv], fun f hf hr => ?_⟩
        obtain rfl : g = f := by simpa [hv] using hf
        rw [if_neg hr]

theorem values_lineEnd {k : Text} {f : File} : ∀ v ∈ values k f, '\n' ∉ v := by
  intro v hv hc
  obtain ⟨l, hl, h⟩ := List.mem_filterMap.1 hv
  obtain ⟨⟨t, e⟩, ht, h⟩ := Option.bind_eq_some_iff.1 h
  obtain rfl : e = v := by
    split at h
    · simpa using h
    · simp at h
  refine f.lineEnd l hl ?_
  rw [(tagLine_eq ht).1]
  simp [hc]

theorem appendAll_reads (k : Text) (f : File) : appendAll [] (reads k f) = ['\n'].intercalate (reads k f) :=
  appendAll_eq fun _ hv => (mem_reads hv).1

theorem lastReads_some {k : Text} {files : List File} {vs : List Text} (h : lastReads k files = some vs) :
    vs ≠ [] ∧ ∃ f ∈ files, vs = reads k f := by
  have hmem := List.mem_of_getLast? h
  obtain ⟨hmem, hne⟩ := List.mem_filter.1 hmem
  obtain ⟨f, hf, rfl⟩ := List.mem_map.1 hmem
  exact ⟨by simpa using hne, f, hf, rfl⟩

/-- **A variable** holds what it should exactly if the file is clean, or what is lost of it is repeated. -/
theorem desc_eq_expected (k : Text) (files : List File) :
    (lastReads k files).map (appendAll []) = expected k files ↔ Faithful k files := by
  obtain ⟨hnone, hsome⟩ := lastReads_of_lastWith k files
  unfold expected Faithful
  cases hw : lastWith k files with
  | none => simp [hnone hw]
  | some f =>
    obtain ⟨-, hv⟩ := values_lastWith hw
    have hclean := reads_eq_values k f
    simp only [Option.map_some, Option.some.injEq, forall_eq']
    cases hr : lastReads k files with
    | none =>
      have hread : reads k f = [] := by
        by_contra hne
        simp [hsome f hw hne] at hr
      rw [hread] at hclean
      simp [Repeated, hr, ← hclean, Ne.symm hv]
    | some vs =>
      obtain ⟨hne, g, -, rfl⟩ := lastReads_some hr
      have hlines : ∀ v ∈ reads k g, '\n' ∉ v := fun v hv => (mem_reads hv).2.1
      rw [Option.map_some, Option.some.injEq, appendAll_reads, intercalate_inj hlines values_lineEnd hne hv]
      by_cases hread : reads k f = []
      · rw [hread] at hclean
        simp [Repeated, hr, hread, ← hclean, Ne.symm hv]
      · have hsame : reads k g = reads k f := by simpa [hr] using hsome f hw hread
        rw [hsame, hclean]
        simp [Repeated, hread]

/-! ## The version -/

/-- A version starts with a word that a space follows, not a tab. -/
def Started (v : Text) : Prop := v.head? ≠ some ' ' ∧ '\t' ∉ upToSpace v

/-- Its first word, taken as a pattern, takes itself off (or itself and the only blank behind it). -/
def TakesOff (v : Text) : Prop :=
  let rest := v.drop (upToSpace v).length
  stripPrefix (upToSpace v) v = rest ∨
    stripPrefix (upToSpace v) v = rest.drop 1 ∧ (rest.drop 1).head? ≠ some ' '

section
variable {v : Text}

theorem isBlank_space : isBlank ' ' = true := rfl

/-- The text up to its first space, and what is behind. -/
theorem space_split (v : Text) : ∃ r, v = upToSpace v ++ r ∧ (r = [] ∨ ∃ r', r = ' ' :: r') := by
  refine ⟨v.dropWhile (· != ' '), (List.takeWhile_append_dropWhile).symm, ?_⟩
  have hd := List.head?_dropWhile_not (· != ' ') v
  cases h : v.dropWhile (· != ' ') with
  | nil => exact .inl rfl
  | cons c r =>
    rw [h] at hd
    obtain rfl : c = ' ' := by simpa using hd
    exact .inr ⟨r, rfl⟩

theorem Started.noBlank (h : Started v) (hline : '\n' ∉ v) : ∀ c ∈ upToSpace v, isBlank c = false := by
  intro c hc
  by_contra hb
  have hcase : c = ' ' ∨ c = '\t' ∨ c = '\n' := by
    simpa [isBlank, or_assoc, or_iff_not_imp_left] using hb
  rcases hcase with rfl | rfl | rfl
  · simpa using List.mem_takeWhile_imp hc
  · exact h.2 hc
  · exact hline ((List.takeWhile_sublist _).subset hc)

/-- The first word of a version that starts with one. -/
theorem Started.split (h : Started v) (hline : '\n' ∉ v) :
    ∃ r, v = upToSpace v ++ r ∧ (r = [] ∨ ∃ r', r = ' ' :: r') ∧ v.drop (upToSpace v).length = r ∧
      firstWord v = upToSpace v ∧ restOf v = r.drop 1 := by
  obtain ⟨r, hv, hr⟩ := space_split v
  have hw := h.noBlank hline
  have hdrop : v.dropWhile isBlank = v := by
    cases hu : upToSpace v with
    | nil =>
      rcases hr with rfl | ⟨r', rfl⟩
      · rw [hv, hu]
        rfl
      · refine absurd ?_ h.1
        rw [hv, hu]
        rfl
    | cons c w =>
      have hc := hw c (by simp [hu])
      rw [hv, hu, List.cons_append, List.dropWhile_cons_of_neg (by simp [hc])]
  have htake : (upToSpace v ++ r).takeWhile (!isBlank ·) = upToSpace v := by
    rw [List.takeWhile_append_of_pos (by simpa using hw)]
    rcases hr with rfl | ⟨r', rfl⟩
    · simp
    · rw [List.takeWhile_cons_of_neg (by simp [isBlank_space]), List.append_nil]
  have hrest : (upToSpace v ++ r).dropWhile (!isBlank ·) = r := by
    rw [List.dropWhile_append_of_pos (by simpa using hw)]
    rcases hr with rfl | ⟨r', rfl⟩
    · rfl
    · rw [List.dropWhile_cons_of_neg (by simp [isBlank_space])]
  have hlength := congrArg (List.drop (upToSpace v).length) hv
  rw [List.drop_left] at hlength
  refine ⟨r, hv, hr, hlength, ?_, ?_⟩
  · rw [firstWord, hdrop]
    conv_lhs => rw [hv]
    exact htake
  · rw [restOf, hdrop]
    conv_lhs => rw [hv]
    rw [hrest]

/-- A text that does not end with a blank has a first word. -/
theorem firstWord_ne (hne : v ≠ []) (htrim : trimEnd v = v) : firstWord v ≠ [] := by
  have hd : v.dropWhile isBlank ≠ [] := by
    intro h
    have hall := trimEnd_eq_nil.2 (List.dropWhile_eq_nil_iff.1 h)
    exact hne (htrim ▸ hall)
  have hhead := List.head?_dropWhile_not isBlank v
  obtain ⟨c, s, hs⟩ := List.exists_cons_of_ne_nil hd
  rw [hs] at hhead
  rw [firstWord, hs, List.takeWhile_cons_of_pos (by simpa using hhead)]
  simp

theorem started_of_firstWord (hv : v = [] ∨ v ≠ [] ∧ trimEnd v = v) (h : upToSpace v = firstWord v) : Started v := by
  constructor
  · intro hhead
    obtain ⟨hne, htrim⟩ := hv.resolve_left (by rintro rfl; simp at hhead)
    refine firstWord_ne hne htrim ?_
    rw [← h]
    cases v with
    | nil => rfl
    | cons c s =>
      obtain rfl : c = ' ' := by simpa using hhead
      rfl
  · intro htab
    rw [h] at htab
    have := List.mem_takeWhile_imp htab
    revert this; decide

/-- **The version**: its parts are the first word and the rest exactly if it starts with a word that takes itself off
as a pattern. -/
theorem version_eq {s : Text} (hs : lastLine s = v) (hline : '\n' ∉ v) (hv : v = [] ∨ v ≠ [] ∧ trimEnd v = v) :
    (version s).1 = firstWord v ∧ (version s).2 = restOf v ↔ Started v ∧ TakesOff v := by
  simp only [version, TakesOff, hs]
  constructor
  · rintro ⟨hver, hextra⟩
    have hstart := started_of_firstWord hv hver
    obtain ⟨r, hsplit, hr, hdrop, -, hrest⟩ := hstart.split hline
    refine ⟨hstart, ?_⟩
    rw [hdrop]
    rw [hrest] at hextra
    by_cases hx : (stripPrefix (upToSpace v) v).head? = some ' '
    · rw [if_pos hx] at hextra
      obtain ⟨x, hxs⟩ : ∃ x, stripPrefix (upToSpace v) v = ' ' :: x := by
        cases hxs : stripPrefix (upToSpace v) v with
        | nil => simp [hxs] at hx
        | cons c x => exact ⟨x, by simpa [hxs] using hx⟩
      rcases hr with rfl | ⟨r', rfl⟩
      · -- nothing is behind the word, so no blank can be left
        have hmem : ' ' ∈ v := (stripPrefix_suffix (upToSpace v) v).subset (by simp [hxs])
        rw [hsplit, List.append_nil] at hmem
        simpa using List.mem_takeWhile_imp hmem
      · rw [hxs] at hextra ⊢
        exact .inl (by simpa using hextra)
    · rw [if_neg hx] at hextra
      exact .inr ⟨hextra, hextra ▸ hx⟩
  · rintro ⟨hstart, htakes⟩
    obtain ⟨r, hsplit, hr, hdrop, hfirst, hrest⟩ := hstart.split hline
    rw [hdrop] at htakes
    refine ⟨hfirst.symm, ?_⟩
    rw [hrest]
    rcases htakes with h | ⟨h, hhead⟩
    · rw [h]
      rcases hr with rfl | ⟨r', rfl⟩
      · rfl
      · simp
    · rw [h, if_neg hhead]

end

/-! ## `parse_desc` -/

/-- How the files must be written. -/
structure Written (files : List File) : Prop where
  /-- No line with empty brackets is read. -/
  named : ∀ f ∈ files, reads [] f = []
  faithful : ∀ c : Char, Faithful [c] files
  started : Started (lastVersion files)
  takesOff : TakesOff (lastVersion files)

theorem Faithful.reads {k : Text} {files : List File} (h : Faithful k files) {f : File}
    (hf : lastWith k files = some f) : ∃ g ∈ files, values k f = reads k g := by
  rcases h f hf with hclean | ⟨-, hrepeat⟩
  · exact ⟨f, (values_lastWith hf).1, ((reads_eq_values k f).2 hclean).symm⟩
  · obtain ⟨-, g, hg, heq⟩ := lastReads_some hrepeat
    exact ⟨g, hg, heq⟩

theorem mem_lastVersion {files : List File} (h : lastVersion files ≠ []) :
    ∃ f, lastWith ['V'] files = some f ∧ lastVersion files ∈ values ['V'] f := by
  unfold lastVersion at h ⊢
  cases hw : lastWith ['V'] files with
  | none => simp [hw] at h
  | some f =>
    refine ⟨f, rfl, ?_⟩
    cases hv : (values ['V'] f).getLast? with
    | none => simp [hw, hv] at h
    | some v =>
      rw [Option.bind_some, hv]
      exact List.mem_of_getLast? hv

theorem lastVersion_lineEnd (files : List File) : '\n' ∉ lastVersion files := by
  by_cases h : lastVersion files = []
  · simp [h]
  · obtain ⟨f, -, hmem⟩ := mem_lastVersion h
    exact values_lineEnd _ hmem

theorem lastVersion_trim {files : List File} (h : Faithful ['V'] files) :
    lastVersion files = [] ∨ lastVersion files ≠ [] ∧ trimEnd (lastVersion files) = lastVersion files := by
  by_cases hne : lastVersion files = []
  · exact .inl hne
  · obtain ⟨f, hf, hmem⟩ := mem_lastVersion hne
    obtain ⟨g, -, heq⟩ := h.reads hf
    rw [heq] at hmem
    exact .inr ⟨hne, (mem_reads hmem).2.2⟩

theorem lastLine_expected (files : List File) : lastLine ((expected ['V'] files).getD []) = lastVersion files := by
  unfold expected lastVersion
  cases lastWith ['V'] files with
  | none => rfl
  | some f => exact lastLine_intercalate values_lineEnd

theorem meets_iff (files : List File) : Meets files ↔ Written files := by
  by_cases hnamed : ∀ f ∈ files, reads [] f = []
  · obtain ⟨v, hv, hdesc, hversion⟩ := parseDesc_eq hnamed
    have hkey : ∀ k, v.desc k = expected k files ↔ Faithful k files := fun k => by
      rw [hdesc, desc_eq_expected]
    have hparts : Faithful ['V'] files →
        (v.ver = firstWord (lastVersion files) ∧ v.extraver = restOf (lastVersion files) ↔
          Started (lastVersion files) ∧ TakesOff (lastVersion files)) := by
      intro hf
      have hlast := lastLine_expected files
      rw [← (hkey ['V']).2 hf] at hlast
      have heq := version_eq hlast (lastVersion_lineEnd files) (lastVersion_trim hf)
      rwa [← hversion] at heq
    constructor
    · rintro ⟨v', hv', hdesc', hver⟩
      obtain rfl : v = v' := Option.some.inj (hv.symm.trans hv')
      have hfaithful : ∀ c : Char, Faithful [c] files := fun c => (hkey [c]).1 (hdesc' c)
      obtain ⟨hstart, htakes⟩ := (hparts (hfaithful 'V')).1 hver
      exact ⟨hnamed, hfaithful, hstart, htakes⟩
    · intro h
      exact ⟨v, hv, fun c => (hkey [c]).2 (h.faithful c), (hparts (h.faithful 'V')).2 ⟨h.started, h.takesOff⟩⟩
  · constructor
    · rintro ⟨v, hv, -⟩
      simp only [not_forall] at hnamed
      obtain ⟨f, hf, hr⟩ := hnamed
      rw [parseDesc_none hf hr] at hv
      simp at hv
    · intro h
      exact absurd h.named hnamed

/-- **Overlays**: `parse_desc` gives the values of the last file that has them, and the parts of the version, exactly
if no such value is empty, ends with a blank, has a backslash or stands behind a line that ends with one (or is lost
and repeated), and the version starts with a word and a space. -/
theorem parseDesc_meets (o : Overlays) : Meets o.files ↔ Written o.files := meets_iff o.files

/-- A package with a backslash in its title. -/
def toolsDesc : Overlays := ⟨⟨["[I] The C:\\bin tools".toList, "[V] 1.0".toList], by decide⟩, none, none⟩

/-- The backslash is lost. -/
theorem parseDesc_backslash :
    (parseDesc toolsDesc.files).map (fun v => v.desc ['I']) = some (some "The C:bin tools".toList) ∧
      ¬ Meets toolsDesc.files := by
  have hread : (parseDesc toolsDesc.files).map (fun v => v.desc ['I']) = some (some "The C:bin tools".toList) := by
    decide +kernel
  refine ⟨hread, ?_⟩
  rintro ⟨v, hv, hdesc, -⟩
  rw [hv, Option.map_some, hdesc 'I'] at hread
  revert hread
  decide +kernel

end T2Sde.Desc
