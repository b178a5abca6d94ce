import T2Sde.Desc.Overlay
/-!
# Sources

`scripts/Download` takes the sources of a package from `desc_D`, the build from the first file that has a line
`[D]`. Both name the same files if all the lines that `parse_desc` files under `D` are written `[D]`, with a space
behind the checksum, and no later file hides them.

| here | there |
| --- | --- |
| `sourceFile`      | `source_file` (`scripts/functions.in`) :1304-1318 |
| `matchSourceFile` | `match_source_file -p .` :1323-1354 |
| `populated`       | the loop of `populate_archdir` :1358-1372 |
| `asked`           | `package` (`scripts/Download`) :832-844 |

* `asked_eq`, `populated_eq` — the files of the lines.
* `sources_agree` — **when the build needs what is downloaded**.
-/
namespace T2Sde.Desc
open Shell

/-- `echo` of an unquoted text -/
def echoWords (s : Text) : Text := [' '].intercalate (words s)

/-- `$pre/download/$mirror/${file:0:1}/$file` -/
def sourcePath (pre : Text) (url file : Text) : Text :=
  pre ++ "download/".toList ++ (if url.head? = some '-' then "local".toList else "mirror".toList) ++
    '/' :: (file.take 1 ++ '/' :: file)

/-- `pre` is set in the build only. -/
def sourceFile (pre : Text) (args : List Text) : Text := echoWords (sourcePath pre (args.getD 2 []) (args.getD 1 []))

/-- A text that `echo` takes for its options. -/
def isOptions (s : Text) : Bool := s.head? = some '-' && 2 ≤ s.length && (s.drop 1).all ("neE".toList.contains ·)

/-- The lines of `echo "$s"` -/
def echo (s : Text) : List Text :=
  if isOptions s then if s.contains 'n' then [] else [[]] else s.splitOn '\n'

/-- `read cksum file url`, and the path for them. -/
def downloadPath (m : List ReadChar) : Text :=
  let fields := readFields 2 m
  sourceFile [] ("cksum".toList :: words (fields.getD 1 []) ++ [fields.getD 2 []])

/-- The files of a package that are downloaded. -/
def asked (o : Overlays) : List Text :=
  match parseDesc o.files with
  | none => []
  | some v => (logical (echo ((v.desc ['D']).getD []))).map downloadPath

/-- `^\[D\]` -/
def opens (l : Text) : Bool := "[D]".toList.isPrefixOf l

/-- `^\[D\] [^ ]* .*.` -/
def needs (l : Text) : Bool := "[D] ".toList.isPrefixOf l && 2 ≤ ((l.drop 4).dropWhile (· != ' ')).length

/-- The lines that are found in the files; the search ends at one with a line `[D]`. -/
def search : List File → List Text
  | [] => []
  | f :: fs => f.lines.filter needs ++ if f.lines.any opens then [] else search fs

/-- `read x x file url x`, and the path for them. -/
def matchPath (base : Text) (m : List ReadChar) : Text :=
  let fields := readFields 4 m
  echoWords (sourcePath (base ++ ['/']) (fields.getD 3 []) (fields.getD 2 []))

def matchSourceFile (base : Text) (o : Overlays) : List Text :=
  (logical (search (o.target.toList ++ o.architecture.toList ++ [o.package]))).map (matchPath base)

/-- The files that the build looks for. -/
def populated (base : Text) (o : Overlays) : List Text := (matchSourceFile base o).flatMap words

/-- The same files in the same order. -/
def SameSources (o : Overlays) : Prop :=
  ∀ base, IsWord base → populated base o = (asked o).map fun path => base ++ '/' :: path

/-! ## The file of a line -/

/-- The third word of a line is the file, and a `-` before the fourth one keeps it from the mirrors. -/
def lineFile (l : Text) : Text :=
  let s := text (unescape l).1
  sourcePath [] (wordAt 3 s) (wordAt 2 s)

def linesUnder (k : Text) (f : File) : List Text :=
  f.tagged.filter fun l => ((tagLine l).bind fun x => key x.1) = some k

/-- The lines from which `parse_desc` takes the sources. -/
def dLines (f : File) : List Text := linesUnder ['D'] f

def readValue (l : Text) : Text :=
  match tagLine l with
  | none => []
  | some (t, v) => valueOf t (unescape v).1

/-- No line under the key runs into the next one, and none in front runs into it. -/
def Alone (k : Text) : Bool → List Text → Prop
  | _, [] => True
  | into, l :: ls =>
    (((tagLine l).bind fun x => key x.1) = some k → into = false ∧ runsOn l = false) ∧ Alone k (runsOn l) ls

/-- The sources stand on lines of their own, and reading one again changes nothing. -/
structure ReadOnce (files : List File) : Prop where
  alone : ∀ f ∈ files, Alone ['D'] false f.tagged
  settled : ∀ f ∈ files, ∀ l ∈ dLines f, Settled (unescape l).1

theorem sourcePath_word {pre file : Text} (hpre : ∀ c ∈ pre, isBlank c = false) (url : Text)
    (hfile : ∀ c ∈ file, isBlank c = false) : IsWord (sourcePath pre url file) := by
  have hdir : ∀ c ∈ "download/".toList ++ (if url.head? = some '-' then "local".toList else "mirror".toList),
      isBlank c = false := by
    by_cases hdash : url.head? = some '-'
    · rw [if_pos hdash]
      decide
    · rw [if_neg hdash]
      decide
  refine ⟨List.append_ne_nil_of_right_ne_nil _ (List.cons_ne_nil _ _), fun c hc => ?_⟩
  rw [sourcePath, List.append_assoc, List.append_assoc, ← List.append_assoc "download/".toList] at hc
  rcases List.mem_append.1 hc with hc | hc
  · exact hpre c hc
  rcases List.mem_append.1 hc with hc | hc
  · exact hdir c hc
  rcases List.mem_cons.1 hc with rfl | hc
  · rfl
  rcases List.mem_append.1 hc with hc | hc
  · exact hfile c (List.mem_of_mem_take hc)
  rcases List.mem_cons.1 hc with rfl | hc
  · rfl
  · exact hfile c hc

theorem sourcePath_congr (pre : Text) {url url' : Text} (h : url.head? = url'.head?) (file : Text) :
    sourcePath pre url file = sourcePath pre url' file := by
  rw [sourcePath, sourcePath, h]

theorem sourcePath_pre (pre url file : Text) : sourcePath pre url file = pre ++ sourcePath [] url file := by
  rw [sourcePath, sourcePath, List.nil_append, List.append_assoc, List.append_assoc, List.append_assoc]

theorem echoWords_word {w : Text} (hw : IsWord w) : echoWords w = w := by
  rw [echoWords, words_of_isWord hw]
  simp

theorem downloadPath_plain (s : Text) : downloadPath (plain s) = sourcePath [] (wordAt 2 s) (wordAt 1 s) := by
  obtain ⟨hfields, hlast⟩ := (settled_plain s).readFields 2
  have hfile := hfields 1 (by decide)
  rw [text_plain] at hfile hlast
  have hblank := wordAt_noBlank 1 s
  have hword : IsWord (sourcePath [] (wordAt 2 s) (wordAt 1 s)) := sourcePath_word (by simp) _ hblank
  unfold downloadPath sourceFile
  simp only [hfile]
  by_cases hnil : wordAt 1 s = []
  · have hurl : (readFields 2 (plain s)).getD 2 [] = [] := by
      rw [← List.head?_eq_none_iff, hlast, wordAt_succ_nil hnil]
      rfl
    rw [hnil] at hword ⊢
    show echoWords (sourcePath [] [] ((readFields 2 (plain s)).getD 2 [])) = _
    rw [hurl, sourcePath_congr [] (congrArg List.head? (wordAt_succ_nil hnil).symm), echoWords_word hword]
  · rw [words_of_isWord ⟨hnil, hblank⟩]
    show echoWords (sourcePath [] ((readFields 2 (plain s)).getD 2 []) (wordAt 1 s)) = _
    rw [sourcePath_congr [] hlast, echoWords_word hword]

theorem matchPath_eq {base : Text} (hbase : IsWord base) {m : List ReadChar} (hm : Settled m) :
    IsWord (matchPath base m) ∧
      matchPath base m = base ++ '/' :: sourcePath [] (wordAt 3 (text m)) (wordAt 2 (text m)) := by
  obtain ⟨hfields, -⟩ := hm.readFields 4
  have hpre : ∀ c ∈ base ++ ['/'], isBlank c = false := (isWord_append hbase (by simp [isBlank])).2
  have hword := sourcePath_word hpre (wordAt 3 (text m)) (wordAt_noBlank 2 (text m))
  unfold matchPath
  simp only [hfields 2 (by decide), hfields 3 (by decide)]
  rw [echoWords_word hword]
  exact ⟨hword, by rw [sourcePath_pre]; simp⟩

theorem words_matchPath {base : Text} (hbase : IsWord base) {m : List ReadChar} (hm : Settled m) :
    words (matchPath base m) = [base ++ '/' :: sourcePath [] (wordAt 3 (text m)) (wordAt 2 (text m))] := by
  obtain ⟨hword, heq⟩ := matchPath_eq hbase hm
  rw [words_of_isWord hword, heq]

theorem unescape_line {l t v : Text} (h : tagLine l = some (t, v)) :
    text (unescape l).1 = bracketed t ++ ' ' :: text (unescape v).1 := by
  rw [unescape_tagged h, text_append, text_plain]
  rfl

theorem wordAt_readValue {l t v : Text} (h : tagLine l = some (t, v)) (i : Nat) :
    wordAt (i + 1) (readValue l) = wordAt (i + 2) (text (unescape l).1) := by
  have hword := isWord_bracketed (tagLine_eq h).2
  rw [unescape_line h, wordAt_word hword rfl, readValue, h]
  simp only [valueOf]
  split
  next hnil => rw [wordAt_alone hword, ← wordAt_trimEnd, hnil, wordAt_nil]
  · exact wordAt_trimEnd _ _

theorem noBackslash_readValue {l t v : Text} (h : tagLine l = some (t, v)) (hs : Settled (unescape l).1) :
    '\\' ∉ readValue l := by
  have hv := hs.noBackslash
  rw [unescape_line h, List.mem_append, List.mem_cons, not_or, not_or] at hv
  rw [readValue, h]
  simp only [valueOf]
  split
  · exact not_mem_bracketed (tagLine_eq h).2
  · exact fun hc => hv.2.2 ((List.rdropWhile_prefix _ _).subset hc)

/-! ## The lines of a file -/

theorem readsFrom_alone {k : Text} {lines : List Text} (htag : ∀ l ∈ lines, (tagLine l).isSome = true) {into : Bool}
    (h : Alone k into lines) : readsFrom k into lines =
      (lines.filter fun l => ((tagLine l).bind fun x => key x.1) = some k).map readValue := by
  induction lines generalizing into with
  | nil => rfl
  | cons l ls ih =>
    obtain ⟨hl, hls⟩ := List.forall_mem_cons.1 htag
    obtain ⟨⟨t, v⟩, ht⟩ := Option.isSome_iff_exists.1 hl
    obtain ⟨hline, hrest⟩ := h
    by_cases hk : ((tagLine l).bind fun x => key x.1) = some k
    · obtain ⟨rfl, halone⟩ := hline hk
      have hkey : key t = some k := by rwa [ht] at hk
      have hfiled := filed_tagged ht []
      rw [List.append_nil, List.append_nil, hkey] at hfiled
      have hvalue : readValue l = valueOf t (unescape v).1 := by rw [readValue, ht]
      rw [List.filter_cons_of_pos (by simpa using hk), List.map_cons, ← ih hls hrest, readsFrom, starts,
        if_neg (by simp), List.filterMap_cons]
      simp only [joined_alone halone, Option.bind_some, hfiled, Option.map_some, if_true, ← hvalue]
      rfl
    · have hkey : key t ≠ some k := by rwa [ht] at hk
      have hreads : readsFrom k into (l :: ls) = readsFrom k (runsOn l) ls := by
        cases into with
        | true => rfl
        | false =>
          rw [readsFrom, starts, if_neg (by simp), List.filterMap_cons]
          simp only [read_other ht hkey hls]
          rfl
      rw [hreads, ih hls hrest, List.filter_cons_of_neg (by simpa using hk)]

theorem reads_alone {k : Text} {f : File} (h : Alone k false f.tagged) : reads k f = (linesUnder k f).map readValue :=
  (reads_eq k f).trans (readsFrom_alone (fun _ hl => tagged_isSome hl) h)

theorem Alone.runsOn {k l : Text} {into : Bool} {lines : List Text} (h : Alone k into lines) (hl : l ∈ lines)
    (hk : ((tagLine l).bind fun x => key x.1) = some k) : runsOn l = false := by
  induction lines generalizing into with
  | nil => cases hl
  | cons l' ls ih =>
    rcases List.mem_cons.1 hl with rfl | hl
    · exact (h.1 hk).2
    · exact ih h.2 hl

theorem linesUnder_eq_nil {k : Text} {f : File} : linesUnder k f = [] ↔ values k f = [] := by
  rw [values_eq, linesUnder, valuesFrom, List.filter_eq_nil_iff, List.filterMap_eq_nil_iff]
  refine forall₂_congr fun l _ => ?_
  cases htag : tagLine l with
  | none => simp
  | some x => by_cases hk : key x.1 = some k <;> simp [hk]

theorem mem_linesUnder {k l : Text} {f : File} (h : l ∈ linesUnder k f) :
    l ∈ f.tagged ∧ ∃ t v, tagLine l = some (t, v) ∧ key t = some k := by
  obtain ⟨hl, hk⟩ := List.mem_filter.1 h
  obtain ⟨⟨t, v⟩, ht⟩ := Option.isSome_iff_exists.1 (tagged_isSome hl)
  exact ⟨hl, t, v, ht, by simpa [ht] using hk⟩

/-- What is read under a key are the lines of the last file that has one. -/
theorem lastReads_alone {k : Text} {files : List File} (h : ∀ f ∈ files, Alone k false f.tagged) :
    lastReads k files = (lastWith k files).map fun f => (linesUnder k f).map readValue := by
  induction files with
  | nil => rfl
  | cons f files ih =>
    obtain ⟨hf, hfiles⟩ := List.forall_mem_cons.1 h
    rw [lastReads_cons, lastWith_cons, ih hfiles, reads_alone hf]
    cases lastWith k files with
    | some g => rfl
    | none => by_cases hnil : linesUnder k f = [] <;> simp [hnil, ← linesUnder_eq_nil]

theorem echo_intercalate {v w : Text} {vs : List Text} (h : ∀ u ∈ v :: w :: vs, '\n' ∉ u) :
    echo (['\n'].intercalate (v :: w :: vs)) = v :: w :: vs := by
  have hline : '\n' ∈ ['\n'].intercalate (v :: w :: vs) := by simp [intercalate_eq]
  have hoptions : isOptions (['\n'].intercalate (v :: w :: vs)) = false := by
    rw [Bool.eq_false_iff]
    intro hopt
    simp only [isOptions, Bool.and_eq_true, decide_eq_true_eq, List.all_eq_true] at hopt
    obtain ⟨⟨hdash, -⟩, hall⟩ := hopt
    obtain ⟨c, s, hs⟩ := List.exists_cons_of_ne_nil (List.ne_nil_of_mem hline)
    obtain rfl : c = '-' := by simpa [hs] using hdash
    have hmem : '\n' ∈ s := by simpa [hs] using hline
    have := hall '\n' (by rwa [hs])
    revert this; decide
  rw [echo, hoptions, if_neg (by simp), List.splitOn_intercalate '\n' h (by simp)]

/-- `echo` takes the only source for an option, or `parse_desc` gives up at an empty tag that it reads. -/
def Quiet (files : List File) : Prop :=
  (∃ f ∈ files, reads [] f ≠ []) ∨
    ∃ f l, lastWith ['D'] files = some f ∧ dLines f = [l] ∧ echo (readValue l) = []

theorem downloadPath_tagged {l t v : Text} (ht : tagLine l = some (t, v)) (hs : Settled (unescape l).1) :
    downloadPath (unescape (readValue l)).1 = lineFile l := by
  rw [unescape_plain (noBackslash_readValue ht hs), downloadPath_plain, wordAt_readValue ht, wordAt_readValue ht]
  rfl

theorem downloadPath_value {l : Text} {f : File} (hl : l ∈ dLines f) (hs : Settled (unescape l).1) :
    downloadPath (unescape (readValue l)).1 = lineFile l := by
  obtain ⟨-, t, v, ht, -⟩ := mem_linesUnder hl
  exact downloadPath_tagged ht hs

/-- Options are one word. -/
theorem isWord_options {s : Text} (h : isOptions s = true) : IsWord s := by
  simp only [isOptions, Bool.and_eq_true, decide_eq_true_eq, List.all_eq_true] at h
  obtain ⟨⟨hdash, -⟩, hall⟩ := h
  have hopt : ∀ c ∈ "neE".toList, isBlank c = false := by decide
  cases s with
  | nil => simp at hdash
  | cons d s =>
    obtain rfl : d = '-' := by simpa using hdash
    exact ⟨by simp, List.forall_mem_cons.2 ⟨rfl, fun c hc => hopt c (List.contains_iff_mem.1 (hall c hc))⟩⟩

/-- What is asked for a single source, also if `echo` takes it for options. -/
theorem download_echo {l : Text} {f : File} (hl : l ∈ dLines f) (hs : Settled (unescape l).1)
    (hline : '\n' ∉ readValue l) (hecho : echo (readValue l) ≠ []) :
    (logical (echo (readValue l))).map downloadPath = [lineFile l] := by
  obtain ⟨-, t, v, ht, -⟩ := mem_linesUnder hl
  have hback := noBackslash_readValue ht hs
  rw [← downloadPath_value hl hs]
  unfold echo at hecho ⊢
  by_cases hopt : isOptions (readValue l) = true
  · have hword := isWord_options hopt
    rw [if_pos hopt] at hecho ⊢
    split at hecho
    · exact absurd rfl hecho
    next hn =>
      rw [if_neg hn, unescape_plain hback, downloadPath_plain, wordAt_alone hword, wordAt_alone hword]
      rfl
  · have hsplit : (readValue l).splitOn '\n' = [readValue l] := by
      simpa using List.splitOn_intercalate '\n' (show ∀ w ∈ [readValue l], '\n' ∉ w by simpa using hline) (by simp)
    have halone : ∀ w ∈ [readValue l], runsOn w = false := by simp [runsOn, unescape_plain hback]
    rw [if_neg hopt, hsplit, logical_alone halone]
    rfl

/-- **The files that are downloaded** are those of the lines under `D`. -/
theorem asked_eq {o : Overlays} (h : ReadOnce o.files) (hquiet : ¬ Quiet o.files) :
    asked o = ((lastWith ['D'] o.files).map fun f => (dLines f).map lineFile).getD [sourcePath [] [] []] := by
  rw [Quiet, not_or] at hquiet
  obtain ⟨hnamed, hsilent⟩ := hquiet
  have hnamed : ∀ f ∈ o.files, reads [] f = [] := by
    intro f hf
    by_contra hne
    exact hnamed ⟨f, hf, hne⟩
  obtain ⟨v, hv, hdesc, -⟩ := parseDesc_eq hnamed
  have hD := hdesc ['D']
  rw [lastReads_alone h.alone] at hD
  rw [asked, hv]
  cases hlast : lastWith ['D'] o.files with
  | none =>
    rw [hlast] at hD
    simp only [hD, Option.map_none, Option.getD_none]
    rfl
  | some f =>
    have hf : f ∈ o.files := List.mem_of_mem_filter (List.mem_of_getLast? hlast)
    have hreads : reads ['D'] f = (dLines f).map readValue := reads_alone (h.alone f hf)
    have hvalue : ∀ w ∈ (dLines f).map readValue, w ≠ [] ∧ '\n' ∉ w := fun w hw =>
      ⟨(mem_reads (hreads ▸ hw)).1, (mem_reads (hreads ▸ hw)).2.1⟩
    rw [hlast, Option.map_some, Option.map_some, ← dLines, appendAll_eq fun w hw => (hvalue w hw).1] at hD
    simp only [hD, Option.getD_some, Option.map_some]
    rcases hlines : dLines f with _ | ⟨l, _ | ⟨l', ls⟩⟩
    · have hne : values ['D'] f ≠ [] := by simpa using (List.mem_filter.1 (List.mem_of_getLast? hlast)).2
      exact absurd (linesUnder_eq_nil.1 hlines) hne
    · have hl : l ∈ dLines f := by simp [hlines]
      have hone : ['\n'].intercalate ([l].map readValue) = readValue l := by simp
      rw [hone, download_echo hl (h.settled f hf l hl) (hvalue _ (List.mem_map_of_mem hl)).2
        fun hnil => hsilent ⟨f, l, hlast, hlines, hnil⟩]
      rfl
    · have hlist : ∀ w ∈ (l :: l' :: ls).map readValue, '\n' ∉ w := fun w hw => (hvalue w (hlines ▸ hw)).2
      have halone : ∀ w ∈ (l :: l' :: ls).map readValue, runsOn w = false := by
        intro w hw
        obtain ⟨l₀, hl₀, rfl⟩ := List.mem_map.1 (hlines ▸ hw)
        obtain ⟨-, t, v, ht, -⟩ := mem_linesUnder hl₀
        rw [runsOn, unescape_plain (noBackslash_readValue ht (h.settled f hf l₀ hl₀))]
      rw [List.map_cons, List.map_cons, echo_intercalate hlist, ← List.map_cons, ← List.map_cons,
        logical_alone halone, List.map_map, List.map_map]
      refine List.map_congr_left fun l₀ hl₀ => ?_
      have hmem : l₀ ∈ dLines f := by rwa [hlines]
      rw [Function.comp_apply, Function.comp_apply, downloadPath_value hmem (h.settled f hf l₀ hmem)]

/-! ## The build -/

/-- The file in which the search ends. -/
def found (o : Overlays) : Option File :=
  (o.target.toList ++ o.architecture.toList ++ [o.package]).find? (·.lines.any opens)

def needed (f : File) : List Text := f.lines.filter needs

theorem key_D : key ['D'] = some ['D'] := by decide

theorem tagLine_of_needs {l : Text} (h : needs l = true) : tagLine l = some (['D'], l.drop 4) := by
  rw [needs, Bool.and_eq_true, List.isPrefixOf_iff_prefix] at h
  obtain ⟨s, rfl⟩ := h.1
  have hbracketed : "[D] ".toList ++ s = bracketed ['D'] ++ ' ' :: s := rfl
  rw [hbracketed, tagLine_bracketed (by simp; decide)]
  rfl

theorem opens_of_needs {l : Text} (h : needs l = true) : opens l = true := by
  rw [needs, Bool.and_eq_true, List.isPrefixOf_iff_prefix] at h
  obtain ⟨s, rfl⟩ := h.1
  rfl

theorem mem_needed {f : File} {l : Text} (h : l ∈ needed f) : l ∈ dLines f := by
  obtain ⟨hl, hneeds⟩ := List.mem_filter.1 h
  have ht := tagLine_of_needs hneeds
  exact List.mem_filter.2 ⟨List.mem_filter.2 ⟨hl, by simp [ht]⟩, by simp [ht, key_D]⟩

/-- The lines that are found are among those under `D`. -/
theorem needed_eq (f : File) : needed f = (dLines f).filter needs := by
  rw [needed, dLines, linesUnder, File.tagged, List.filter_filter, List.filter_filter]
  refine List.filter_congr fun l _ => ?_
  cases hneeds : needs l with
  | false => rfl
  | true =>
    have ht := tagLine_of_needs hneeds
    simp [ht, key_D]

theorem search_eq (files : List File) : search files = ((files.find? (·.lines.any opens)).map needed).getD [] := by
  induction files with
  | nil => rfl
  | cons f files ih =>
    rw [search, List.find?_cons]
    cases hopens : f.lines.any opens with
    | true => simp [needed]
    | false =>
      have hnil : f.lines.filter needs = [] := by
        rw [List.filter_eq_nil_iff]
        intro l hl hneeds
        have := List.any_eq_false.1 hopens l hl
        exact this (opens_of_needs hneeds)
      simpa [hnil] using ih

theorem found_mem {o : Overlays} {g : File} (h : found o = some g) : g ∈ o.files := by
  have hg := List.mem_of_find?_eq_some h
  simp only [Overlays.files, List.mem_append, List.mem_cons, List.not_mem_nil, or_false] at hg ⊢
  tauto

/-- **The files of the build** are those of the lines that are found. -/
theorem populated_eq {o : Overlays} (h : ReadOnce o.files) {base : Text} (hbase : IsWord base) :
    populated base o = (((found o).map needed).getD []).map fun l => base ++ '/' :: lineFile l := by
  rw [populated, matchSourceFile, search_eq, ← found]
  cases hfound : found o with
  | none => rfl
  | some g =>
    have hg := found_mem hfound
    have halone : ∀ l ∈ needed g, runsOn l = false := by
      intro l hl
      obtain ⟨hmem, t, v, ht, hk⟩ := mem_linesUnder (mem_needed hl)
      exact (h.alone g hg).runsOn hmem (by rw [ht, Option.bind_some, hk])
    rw [Option.map_some, Option.getD_some, logical_alone halone, List.map_map, List.flatMap_map,
      List.map_eq_flatMap]
    refine List.flatMap_congr fun l hl => ?_
    exact words_matchPath hbase (h.settled g hg l (mem_needed hl))

/-- The same lines are found; or others are, and they name the same files. -/
def SameLines (o : Overlays) : Prop :=
  ∃ f g, lastWith ['D'] o.files = some f ∧ found o = some g ∧
    (f = g ∧ (∀ l ∈ dLines f, needs l = true) ∨ f ≠ g ∧ (dLines f).map lineFile = (needed g).map lineFile)

/-- Read once, nothing is downloaded and no line is found, or the lines are the same. -/
def SourcesWritten (o : Overlays) : Prop :=
  ReadOnce o.files ∧ (Quiet o.files ∧ ((found o).map needed).getD [] = [] ∨ ¬ Quiet o.files ∧ SameLines o)

theorem path_inj (base : Text) : Function.Injective fun path : Text => base ++ '/' :: path := by
  intro a b h
  simpa using h

theorem asked_quiet {o : Overlays} (h : ReadOnce o.files) (hquiet : Quiet o.files) : asked o = [] := by
  rcases hquiet with ⟨f, hf, hreads⟩ | ⟨f, l, hlast, hlines, hecho⟩
  · rw [asked, parseDesc_none hf hreads]
  · rw [asked]
    by_cases hnamed : ∀ f ∈ o.files, reads [] f = []
    · obtain ⟨v, hv, hdesc, -⟩ := parseDesc_eq hnamed
      have hD := hdesc ['D']
      have hwhole : appendAll [] [readValue l] = readValue l := by simp [varAppend]
      rw [lastReads_alone h.alone, hlast, Option.map_some, Option.map_some, ← dLines, hlines, List.map_singleton,
        hwhole] at hD
      simp only [hv, hD, Option.getD_some, hecho]
      rfl
    · simp only [not_forall] at hnamed
      obtain ⟨g, hg, hne⟩ := hnamed
      rw [parseDesc_none hg hne]

/-- The same files are named exactly if the lines are the same. -/
theorem sameLines_iff {o : Overlays} {f : File} (hlast : lastWith ['D'] o.files = some f) :
    (((found o).map needed).getD []).map lineFile = (dLines f).map lineFile ↔ SameLines o := by
  have hne : dLines f ≠ [] := fun hnil => by
    have hvalues : values ['D'] f ≠ [] := by simpa using (List.mem_filter.1 (List.mem_of_getLast? hlast)).2
    exact hvalues (linesUnder_eq_nil.1 hnil)
  unfold SameLines
  simp only [hlast, Option.some.injEq, exists_and_left, exists_eq_left']
  cases hfound : found o with
  | none => simpa using Ne.symm hne
  | some g =>
    simp only [Option.map_some, Option.getD_some, Option.some.injEq, exists_eq_left']
    by_cases hfg : f = g
    · subst hfg
      simp only [true_and, ne_eq, not_true_eq_false, false_and, or_false]
      constructor
      · intro h
        have hlen := congrArg List.length h
        rw [List.length_map, List.length_map, needed_eq] at hlen
        exact List.length_filter_eq_length_iff.1 hlen
      · intro h
        rw [needed_eq, List.filter_eq_self.2 h]
    · simp only [hfg, false_and, ne_eq, not_false_eq_true, true_and, false_or]
      exact eq_comm

theorem sameSources_iff {o : Overlays} (h : ReadOnce o.files) :
    SameSources o ↔ Quiet o.files ∧ ((found o).map needed).getD [] = [] ∨ ¬ Quiet o.files ∧ SameLines o := by
  have hpopulated : SameSources o ↔ (((found o).map needed).getD []).map lineFile = asked o := by
    constructor
    · intro hsame
      have hslash : IsWord ['/'] := by decide
      have heq := hsame ['/'] hslash
      rw [populated_eq h hslash] at heq
      refine List.map_injective_iff.2 (path_inj ['/']) ?_
      rw [← heq, List.map_map]
      rfl
    · intro heq base hbase
      rw [populated_eq h hbase, ← heq, List.map_map]
      rfl
  rw [hpopulated]
  by_cases hquiet : Quiet o.files
  · simp [asked_quiet h hquiet, hquiet]
  · rw [asked_eq h hquiet]
    simp only [hquiet, false_and, not_false_eq_true, true_and, false_or]
    cases hlast : lastWith ['D'] o.files with
    | some f => exact sameLines_iff hlast
    | none =>
      -- one file is asked for, and no line names it
      have hnone : ((found o).map needed).getD [] = [] := by
        cases hfound : found o with
        | none => rfl
        | some g =>
          by_contra hne
          obtain ⟨l, hl⟩ := List.exists_mem_of_ne_nil _ hne
          have hvalues : values ['D'] g ≠ [] := fun hnil =>
            List.ne_nil_of_mem (mem_needed hl) (linesUnder_eq_nil.2 hnil)
          have hmem : g ∈ o.files.filter (values ['D'] · ≠ []) :=
            List.mem_filter.2 ⟨found_mem hfound, by simpa using hvalues⟩
          rw [lastWith, List.getLast?_eq_none_iff] at hlast
          exact List.ne_nil_of_mem hmem hlast
      simp [hnone, SameLines, hlast]

/-- **The build needs the files that are downloaded** if the lines are written so, and only then if the lines are read
once. -/
theorem sources_agree (o : Overlays) :
    (SourcesWritten o → SameSources o) ∧ (ReadOnce o.files → SameSources o → SourcesWritten o) :=
  ⟨fun h => (sameSources_iff h.1).2 h.2, fun h hsame => ⟨h, (sameSources_iff h).1 hsame⟩⟩

/-- A package whose source has the long name of the tag. -/
def zlibDesc : Overlays :=
  ⟨⟨["[I] zlib".toList, "[DOWN] 0 zlib.tar.gz http://zlib.net/".toList], by decide⟩, none, none⟩

/-- It is downloaded, and not found in the build. -/
theorem sources_differ :
    asked zlibDesc = ["download/mirror/z/zlib.tar.gz".toList] ∧ populated "/t2".toList zlibDesc = [] ∧
      ¬ SameSources zlibDesc := by
  have hasked : asked zlibDesc = ["download/mirror/z/zlib.tar.gz".toList] := by decide +kernel
  have hpopulated : populated "/t2".toList zlibDesc = [] := by decide +kernel
  refine ⟨hasked, hpopulated, fun hsame => ?_⟩
  have heq := hsame "/t2".toList (by decide)
  rw [hasked, hpopulated] at heq
  cases heq

end T2Sde.Desc
