import T2Sde.Desc.Overlay
import T2Sde.Desc.Synonyms
import T2Sde.Lib.Joined
/-!
# Flags (`scripts/functions.in`, `scripts/Create-PkgList`)

`parse_desc` joins the lines of a tag with newlines, and `hasflag` looks for a flag between two spaces: so it misses
the first and the last word of a line, but for the first and the last of all, and what stands beside a tab.

| here | there |
| --- | --- |
| `names`, `hasflag` | `hasflag` :64-72 |
| `accumulated`      | `Create-PkgList`, the fold of the rules over a file :70-73 |

* `hasflag_iff` — the places in which a flag is found.
* `accumulated_eq` — the flags of the package list, line by line.
* `flags_seen` — **when both see the flags of the file**.
-/
namespace T2Sde.Desc
open Shell

/-- A character that stands for itself in a pattern and ends no word. -/
def flagChar (c : Char) : Bool := !isBlank c && c != '*' && c != '?' && c != '[' && c != '\\'

structure Flag where
  name : Text
  ne : name ≠ []
  plain : ∀ c ∈ name, flagChar c = true

/-- What `hasflag` reads of the configuration. -/
structure Machine where
  arch : Text
  arch_sizeof_char_p : Nat
  libc : Text
  cc : Text
  plain : ∀ w ∈ [arch, libc, cc], ∀ c ∈ w, flagChar c = true

def Machine.arch2 (m : Machine) : Text := if m.arch_sizeof_char_p = 4 then "arch32".toList else "arch64".toList

/-- The flag, alone and with each suffix. -/
def names (m : Machine) (f : Flag) : List Text :=
  f.name :: [m.arch, m.arch2, m.libc, m.cc].map fun suffix => f.name ++ '.' :: suffix

/-- `"$desc_F" != "${desc_F/ $1 }"`, with spaces around `desc_F` -/
def hasflag (m : Machine) (desc_F : Text) (f : Flag) : Bool :=
  let desc_F := ' ' :: desc_F ++ [' ']
  (names m f).any fun n => desc_F != replaceFirst (' ' :: n ++ [' ']) [] desc_F

/-- The flags that the rules for a list of lines leave. -/
def accumulated (arch kernel : Text) (d : DescFile) (lines : List Text) : List Text :=
  (lines.foldl (Awk.line arch kernel) (Awk.start d)).flags

/-! ## The flags of a package -/

/-- The lines of the last file that has flags. -/
def effective (o : Overlays) : List Text := ((lastWith ['F'] o.files).map (·.lines)).getD []

/-- The values of its flag lines. -/
def flagValues (o : Overlays) : List Text := ((lastWith ['F'] o.files).map (values ['F'])).getD []

variable (m : Machine) (o : Overlays) (f : Flag)

/-- A name of the flag is a word of a flag line. -/
def Flagged : Prop := ∃ n ∈ names m f, ∃ v ∈ flagValues o, n ∈ words v

/-- `hasflag` and the package list see it exactly then. -/
def FlagSeen : Prop :=
  ∃ v, parseDesc o.files = some v ∧ (hasflag m ((v.desc ['F']).getD []) f = true ↔ Flagged m o f) ∧
    ∀ arch kernel d, (∃ n ∈ names m f, n ∈ accumulated arch kernel d (effective o)) ↔ Flagged m o f

/-! ## Where a flag is found -/

/-- The tags that `Create-PkgList` has a rule for. -/
def listTags : List Text := ["F".toList, "FLAGS".toList]

/-- Of what is behind such a tag the package list gets the words behind the first blank, up to one that `awk` takes for
false. -/
def listedWords (rest : Text) : List Text := (words (rest.dropWhile (!isBlank ·))).takeWhile truthy

/-- The flag lines as a loop of `read` takes them, each that no line before runs into: how it stands in the file, and
what is read of its value. -/
def flagLines (g : File) : List (Text × Text) :=
  (starts false g.tagged).filterMap fun x =>
    (joined x.1 x.2).bind fun m => (filed m).bind fun y => if y.1 = ['F'] then some (x.1, y.2) else none

/-- The last file from which a flag line is read. -/
def flagFile (o : Overlays) : Option File := (o.files.filter (flagLines · ≠ [])).getLast?

def readLines (o : Overlays) : List (Text × Text) := ((flagFile o).map flagLines).getD []

/-- A name between two spaces, or at the start of the first line, or at the end of the last one. -/
def Framed (n : Text) (first last : Prop) (v : Text) : Prop :=
  ' ' :: n ++ [' '] <:+: v ∨ (first ∧ n ++ [' '] <+: v) ∨ (last ∧ ' ' :: n <:+ v) ∨ (first ∧ last ∧ n = v)

/-- The name is framed in the line at a place. -/
def FramedAt (o : Overlays) (n : Text) (i : Nat) (x : Text × Text) : Prop :=
  (readLines o)[i]? = some x ∧ Framed n (i = 0) (i + 1 = (readLines o).length) x.2

/-- **The lines that go wrong** stand alone: what is written on them is written on another line that does not. -/
structure FlagWritten : Prop where
  /-- No tag is empty. -/
  named : ∀ g ∈ o.files, reads [] g = []
  /-- A flag is not only on lines with another tag, or behind a zero. -/
  listed : Flagged m o f → ∃ n ∈ names m f, ∃ t ∈ listTags, ∃ rest, bracketed t ++ rest ∈ effective o ∧
    n ∈ listedWords rest
  /-- What stands behind `[F]` without a space between them is on a flag line, too. -/
  spaced : ∀ n ∈ names m f, ∀ t ∈ listTags, ∀ rest, bracketed t ++ rest ∈ effective o → rest.head? ≠ some ' ' →
    n ∈ listedWords rest → Flagged m o f
  /-- A flag is not only at ends of lines, or beside tabs. -/
  framed : Flagged m o f → ∃ n ∈ names m f, ∃ i x, FramedAt o n i x
  /-- What a backslash makes of a line is on a flag line, too, and what is read of an earlier file. -/
  escaped : ∀ n ∈ names m f, ∀ i x, FramedAt o n i x → '\\' ∈ x.1 ∨ flagFile o ≠ lastWith ['F'] o.files →
    Flagged m o f

variable {m o f}

theorem flagChar_blank {c : Char} (h : flagChar c = true) : isBlank c = false := by
  simp only [flagChar, Bool.and_eq_true, Bool.not_eq_true'] at h
  exact h.1.1.1.1

/-- A name has no blank, and none of the characters that a pattern takes for others. -/
theorem plain_name {n : Text} (hn : n ∈ names m f) : n ≠ [] ∧ ∀ c ∈ n, flagChar c = true := by
  have harch : ∀ c ∈ m.arch2, flagChar c = true := by
    unfold Machine.arch2
    split
    · exact List.all_eq_true.1 (by decide)
    · exact List.all_eq_true.1 (by decide)
  have hplain : ∀ w ∈ [m.arch, m.arch2, m.libc, m.cc], ∀ c ∈ w, flagChar c = true := by
    intro w hw c hc
    by_cases h2 : w = m.arch2
    · exact harch c (h2 ▸ hc)
    · refine m.plain w ?_ c hc
      simp only [List.mem_cons, List.not_mem_nil, or_false] at hw ⊢
      tauto
  rcases List.mem_cons.1 hn with rfl | hn
  · exact ⟨f.ne, f.plain⟩
  · obtain ⟨w, hw, rfl⟩ := List.mem_map.1 hn
    refine ⟨by simp, fun c hc => ?_⟩
    rcases List.mem_append.1 hc with hc | hc
    · exact f.plain c hc
    · rcases List.mem_cons.1 hc with rfl | hc
      · decide
      · exact hplain w hw c hc

theorem isWord_name {n : Text} (hn : n ∈ names m f) : IsWord n :=
  ⟨(plain_name hn).1, fun c hc => flagChar_blank ((plain_name hn).2 c hc)⟩

theorem replaceFirst_ne_iff {pat s : Text} (hp : pat ≠ []) : s ≠ replaceFirst pat [] s ↔ pat <:+: s := by
  rcases replaceFirst_cases pat [] s hp with ⟨hno, h⟩ | ⟨a, b, hs, h, -⟩
  · simp [h, hno]
  · refine iff_of_true (fun heq => hp ?_) ⟨a, b, hs.symm⟩
    rw [h, List.append_nil] at heq
    have hlen := congrArg List.length (hs.symm.trans heq)
    simp only [List.length_append] at hlen
    exact List.eq_nil_of_length_eq_zero (by omega)

/-- A text without newlines stands in one line. -/
theorem infix_line {p : Text} (hp : p ≠ []) (hline : '\n' ∉ p) (u v : Text) :
    p <:+: u ++ '\n' :: v ↔ p <:+: u ∨ p <:+: v := by
  constructor
  · intro h
    rcases List.infix_append_iff.1 h with h | h | ⟨x, y, hxy, hx, hy⟩
    · exact .inl h
    · rcases List.infix_cons_iff.1 h with h | h
      · obtain ⟨c, p, rfl⟩ := List.exists_cons_of_ne_nil hp
        obtain rfl := (List.cons_prefix_cons.1 h).1
        exact absurd List.mem_cons_self hline
      · exact .inr h
    · cases y with
      | nil => exact .inl (by simpa [hxy] using hx.isInfix)
      | cons c y =>
        obtain rfl := (List.cons_prefix_cons.1 hy).1
        exact absurd (by simp [hxy]) hline
  · rintro (h | h)
    · exact h.trans (List.prefix_append _ _).isInfix
    · exact h.trans ((List.suffix_cons _ _).trans (List.suffix_append _ _)).isInfix

theorem infix_lines {p : Text} (hp : p ≠ []) (hline : '\n' ∉ p) (ls : List Text) :
    p <:+: ['\n'].intercalate ls ↔ ∃ l ∈ ls, p <:+: l := by
  induction ls with
  | nil => simpa using hp
  | cons l ls ih =>
    cases ls with
    | nil => simp
    | cons l' ls =>
      rw [List.intercalate_cons_cons, List.append_assoc, List.singleton_append, infix_line hp hline, ih]
      simp

theorem prefix_lines {p : Text} (hp : p ≠ []) (hline : '\n' ∉ p) (ls : List Text) :
    p <+: ['\n'].intercalate ls ↔ ∃ l, ls.head? = some l ∧ p <+: l := by
  cases ls with
  | nil => simpa using hp
  | cons l ls =>
    simp only [List.head?_cons, Option.some.injEq, exists_eq_left']
    rw [intercalate_eq]
    refine ⟨fun h => ?_, fun h => h.trans (List.prefix_append _ _)⟩
    rcases List.prefix_or_prefix_of_prefix h (List.prefix_append l _) with hpl | ⟨q, rfl⟩
    · exact hpl
    · rw [List.prefix_append_right_inj] at h
      cases q with
      | nil => simp
      | cons c q =>
        cases ls with
        | nil => simp at h
        | cons l' ls =>
          obtain rfl := (List.cons_prefix_cons.1 h).1
          exact absurd (by simp) hline

theorem suffix_lines {p : Text} (hp : p ≠ []) (hline : '\n' ∉ p) (ls : List Text) :
    p <:+ ['\n'].intercalate ls ↔ ∃ l, ls.getLast? = some l ∧ p <:+ l := by
  rcases List.eq_nil_or_concat' ls with rfl | ⟨init, l, rfl⟩
  · simpa using hp
  rw [List.getLast?_concat]
  simp only [Option.some.injEq, exists_eq_left']
  by_cases hinit : init = []
  · rw [hinit, List.nil_append, List.intercalate_singleton]
  rw [intercalate_append hinit (by simp), List.intercalate_singleton]
  refine ⟨fun h => ?_, fun h => h.trans (List.suffix_append _ _)⟩
  rcases List.suffix_or_suffix_of_suffix h (List.suffix_append _ l) with hpl | ⟨q, rfl⟩
  · exact hpl
  · obtain ⟨r, hr⟩ := h
    rw [← List.append_assoc] at hr
    have hend := List.append_cancel_right hr
    rcases List.eq_nil_or_concat' q with rfl | ⟨q, c, rfl⟩
    · simp
    · rw [← List.append_assoc, List.append_singleton_inj] at hend
      exact absurd (by simp [hend.2]) hline

theorem eq_lines {p : Text} (hp : p ≠ []) (hline : '\n' ∉ p) (ls : List Text) :
    p = ['\n'].intercalate ls ↔ ls = [p] := by
  cases ls with
  | nil => simpa using hp
  | cons l ls =>
    cases ls with
    | nil => simp [eq_comm]
    | cons l' ls =>
      refine iff_of_false ?_ (by simp)
      rw [List.intercalate_cons_cons]
      rintro rfl
      simp at hline

/-- What is framed in a line, and in which line. -/
theorem framed_lines {n : Text} (hn : n ≠ []) (hline : '\n' ∉ n) (ls : List Text) :
    ' ' :: n ++ [' '] <:+: ' ' :: ['\n'].intercalate ls ++ [' '] ↔
      ∃ i l, ls[i]? = some l ∧ Framed n (i = 0) (i + 1 = ls.length) l := by
  have hboth : '\n' ∉ ' ' :: n ++ [' '] := by simp [hline]
  have hends : ' ' :: n ++ [' '] <:+: ' ' :: ['\n'].intercalate ls ++ [' '] ↔
      (n = ['\n'].intercalate ls ∨ ' ' :: n <:+ ['\n'].intercalate ls) ∨
        (n ++ [' '] <+: ['\n'].intercalate ls ∨ ' ' :: n ++ [' '] <:+: ['\n'].intercalate ls) := by
    rw [List.infix_concat_iff, List.suffix_concat_iff, List.infix_cons_iff, List.cons_append, List.prefix_cons_inj]
    refine or_congr_left ?_
    constructor
    · rintro (h | ⟨t, ht, h⟩)
      · cases h
      · obtain rfl : ' ' :: n = t := List.append_cancel_right ht
        simpa [List.suffix_cons_iff] using h
    · intro h
      exact .inr ⟨' ' :: n, rfl, by simpa [List.suffix_cons_iff] using h⟩
  rw [hends, eq_lines hn hline, suffix_lines (by simp) (by simp [hline]), prefix_lines (by simp) (by simp [hline]),
    infix_lines (by simp) hboth]
  constructor
  · rintro ((rfl | ⟨l, hl, h⟩) | (⟨l, hl, h⟩ | ⟨l, hl, h⟩))
    · exact ⟨0, n, rfl, .inr (.inr (.inr ⟨rfl, rfl, rfl⟩))⟩
    · have hne : ls ≠ [] := by
        rintro rfl
        simp at hl
      have hlen := List.length_pos_of_ne_nil hne
      rw [List.getLast?_eq_getElem?] at hl
      exact ⟨_, l, hl, .inr (.inr (.inl ⟨by omega, h⟩))⟩
    · exact ⟨0, l, by rwa [← List.head?_eq_getElem?], .inr (.inl ⟨rfl, h⟩)⟩
    · obtain ⟨i, hi⟩ := List.getElem?_of_mem hl
      exact ⟨i, l, hi, .inl h⟩
  · rintro ⟨i, l, hi, h | ⟨rfl, h⟩ | ⟨hlast, h⟩ | ⟨rfl, hlast, rfl⟩⟩
    · exact .inr (.inr ⟨l, List.mem_of_getElem? hi, h⟩)
    · exact .inr (.inl ⟨l, by rwa [List.head?_eq_getElem?], h⟩)
    · refine .inl (.inr ⟨l, ?_, h⟩)
      rwa [List.getLast?_eq_getElem?, show ls.length - 1 = i by omega]
    · refine .inl (.inl ?_)
      obtain ⟨l, rfl⟩ := List.length_eq_one_iff.1 hlast.symm
      simpa using hi

/-- **`hasflag`** finds what is framed. -/
theorem hasflag_iff : hasflag m (['\n'].intercalate ((readLines o).map Prod.snd)) f = true ↔
    ∃ n ∈ names m f, ∃ i x, FramedAt o n i x := by
  rw [hasflag, List.any_eq_true]
  refine exists_congr fun n => and_congr_right fun hn => ?_
  have hline : '\n' ∉ n := fun hc => by simpa [isBlank] using (isWord_name hn).2 '\n' hc
  rw [bne_iff_ne, replaceFirst_ne_iff (by simp), framed_lines (plain_name hn).1 hline]
  simp only [List.getElem?_map, List.length_map, Option.map_eq_some_iff, FramedAt]
  constructor
  · rintro ⟨i, _, ⟨x, hx, rfl⟩, h⟩
    exact ⟨i, x, hx, h⟩
  · rintro ⟨i, x, hx, h⟩
    exact ⟨i, _, ⟨x, hx, rfl⟩, h⟩

/-! ## What is read -/

theorem reads_flagLines (g : File) : reads ['F'] g = (flagLines g).map Prod.snd := by
  rw [reads_eq, flagLines, List.map_filterMap]
  congr 1
  funext x
  cases joined x.1 x.2 with
  | none => rfl
  | some m =>
    rw [Option.bind_some, Option.bind_some]
    cases filed m with
    | none => rfl
    | some y =>
      rw [Option.bind_some, Option.bind_some]
      split <;> rfl

/-- `desc_F` is what is read. -/
theorem desc_flags {v : Vars} (hdesc : ∀ k, v.desc k = (lastReads k o.files).map (appendAll [])) :
    (v.desc ['F']).getD [] = ['\n'].intercalate ((readLines o).map Prod.snd) := by
  have hreads : lastReads ['F'] o.files = (flagFile o).map (reads ['F']) := by
    have hsome : ∀ g, (decide (reads ['F'] g ≠ [])) = decide (flagLines g ≠ []) := fun g => by simp [reads_flagLines]
    rw [lastReads, flagFile, ← List.getLast?_map, List.filter_map]
    exact congrArg (fun p => ((o.files.filter p).map (reads ['F'])).getLast?) (funext hsome)
  rw [hdesc, hreads, readLines]
  cases flagFile o with
  | none => rfl
  | some g => exact (appendAll_reads ['F'] g).trans (by rw [reads_flagLines]; rfl)

theorem framed_word {n v : Text} {first last : Prop} (hn : IsWord n) (h : Framed n first last v) : n ∈ words v := by
  rcases h with ⟨a, b, rfl⟩ | ⟨-, b, rfl⟩ | ⟨-, a, rfl⟩ | ⟨-, -, rfl⟩
  · have hsplit : a ++ (' ' :: n ++ [' ']) ++ b = a ++ ' ' :: (n ++ ' ' :: b) := by simp
    rw [hsplit, words_append_blank rfl, words_append_blank rfl, words_of_isWord hn]
    simp
  · rw [List.append_assoc, List.singleton_append, words_append_blank rfl, words_of_isWord hn]
    simp
  · rw [words_append_blank rfl, words_of_isWord hn]
    simp
  · rw [words_of_isWord hn]
    exact List.mem_cons_self

theorem words_trimEnd (s : Text) : words (trimEnd s) = words s := by
  obtain ⟨b, hs, hb⟩ := trimEnd_blank s
  have hblank : ∀ b : Text, (∀ c ∈ b, isBlank c = true) → words b = [] := by
    intro b hb
    induction b with
    | nil => rfl
    | cons c b ih =>
      obtain ⟨hc, hb⟩ := List.forall_mem_cons.1 hb
      rw [words_blank_cons hc, ih hb]
  cases b with
  | nil => rw [List.append_nil] at hs; rw [← hs]
  | cons c b =>
    obtain ⟨hc, hb⟩ := List.forall_mem_cons.1 hb
    conv_rhs => rw [hs, words_append_blank hc, hblank b hb, List.append_nil]

/-- A name that is framed in a line without a backslash is a word of it. -/
theorem flagged_of_framed {n : Text} (hn : n ∈ names m f) {g : File} (hg : lastWith ['F'] o.files = some g)
    {x : Text × Text} (hx : x ∈ flagLines g) (hback : '\\' ∉ x.1) {first last : Prop} (h : Framed n first last x.2) :
    Flagged m o f := by
  obtain ⟨⟨l, ls⟩, hstart, hread⟩ := List.mem_filterMap.1 hx
  obtain ⟨r, hr, hread⟩ := Option.bind_eq_some_iff.1 hread
  obtain ⟨⟨k, v⟩, hfiled, hread⟩ := Option.bind_eq_some_iff.1 hread
  obtain ⟨rfl, rfl⟩ : k = ['F'] ∧ (l, v) = x := by
    split at hread
    · exact ⟨by assumption, Option.some.inj hread⟩
    · cases hread
  obtain ⟨hl, -⟩ := mem_starts hstart
  obtain ⟨⟨t, e⟩, ht⟩ := Option.isSome_iff_exists.1 (tagged_isSome hl)
  have heback : '\\' ∉ e := by
    intro he
    exact hback (by rw [(tagLine_eq ht).1]; simp [he])
  rw [joined_alone (by rw [runsOn, unescape_plain hback])] at hr
  obtain rfl := Option.some.inj hr
  have hvalue := filed_tagged ht []
  rw [List.append_nil, List.append_nil, hfiled, unescape_plain heback] at hvalue
  obtain ⟨k, hk, heq⟩ := Option.map_eq_some_iff.1 hvalue.symm
  obtain ⟨rfl, rfl⟩ := Prod.mk.inj heq
  have hword := framed_word (isWord_name hn) h
  have hmem : e ∈ flagValues o := by
    rw [flagValues, hg, Option.map_some, Option.getD_some, values]
    exact List.mem_filterMap.2 ⟨l, (List.mem_filter.1 hl).1, by simp [ht, hk]⟩
  refine ⟨n, hn, e, hmem, ?_⟩
  rw [valueOf, text_plain] at hword
  split at hword
  · rw [words_of_isWord (isWord_bracketed (tagLine_eq ht).2), List.mem_singleton] at hword
    have hplain := (plain_name hn).2 '[' (by simp [hword, bracketed])
    exact absurd hplain (by decide)
  · rwa [words_trimEnd] at hword

/-! ## The package list -/

/-- The package list has the flags of the lines. -/
theorem accumulated_eq (arch kernel : Text) (d : DescFile) (lines : List Text) :
    accumulated arch kernel d lines = lines.flatMap lineFlags :=
  congrArg Awk.flags (foldl_flags arch kernel lines (Awk.start d) [])

theorem isSep_of_blank {c : Char} (hc : isBlank c = true) (hline : c ≠ '\n') : isSep c = true := by
  simpa [isBlank, isSep, hline] using hc

theorem blank_of_isSep {c : Char} (hc : isSep c = true) : isBlank c = true := by
  rw [isSep] at hc
  rw [isBlank, hc, Bool.true_or]

/-- At a blank or at the end the first field is empty. -/
theorem splitFields_blank {s : Text} (hs : AtBlank s) (hline : '\n' ∉ s) : ∃ ws, splitFields s = [] :: ws := by
  induction s with
  | nil => exact ⟨[], rfl⟩
  | cons c s ih =>
    rw [splitFields, if_pos (isSep_of_blank hs fun h => hline (h ▸ List.mem_cons_self))]
    split
    next hnext =>
      refine ih ?_ fun h => hline (List.mem_cons_of_mem _ h)
      cases s with
      | nil => trivial
      | cons d s => exact blank_of_isSep (by simpa using hnext)
    · exact ⟨_, rfl⟩

/-- The fields are the words, behind the first field if the text starts with a blank; an empty one at the end is no
flag. -/
theorem splitFields_words {s : Text} (hline : '\n' ∉ s) :
    (AtBlank s → ((splitFields s).drop 1).takeWhile truthy = (words s).takeWhile truthy) ∧
      (¬ AtBlank s → (splitFields s).takeWhile truthy = (words s).takeWhile truthy) := by
  induction s using text_induction with
  | nil => exact ⟨fun _ => rfl, fun h => absurd trivial h⟩
  | blank c s hc ih =>
    obtain ⟨hne, hline⟩ : '\n' ≠ c ∧ '\n' ∉ s := by simpa using hline
    refine ⟨fun _ => ?_, fun h => absurd hc h⟩
    rw [splitFields, if_pos (isSep_of_blank hc hne.symm), words_blank_cons hc]
    by_cases hs : AtBlank s
    · cases s with
      | nil => rfl
      | cons d s =>
        have hd : isSep d = true := isSep_of_blank hs fun h => hline (h ▸ List.mem_cons_self)
        rw [if_pos (by simpa using hd), (ih hline).1 hs]
    · have hhead : ¬ s.head?.any isSep = true := by
        intro h
        cases s with
        | nil => exact hs trivial
        | cons d s => exact hs (blank_of_isSep (by simpa using h))
      rw [if_neg hhead]
      exact (ih hline).2 hs
  | word w rest hw hrest ih =>
    obtain ⟨-, hline⟩ : '\n' ∉ w ∧ '\n' ∉ rest := by simpa using hline
    have hsep : ∀ c ∈ w, isSep c = false := fun c hc => by
      rw [Bool.eq_false_iff]
      intro h
      simpa [blank_of_isSep h] using hw.2 c hc
    have hstart : ¬ AtBlank (w ++ rest) := by
      obtain ⟨c, w, rfl⟩ := List.exists_cons_of_ne_nil hw.1
      intro h
      have hblank : isBlank c = true := h
      simp [hw.2 c List.mem_cons_self] at hblank
    refine ⟨fun h => absurd h hstart, fun _ => ?_⟩
    obtain ⟨ws, hws⟩ := splitFields_blank hrest hline
    have hrest := (ih hline).1 hrest
    rw [hws, List.drop_one, List.tail_cons] at hrest
    rw [splitFields_append hsep, hws, List.modifyHead_cons, List.append_nil, words_word_append hw (by assumption),
      List.takeWhile_cons, List.takeWhile_cons, hrest]

theorem mem_lineFlags {l n : Text} (hline : '\n' ∉ l) :
    n ∈ lineFlags l ↔ ∃ t ∈ listTags, ∃ rest, l = bracketed t ++ rest ∧ n ∈ listedWords rest := by
  have hrest : ∀ t ∈ listTags, ∀ rest, l = bracketed t ++ rest → listed (split l) = listedWords rest := by
    rintro t ht rest rfl
    have hupper : ∀ c ∈ t, Lua.isUpper c = true := by
      have hall : ∀ t ∈ listTags, ∀ c ∈ t, Lua.isUpper c = true := by decide
      exact hall t ht
    have hno : '\n' ∉ rest := fun h => hline (List.mem_append_right _ h)
    have hsplit := @List.takeWhile_append_dropWhile _ (!isBlank ·) rest
    have hblank : AtBlank (rest.dropWhile (!isBlank ·)) := by
      have hd := List.head?_dropWhile_not (!isBlank ·) rest
      cases h : rest.dropWhile (!isBlank ·) with
      | nil => trivial
      | cons d r => simpa [h, AtBlank] using hd
    have hsep : ∀ c ∈ rest.takeWhile (!isBlank ·), isSep c = false := fun c hc => by
      rw [Bool.eq_false_iff]
      intro h
      simpa [blank_of_isSep h] using List.mem_takeWhile_imp hc
    have hdrop : '\n' ∉ rest.dropWhile (!isBlank ·) := fun h => hno ((List.dropWhile_sublist _).subset h)
    rw [listed, split_bracketed hupper, listedWords, ← (splitFields_words hdrop).1 hblank]
    conv_lhs => rw [← hsplit, splitFields_append hsep]
    cases splitFields (rest.dropWhile (!isBlank ·)) <;> rfl
  rw [lineFlags]
  constructor
  · intro h
    split at h
    next htag =>
      obtain ⟨u, hu, hpre⟩ := List.any_eq_true.1 htag
      obtain ⟨rest, rfl⟩ := List.isPrefixOf_iff_prefix.1 hpre
      have ht : u.toList ∈ listTags := by
        have hall : ∀ u ∈ ["F", "FLAGS"], u.toList ∈ listTags := by decide
        exact hall u hu
      exact ⟨u.toList, ht, rest, rfl, by rwa [← hrest _ ht rest rfl]⟩
    · cases h
  · rintro ⟨t, ht, rest, rfl, h⟩
    have htag : hasTag ["F", "FLAGS"] (bracketed t ++ rest) = true := by
      rcases List.mem_cons.1 ht with rfl | ht
      · exact List.any_eq_true.2 ⟨"F", by simp, List.isPrefixOf_iff_prefix.2 (List.prefix_append _ _)⟩
      · obtain rfl := List.mem_singleton.1 ht
        exact List.any_eq_true.2 ⟨"FLAGS", by simp, List.isPrefixOf_iff_prefix.2 (List.prefix_append _ _)⟩
    rwa [if_pos htag, hrest t ht rest rfl]

/-- A line with a space behind its tag is a flag line. -/
theorem flagged_of_listed {n : Text} (hn : n ∈ names m f) {t : Text} (ht : t ∈ listTags) {rest : Text}
    (hmem : bracketed t ++ rest ∈ effective o) (hspace : rest.head? = some ' ') (h : n ∈ listedWords rest) :
    Flagged m o f := by
  obtain ⟨g, hg, hlines⟩ : ∃ g, lastWith ['F'] o.files = some g ∧ bracketed t ++ rest ∈ g.lines := by
    rw [effective] at hmem
    cases hg : lastWith ['F'] o.files with
    | none => simp [hg] at hmem
    | some g => exact ⟨g, rfl, by simpa [hg] using hmem⟩
  obtain ⟨hupper, hkey⟩ : (∀ c ∈ t, Lua.isUpper c = true) ∧ key t = some ['F'] := by
    have hall : ∀ t ∈ listTags, (∀ c ∈ t, Lua.isUpper c = true) ∧ key t = some ['F'] := by decide
    exact hall t ht
  obtain ⟨v, rfl⟩ : ∃ v, rest = ' ' :: v := by
    cases rest with
    | nil => cases hspace
    | cons c v => exact ⟨v, by rw [Option.some.inj hspace]⟩
  have htag : tagLine (bracketed t ++ ' ' :: v) = some (t, v) := by simp [tagLine_bracketed hupper]
  refine ⟨n, hn, v, ?_, ?_⟩
  · rw [flagValues, hg, Option.map_some, Option.getD_some, values]
    exact List.mem_filterMap.2 ⟨_, hlines, by simp [htag, hkey]⟩
  · have hword := (List.takeWhile_sublist _).subset h
    rwa [List.dropWhile_cons_of_neg (by decide), words_blank_cons rfl] at hword

theorem listed_iff (arch kernel : Text) (d : DescFile) :
    (∃ n ∈ names m f, n ∈ accumulated arch kernel d (effective o)) ↔
      ∃ n ∈ names m f, ∃ t ∈ listTags, ∃ rest, bracketed t ++ rest ∈ effective o ∧ n ∈ listedWords rest := by
  refine exists_congr fun n => and_congr_right fun _ => ?_
  have hlineEnd : ∀ l ∈ effective o, '\n' ∉ l := by
    intro l hl
    rw [effective] at hl
    cases hg : lastWith ['F'] o.files with
    | none => simp [hg] at hl
    | some g =>
      rw [hg] at hl
      exact g.lineEnd l hl
  rw [accumulated_eq, List.mem_flatMap]
  constructor
  · rintro ⟨l, hl, h⟩
    obtain ⟨t, ht, rest, rfl, hword⟩ := (mem_lineFlags (hlineEnd l hl)).1 h
    exact ⟨t, ht, rest, hl, hword⟩
  · rintro ⟨t, ht, rest, hl, h⟩
    exact ⟨_, hl, (mem_lineFlags (hlineEnd _ hl)).2 ⟨t, ht, rest, rfl, h⟩⟩

/-- There is a file to start from. -/
theorem exists_descFile : Nonempty DescFile :=
  ⟨⟨['a'], ['a'], [], by decide, by decide, by decide⟩⟩

/-- **The flags** are seen by both exactly if no line that goes wrong is alone. -/
theorem flags_seen (m : Machine) (o : Overlays) (f : Flag) : FlagSeen m o f ↔ FlagWritten m o f := by
  by_cases hnamed : ∀ g ∈ o.files, reads [] g = []
  · obtain ⟨v, hv, hdesc, -⟩ := parseDesc_eq hnamed
    have hseen : FlagSeen m o f ↔ ((∃ n ∈ names m f, ∃ i x, FramedAt o n i x) ↔ Flagged m o f) ∧
        ((∃ n ∈ names m f, ∃ t ∈ listTags, ∃ rest, bracketed t ++ rest ∈ effective o ∧ n ∈ listedWords rest) ↔
          Flagged m o f) := by
      rw [FlagSeen, hv]
      simp only [listed_iff, Option.some.injEq, exists_eq_left', desc_flags hdesc, hasflag_iff]
      exact and_congr_right fun _ => ⟨fun h => h [] [] (Classical.choice exists_descFile), fun h _ _ _ => h⟩
    rw [hseen]
    constructor
    · rintro ⟨hframed, hlisted⟩
      exact ⟨hnamed, hlisted.2, fun n hn t ht rest hmem _ h => hlisted.1 ⟨n, hn, t, ht, rest, hmem, h⟩, hframed.2,
        fun n hn i x h _ => hframed.1 ⟨n, hn, i, x, h⟩⟩
    · intro h
      refine ⟨⟨?_, h.framed⟩, ?_, h.listed⟩
      · rintro ⟨n, hn, i, x, hx, hframed⟩
        by_cases hodd : '\\' ∈ x.1 ∨ flagFile o ≠ lastWith ['F'] o.files
        · exact h.escaped n hn i x ⟨hx, hframed⟩ hodd
        · rw [not_or, not_not] at hodd
          obtain ⟨hback, hsame⟩ := hodd
          rw [readLines] at hx
          cases hg : flagFile o with
          | none => simp [hg] at hx
          | some g =>
            rw [hg] at hx
            exact flagged_of_framed hn (hsame ▸ hg) (List.mem_of_getElem? hx) hback hframed
      · rintro ⟨n, hn, t, ht, rest, hmem, hword⟩
        by_cases hspace : rest.head? = some ' '
        · exact flagged_of_listed hn ht hmem hspace hword
        · exact h.spaced n hn t ht rest hmem hspace hword
  · have hnone : parseDesc o.files = none := by
      simp only [not_forall] at hnamed
      obtain ⟨g, hg, hne⟩ := hnamed
      exact parseDesc_none hg hne
    refine iff_of_false ?_ fun h => hnamed h.named
    rintro ⟨v, hv, -⟩
    rw [hnone] at hv
    cases hv

/-- Two flag lines. -/
def twoLines : Overlays :=
  ⟨⟨["[I] zlib".toList, "[F] CROSS OBJDIR".toList, "[F] NO-LTO".toList], by decide⟩, none, none⟩

def objdir : Flag := ⟨"OBJDIR".toList, by decide, List.all_eq_true.1 (by decide)⟩
def intel : Machine where
  arch := "x86-64".toList
  arch_sizeof_char_p := 8
  libc := "glibc".toList
  cc := "gcc".toList
  plain := by
    have hall : ["x86-64".toList, "glibc".toList, "gcc".toList].all (·.all flagChar) = true := by decide
    exact fun w hw => List.all_eq_true.1 (List.all_eq_true.1 hall w hw)

/-- The last flag of the first line is seen in the package list, and `hasflag` is false. -/
theorem flag_missed :
    hasflag intel "CROSS OBJDIR\nNO-LTO".toList objdir = false ∧
      ((parseDesc twoLines.files).bind fun v => v.desc ['F']) = some "CROSS OBJDIR\nNO-LTO".toList ∧
      Flagged intel twoLines objdir ∧ ¬ FlagSeen intel twoLines objdir := by
  have hmissed : hasflag intel "CROSS OBJDIR\nNO-LTO".toList objdir = false := by decide +kernel
  have hdesc : ((parseDesc twoLines.files).bind fun v => v.desc ['F']) = some "CROSS OBJDIR\nNO-LTO".toList := by
    decide +kernel
  have hflagged : Flagged intel twoLines objdir := by
    refine ⟨"OBJDIR".toList, List.mem_cons_self, "CROSS OBJDIR".toList, ?_, ?_⟩
    · decide +kernel
    · decide +kernel
  refine ⟨hmissed, hdesc, hflagged, ?_⟩
  rintro ⟨v, hv, hseen, -⟩
  rw [hv, Option.bind_some] at hdesc
  rw [hdesc, Option.getD_some, hmissed] at hseen
  exact absurd (hseen.2 hflagged) (by decide)

end T2Sde.Desc
