import T2Sde.Lib.Glob
import T2Sde.Wrapper.RealPath
/-!
# Directories to make (`misc/tools-source/install_wrapper.sh`)

The wrapper takes an `install` command line apart and calls the real command, with an empty filter. It does not ask for
`-d`: with two or more operands the last one is the destination, and if that is a directory, each of the others goes to
it in a call of its own. An operand that is no directory by then is also made a second time, inside the destination.

| here | there |
| --- | --- |
| `bypass`         | :37-40 |
| `shortOptions`   | the loop over a word :59-82 |
| `readArgs`       | :42-93 |
| `settle`         | :95-101 |
| `callSources`    | :110-120 |
| `invocations`    | :107-124 |
| `operands`       | which words the real command takes as operands |

* `readArgs_items` — the command line is read item by item.
* `install_dirs_iff` — **when the directories are the operands**.
-/
namespace T2Sde.Wrapper
open Shell

/-! ## The program -/

structure Parsed where
  newcommand : Text
  tdir : Text
  destination : Text
  sources : List Text
  deriving DecidableEq, Repr

def bypass (args : List Text) : Bool :=
  [' '].intercalate (args.map (replaceOnce "--target-directory".toList ['/'])) != [' '].intercalate args

/-- `newcommand="$newcommand …"` -/
def Parsed.add (st : Parsed) (words : List Text) : Parsed :=
  { st with newcommand := st.newcommand ++ words.flatMap (' ' :: ·) }

/-- The option letters of a word and, where the last one has its value there, the words behind it. -/
def shortOptions (st : Parsed) (behind : List Text) : Text → Parsed × List Text
  | [] => (st, behind)
  | a :: opts =>
    if a ∈ "gmoSt".toList then
      let val := if opts = [] then behind.headD [] else opts
      let behind := if opts = [] then behind.tail else behind
      (if a = 't' then { st with tdir := val } else st.add [['-', a], val], behind)
    else if a = 's' then shortOptions st behind opts
    else shortOptions (st.add [['-', a]]) behind opts

/-- The first `n` turns of the loop over the words. -/
def readArgs : Nat → List Text → Parsed → Parsed
  | 0, _, st => st
  | _, [], st => st
  | n + 1, a :: args, st =>
    if a ∈ ["--group".toList, "--mode".toList, "--owner".toList, "--suffix".toList] then
      readArgs n args.tail (st.add [a, args.headD []])
    else if a = "--strip".toList then readArgs n args st
    else if "--".toList <+: a then readArgs n args (st.add [a])
    else if a.head? = some '-' ∧ a ≠ ['-'] then
      let r := shortOptions st args a.tail
      readArgs n r.2 r.1
    else
      let sources := if st.destination ≠ [] then st.sources ++ [st.destination] else st.sources
      readArgs n args { st with sources := sources, destination := a }

/-- What the wrapper sees of the file system, and what the real commands do to it. -/
structure Files (σ : Type) where
  isDir : σ → Text → Bool
  mkdir : σ → Text → σ
  run : σ → List Text → σ

/-- A path with `//` made `/`. -/
def squeeze (path : Text) : Text := replaceAll "\\/\\/".toList ['/'] path

/-- What stands behind the last slash. -/
def behindSlash (path : Text) : Text := (path.splitOn '/').getLast?.getD []

section
variable {σ : Type} (fs : Files σ)

/-- `$PWD` in front, if the path is not absolute. -/
def fromHere (cwd path : Text) : Text := if path.head? = some '/' then path else cwd ++ '/' :: path

/-- The destination, with `-t` taken in. -/
def settle (s : σ) (cwd : Text) (st : Parsed) : σ × Parsed :=
  let (s, st) :=
    if st.tdir ≠ [] then
      (if " -D ".toList <:+: ' ' :: st.newcommand ++ [' '] then fs.mkdir s st.tdir else s,
        { st with
          sources := if st.destination ≠ [] then st.sources ++ [st.destination] else st.sources
          destination := st.tdir })
    else (s, st)
  (s, if st.destination = [] then st else { st with destination := fromHere cwd st.destination })

/-- Where a source goes. -/
def place (destination source : Text) (isDir : Bool) : Text :=
  squeeze (if isDir then destination else destination ++ '/' :: behindSlash source)

def callSources (newcommand destination : Text) : σ → List Text → List (List Text)
  | _, [] => []
  | s, source :: sources =>
    let thisdest := place destination source (fs.isDir s (squeeze source))
    if thisdest ≠ [] then
      let call := words newcommand ++ [source, thisdest]
      call :: callSources newcommand destination (fs.run s call) sources
    else callSources newcommand destination s sources

/-- The command lines that the real commands are called with, the command in front. -/
def invocations (s : σ) (cwd : Text) (args : List Text) : List (List Text) :=
  if bypass args then ["install".toList :: args]
  else
    let (s, st) := settle fs s cwd (readArgs args.length args ⟨"install".toList, [], [], []⟩)
    if st.destination = [] ∨ st.sources = [] then [words st.newcommand ++ [st.destination]]
    else if fs.isDir s st.destination then callSources fs st.newcommand st.destination s st.sources
    else [words st.newcommand ++ st.sources ++ [st.destination]]

end

/-! ## Command lines of the real command -/

/-- The options with a value in the next word, where there is no `=`. -/
def valueOptions : List Text :=
  ["--group".toList, "--mode".toList, "--owner".toList, "--suffix".toList, "--strip-program".toList,
    "--target-directory".toList]

def shortTakes : Text → Bool
  | [] => false
  | c :: cs => if c ∈ "gmoSt".toList then cs.isEmpty else shortTakes cs

/-- The next word is the value of an option; a long option may be abbreviated. -/
def takesNext (a : Text) : Bool :=
  if "--".toList <+: a then a != "--strip".toList && valueOptions.any (a.isPrefixOf ·) else shortTakes a.tail

/-- The words that are no options; the first argument says that the next word is a value. -/
def operands : Bool → List Text → List Text
  | _, [] => []
  | true, _ :: args => operands false args
  | false, a :: args =>
    if a = "--".toList then args
    else if a.head? = some '-' ∧ a ≠ ['-'] then operands (takesNext a) args
    else a :: operands false args

/-- An option letter without a value. -/
def flagChar (c : Char) : Bool := !isBlank c && verbatimChar c && c != '-' && !"gmoSt".toList.contains c

/-- A value of an option: it is put into the text of the new command, and comes out of it as one word. -/
structure Word where
  text : Text
  word : IsWord text
  plain : Verbatim text

/-- What stands in a command line: letters; letters and one with its value, in the same word or the next; a long option;
one with its value in the next word; the end of the options; a directory. -/
inductive Item
  | flags (letters : Text) (ok : letters ≠ [] ∧ ∀ c ∈ letters, flagChar c = true)
  | valued (letters : Text) (ok : ∀ c ∈ letters, flagChar c = true) (o : Char) (ho : o ∈ "gmoS".toList) (value : Word)
      (attached : Bool)
  | long (name : Word) (ok : "--".toList <+: name.text ∧ name.text ≠ "--".toList ∧ takesNext name.text = false)
  | longValue (name : Text) (ok : name ∈ ["--group".toList, "--mode".toList, "--owner".toList, "--suffix".toList])
      (value : Word)
  | dashes
  | directory (d : Text) (ok : d ≠ [] ∧ (d.head? ≠ some '-' ∨ d = ['-']))

def Item.words : Item → List Text
  | .flags letters _ => ['-' :: letters]
  | .valued letters _ o _ value attached =>
    if attached then ['-' :: letters ++ o :: value.text] else ['-' :: letters ++ [o], value.text]
  | .long name _ => [name.text]
  | .longValue name _ value => [name, value.text]
  | .dashes => ["--".toList]
  | .directory d _ => [d]

/-- The letters that reach the real command, each as a word. -/
def letterWords (letters : Text) : List Text := (letters.filter (· ≠ 's')).map fun c => ['-', c]

/-- The words of the new command. -/
def Item.kept : Item → List Text
  | .flags letters _ => letterWords letters
  | .valued letters _ o _ value _ => letterWords letters ++ [['-', o], value.text]
  | .long name _ => if name.text = "--strip".toList then [] else [name.text]
  | .longValue name _ value => [name, value.text]
  | .dashes => ["--".toList]
  | .directory _ _ => []

def Item.directory? : Item → Option Text
  | .directory d _ => some d
  | _ => none

/-- Behind a `--` there are only directories. -/
def DashesLast : List Item → Prop
  | [] => True
  | .dashes :: items => ∀ i ∈ items, i.directory?.isSome = true
  | _ :: items => DashesLast items

structure CommandLine where
  items : List Item
  last : DashesLast items

def CommandLine.words (line : CommandLine) : List Text := line.items.flatMap Item.words

/-- Where a directory is. -/
def resolve (cwd d : Text) : List Text := components (fromHere cwd d)

section
variable {σ : Type} (fs : Files σ)

/-- The directories that are handed to the real commands are the operands of the command line. -/
def SameDirs (cwd : Text) (calls : List (List Text)) (args : List Text) : Prop :=
  ∀ x, (∃ call ∈ calls, ∃ d ∈ operands false call.tail, resolve cwd d = x) ↔
    ∃ d ∈ operands false args, resolve cwd d = x

/-- The sources, each with whether it is a directory when its turn comes. -/
def turns (command : List Text) (destination : Text) : σ → List Text → List (Text × Bool)
  | _, [] => []
  | s, source :: sources =>
    let isDir := fs.isDir s (squeeze source)
    (source, isDir) ::
      turns command destination (fs.run s (command ++ [source, place destination source isDir])) sources

/-- Nothing goes to a place that is no operand, and something goes to the destination. -/
structure Serves (cwd destination : Text) (ds : List Text) (ts : List (Text × Bool)) : Prop where
  inside : ∀ t ∈ ts, t.2 = false → ∃ d ∈ ds, resolve cwd d = resolve cwd (destination ++ '/' :: behindSlash t.1)
  itself : ∃ t ∈ ts, t.2 = true ∨ resolve cwd (destination ++ '/' :: behindSlash t.1) = resolve cwd destination ∨
    resolve cwd t.1 = resolve cwd destination

end

/-! ## Paths -/

theorem squeeze_eq (p : Text) : squeeze p = replaceAll ['/', '/'] ['/'] p :=
  replaceAll_glob (p := "\\/\\/".toList) (w := ['/', '/']) rfl _ _

theorem verbatim_slashes : Verbatim ['/', '/'] := by simp [Verbatim, verbatimChar]

theorem squeeze_match (p : Text) : squeeze ('/' :: '/' :: p) = '/' :: squeeze p := by
  rw [squeeze_eq, squeeze_eq]
  exact replaceAll_match verbatim_slashes (by simp) p

theorem squeeze_skip {c : Char} {p : Text} (h : ¬ ['/', '/'] <+: c :: p) : squeeze (c :: p) = c :: squeeze p := by
  rw [squeeze_eq, squeeze_eq]
  refine replaceAll_skip verbatim_slashes (u := [c]) fun t ht hne => ?_
  obtain rfl | rfl := List.suffix_cons_iff.1 ht |>.imp id List.suffix_nil.1
  · exact h
  · exact absurd rfl hne

theorem squeeze_head {p : Text} (h : p.head? = some '/') : (squeeze p).head? = some '/' := by
  cases p with
  | nil => cases h
  | cons c p =>
    obtain rfl : c = '/' := by simpa using h
    by_cases hp : ['/', '/'] <+: '/' :: p
    · obtain ⟨q, hq⟩ := hp
      obtain rfl : '/' :: q = p := by simpa using hq
      rw [squeeze_match, List.head?_cons]
    · rw [squeeze_skip hp, List.head?_cons]

theorem names_append_slash (u v : Text) : names (u ++ '/' :: v) = names u ++ names v := by
  have h : (u ++ '/' :: v).splitOn '/' = u.splitOn '/' ++ v.splitOn '/' := by
    simp [List.splitOn, List.splitOnP_append_cons]
  rw [names, h, List.filter_append]
  rfl

/-- A second slash in a row names nothing. -/
theorem names_squeeze (u p : Text) : names (u ++ squeeze p) = names (u ++ p) := by
  induction hn : p.length using Nat.strong_induction_on generalizing u p with
  | _ n ih =>
    rcases p with _ | ⟨c, p⟩
    · rfl
    · by_cases h : ['/', '/'] <+: c :: p
      · obtain ⟨q, hq⟩ := h
        obtain ⟨rfl, rfl⟩ : '/' = c ∧ '/' :: q = p := by simpa using hq
        have hq := ih q.length (by simp at hn; omega) [] q rfl
        rw [squeeze_match, names_append_slash, names_append_slash, names_slash, ← List.nil_append (squeeze q), hq,
          List.nil_append]
      · rw [squeeze_skip h, List.append_cons, ih p.length (by simp at hn; omega) (u ++ [c]) p rfl, ← List.append_cons]

theorem components_squeeze (p : Text) : components (squeeze p) = components p := by
  rw [components_names, components_names, ← List.nil_append (squeeze p), names_squeeze, List.nil_append]

section
variable {cwd : Text} (hcwd : cwd.head? = some '/')
include hcwd

theorem fromHere_head (d : Text) : (fromHere cwd d).head? = some '/' := by
  rw [fromHere]
  split
  · assumption
  · rw [List.head?_append, hcwd, Option.some_or]

theorem resolve_fromHere (d : Text) : resolve cwd (fromHere cwd d) = resolve cwd d := by
  rw [resolve, fromHere, if_pos (fromHere_head hcwd d), resolve]

omit hcwd in
theorem resolve_squeeze {p : Text} (hp : p.head? = some '/') : resolve cwd (squeeze p) = resolve cwd p := by
  rw [resolve, resolve, fromHere, fromHere, if_pos (squeeze_head hp), if_pos hp, components_squeeze]

end

theorem place_head {destination : Text} (hd : destination.head? = some '/') (source : Text) (isDir : Bool) :
    (place destination source isDir).head? = some '/' := by
  rw [place]
  refine squeeze_head ?_
  split
  · exact hd
  · rw [List.head?_append, hd, Option.some_or]

theorem resolve_place (cwd : Text) {destination : Text} (hd : destination.head? = some '/') (source : Text)
    (isDir : Bool) :
    resolve cwd (place destination source isDir) =
      resolve cwd (if isDir then destination else destination ++ '/' :: behindSlash source) := by
  rw [place, resolve_squeeze]
  split
  · exact hd
  · rw [List.head?_append, hd, Option.some_or]

/-! ## Reading the command line -/

theorem Parsed.add_add (st : Parsed) (us vs : List Text) : (st.add us).add vs = st.add (us ++ vs) := by
  simp [Parsed.add]

theorem Parsed.add_nil (st : Parsed) : st.add [] = st := by simp [Parsed.add]

theorem flagChar_spec {c : Char} (h : flagChar c = true) : isBlank c = false ∧ c ≠ '-' ∧ c ∉ "gmoSt".toList := by
  simp only [flagChar, Bool.and_eq_true, Bool.not_eq_true', bne_iff_ne, List.contains_eq_mem,
    decide_eq_false_iff_not] at h
  exact ⟨h.1.1.1, h.1.2, h.2⟩

theorem shortOptions_letters {letters : Text} (h : ∀ c ∈ letters, flagChar c = true) (st : Parsed)
    (behind : List Text) (opts : Text) :
    shortOptions st behind (letters ++ opts) = shortOptions (st.add (letterWords letters)) behind opts := by
  induction letters generalizing st with
  | nil => rw [List.nil_append, letterWords, List.filter_nil, List.map_nil, Parsed.add_nil]
  | cons c letters ih =>
    have hc := (flagChar_spec (h c List.mem_cons_self)).2.2
    have ih := fun st => ih (fun d hd => h d (List.mem_cons_of_mem _ hd)) st
    rw [List.cons_append, shortOptions, if_neg hc]
    by_cases hs : c = 's'
    · rw [if_pos hs, ih]
      simp [letterWords, hs]
    · rw [if_neg hs, ih, Parsed.add_add]
      simp [letterWords, hs]

/-- What one item does. -/
def Item.read (st : Parsed) : Item → Parsed
  | .directory d _ =>
    { st with sources := if st.destination ≠ [] then st.sources ++ [st.destination] else st.sources, destination := d }
  | i => st.add i.kept

theorem valueChar_spec {o : Char} (ho : o ∈ "gmoS".toList) :
    o ∈ "gmoSt".toList ∧ o ≠ 't' ∧ o ≠ '-' ∧ isBlank o = false := by
  revert o
  decide

theorem takesNext_of_mem {a : Text} (h : a ∈ ["--group".toList, "--mode".toList, "--owner".toList, "--suffix".toList]) :
    takesNext a = true := by
  revert a
  decide +kernel

theorem valueOption_long {a : Text}
    (h : a ∈ ["--group".toList, "--mode".toList, "--owner".toList, "--suffix".toList]) :
    "--".toList <+: a ∧ a ≠ "--".toList := by
  revert a
  decide +kernel

theorem not_long {c : Char} (hc : c ≠ '-') (w : Text) :
    '-' :: c :: w ∉ ["--group".toList, "--mode".toList, "--owner".toList, "--suffix".toList] ∧
      '-' :: c :: w ≠ "--strip".toList ∧ ¬ "--".toList <+: '-' :: c :: w := by
  have h : ∀ v : Text, '-' :: c :: w ≠ '-' :: '-' :: v := by
    intro v hv
    simp at hv
    exact hc hv.1
  refine ⟨?_, h _, ?_⟩
  · intro hmem
    simp only [List.mem_cons, List.not_mem_nil, or_false] at hmem
    rcases hmem with hm | hm | hm | hm <;> exact h _ hm
  · rintro ⟨v, hv⟩
    exact h v hv.symm

theorem readArgs_short {c : Char} (hc : c ≠ '-') (n : Nat) (w : Text) (args : List Text) (st : Parsed) :
    readArgs (n + 1) (('-' :: c :: w) :: args) st =
      readArgs n (shortOptions st args (c :: w)).2 (shortOptions st args (c :: w)).1 := by
  obtain ⟨h₁, h₂, h₃⟩ := not_long hc w
  rw [readArgs, if_neg h₁, if_neg h₂, if_neg h₃, if_pos ⟨rfl, by simp⟩]
  rfl

theorem Item.words_pos (i : Item) : 0 < i.words.length := by
  cases i with
  | valued letters ok o ho value attached => cases attached <;> simp [Item.words]
  | _ => simp [Item.words]

theorem readArgs_item (i : Item) (n : Nat) (args : List Text) (st : Parsed) :
    readArgs (n + 1) (i.words ++ args) st = readArgs n args (i.read st) := by
  cases i with
  | flags letters ok =>
    obtain ⟨c, w, rfl⟩ := List.exists_cons_of_ne_nil ok.1
    have hc := (flagChar_spec (ok.2 c List.mem_cons_self)).2.1
    have h := shortOptions_letters ok.2 st args []
    rw [List.append_nil] at h
    rw [Item.words, List.singleton_append, readArgs_short hc, h]
    rfl
  | valued letters ok o ho value attached =>
    obtain ⟨hmem, ht, hdash, -⟩ := valueChar_spec ho
    have hhead : ∀ v : Text, ∃ c w, letters ++ o :: v = c :: w ∧ c ≠ '-' := by
      intro v
      cases letters with
      | nil => exact ⟨o, v, rfl, hdash⟩
      | cons c w => exact ⟨c, w ++ o :: v, rfl, (flagChar_spec (ok c List.mem_cons_self)).2.1⟩
    have hstep : ∀ (v : Text) (args : List Text), readArgs (n + 1) (('-' :: letters ++ o :: v) :: args) st =
        readArgs n (shortOptions (st.add (letterWords letters)) args (o :: v)).2
          (shortOptions (st.add (letterWords letters)) args (o :: v)).1 := by
      intro v args
      obtain ⟨c, w, hcw, hc⟩ := hhead v
      rw [List.cons_append, hcw, readArgs_short hc, ← hcw, shortOptions_letters ok]
    cases attached with
    | true =>
      rw [Item.words, if_pos rfl, List.singleton_append, hstep, shortOptions, if_pos hmem]
      simp [value.word.1, ht, Item.read, Item.kept, Parsed.add_add]
    | false =>
      rw [Item.words, if_neg (by simp), List.cons_append, hstep, shortOptions, if_pos hmem]
      simp [ht, Item.read, Item.kept, Parsed.add_add]
  | long name ok =>
    have hno : name.text ∉ ["--group".toList, "--mode".toList, "--owner".toList, "--suffix".toList] := by
      intro hmem
      have htakes : takesNext name.text = true := takesNext_of_mem hmem
      rw [ok.2.2] at htakes
      cases htakes
    change _ = readArgs n args (st.add (Item.long name ok).kept)
    rw [Item.words, List.singleton_append, readArgs, if_neg hno, Item.kept]
    by_cases hstrip : name.text = "--strip".toList
    · rw [if_pos hstrip, if_pos hstrip, Parsed.add_nil]
    · rw [if_neg hstrip, if_neg hstrip, if_pos ok.1]
  | longValue name ok value =>
    rw [Item.words, List.cons_append, readArgs, if_pos ok]
    rfl
  | dashes =>
    rw [Item.words, List.singleton_append, readArgs, if_neg (by decide), if_neg (by decide),
      if_pos (List.prefix_refl _)]
    rfl
  | directory d ok =>
    obtain ⟨c, w, rfl⟩ := List.exists_cons_of_ne_nil ok.1
    have hshort : ¬ ((c :: w).head? = some '-' ∧ c :: w ≠ ['-']) :=
      fun h => ok.2.elim (fun h' => h' h.1) fun h' => h.2 h'
    have hlong : ∀ v : Text, c :: w ≠ '-' :: '-' :: v := fun v hv => hshort (by rw [hv]; simp)
    have hno : c :: w ∉ ["--group".toList, "--mode".toList, "--owner".toList, "--suffix".toList] := by
      intro hmem
      simp only [List.mem_cons, List.not_mem_nil, or_false] at hmem
      rcases hmem with hm | hm | hm | hm <;> exact hlong _ hm
    rw [Item.words, List.singleton_append, readArgs, if_neg hno, if_neg (show c :: w ≠ "--strip".toList from hlong _),
      if_neg (fun h => by obtain ⟨v, hv⟩ := h; exact hlong v hv.symm), if_neg hshort]
    rfl

/-- **The command line is read item by item.** -/
theorem readArgs_items (items : List Item) {n : Nat} (st : Parsed) (hn : items.length ≤ n) :
    readArgs n (items.flatMap Item.words) st = items.foldl Item.read st := by
  induction items generalizing n st with
  | nil => cases n <;> rfl
  | cons i items ih =>
    rw [List.length_cons] at hn
    obtain ⟨n, rfl⟩ : ∃ k, n = k + 1 := ⟨n - 1, by omega⟩
    rw [List.flatMap_cons, readArgs_item, ih _ (by omega), List.foldl_cons]

theorem length_le_words (items : List Item) : items.length ≤ (items.flatMap Item.words).length := by
  induction items with
  | nil => exact Nat.le_refl 0
  | cons i items ih =>
    have hi := i.words_pos
    rw [List.flatMap_cons, List.length_append, List.length_cons]
    omega

/-- The directories of a command line. -/
def directories (items : List Item) : List Text := items.filterMap Item.directory?

theorem mem_directories {items : List Item} {d : Text} (hd : d ∈ directories items) :
    d ≠ [] ∧ (d.head? ≠ some '-' ∨ d = ['-']) := by
  obtain ⟨i, -, hi⟩ := List.mem_filterMap.1 hd
  cases i with
  | directory d' ok =>
    obtain rfl : d' = d := by simpa [Item.directory?] using hi
    exact ok
  | _ => simp [Item.directory?] at hi

/-- What is read when all is read. -/
theorem read_items (command : Text) (items : List Item) :
    items.foldl Item.read ⟨command, [], [], []⟩ =
      ⟨command ++ (items.flatMap Item.kept).flatMap (' ' :: ·), [], (directories items).getLast?.getD [],
        (directories items).dropLast⟩ := by
  induction items using List.reverseRecOn with
  | nil => simp [directories]
  | append_singleton items i ih =>
    rw [List.foldl_append, ih]
    cases i with
    | directory d ok =>
      rcases List.eq_nil_or_concat (directories items) with h | ⟨ds, e, h⟩
      · have hds : directories (items ++ [Item.directory d ok]) = [d] := by
          rw [directories, List.filterMap_append]
          change directories items ++ [d] = _
          rw [h, List.nil_append]
        simp [hds, h, Item.read, Item.kept]
      · rw [List.concat_eq_append] at h
        have hne : e ≠ [] := (mem_directories (by rw [h]; simp)).1
        have hds : directories (items ++ [Item.directory d ok]) = ds ++ [e] ++ [d] := by
          rw [directories, List.filterMap_append]
          change directories items ++ [d] = _
          rw [h]
        simp [hds, h, Item.read, Item.kept, hne]
    | _ => simp [directories, Item.read, List.filterMap_cons, Item.directory?, Parsed.add]

/-! ## The operands -/

theorem operands_option {a : Text} (h : a.head? = some '-' ∧ a ≠ ['-'] ∧ a ≠ "--".toList) (args : List Text) :
    operands false (a :: args) = operands (takesNext a) args := by
  rw [operands, if_neg h.2.2, if_pos ⟨h.1, h.2.1⟩]

theorem takesNext_short {c : Char} (hc : c ≠ '-') (w : Text) : takesNext ('-' :: c :: w) = shortTakes (c :: w) := by
  rw [takesNext, if_neg (not_long hc w).2.2]
  rfl

theorem shortTakes_letters {letters : Text} (h : ∀ c ∈ letters, flagChar c = true) (opts : Text) :
    shortTakes (letters ++ opts) = shortTakes opts := by
  induction letters with
  | nil => rfl
  | cons c letters ih =>
    rw [List.cons_append, shortTakes, if_neg (flagChar_spec (h c List.mem_cons_self)).2.2,
      ih fun d hd => h d (List.mem_cons_of_mem _ hd)]

theorem operands_short {c : Char} (hc : c ≠ '-') (w : Text) (args : List Text) :
    operands false (('-' :: c :: w) :: args) = operands (shortTakes (c :: w)) args := by
  rw [operands_option ⟨rfl, by simp, fun h => hc (by simp at h; exact h.1)⟩, takesNext_short hc]

theorem operands_letterWords {letters : Text} (h : ∀ c ∈ letters, flagChar c = true) (args : List Text) :
    operands false (letterWords letters ++ args) = operands false args := by
  induction letters with
  | nil => rfl
  | cons c letters ih =>
    have ih := ih fun d hd => h d (List.mem_cons_of_mem _ hd)
    have hc := flagChar_spec (h c List.mem_cons_self)
    by_cases hs : c = 's'
    · rw [← ih, letterWords, List.filter_cons_of_neg (by simp [hs])]
      rfl
    · have hcons : letterWords (c :: letters) = ['-', c] :: letterWords letters := by simp [letterWords, hs]
      rw [hcons, List.cons_append, operands_short hc.2.1, shortTakes, if_neg hc.2.2]
      exact ih

theorem operands_long {name : Text} (h : "--".toList <+: name) (hne : name ≠ "--".toList) (args : List Text) :
    operands false (name :: args) = operands (takesNext name) args := by
  obtain ⟨w, rfl⟩ := h
  exact operands_option ⟨rfl, by simp, hne⟩ args

theorem operands_word {i : Item} (hi : i ≠ .dashes) (args : List Text) :
    operands false (i.words ++ args) = i.directory?.toList ++ operands false args := by
  cases i with
  | dashes => exact absurd rfl hi
  | flags letters ok =>
    obtain ⟨c, w, rfl⟩ := List.exists_cons_of_ne_nil ok.1
    have h := shortTakes_letters ok.2 []
    rw [List.append_nil] at h
    rw [Item.words, List.singleton_append, operands_short (flagChar_spec (ok.2 c List.mem_cons_self)).2.1, h]
    rfl
  | valued letters ok o ho value attached =>
    obtain ⟨hmem, -, hdash, -⟩ := valueChar_spec ho
    have hstep : ∀ (v : Text) (args : List Text),
        operands false (('-' :: letters ++ o :: v) :: args) = operands v.isEmpty args := by
      intro v args
      have htakes := shortTakes_letters ok (o :: v)
      rw [shortTakes, if_pos hmem] at htakes
      cases letters with
      | nil => rw [List.singleton_append, operands_short hdash, ← htakes]; rfl
      | cons c w =>
        rw [List.cons_append, List.cons_append, operands_short (flagChar_spec (ok c List.mem_cons_self)).2.1, ← htakes]
        rfl
    cases attached with
    | true =>
      rw [Item.words, if_pos rfl, List.singleton_append, hstep]
      rw [List.isEmpty_eq_false_iff.2 value.word.1]
      rfl
    | false =>
      rw [Item.words, if_neg (by simp), List.cons_append, hstep]
      rfl
  | long name ok =>
    rw [Item.words, List.singleton_append, operands_long ok.1 ok.2.1, ok.2.2]
    rfl
  | longValue name ok value =>
    obtain ⟨hpre, hne⟩ := valueOption_long ok
    rw [Item.words, List.cons_append, operands_long hpre hne, takesNext_of_mem ok]
    rfl
  | directory d ok =>
    have hshort : ¬ (d.head? = some '-' ∧ d ≠ ['-']) := fun h => ok.2.elim (fun h' => h' h.1) fun h' => h.2 h'
    rw [Item.words, List.singleton_append, operands, if_neg (fun h => hshort (by rw [h]; simp)), if_neg hshort]
    rfl

theorem DashesLast.of_cons {i : Item} {items : List Item} (h : DashesLast (i :: items)) (hi : i ≠ .dashes) :
    DashesLast items := by
  cases i with
  | dashes => exact absurd rfl hi
  | _ => exact h

/-- Directories are all that they leave. -/
theorem flatMap_directories {items : List Item} (h : ∀ i ∈ items, i.directory?.isSome = true) :
    items.flatMap Item.words = directories items ∧ items.flatMap Item.kept = [] := by
  induction items with
  | nil => exact ⟨rfl, rfl⟩
  | cons i items ih =>
    obtain ⟨hwords, hkept⟩ := ih fun j hj => h j (List.mem_cons_of_mem _ hj)
    have hi := h i List.mem_cons_self
    cases i with
    | directory d ok => exact ⟨congrArg (d :: ·) hwords, hkept⟩
    | _ => cases hi

theorem operands_words {items : List Item} (h : DashesLast items) :
    operands false (items.flatMap Item.words) = directories items := by
  induction items with
  | nil => rfl
  | cons i items ih =>
    by_cases hi : i = .dashes
    · subst hi
      rw [List.flatMap_cons, (flatMap_directories h).1]
      rfl
    · rw [List.flatMap_cons, operands_word hi, ih (h.of_cons hi), directories, directories]
      cases hd : i.directory? <;> simp [hd]

theorem operands_kept_item {i : Item} (hi : i ≠ .dashes) (args : List Text) :
    operands false (i.kept ++ args) = operands false args := by
  cases i with
  | dashes => exact absurd rfl hi
  | flags letters ok => exact operands_letterWords ok.2 args
  | valued letters ok o ho value attached =>
    obtain ⟨hmem, -, hdash, -⟩ := valueChar_spec ho
    rw [Item.kept, List.append_assoc, operands_letterWords ok, List.cons_append, operands_short hdash, shortTakes,
      if_pos hmem]
    rfl
  | long name ok =>
    rw [Item.kept]
    split
    · rfl
    · rw [List.singleton_append, operands_long ok.1 ok.2.1, ok.2.2]
  | longValue name ok value =>
    obtain ⟨hpre, hne⟩ := valueOption_long ok
    rw [Item.kept, List.cons_append, operands_long hpre hne, takesNext_of_mem ok]
    rfl
  | directory d ok => rfl

/-- Paths are operands. -/
theorem operands_paths {ds : List Text} (h : ∀ d ∈ ds, d.head? ≠ some '-' ∨ d = ['-']) : operands false ds = ds := by
  induction ds with
  | nil => rfl
  | cons d ds ih =>
    have hd := h d List.mem_cons_self
    have hshort : ¬ (d.head? = some '-' ∧ d ≠ ['-']) := fun h' => hd.elim (fun h'' => h'' h'.1) fun h'' => h'.2 h''
    rw [operands, if_neg (fun h' => hshort (by rw [h']; simp)), if_neg hshort,
      ih fun e he => h e (List.mem_cons_of_mem _ he)]

/-- Behind the new command the operands are the paths. -/
theorem operands_kept {items : List Item} (h : DashesLast items) {ds : List Text}
    (hds : ∀ d ∈ ds, d.head? ≠ some '-' ∨ d = ['-']) : operands false (items.flatMap Item.kept ++ ds) = ds := by
  induction items with
  | nil => exact operands_paths hds
  | cons i items ih =>
    by_cases hi : i = .dashes
    · subst hi
      rw [List.flatMap_cons, (flatMap_directories h).2]
      rfl
    · rw [List.flatMap_cons, List.append_assoc, operands_kept_item hi, ih (h.of_cons hi)]

/-! ## The calls -/

theorem isWord_letterWords {letters w : Text} (h : ∀ c ∈ letters, flagChar c = true) (hw : w ∈ letterWords letters) :
    IsWord w := by
  obtain ⟨c, hc, rfl⟩ := List.mem_map.1 hw
  refine ⟨by simp, fun d hd => ?_⟩
  rcases List.mem_cons.1 hd with rfl | hd
  · rfl
  · obtain rfl := List.mem_singleton.1 hd
    exact (flagChar_spec (h d (List.mem_filter.1 hc).1)).1

theorem isWord_kept {i : Item} {w : Text} (hw : w ∈ i.kept) : IsWord w := by
  cases i with
  | flags letters ok => exact isWord_letterWords ok.2 hw
  | valued letters ok o ho value attached =>
    rw [Item.kept, List.mem_append, List.mem_cons, List.mem_singleton] at hw
    rcases hw with hw | rfl | rfl
    · exact isWord_letterWords ok hw
    · have ho := (valueChar_spec ho).2.2.2
      refine ⟨by simp, fun d hd => ?_⟩
      rcases List.mem_cons.1 hd with rfl | hd
      · rfl
      · exact List.mem_singleton.1 hd ▸ ho
    · exact value.word
  | long name ok =>
    rw [Item.kept] at hw
    split at hw
    · cases hw
    · exact List.mem_singleton.1 hw ▸ name.word
  | longValue name ok value =>
    rw [Item.kept, List.mem_cons, List.mem_singleton] at hw
    rcases hw with rfl | rfl
    · revert w
      decide +kernel
    · exact value.word
  | dashes =>
    obtain rfl := List.mem_singleton.1 hw
    decide
  | directory d ok => cases hw

/-- The new command comes out of its text word by word. -/
theorem words_newcommand (items : List Item) :
    words ("install".toList ++ (items.flatMap Item.kept).flatMap (' ' :: ·)) =
      "install".toList :: items.flatMap Item.kept := by
  have hwords : ∀ w ∈ "install".toList :: items.flatMap Item.kept, IsWord w := by
    intro w hw
    rcases List.mem_cons.1 hw with rfl | hw
    · decide
    · obtain ⟨i, -, hi⟩ := List.mem_flatMap.1 hw
      exact isWord_kept hi
  rw [← words_space_cons]
  exact words_flatMap_cons hwords

section
variable {σ : Type} (fs : Files σ) {cwd : Text}

theorem callSources_turns (newcommand : Text) {destination : Text} (hd : destination.head? = some '/') (s : σ)
    (sources : List Text) :
    callSources fs newcommand destination s sources =
      (turns fs (words newcommand) destination s sources).map fun t =>
        words newcommand ++ [t.1, place destination t.1 t.2] := by
  induction sources generalizing s with
  | nil => rfl
  | cons source sources ih =>
    have hne : place destination source (fs.isDir s (squeeze source)) ≠ [] := by
      intro h
      have hhead := place_head hd source (fs.isDir s (squeeze source))
      rw [h] at hhead
      cases hhead
    rw [callSources, turns, List.map_cons, ← ih]
    exact if_pos hne

theorem map_turns (command : List Text) (destination : Text) (s : σ) (sources : List Text) :
    (turns fs command destination s sources).map Prod.fst = sources := by
  induction sources generalizing s with
  | nil => rfl
  | cons source sources ih => rw [turns, List.map_cons, ih]

theorem settle_eq (s : σ) (cwd : Text) {e : Text} (he : e ≠ []) (newcommand : Text) (ds : List Text) :
    settle fs s cwd ⟨newcommand, [], e, ds⟩ = (s, ⟨newcommand, [], fromHere cwd e, ds⟩) := by
  rw [settle, if_neg (by simp)]
  exact congrArg (Prod.mk s) (if_neg he)

variable (hcwd : cwd.head? = some '/')
include hcwd

theorem fromHere_ne_nil (d : Text) : fromHere cwd d ≠ [] := by
  intro h
  have hhead := fromHere_head hcwd d
  rw [h] at hhead
  cases hhead

theorem operand_fromHere (d : Text) : (fromHere cwd d).head? ≠ some '-' := by
  rw [fromHere_head hcwd]
  decide

/-- The calls, if there are directories. -/
theorem invocations_items (s : σ) {items : List Item} (hby : bypass (items.flatMap Item.words) = false) {ds : List Text}
    {e : Text} (hds : directories items = ds ++ [e]) :
    invocations fs s cwd (items.flatMap Item.words) =
      if ds = [] ∨ fs.isDir s (fromHere cwd e) = false then
        ["install".toList :: items.flatMap Item.kept ++ (ds ++ [fromHere cwd e])]
      else
        (turns fs ("install".toList :: items.flatMap Item.kept) (fromHere cwd e) s ds).map fun t =>
          "install".toList :: items.flatMap Item.kept ++ [t.1, place (fromHere cwd e) t.1 t.2] := by
  have hne : e ≠ [] := (mem_directories (by rw [hds]; simp)).1
  rw [invocations, hby, if_neg (by simp), readArgs_items items _ (length_le_words items), read_items, hds,
    List.getLast?_concat, Option.getD_some, List.dropLast_concat, settle_eq fs s cwd hne]
  simp only [fromHere_ne_nil hcwd e, false_or, words_newcommand]
  by_cases h : ds = []
  · rw [if_pos h, if_pos (.inl h), h]
    simp
  rw [if_neg h]
  cases hdir : fs.isDir s (fromHere cwd e) with
  | false => simp
  | true =>
    rw [if_pos rfl, if_neg (by simp [h]), callSources_turns fs _ (fromHere_head hcwd e), words_newcommand]

/-! ## The directories that are made -/

omit hcwd in
/-- What one call makes. -/
theorem operands_call {items : List Item} (h : DashesLast items) {ds : List Text}
    (hds : ∀ d ∈ ds, d.head? ≠ some '-' ∨ d = ['-']) :
    operands false (("install".toList :: items.flatMap Item.kept) ++ ds).tail = ds := by
  rw [List.cons_append, List.tail_cons, operands_kept h hds]

omit hcwd in
theorem sameDirs_bypass (calls : List (List Text)) {args : List Text} (h : calls = ["install".toList :: args]) :
    SameDirs cwd calls args := by
  intro x
  simp [h]

theorem sameDirs_once {items : List Item} (h : DashesLast items) {ds : List Text} {e : Text}
    (hds : directories items = ds ++ [e]) :
    SameDirs cwd ["install".toList :: items.flatMap Item.kept ++ (ds ++ [fromHere cwd e])]
      (items.flatMap Item.words) := by
  intro x
  have hcall : operands false (("install".toList :: items.flatMap Item.kept) ++ (ds ++ [fromHere cwd e])).tail =
      ds ++ [fromHere cwd e] := by
    refine operands_call h fun d hd => ?_
    rcases List.mem_append.1 hd with hd | hd
    · exact (mem_directories (by rw [hds]; exact List.mem_append_left _ hd)).2
    · exact .inl (List.mem_singleton.1 hd ▸ operand_fromHere hcwd e)
  simp only [List.mem_singleton, exists_eq_left, hcall, operands_words h, hds]
  simp only [List.mem_append, List.mem_singleton, or_and_right, exists_or, exists_eq_left, resolve_fromHere hcwd]

theorem sameDirs_each {items : List Item} (h : DashesLast items) {ds : List Text} {e : Text}
    (hds : directories items = ds ++ [e]) (ts : List (Text × Bool)) (hts : ts.map Prod.fst = ds) :
    SameDirs cwd (ts.map fun t => "install".toList :: items.flatMap Item.kept ++
        [t.1, place (fromHere cwd e) t.1 t.2]) (items.flatMap Item.words) ↔
      Serves cwd (fromHere cwd e) (ds ++ [e]) ts := by
  have hcall : ∀ t ∈ ts, operands false (("install".toList :: items.flatMap Item.kept) ++
      [t.1, place (fromHere cwd e) t.1 t.2]).tail = [t.1, place (fromHere cwd e) t.1 t.2] := by
    intro t ht
    have hmem : t.1 ∈ directories items := by
      rw [hds, ← hts]
      exact List.mem_append_left _ (List.mem_map_of_mem ht)
    refine operands_call h fun d hd => ?_
    rcases List.mem_cons.1 hd with rfl | hd
    · exact (mem_directories hmem).2
    · left
      rw [List.mem_singleton.1 hd, place_head (fromHere_head hcwd e)]
      decide
  have hmade : ∀ x, (∃ call ∈ ts.map fun t => "install".toList :: items.flatMap Item.kept ++
        [t.1, place (fromHere cwd e) t.1 t.2], ∃ d ∈ operands false call.tail, resolve cwd d = x) ↔
      ∃ t ∈ ts, resolve cwd t.1 = x ∨ resolve cwd (place (fromHere cwd e) t.1 t.2) = x := by
    intro x
    constructor
    · rintro ⟨call, hc, d, hd, hx⟩
      obtain ⟨t, ht, rfl⟩ := List.mem_map.1 hc
      rw [hcall t ht] at hd
      refine ⟨t, ht, ?_⟩
      rcases List.mem_cons.1 hd with rfl | hd
      · exact .inl hx
      · exact .inr (List.mem_singleton.1 hd ▸ hx)
    · rintro ⟨t, ht, hx⟩
      refine ⟨_, List.mem_map.2 ⟨t, ht, rfl⟩, ?_⟩
      rw [hcall t ht]
      rcases hx with hx | hx
      · exact ⟨_, List.mem_cons_self, hx⟩
      · exact ⟨_, List.mem_cons_of_mem _ List.mem_cons_self, hx⟩
  have hplace : ∀ t : Text × Bool, resolve cwd (place (fromHere cwd e) t.1 t.2) =
      if t.2 then resolve cwd e else resolve cwd (fromHere cwd e ++ '/' :: behindSlash t.1) := by
    intro t
    rw [resolve_place cwd (fromHere_head hcwd e)]
    cases t.2
    · rfl
    · exact resolve_fromHere hcwd e
  simp only [SameDirs, hmade, operands_words h, hds]
  constructor
  · intro h
    refine ⟨fun t ht hdir => ?_, ?_⟩
    · obtain ⟨d, hd, hx⟩ := (h _).1 ⟨t, ht, .inr rfl⟩
      rw [hplace, hdir] at hx
      exact ⟨d, hd, hx⟩
    · obtain ⟨t, ht, hx⟩ := (h (resolve cwd e)).2 ⟨e, by simp, rfl⟩
      refine ⟨t, ht, ?_⟩
      rw [resolve_fromHere hcwd]
      rcases hx with hx | hx
      · exact .inr (.inr hx)
      · rw [hplace] at hx
        cases hdir : t.2 with
        | true => exact .inl rfl
        | false => exact .inr (.inl (by simpa [hdir] using hx))
  · rintro ⟨hinside, t₀, ht₀, hitself⟩ x
    constructor
    · rintro ⟨t, ht, rfl | rfl⟩
      · refine ⟨t.1, List.mem_append_left _ ?_, rfl⟩
        rw [← hts]
        exact List.mem_map_of_mem ht
      · rw [hplace]
        cases hdir : t.2 with
        | true => exact ⟨e, by simp, rfl⟩
        | false => exact hinside t ht hdir
    · rintro ⟨d, hd, rfl⟩
      rcases List.mem_append.1 hd with hd | hd
      · obtain ⟨t, ht, rfl⟩ := List.mem_map.1 (hts.symm ▸ hd)
        exact ⟨t, ht, .inl rfl⟩
      · obtain rfl := List.mem_singleton.1 hd
        rw [resolve_fromHere hcwd] at hitself
        refine ⟨t₀, ht₀, ?_⟩
        rw [hplace]
        rcases hitself with h | h | h
        · exact .inr (by rw [if_pos h])
        · right
          split
          · rfl
          · exact h
        · exact .inl h

/-- **When the directories are the operands**: there are operands; and there is one, or the last is no directory yet, or
each of the others is one, or stands for what is made of it. -/
theorem install_dirs_iff (s : σ) (line : CommandLine) :
    SameDirs cwd (invocations fs s cwd line.words) line.words ↔
      bypass line.words = true ∨
      ∃ ds e, directories line.items = ds ++ [e] ∧ (ds = [] ∨ fs.isDir s (fromHere cwd e) = false ∨
        Serves cwd (fromHere cwd e) (ds ++ [e])
          (turns fs ("install".toList :: line.items.flatMap Item.kept) (fromHere cwd e) s ds)) := by
  obtain ⟨items, hlast⟩ := line
  rw [CommandLine.words]
  cases hby : bypass (items.flatMap Item.words) with
  | true =>
    refine ⟨fun _ => .inl rfl, fun _ => sameDirs_bypass _ ?_⟩
    rw [invocations, if_pos hby]
  | false =>
    rcases List.eq_nil_or_concat (directories items) with hds | ⟨ds, e, hds⟩
    · have hcalls : invocations fs s cwd (items.flatMap Item.words) =
          ["install".toList :: items.flatMap Item.kept ++ [[]]] := by
        rw [invocations, hby, if_neg (by simp), readArgs_items items _ (length_le_words items), read_items, hds]
        have hwords := words_newcommand items
        simp only [settle, List.getLast?_nil, Option.getD_none, ne_eq, not_true_eq_false, if_false, true_or, if_true,
          hwords]
      rw [hcalls]
      constructor
      · intro h
        obtain ⟨d, hd, -⟩ := (h (resolve cwd [])).1 ⟨_, List.mem_singleton_self _, [], by
          rw [operands_call hlast (by simp)]; simp, rfl⟩
        rw [operands_words hlast, hds] at hd
        cases hd
      · rintro (h | ⟨ds, e, h, -⟩)
        · cases h
        · simp [hds] at h
    · rw [List.concat_eq_append] at hds
      rw [invocations_items fs hcwd s hby hds]
      by_cases h : ds = [] ∨ fs.isDir s (fromHere cwd e) = false
      · rw [if_pos h]
        refine ⟨fun _ => .inr ⟨ds, e, hds, h.imp_right .inl⟩, fun _ => sameDirs_once hcwd hlast hds⟩
      · rw [if_neg h, sameDirs_each hcwd hlast hds _ (map_turns fs _ _ s ds)]
        constructor
        · intro hs
          exact .inr ⟨ds, e, hds, .inr (.inr hs)⟩
        · rintro (h' | ⟨ds', e', h', hs⟩)
          · cases h'
          · obtain ⟨rfl, he⟩ := List.append_inj' (hds.symm.trans h') rfl
            obtain rfl : e = e' := by simpa using he
            rcases hs with hs | hs | hs
            · exact absurd (.inl hs) h
            · exact absurd (.inr hs) h
            · exact hs

end

/-- The directories there are, with what `install -d` makes of them. -/
def directoryMode (cwd : Text) : Files (List (List Text)) where
  isDir s path := decide (resolve cwd path ∈ s)
  mkdir s path := resolve cwd path :: s
  run s call := (operands false call.tail).map (resolve cwd) ++ s

/-- `install -d -- a b` -/
def dashLine : CommandLine where
  items := [.flags ['d'] (by decide), .dashes, .directory ['a'] (by decide), .directory ['b'] (by decide)]
  last := by simp [DashesLast, Item.directory?]

theorem install_dirs_fresh :
    SameDirs "/w".toList (invocations (directoryMode "/w".toList) [] "/w".toList dashLine.words) dashLine.words :=
  (install_dirs_iff (directoryMode "/w".toList) rfl [] dashLine).2
    (.inr ⟨[['a']], ['b'], rfl, .inr (.inl (by decide +kernel))⟩)

/-- `install -d a b` where `b` is there makes `b/a` in place of `b`. -/
theorem install_dirs_inside : ¬ SameDirs "/w".toList
    (invocations (directoryMode "/w".toList) [["w".toList, "b".toList]] "/w".toList ["-d".toList, ['a'], ['b']])
    ["-d".toList, ['a'], ['b']] := by
  intro h
  have hcalls : invocations (directoryMode "/w".toList) [["w".toList, "b".toList]] "/w".toList
      ["-d".toList, ['a'], ['b']] = [["install".toList, "-d".toList, ['a'], "/w/b/a".toList]] := by
    decide +kernel
  have hargs : operands false ["-d".toList, ['a'], ['b']] = [['a'], ['b']] := by decide +kernel
  have hcall : operands false ["-d".toList, ['a'], "/w/b/a".toList] = [['a'], "/w/b/a".toList] := by decide +kernel
  obtain ⟨call, hc, d, hd, hx⟩ := (h ["w".toList, "b".toList]).2 ⟨['b'], by rw [hargs]; simp, by decide +kernel⟩
  rw [hcalls, List.mem_singleton] at hc
  rw [hc, List.tail_cons, hcall] at hd
  simp only [List.mem_cons, List.not_mem_nil, or_false] at hd
  rcases hd with rfl | rfl
  · revert hx
    decide +kernel
  · revert hx
    decide +kernel

end T2Sde.Wrapper
