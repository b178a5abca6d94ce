import T2Sde.Bize.Names
import T2Sde.Lib.Read
import T2Sde.Scheduler.Invariant
/-!
# The package database (`scripts/functions.in`, `package/base/stone/stone_mod_gas.sh`)

`create_package_db` writes a record for each package whose binary archive is there; the installer reads the records
line by line and installs the packages of a selection. The separators are `echo -e "\027"` and `$'\027'`, both octal.

| here | there |
| --- | --- |
| `bfile`, `record`, `createPackageDb` | `create_package_db` :793-827 |
| `wanted`   | the `case` over a category :37-46 |
| `gasLine`  | a turn of the loop of `inst` :20-50 |
| `extract`  | `extract` :9-13 |
| `inst`     | `inst` :15-52 |

`gzip` and `gunzip` are the identity, the mount point and the root are left out, and a file that is printed with `cat`
ends with a newline. `ver` is `inst`'s own variable, which `extract` shortens; it is not set anew for a package.

* `gas_reads` — **what the installer makes of a database**.
* `gas_archives_iff` — **when it looks for the archives that the database was written for**.
-/
namespace T2Sde.Gas
open Shell
open Scheduler (Name PkgName)
open Bize (version sedVersion headerLine)

/-! ## Writing -/

def blockEnd : Text := ['\x17']
def entryEnd : Text := ['\x04']
def copyTag : Text := "[COPY]".toList
def transTbl : Text := "TRANS.TBL".toList

/-- What `var/adm` holds of a package. -/
structure Entry where
  name : Name
  /-- The line of `packages/$pkg`. -/
  ver : Text
  extraver : Text
  /-- The lines of `descs/$pkg`. -/
  desc : List Text
  /-- The lines of `dependencies/$pkg`. -/
  dependencies : List Text

structure Adm where
  /-- In the order of `descs/*`. -/
  entries : List Entry
  SDECFG_PKGFILE_VER : Bool
  SDECFG_PKGFILE_TYPE : Text
  /-- The files of the archive directory. -/
  files : List Text

def bfile (A : Adm) (e : Entry) : Text :=
  let v := if A.SDECFG_PKGFILE_VER then '-' :: (sedVersion (headerLine e.name e.ver e.extraver)).getD [] else []
  e.name ++ v ++ '.' :: A.SDECFG_PKGFILE_TYPE

/-- `grep -v '\[COPY\]'` -/
def Entry.shown (e : Entry) : List Text := e.desc.filter fun l => !decide (copyTag <:+: l)

def record (e : Entry) : List Text :=
  e.name :: blockEnd :: (e.shown ++ blockEnd :: (e.dependencies ++ [blockEnd, blockEnd, entryEnd]))

/-- The packages that get a record. -/
def Adm.listed (A : Adm) : List Entry := A.entries.filter fun e => A.files.contains (bfile A e) && e.name != transTbl

def createPackageDb (A : Adm) : Text := unlines (A.listed.flatMap record)

/-! ## Reading -/

def minimal : Text := "minimal".toList
def minimalContainer : Text := "minimal-container".toList
def all : Text := "all".toList
def kernel : Text := "/kernel".toList
def firmware : Text := "/firmware".toList
def boot : Text := "/boot".toList
def baseX11 : Text := "base/x11".toList
def base : Text := "base/".toList

def within (w s : Text) : Bool := decide (w <:+: s)

/-- `selected` after a category line. -/
def wanted (pkgsel cat : Text) : Bool :=
  if within kernel cat || within firmware cat || within boot cat then pkgsel != minimalContainer
  else if within baseX11 cat then !(pkgsel == minimal || pkgsel == minimalContainer)
  else if within base cat then true
  else pkgsel == all

/-- `$packager -i …/$pkg-$ver.tar.*`, the first blank of `ver` a dash: the package, and the archive up to `.tar`. -/
structure Install where
  pkg : Text
  archive : Text
  deriving DecidableEq

/-- `section`, and what was read last; `selected` is not set at first. -/
structure State where
  sect : Nat
  pkg : Text
  selected : Option Bool
  ver : Text

/-- `${ver% *}` -/
def cutLast (ver : Text) : Text := (uptoLast (·.head? == some ' ') ver).getD ver

def extract (s : State) : State × List Install :=
  let ver := cutLast s.ver
  ({ s with ver }, [⟨s.pkg, s.pkg ++ '-' :: replaceFirst [' '] ['-'] ver⟩])

/-- `${line#\[V\] }` and `${line#\[C\] }` -/
def afterTag (tag line : Text) : Text := if tag ++ [' '] <+: line then line.drop (tag.length + 1) else line

def verTag : Text := ['[', 'V', ']']
def catTag : Text := ['[', 'C', ']']

def gasLine (pkgsel : Text) (s : State) (line : Text) : State × List Install :=
  if line = entryEnd then
    let s := { s with sect := 0 }
    if s.selected = some true then extract s else (s, [])
  else if line = blockEnd then ({ s with sect := s.sect + 1 }, [])
  else if s.sect = 0 then ({ s with pkg := line, selected := some false }, [])
  else if s.sect = 1 ∧ verTag <+: line then ({ s with ver := afterTag verTag line }, [])
  else if s.sect = 1 ∧ catTag <+: line then ({ s with selected := some (wanted pkgsel (afterTag catTag line)) }, [])
  else (s, [])

def gasLines (pkgsel : Text) (s : State) : List Text → State × List Install
  | [] => (s, [])
  | l :: ls =>
    let (s, out) := gasLine pkgsel s l
    let (s, rest) := gasLines pkgsel s ls
    (s, out ++ rest)

/-- `read line` -/
def readWhole (l : Text) : Text := lastField (unescape l).1

/-- The installs, from the text of the database. -/
def inst (pkgsel db : Text) : List Install :=
  (gasLines pkgsel ⟨0, [], none, []⟩ ((logical (lines db)).map lastField)).2

/-! ## What a description says -/

/-- The last line of a kind, without its tag. -/
def lastTagged (tag : Text) (ls : List Text) : Option Text :=
  ((ls.filter fun l => decide (tag <+: l)).map (afterTag tag)).getLast?

/-- The description as the loop reads it. -/
def Entry.read (e : Entry) : List Text := e.shown.map readWhole

def Entry.chosen (pkgsel : Text) (e : Entry) : Bool := ((lastTagged catTag e.read).map (wanted pkgsel)).getD false

/-- A line that is read as one, and not for a separator. -/
structure Readable (l : Text) : Prop where
  line : '\n' ∉ l
  alone : runsOn l = false
  noBlock : readWhole l ≠ blockEnd
  noEntry : readWhole l ≠ entryEnd

structure Entry.Readable (e : Entry) : Prop where
  name : PkgName e.name
  desc : ∀ l ∈ e.shown, Gas.Readable l
  dependencies : ∀ l ∈ e.dependencies, Gas.Readable l

instance (l : Text) : Decidable (Readable l) :=
  decidable_of_iff ('\n' ∉ l ∧ runsOn l = false ∧ readWhole l ≠ blockEnd ∧ readWhole l ≠ entryEnd)
    ⟨fun ⟨h1, h2, h3, h4⟩ => ⟨h1, h2, h3, h4⟩, fun ⟨h1, h2, h3, h4⟩ => ⟨h1, h2, h3, h4⟩⟩

instance (e : Entry) : Decidable e.Readable :=
  decidable_of_iff (PkgName e.name ∧ (∀ l ∈ e.shown, Gas.Readable l) ∧ ∀ l ∈ e.dependencies, Gas.Readable l)
    ⟨fun ⟨h1, h2, h3⟩ => ⟨h1, h2, h3⟩, fun ⟨h1, h2, h3⟩ => ⟨h1, h2, h3⟩⟩

/-- The installs for the records; `ver` is what the records before have left. -/
def installs (pkgsel ver : Text) : List Entry → List Install
  | [] => []
  | e :: es =>
    let ver := (lastTagged verTag e.read).getD ver
    if e.chosen pkgsel then
      ⟨e.name, e.name ++ '-' :: replaceFirst [' '] ['-'] (cutLast ver)⟩ :: installs pkgsel (cutLast ver) es
    else installs pkgsel ver es

/-! ## Reading what was written -/

theorem gasLines_cons (pkgsel : Text) (s : State) (l : Text) (ls : List Text) :
    gasLines pkgsel s (l :: ls) =
      ((gasLines pkgsel (gasLine pkgsel s l).1 ls).1,
        (gasLine pkgsel s l).2 ++ (gasLines pkgsel (gasLine pkgsel s l).1 ls).2) := rfl

theorem gasLines_append (pkgsel : Text) (s : State) (us vs : List Text) :
    gasLines pkgsel s (us ++ vs) =
      ((gasLines pkgsel (gasLines pkgsel s us).1 vs).1,
        (gasLines pkgsel s us).2 ++ (gasLines pkgsel (gasLines pkgsel s us).1 vs).2) := by
  induction us generalizing s with
  | nil => simp [gasLines]
  | cons u us ih => simp [gasLines, ih]

/-- No separator. -/
def Plain (l : Text) : Prop := l ≠ entryEnd ∧ l ≠ blockEnd

theorem verTag_not_catTag {l : Text} (hv : verTag <+: l) : ¬ catTag <+: l := by
  intro hc
  obtain ⟨t, rfl⟩ := hv
  rw [verTag, catTag, List.cons_append, List.cons_append, List.cons_prefix_cons, List.cons_prefix_cons] at hc
  exact absurd hc.2.1 (by decide)

/-- The lines of the description: the last version and the last category are kept. -/
theorem gasLines_desc (pkgsel : Text) (s : State) (hs : s.sect = 1) (ls : List Text) (hls : ∀ l ∈ ls, Plain l) :
    gasLines pkgsel s ls =
      ({ s with
        ver := (lastTagged verTag ls).getD s.ver
        selected := ((lastTagged catTag ls).map (wanted pkgsel)).or s.selected }, []) := by
  induction ls using List.reverseRecOn with
  | nil => simp [gasLines, lastTagged]
  | append_singleton ls l ih =>
    obtain ⟨hls, hl⟩ : (∀ x ∈ ls, Plain x) ∧ Plain l := ⟨fun x hx => hls x (by simp [hx]), hls l (by simp)⟩
    rw [gasLines_append, ih hls]
    simp only [gasLines, gasLine, hl.1, hl.2, hs, if_false, Nat.one_ne_zero, true_and, List.append_nil]
    by_cases hv : verTag <+: l
    · have hc := verTag_not_catTag hv
      simp [hv, hc, lastTagged]
    · by_cases hc : catTag <+: l
      · simp [hv, hc, lastTagged]
      · simp [hv, hc, lastTagged]

/-- The sections behind say nothing. -/
theorem gasLines_skip (pkgsel : Text) (s : State) (hs : 2 ≤ s.sect) (ls : List Text) (hls : ∀ l ∈ ls, Plain l) :
    gasLines pkgsel s ls = (s, []) := by
  have h0 : s.sect ≠ 0 := by omega
  have h1 : s.sect ≠ 1 := by omega
  induction ls with
  | nil => rfl
  | cons l ls ih =>
    obtain ⟨hl, hls⟩ := List.forall_mem_cons.1 hls
    have hline : gasLine pkgsel s l = (s, []) := by simp [gasLine, hl.1, hl.2, h0, h1]
    simp [gasLines, hline, ih hls]

theorem blockEnd_ne : blockEnd ≠ entryEnd := by decide

theorem gasLine_block (pkgsel : Text) (s : State) :
    gasLine pkgsel s blockEnd = ({ s with sect := s.sect + 1 }, []) := by
  rw [gasLine, if_neg blockEnd_ne, if_pos rfl]

/-- The lines of a record as they are read. -/
def Entry.lines (e : Entry) : List Text :=
  e.name :: blockEnd :: (e.read ++ blockEnd :: (e.dependencies.map readWhole ++ [blockEnd, blockEnd, entryEnd]))

/-- One record, from its name on. -/
theorem gasLines_record (pkgsel : Text) (s : State) (hs : s.sect = 0) {e : Entry} (he : e.Readable) :
    gasLines pkgsel s e.lines =
      let ver := (lastTagged verTag e.read).getD s.ver
      let s := { s with pkg := e.name, selected := some (e.chosen pkgsel), ver }
      if e.chosen pkgsel then extract s else (s, []) := by
  have hname : Plain e.name := by
    have hne : ∀ c : Char, Scheduler.nameChar c = false → e.name ≠ [c] := fun c hc h => by
      have := he.name.2 c (h ▸ List.mem_cons_self)
      rw [hc] at this
      cases this
    exact ⟨hne _ (by decide), hne _ (by decide)⟩
  have hdesc : ∀ l ∈ e.read, Plain l := by
    intro _ hread
    obtain ⟨l, hl, rfl⟩ := List.mem_map.1 hread
    exact ⟨(he.desc l hl).noEntry, (he.desc l hl).noBlock⟩
  have hdeps : ∀ l ∈ e.dependencies.map readWhole, Plain l := by
    intro _ hread
    obtain ⟨l, hl, rfl⟩ := List.mem_map.1 hread
    exact ⟨(he.dependencies l hl).noEntry, (he.dependencies l hl).noBlock⟩
  have hfirst : gasLine pkgsel s e.name = ({ s with pkg := e.name, selected := some false }, []) := by
    simp [gasLine, hname.1, hname.2, hs]
  have hchosen : ((lastTagged catTag e.read).map (wanted pkgsel)).or (some false) = some (e.chosen pkgsel) := by
    rw [Entry.chosen]
    cases (lastTagged catTag e.read).map (wanted pkgsel) <;> rfl
  rw [Entry.lines, gasLines_cons, hfirst, gasLines_cons, gasLine_block, gasLines_append,
    gasLines_desc pkgsel _ (by simp [hs]) _ hdesc, gasLines_cons, gasLine_block, gasLines_append,
    gasLines_skip pkgsel _ (by simp [hs]) _ hdeps]
  simp only [gasLines, gasLine_block, List.nil_append, List.append_nil, hchosen]
  rw [gasLine, if_pos rfl]
  cases hc : e.chosen pkgsel with
  | false => simp [hs]
  | true => simp [extract, hs]

theorem gasLines_records (pkgsel : Text) (s : State) (hs : s.sect = 0) (es : List Entry) (hes : ∀ e ∈ es, e.Readable) :
    (gasLines pkgsel s (es.flatMap Entry.lines)).2 = installs pkgsel s.ver es := by
  induction es generalizing s with
  | nil => rfl
  | cons e es ih =>
    obtain ⟨he, hes⟩ := List.forall_mem_cons.1 hes
    rw [List.flatMap_cons, gasLines_append, gasLines_record pkgsel s hs he, installs]
    cases hc : e.chosen pkgsel with
    | false => simpa [hc] using ih _ (by simp [hs]) hes
    | true => simpa [hc, extract] using ih _ (by simp [hs]) hes

theorem readWhole_name {n : Name} (hn : PkgName n) : readWhole n = n ∧ runsOn n = false := by
  have hback : '\\' ∉ n := fun h => absurd (hn.2 _ h) (by decide)
  have hu := unescape_plain hback
  exact ⟨by rw [readWhole, hu, lastField_trimmed hn.isWord.trimmed], by rw [runsOn, hu]⟩

theorem readWhole_blockEnd : readWhole blockEnd = blockEnd ∧ readWhole entryEnd = entryEnd := by decide +kernel

/-- No line of a record runs into the next one, and each is read as the record's lines are. -/
theorem record_readable {e : Entry} (he : e.Readable) :
    (∀ l ∈ record e, '\n' ∉ l ∧ runsOn l = false) ∧ (record e).map readWhole = e.lines := by
  obtain ⟨hname, hruns⟩ := readWhole_name he.name
  obtain ⟨hblock, hentry⟩ := readWhole_blockEnd
  have hseps : ('\n' ∉ blockEnd ∧ runsOn blockEnd = false) ∧ ('\n' ∉ entryEnd ∧ runsOn entryEnd = false) := by decide
  constructor
  · intro l hl
    simp only [record, List.mem_cons, List.mem_append, List.not_mem_nil, or_false] at hl
    rcases hl with rfl | rfl | hl | rfl | hl | rfl | rfl | rfl
    · exact ⟨fun h => absurd (he.name.2 _ h) (by decide), hruns⟩
    · exact hseps.1
    · exact ⟨(he.desc l hl).line, (he.desc l hl).alone⟩
    · exact hseps.1
    · exact ⟨(he.dependencies l hl).line, (he.dependencies l hl).alone⟩
    · exact hseps.1
    · exact hseps.1
    · exact hseps.2
  · simp [record, Entry.lines, Entry.read, hname, hblock, hentry]

/-- What the loop of `inst` sees of a database. -/
theorem read_database {A : Adm} (hA : ∀ e ∈ A.entries, e.Readable) :
    (logical (lines (createPackageDb A))).map lastField = A.listed.flatMap Entry.lines := by
  have hlisted : ∀ e ∈ A.listed, e.Readable := fun e he => hA e (List.mem_of_mem_filter he)
  have hall : ∀ l ∈ A.listed.flatMap record, '\n' ∉ l ∧ runsOn l = false := by
    intro l hl
    obtain ⟨e, he, hle⟩ := List.mem_flatMap.1 hl
    exact (record_readable (hlisted e he)).1 l hle
  rw [createPackageDb, lines_unlines fun l hl => (hall l hl).1, logical_alone fun l hl => (hall l hl).2, List.map_map]
  show (A.listed.flatMap record).map readWhole = _
  rw [List.map_flatMap]
  exact List.flatMap_congr fun e he => (record_readable (hlisted e he)).2

theorem inst_eq {A : Adm} (hA : ∀ e ∈ A.entries, e.Readable) (pkgsel : Text) :
    inst pkgsel (createPackageDb A) = installs pkgsel [] A.listed := by
  rw [inst, read_database hA]
  exact gasLines_records pkgsel _ rfl _ fun e he => hA e (List.mem_of_mem_filter he)

/-- **What the installer makes of a database**: for each record, in order, whether its last category is wanted, and an
archive that is named after its last version — or, if it has none, after the version of a record before. -/
theorem gas_reads (A : Adm) (hA : ∀ e ∈ A.entries, e.Readable) (pkgsel : Text) :
    inst pkgsel (createPackageDb A) = installs pkgsel [] A.listed := inst_eq hA pkgsel

/-- A library of the base and a program; the program has no version line. -/
def twoEntries : Adm where
  entries := [⟨"zlib".toList, "1.3.1".toList, [], ["[V] 1.3.1".toList, "[C] base/library".toList], [": gcc".toList]⟩,
    ⟨"vim".toList, "9.1".toList, [], ["[C] extra/editor".toList], []⟩]
  SDECFG_PKGFILE_VER := false
  SDECFG_PKGFILE_TYPE := "tar.zst".toList
  files := ["zlib.tar.zst".toList, "vim.tar.zst".toList]

theorem gas_reads_two : inst all (createPackageDb twoEntries) =
    [⟨"zlib".toList, "zlib-1.3.1".toList⟩, ⟨"vim".toList, "vim-1.3.1".toList⟩] := by
  rw [gas_reads twoEntries (by decide +kernel) all]
  decide +kernel

/-! ## The archives -/

/-- `$ver${extraver:+ $extraver}` -/
def verText (ver extraver : Text) : Text := ver ++ if extraver = [] then [] else ' ' :: extraver

/-- The description ends its versions with that of the package, as `parse_desc` takes it apart. -/
structure Entry.Described (e : Entry) : Prop where
  version : lastTagged verTag e.read = some (verText e.ver e.extraver)
  word : ' ' ∉ e.ver

instance (e : Entry) : Decidable e.Described :=
  decidable_of_iff (lastTagged verTag e.read = some (verText e.ver e.extraver) ∧ ' ' ∉ e.ver)
    ⟨fun ⟨h1, h2⟩ => ⟨h1, h2⟩, fun ⟨h1, h2⟩ => ⟨h1, h2⟩⟩

theorem installs_eq (pkgsel : Text) (es : List Entry) (hes : ∀ e ∈ es, e.Described) (ver : Text) :
    installs pkgsel ver es = (es.filter (Entry.chosen pkgsel)).map fun e =>
      ⟨e.name, e.name ++ '-' :: replaceFirst [' '] ['-'] (cutLast (verText e.ver e.extraver))⟩ := by
  induction es generalizing ver with
  | nil => rfl
  | cons e es ih =>
    obtain ⟨he, hes⟩ := List.forall_mem_cons.1 hes
    rw [installs, he.version, Option.getD_some]
    cases hc : e.chosen pkgsel with
    | false => simp [hc, ih hes]
    | true => simp [hc, ih hes]

theorem cutLast_word {ver : Text} (h : ' ' ∉ ver) : cutLast ver = ver := by
  have hnone : uptoLast (·.head? == some ' ') ver = none := by
    rw [uptoLast_eq_none]
    rintro u c v rfl
    have hc : c ≠ ' ' := by rintro rfl; simp at h
    simpa using hc
  rw [cutLast, hnone]
  rfl

theorem replaceFirst_word {ver : Text} (h : ' ' ∉ ver) : replaceFirst [' '] ['-'] ver = ver := by
  simpa [replaceFirst] using Bize.replaceFirst_char h ['-'] []

theorem length_replaceFirst (v : Text) : (replaceFirst [' '] ['-'] v).length = v.length := by
  induction v with
  | nil => rfl
  | cons c v ih =>
    rw [replaceFirst]
    split
    · simp
    · simp [ih]

/-- With a blank in it something is cut off. -/
theorem length_cutLast {v : Text} (h : ' ' ∈ v) : (cutLast v).length < v.length := by
  cases hv : uptoLast (·.head? == some ' ') v with
  | none =>
    obtain ⟨u, w, rfl⟩ := List.append_of_mem h
    have := uptoLast_eq_none.1 hv u ' ' w rfl
    simp at this
  | some u =>
    obtain ⟨c, w, heq, -, -⟩ := uptoLast_eq_some hv
    rw [cutLast, hv, Option.getD_some, heq]
    simp

theorem archive_iff {ver : Text} (hver : ' ' ∉ ver) (extraver : Text) :
    replaceFirst [' '] ['-'] (cutLast (verText ver extraver)) = version ver extraver ↔ extraver = [] := by
  by_cases he : extraver = []
  · subst he
    simp [verText, version, cutLast_word hver, replaceFirst_word hver]
  · refine iff_of_false (fun h => ?_) he
    have hlen := congrArg List.length h
    have hcut := length_cutLast (v := verText ver extraver) (by simp [verText, he])
    rw [length_replaceFirst] at hlen
    simp only [verText, version, he, if_false, List.length_append, List.length_cons] at hlen hcut
    omega

theorem bfile_eq {A : Adm} (hv : A.SDECFG_PKGFILE_VER = true) {e : Entry} (hname : ' ' ∉ e.name) (hver : ' ' ∉ e.ver) :
    bfile A e = e.name ++ '-' :: (version e.ver e.extraver ++ '.' :: A.SDECFG_PKGFILE_TYPE) := by
  simp [bfile, hv, Bize.sedVersion_header hname hver]

/-- **The archives that are asked for**: they are those that the database was written for exactly if no package of the
selection has an extra version. -/
theorem gas_archives_iff (A : Adm) (hA : ∀ e ∈ A.entries, e.Readable) (hD : ∀ e ∈ A.entries, e.Described)
    (hv : A.SDECFG_PKGFILE_VER = true) (pkgsel : Text) :
    (inst pkgsel (createPackageDb A)).map (fun i => i.archive ++ '.' :: A.SDECFG_PKGFILE_TYPE) =
        (A.listed.filter (Entry.chosen pkgsel)).map (bfile A) ↔
      ∀ e ∈ A.listed, e.chosen pkgsel = true → e.extraver = [] := by
  have hmem : ∀ e ∈ A.listed, e ∈ A.entries := fun e he => List.mem_of_mem_filter he
  rw [inst_eq hA, installs_eq pkgsel _ (fun e he => hD e (hmem e he)), List.map_map, List.map_inj_left]
  have hone : ∀ e ∈ A.listed, (e.name ++ '-' :: replaceFirst [' '] ['-'] (cutLast (verText e.ver e.extraver)) ++
      '.' :: A.SDECFG_PKGFILE_TYPE = bfile A e ↔ e.extraver = []) := by
    intro e he
    have hname : ' ' ∉ e.name := fun h => absurd ((hA e (hmem e he)).name.2 _ h) (by decide)
    rw [bfile_eq hv hname (hD e (hmem e he)).word, ← archive_iff (hD e (hmem e he)).word, List.append_assoc,
      List.append_cancel_left_eq, List.cons_append, List.cons_inj_right, List.append_cancel_right_eq]
  constructor
  · exact fun h e he hc => (hone e he).1 (h e (List.mem_filter.2 ⟨he, hc⟩))
  · intro h e he
    obtain ⟨hl, hc⟩ := List.mem_filter.1 he
    exact (hone e hl).2 (h e hl hc)

/-- `strace` is taken, with an extra version; its archive is not found. -/
def extraAdm : Adm where
  entries := [⟨"strace".toList, "6.7".toList, "rc1".toList, ["[V] 6.7 rc1".toList, "[C] base/tool".toList], []⟩]
  SDECFG_PKGFILE_VER := true
  SDECFG_PKGFILE_TYPE := "tar.zst".toList
  files := ["strace-6.7-rc1.tar.zst".toList]

theorem gas_archives_strace :
    (inst minimal (createPackageDb extraAdm)).map (fun i => i.archive ++ '.' :: "tar.zst".toList) ≠
      ["strace-6.7-rc1.tar.zst".toList] := by
  intro h
  have hlist : (extraAdm.listed.filter (Entry.chosen minimal)).map (bfile extraAdm) =
      ["strace-6.7-rc1.tar.zst".toList] := by
    decide +kernel
  have := (gas_archives_iff extraAdm (by decide +kernel) (by decide +kernel) rfl minimal).1 (h.trans hlist.symm)
  exact absurd this (by decide +kernel)

end T2Sde.Gas
