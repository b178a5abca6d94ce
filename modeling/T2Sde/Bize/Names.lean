import T2Sde.Lib.Cut
import T2Sde.Lib.Lua
import Mathlib.Data.List.DropRight
/-!
# The names of archives (`scripts/Build-Target`, `package/archiver/bize/bize.sh`)

A package file is named `name-version`, with `-extraversion` if there is one. `bize` takes the name for what is in
front of the last `-` with a digit behind it, which may be in the version.

| here | there |
| --- | --- |
| `sedVersion`  | `pkgloop_package` :432-433, `create_package_db` :802 |
| `archiveName` | `pkgloop_package` :431-448 |
| `bizeName`    | `bize_install` :67-78 |
| `updated`     | `bize_install` :80-83 |

* `sedVersion_header` — the version in a file name.
* `bizeName_eq` — the name that is read.
* `names_decode` — **when it is the name of the package**.
-/
namespace T2Sde.Bize
open Shell

/-! ## Writing a name -/

/-- `Package Name and Version: $xpkg $ver${extraver:+ $extraver}` -/
def header : Text := "Package Name and Version: ".toList

def headerLine (name ver extraver : Text) : Text :=
  header ++ name ++ ' ' :: ver ++ if extraver = [] then [] else ' ' :: extraver

/-- The `sed` script on a line: the text in front and the name are cut off, the next space becomes a dash. -/
def sedVersion (line : Text) : Option Text :=
  if header <:+: line then some (replaceFirst [' '] ['-'] (cutRest ' ' (replaceFirst header [] line))) else none

/-- The kinds of package files; a gem has a `bz2` in it. -/
def compressors : List Text := ["br", "bz2", "gz", "lzo", "lzma", "xz", "zst"].map String.toList

def tar : Text := ['.', 't', 'a', 'r', '.']

/-- The name of the file; `line` is from the description of the package. -/
def archiveName (name line ext : Text) : Text := name ++ '-' :: (sedVersion line).getD [] ++ tar ++ ext

/-! ## Reading it -/

def tarMark (s : Text) : Bool := decide (tar <+: s)

/-- `-[0-9]*` -/
def dashDigit : Text → Bool
  | '-' :: d :: _ => Lua.isDigit d
  | _ => false

/-- None if it is not taken for an archive. -/
def bizeName (arch : Text) : Option Text :=
  match uptoLast tarMark arch with
  | none => none
  | some pkg =>
    let pkg := ((uptoLast dashDigit pkg).getD pkg).rtakeWhile (· != '/')
    if pkg = [] then none else some pkg

/-- The list of files that an update removes. -/
def updated (flists : Text → Option Text) (arch : Text) : Option Text := (bizeName arch).bind flists

/-! ## Versions -/

def version (ver extraver : Text) : Text := ver ++ if extraver = [] then [] else '-' :: extraver

def Directory (dir : Text) : Prop := dir = [] ∨ dir.getLast? = some '/'

/-- In every directory the archive is one of this package, and an update removes the files of its list. -/
def Decodes (name line ext : Text) : Prop :=
  ∀ dir, Directory dir → bizeName (dir ++ archiveName name line ext) = some name ∧
    ∀ flists, updated flists (dir ++ archiveName name line ext) = flists name

/-- The version starts with a digit, and no other `-` in it has a digit behind it. -/
def OneDash (version : Text) : Prop := dashDigit ('-' :: version) = true ∧ uptoLast dashDigit version = none

instance (version : Text) : Decidable (OneDash version) := inferInstanceAs (Decidable (_ ∧ _))

/-! ## The version in the name of the file -/

theorem replaceFirst_front {pat : Text} (hpat : pat ≠ []) (rep s : Text) :
    replaceFirst pat rep (pat ++ s) = rep ++ s := by
  obtain ⟨c, pat, rfl⟩ := List.exists_cons_of_ne_nil hpat
  have hfront : c :: pat <+: c :: (pat ++ s) := List.prefix_append (c :: pat) s
  rw [List.cons_append, replaceFirst, if_pos hfront]
  simp

theorem replaceFirst_char {a : Char} {u : Text} (hu : a ∉ u) (rep v : Text) :
    replaceFirst [a] rep (u ++ v) = u ++ replaceFirst [a] rep v := by
  induction u with
  | nil => rfl
  | cons c u ih =>
    obtain ⟨hc, hu⟩ : a ≠ c ∧ a ∉ u := by simpa using hu
    rw [List.cons_append, replaceFirst, if_neg fun h => hc (List.cons_prefix_cons.1 h).1, ih hu, List.cons_append]

/-- What is in the name of the file. -/
theorem sedVersion_header {name ver : Text} (hname : ' ' ∉ name) (hver : ' ' ∉ ver) (extraver : Text) :
    sedVersion (headerLine name ver extraver) = some (version ver extraver) := by
  have hline : headerLine name ver extraver =
      header ++ (name ++ ' ' :: (ver ++ if extraver = [] then [] else ' ' :: extraver)) := by
    simp [headerLine]
  rw [sedVersion, hline, if_pos (List.prefix_append _ _).isInfix, replaceFirst_front (by decide +kernel),
    List.nil_append, cutRest_append hname, replaceFirst_char hver, version]
  split
  · rfl
  · exact congrArg (fun v => some (ver ++ v)) (replaceFirst_front (List.cons_ne_nil ' ' []) ['-'] extraver)

/-! ## The name that is read -/

theorem compressors_plain : ∀ ext ∈ compressors, '.' ∉ ext := by
  rw [compressors]
  simp only [List.map_cons, List.map_nil]
  repeat rw [String.toList_ofList]
  decide +kernel

/-- The last `.tar.` is the one that was written. -/
theorem uptoLast_tar {ext : Text} (hext : '.' ∉ ext) (u : Text) : uptoLast tarMark (u ++ (tar ++ ext)) = some u := by
  have hletter : ∀ (c : Char) (s : Text), c ≠ '.' → uptoLast tarMark s = none → uptoLast tarMark (c :: s) = none := by
    intro c s hc hs
    rw [uptoLast, hs]
    refine if_neg ?_
    rw [tarMark, decide_eq_true_iff]
    exact fun h => hc (List.cons_prefix_cons.1 h).1.symm
  have hlast : uptoLast tarMark ('.' :: ext) = none := by
    rw [uptoLast_eq_none]
    intro u c v heq
    rw [tarMark, decide_eq_false_iff_not]
    rintro ⟨w, hw⟩
    -- a second dot would be in the extension
    have hv : '.' ∈ v := by
      rw [← (List.cons.inj hw).2]
      simp
    apply hext
    cases u with
    | nil => exact (List.cons.inj heq).2 ▸ hv
    | cons e u =>
      rw [(List.cons.inj heq).2]
      simp [hv]
  have hrest : uptoLast tarMark ('t' :: 'a' :: 'r' :: '.' :: ext) = none :=
    hletter 't' _ (by decide) (hletter 'a' _ (by decide) (hletter 'r' _ (by decide) hlast))
  have hmark : uptoLast tarMark (tar ++ ext) = some [] :=
    uptoLast_cons hrest (decide_eq_true (List.prefix_append tar ext))
  simpa using uptoLast_append hmark u

/-- `${pkg##*/}` -/
theorem rtakeWhile_directory {dir name : Text} (hdir : Directory dir) (hname : '/' ∉ name) :
    (dir ++ name).rtakeWhile (· != '/') = name := by
  have hpos : ∀ c ∈ name.reverse, (c != '/') = true := by
    intro c hc
    rw [bne_iff_ne]
    rintro rfl
    exact hname (List.mem_reverse.1 hc)
  have hdir : dir.reverse.takeWhile (· != '/') = [] := by
    rcases hdir with rfl | hlast
    · rfl
    · obtain ⟨d, rfl⟩ := List.getLast?_eq_some_iff.1 hlast
      simp
  rw [List.rtakeWhile, List.reverse_append, List.takeWhile_append_of_pos hpos, hdir, List.append_nil,
    List.reverse_reverse]

theorem bizeName_archive {ext : Text} (hext : '.' ∉ ext) (dir name line : Text) :
    bizeName (dir ++ archiveName name line ext) =
      let pkg := dir ++ name ++ '-' :: (sedVersion line).getD []
      let pkg := ((uptoLast dashDigit pkg).getD pkg).rtakeWhile (· != '/')
      if pkg = [] then none else some pkg := by
  have harch : dir ++ archiveName name line ext =
      (dir ++ name ++ '-' :: (sedVersion line).getD []) ++ (tar ++ ext) := by
    simp [archiveName]
  rw [bizeName, harch, uptoLast_tar hext]

/-- With one dash, what is in front of it is the name. -/
theorem bizeName_of_oneDash {ext dir name line v : Text} (hext : '.' ∉ ext) (hdir : Directory dir)
    (hname : name ≠ [] ∧ '/' ∉ name) (hv : sedVersion line = some v) (hdash : OneDash v) :
    bizeName (dir ++ archiveName name line ext) = some name := by
  have hcut : uptoLast dashDigit (dir ++ name ++ '-' :: v) = some (dir ++ name) := by
    simpa using uptoLast_append (uptoLast_cons hdash.2 hdash.1) (dir ++ name)
  simp only [bizeName_archive hext, hv, Option.getD_some, hcut, rtakeWhile_directory hdir hname.2, if_neg hname.1]

/-- The name ends at a dash with a digit behind it, and there is no other one. -/
theorem oneDash_of_bizeName {ext name line v : Text} (hext : '.' ∉ ext) (hname : '/' ∉ name)
    (hv : sedVersion line = some v) (hslash : '/' ∉ v) (h : bizeName (archiveName name line ext) = some name) :
    OneDash v := by
  have hplain : ∀ u : Text, '/' ∉ u → u.rtakeWhile (· != '/') = u := fun u hu =>
    rtakeWhile_directory (.inl rfl) hu
  have harch := bizeName_archive hext [] name line
  simp only [List.nil_append, hv, Option.getD_some] at harch
  rw [harch] at h
  have hpkg : '/' ∉ name ++ '-' :: v := by simp [hname, hslash]
  cases hcut : uptoLast dashDigit (name ++ '-' :: v) with
  | none =>
    rw [hcut, Option.getD_none, hplain _ hpkg, if_neg (by simp)] at h
    have hlen := congrArg List.length (Option.some.inj h)
    simp at hlen
  | some u =>
    obtain ⟨c, w, heq, hp, hw⟩ := uptoLast_eq_some hcut
    have hu : '/' ∉ u := fun hc => hpkg (by rw [heq]; exact List.mem_append_left _ hc)
    rw [hcut, Option.getD_some, hplain _ hu] at h
    split at h
    · cases h
    · obtain rfl := Option.some.inj h
      obtain ⟨rfl, rfl⟩ := List.cons.inj (List.append_cancel_left heq)
      exact ⟨hp, hw⟩

/-- **The name** is read back exactly if the version has one dash with a digit behind it, the first. -/
theorem names_decode (name : Text) (hname : name ≠ [] ∧ '/' ∉ name ∧ ' ' ∉ name) (ver : Text)
    (hver : '/' ∉ ver ∧ ' ' ∉ ver) (extraver : Text) (hextraver : '/' ∉ extraver) (ext : Text)
    (hext : ext ∈ compressors) :
    Decodes name (headerLine name ver extraver) ext ↔ OneDash (version ver extraver) := by
  have hdot := compressors_plain ext hext
  have hsed := sedVersion_header hname.2.2 hver.2 extraver
  have hslash : '/' ∉ version ver extraver := by
    rw [version]
    split <;> simp [hver.1, hextraver]
  constructor
  · exact fun h => oneDash_of_bizeName hdot hname.2.1 hsed hslash (h [] (.inl rfl)).1
  · intro hdash dir hdir
    have hread := bizeName_of_oneDash hdot hdir ⟨hname.1, hname.2.1⟩ hsed hdash
    exact ⟨hread, fun flists => by rw [updated, hread, Option.bind_some]⟩

theorem names_decode_zlib :
    Decodes "zlib".toList (headerLine "zlib".toList "1.3.1".toList []) "zst".toList ↔
      OneDash (version "1.3.1".toList []) :=
  names_decode "zlib".toList (by decide +kernel) "1.3.1".toList (by decide +kernel) [] (by decide) "zst".toList
    (by decide +kernel)

/-- The example of the format, `[V] 2.3 19991204`, and a version that starts with a letter. -/
theorem names_misread :
    bizeName (archiveName "pkg".toList (headerLine "pkg".toList "2.3".toList "19991204".toList) "zst".toList) =
        some "pkg-2.3".toList ∧
      bizeName (archiveName "pkg".toList (headerLine "pkg".toList "r9".toList []) "zst".toList) = some "pkg-r9".toList ∧
      ¬ Decodes "pkg".toList (headerLine "pkg".toList "2.3".toList "19991204".toList) "zst".toList := by
  have hextra :
      bizeName (archiveName "pkg".toList (headerLine "pkg".toList "2.3".toList "19991204".toList) "zst".toList) =
        some "pkg-2.3".toList := by
    unfold headerLine header
    repeat rw [String.toList_ofList]
    decide +kernel
  refine ⟨hextra, ?_, fun h => ?_⟩
  · unfold headerLine header
    repeat rw [String.toList_ofList]
    decide +kernel
  · have hname := (h [] (.inl rfl)).1
    rw [List.nil_append, hextra] at hname
    exact absurd hname (by decide +kernel)

end T2Sde.Bize
