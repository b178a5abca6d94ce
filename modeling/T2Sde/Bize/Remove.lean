import T2Sde.Lib.Cut
import T2Sde.Lib.Read
import T2Sde.Lib.Tree
import T2Sde.Bize.Bundle
/-!
# Removing a package (`package/archiver/bize/bize.sh`)

`bize_remove` goes through two lists: with `keep` first through the checksums, to remove what is unmodified, then
through the files in reverse order.

| here | `bize.sh` |
| --- | --- |
| `md5Output`     | `md5sum -c` :22 |
| `removeChecked` | the loop :23-36 |
| `removeEntry`   | the loop :41-58 |
| `bizeRemove`    | `bize_remove` :13-59 |

* `Listing` — a list of files as `Build-Pkg` writes it.
* `removeListed_eq` — the second pass, entry by entry in reverse order.
-/
namespace T2Sde.Bize
open Shell Files

/-- The files are texts. -/
abbrev Root := Tree Text Text

def names (path : Text) : List Text := path.splitOn '/'

/-- `$root`, and the name of the package. -/
structure Target where
  root : List Text
  pkg : Text

def Target.file (g : Target) (base : Text) : List Text := g.root ++ names base

/-- `$adm/flists/$pkg` and `$adm/md5sums/$pkg` -/
def Target.list (g : Target) : List Text := g.root ++ ["var".toList, "adm".toList, "flists".toList, g.pkg]
def Target.md5s (g : Target) : List Text := g.root ++ ["var".toList, "adm".toList, "md5sums".toList, g.pkg]

/-! ## The first pass -/

/-- A line of the checksums: the sum, two characters, the path. -/
def recorded (line : Text) : Text × Text :=
  let sum := line.takeWhile (· != ' ')
  (sum, line.drop (sum.length + 2))

def status (md5 : Text → Text) (g : Target) (t : Root) (record : Text × Text) : Text :=
  match t.read (g.file record.2) with
  | none => "FAILED open or read".toList
  | some content => if md5 content = record.1 then "OK".toList else "FAILED".toList

def md5Output (md5 : Text → Text) (g : Target) (t : Root) (sums : Text) : List Text :=
  (lines sums).map fun line => (recorded line).2 ++ ':' :: ' ' :: status md5 g t (recorded line)

/-- `': '` -/
def colon : Text → Bool
  | ':' :: ' ' :: _ => true
  | _ => false

def removeChecked (g : Target) (t : Root) (m : List ReadChar) : Root :=
  let line := lastField m
  let base := (uptoLast colon line).getD line
  let stat := ((uptoLast colon line).map fun base => line.drop (base.length + 2)).getD line
  let file := g.file base
  if base = [] ∨ stat = [] then t
  else if t.isFile file ∧ ¬ t.isLink file then if stat = "OK".toList then t.unlink file else t
  else t

/-! ## The second pass -/

/-- `"${base#var/adm/}" != "$base"` -/
def InAdm (base : Text) : Prop := "var/adm/".toList <+: base

instance (base : Text) : Decidable (InAdm base) := inferInstanceAs (Decidable (_ <+: _))

def removeBase (keep : Bool) (g : Target) (t : Root) (base : Text) : Root :=
  let file := g.file base
  if t.isLink file then t.unlink file
  else if t.isDir file then t.rmdir file
  else if InAdm base ∧ t.isFile file then t.unlink file
  else if keep ∧ t.isFile file then t
  else t.unlink file

def removeEntry (keep : Bool) (g : Target) (t : Root) (m : List ReadChar) : Root :=
  let tag := (readFields 1 m).getD 0 []
  let base := (readFields 1 m).getD 1 []
  if tag ≠ g.pkg ++ [':'] then t
  else if base = [] then t
  else removeBase keep g t base

def removeListed (keep : Bool) (g : Target) (t : Root) : Root :=
  match t.read g.list with
  | none => t
  | some list => (logical (sortReverse (lines list))).foldl (removeEntry keep g) t

/-- `md5sum` runs ahead of the loop that reads it. -/
def bizeRemove (md5 : Text → Text) (keep : Bool) (g : Target) (t : Root) : Root :=
  if keep then
    match t.read g.md5s with
    | none => t
    | some sums => removeListed keep g ((logical (md5Output md5 g t sums)).foldl (removeChecked g) t)
  else removeListed keep g t

/-! ## Lists as they are written -/

/-- A relative path that `read` leaves alone. -/
structure PlainPath (path : Text) : Prop where
  trimmed : Trimmed path
  line : '\n' ∉ path
  backslash : '\\' ∉ path
  names : ∀ n ∈ names path, n ≠ [] ∧ n ≠ ['.'] ∧ n ≠ ['.', '.']

instance (path : Text) : Decidable (PlainPath path) :=
  decidable_of_iff (Trimmed path ∧ '\n' ∉ path ∧ '\\' ∉ path ∧
      ∀ n ∈ Bize.names path, n ≠ [] ∧ n ≠ ['.'] ∧ n ≠ ['.', '.'])
    ⟨fun ⟨h₁, h₂, h₃, h₄⟩ => ⟨h₁, h₂, h₃, h₄⟩, fun ⟨h₁, h₂, h₃, h₄⟩ => ⟨h₁, h₂, h₃, h₄⟩⟩

/-- The files of a package. -/
structure Listing (g : Target) where
  paths : List Text
  plainPaths : ∀ p ∈ paths, PlainPath p
  pkgWord : IsWord g.pkg
  pkgPlain : '\\' ∉ g.pkg

variable {g : Target}

/-- The list is in its place. -/
def Listing.At (l : Listing g) (t : Root) : Prop := t.read g.list = some (flist g.pkg l.paths)

instance (l : Listing g) (t : Root) : Decidable (l.At t) := inferInstanceAs (Decidable (_ = _))

/-- Lines of one package are in the order of their paths. -/
theorem sortReverse_lines (pkg : Text) (paths : List Text) :
    sortReverse (paths.map (flistLine pkg)) = (sortReverse paths).map (flistLine pkg) := by
  refine (List.map_mergeSort fun p _ q _ => ?_).symm
  rw [flistLine_eq, flistLine_eq, decide_eq_decide, before_append_left, before_cons_self]

theorem Listing.pkg_line (l : Listing g) : ' ' ∉ g.pkg ∧ '\n' ∉ g.pkg := by
  constructor
  · exact fun h => by simpa [isBlank] using l.pkgWord.2 ' ' h
  · exact fun h => by simpa [isBlank] using l.pkgWord.2 '\n' h

theorem Listing.backslash (l : Listing g) {p : Text} (hp : p ∈ l.paths) : '\\' ∉ flistLine g.pkg p := by
  simp [flistLine, l.pkgPlain, (l.plainPaths p hp).backslash]

theorem removeEntry_line (keep : Bool) (t : Root) (hpkg : IsWord g.pkg) {path : Text} (hpath : PlainPath path) :
    removeEntry keep g t (plain (flistLine g.pkg path)) = removeBase keep g t path := by
  have hword : IsWord (g.pkg ++ [':']) := isWord_append hpkg (by simp [isBlank])
  rw [removeEntry, flistLine_eq, readFields_trimmed hword hpath.trimmed]
  simp [hpath.trimmed.ne]

/-- **The second pass** takes the paths in reverse order. -/
theorem removeListed_eq (keep : Bool) {t : Root} (l : Listing g) (hlist : l.At t) :
    removeListed keep g t = (sortReverse l.paths).foldl (removeBase keep g) t := by
  have hread : ∀ line ∈ (sortReverse l.paths).map (flistLine g.pkg), runsOn line = false := by
    intro line hline
    obtain ⟨p, hp, rfl⟩ := List.mem_map.1 hline
    rw [runsOn, unescape_plain (l.backslash (mem_sortReverse.1 hp))]
  have hlines := lines_flist l.pkg_line.2 fun p hp => (l.plainPaths p hp).line
  rw [removeListed, hlist]
  simp only [hlines, sortReverse_lines]
  rw [logical_alone hread, List.map_map, List.foldl_map]
  refine List.foldl_ext _ _ _ fun t p hp => ?_
  have hp := mem_sortReverse.1 hp
  rw [Function.comp_apply, unescape_plain (l.backslash hp), removeEntry_line keep t l.pkgWord (l.plainPaths p hp)]

/-! ## One path -/

variable {t : Root} {keep : Bool} {path : Text}

theorem file_ne_nil (path : Text) : g.file path ≠ [] := by
  simp [Target.file, names]

theorem names_inj {p q : Text} (h : names p = names q) : p = q := by
  have hp : ['/'].intercalate (names p) = p := List.intercalate_splitOn '/'
  have hq : ['/'].intercalate (names q) = q := List.intercalate_splitOn '/'
  rw [← hp, ← hq, h]

theorem file_inj {p q : Text} (h : g.file p = g.file q) : p = q := names_inj (List.append_cancel_left h)

/-- What `unlink` gets is in place and no directory. -/
theorem unlink_place (p : List Text) :
    t.unlink p = t ∨ ∃ q e, t.place p = some q ∧ t.entry q = some e ∧ e ≠ .dir ∧ t.unlink p = t.remove q := by
  rcases t.unlink_cases p with hsame | ⟨q, hq, hdir, hremove⟩
  · exact .inl hsame
  · cases he : t.entry q with
    | none => exact .inl (hremove.trans (Tree.remove_missing he))
    | some e => exact .inr ⟨q, e, hq, he, fun hd => hdir (hd ▸ he), hremove⟩

/-- What may go for a path. -/
theorem removeBase_cases (keep : Bool) (g : Target) (t : Root) (path : Text) :
    removeBase keep g t path = t ∨
      ∃ q e, t.place (g.file path) = some q ∧ t.entry q = some e ∧
        (keep = true → ∀ content, e = .file content → InAdm path) ∧
          removeBase keep g t path = t.remove q := by
  have hunlink : (keep = true → ∀ q content, t.place (g.file path) = some q → t.entry q = some (.file content) →
      InAdm path) →
      t.unlink (g.file path) = t ∨ ∃ q e, t.place (g.file path) = some q ∧ t.entry q = some e ∧
        (keep = true → ∀ content, e = .file content → InAdm path) ∧
          t.unlink (g.file path) = t.remove q := by
    intro hadm
    rcases unlink_place (t := t) (g.file path) with hsame | ⟨q, e, hq, he, -, hremove⟩
    · exact .inl hsame
    · exact .inr ⟨q, e, hq, he, fun hkeep content hfile => hadm hkeep q content hq (hfile ▸ he), hremove⟩
  unfold removeBase
  extract_lets file
  split
  next hlink =>
    refine hunlink fun _ q content hq he => ?_
    rw [Tree.isLink, hq, Option.bind_some, he] at hlink
    cases hlink
  split
  · rcases t.rmdir_cases file with hsame | ⟨q, hq, hdir, hremove⟩
    · exact .inl hsame
    · exact .inr ⟨q, .dir, hq, hdir, fun _ content hfile => (by cases hfile), hremove⟩
  split
  next hadm => exact hunlink fun _ _ _ _ _ => hadm.1
  split
  · exact .inl rfl
  next hkept =>
    refine hunlink fun hkeep q content hq he => absurd ⟨hkeep, ?_⟩ hkept
    have hresolve := Tree.resolve_of_place hq he fun _ _ h => by cases h
    rw [Tree.isFile, Tree.read, hresolve, Option.bind_some, he]
    rfl

/-- What is removed when a path's turn comes, if no link is on it. -/
def Goes (keep : Bool) (g : Target) (t : Root) (path : Text) : Prop :=
  match t.entry (g.file path) with
  | some .dir => t.Childless (g.file path)
  | some (.file _) => keep = true → InAdm path
  | _ => True

theorem removeBase_gone (h : t.Direct (g.file path)) :
    (removeBase keep g t path).entry (g.file path) = none ↔ Goes keep g t path := by
  have hp := file_ne_nil (g := g) path
  unfold removeBase Goes
  extract_lets file
  by_cases hlink : t.isLink file = true
  · obtain ⟨absolute, steps, he⟩ := (h.isLink hp).1 hlink
    rw [if_pos hlink, Tree.entry_unlink h hp, he]
    simp
  · have hresolve := h.resolve fun absolute steps he => hlink ((h.isLink hp).2 ⟨absolute, steps, he⟩)
    rw [if_neg hlink, Tree.isDir, Tree.isFile, Tree.read, hresolve]
    cases he : t.entry (g.file path) with
    | none => simp [Tree.entry_unlink h hp, he, file]
    | some e =>
      cases e with
      | link absolute steps => exact absurd ((h.isLink hp).2 ⟨absolute, steps, he⟩) hlink
      | dir => simp [Tree.entry_rmdir h hp, he, file]
      | other => simp [Tree.entry_unlink h hp, he, file]
      | file content =>
        have hunlink : (t.unlink file).entry (g.file path) = none := by
          rw [Tree.entry_unlink h hp, he]
          simp
        by_cases hadm : InAdm path
        · simp [hadm, hunlink]
        · cases keep
          · simp [hadm, hunlink]
          · simp [hadm, he]

end T2Sde.Bize
