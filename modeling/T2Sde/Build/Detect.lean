import T2Sde.Lib.Sed
import Mathlib.Data.List.Induction
/-!
# Dependency detection (`scripts/Build-Pkg`)

A path that the build has used is looked up in an array of `gawk`, whose keys are the paths of all flists up to the
first blank, and whose values are the packages that have them, the last one first. A second `awk` keeps the first of
them.

| here | there |
| --- | --- |
| `Flist.lines`  | `var/adm/flists/$pkg` |
| `addOwner`, `owners` | `f[$2] = $1 " " f[$2]` :797-798 |
| `debugLines`   | `grep -v ' var/adm/'`, `print f[file] " " file` :794, :802-806 |
| `dependencies` | `print ": " $1`, between `": "` :808-809 |

* `mem_dependencies` — what is found: the last owner of the first word of a path.
* `detection_exact_iff` — **when that is each package that has one of the paths**.
* `detection_exact_words`, `detection_exact_of_alone` — names without blanks, and with one owner at most.
-/
namespace T2Sde.Build
open Shell

/-- `$n`, the fields being words. -/
def field (n : Nat) (line : Text) : Text := (words line)[n - 1]?.getD []

structure Flist where
  pkg : Text
  paths : List Text

/-- A line of the flist, or of the list of paths behind `fl_wrparse -p ''`. -/
def pathLine (pkg path : Text) : Text := pkg ++ ": ".toList ++ path

def Flist.lines (f : Flist) : List Text := f.paths.map (pathLine f.pkg)

/-- The array behind one line of a flist. -/
def addOwner (xpkg : Text) (f : Text → Text) (line : Text) : Text → Text :=
  if field 1 line ≠ xpkg ++ [':'] then upd f (field 2 line) (field 1 line ++ ' ' :: f (field 2 line)) else f

def owners (xpkg : Text) (flists : List Flist) : Text → Text :=
  (flists.flatMap Flist.lines).foldl (addOwner xpkg) fun _ => []

/-- `grep -v ' var/adm/'` -/
def outside (line : Text) : Bool := decide (¬ " var/adm/".toList <:+: line)

/-- `dependencies.debug` -/
def debugLines (xpkg : Text) (flists : List Flist) (logged : List Text) : List Text :=
  ((logged.map (pathLine [])).filter outside).filterMap fun line =>
    let file := field 2 line
    if owners xpkg flists file ≠ [] then some (owners xpkg flists file ++ ' ' :: file) else none

/-- `$1` with `FS=": "` -/
def firstOwner (line : Text) : Text := ((firstAt ": ".toList line).map Prod.fst).getD line

/-- What is added to `dependencies.txt`. -/
def dependencies (xpkg : Text) (flists : List Flist) (logged : List Text) : List Text :=
  (debugLines xpkg flists logged).map fun line => ": ".toList ++ firstOwner line

/-! ## What is meant -/

/-- Another package that has a path which the build has used outside of `var/adm`. -/
def DependsOn (xpkg : Text) (flists : List Flist) (logged : List Text) (q : Text) : Prop :=
  q ≠ xpkg ∧ ∃ f ∈ flists, f.pkg = q ∧ ∃ path ∈ logged, ¬ "var/adm/".toList <+: path ∧ path ∈ f.paths

/-- A path up to its first blank. -/
def firstWord (path : Text) : Text := (words path).head?.getD []

/-- The flist has a path with this first word. -/
def Shares (f : Flist) (w : Text) : Prop := ∃ path ∈ f.paths, firstWord path = w

def Owns (flists : List Flist) (q w : Text) : Prop := ∃ f ∈ flists, f.pkg = q ∧ Shares f w

/-- Behind each flist of the package with such a path there is one of a third package. -/
def Hidden (xpkg : Text) (flists : List Flist) (q w : Text) : Prop :=
  ∀ pre f post, flists = pre ++ f :: post → f.pkg = q → Shares f w →
    ∃ g ∈ post, g.pkg ≠ xpkg ∧ g.pkg ≠ q ∧ Shares g w

/-- The path is not in `var/adm`, and has no ` var/adm/` inside. -/
def Passes (path : Text) : Prop := ¬ "var/adm/".toList <+: path ∧ ¬ " var/adm/".toList <:+: path

/-- **The owners and names that are told apart.** -/
structure OwnersApart (xpkg : Text) (flists : List Flist) (logged : List Text) : Prop where
  /-- A package that has a used path is not hidden at all of its paths. -/
  unhidden : ∀ q, DependsOn xpkg flists logged q →
    ∃ path ∈ logged, Passes path ∧ Owns flists q (firstWord path) ∧ ¬ Hidden xpkg flists q (firstWord path)
  /-- One that has none is hidden where a path of it is a used one up to the first blank. -/
  unmixed : ∀ q ≠ xpkg, ¬ DependsOn xpkg flists logged q → ∀ path ∈ logged, Passes path →
    Owns flists q (firstWord path) → Hidden xpkg flists q (firstWord path)

/-! ## What is found -/

def entries (flists : List Flist) : List (Text × Text) := flists.flatMap fun f => f.paths.map (f.pkg, ·)

/-- The last one of the other packages that have a path with this first word. -/
def lastOwner (xpkg : Text) (flists : List Flist) (w : Text) : Option Text :=
  (((entries flists).filter fun e => e.1 ≠ xpkg ∧ firstWord e.2 = w).getLast?).map Prod.fst

section
variable {xpkg q path : Text}

theorem words_pathLine (hq : ∀ c ∈ q, isBlank c = false) (path : Text) :
    words (pathLine q path) = (q ++ [':']) :: words path := by
  have hcolon : IsWord (q ++ [':']) := by
    refine ⟨by simp, fun c hc => ?_⟩
    rcases List.mem_append.1 hc with hc | hc
    · exact hq c hc
    · obtain rfl := List.mem_singleton.1 hc
      rfl
  have hline : pathLine q path = (q ++ [':']) ++ ' ' :: path := by simp [pathLine]
  rw [hline, words_append_blank rfl, words_of_isWord hcolon]
  rfl

theorem field_one (hq : ∀ c ∈ q, isBlank c = false) : field 1 (pathLine q path) = q ++ [':'] := by
  simp [field, words_pathLine hq]

theorem field_two (hq : ∀ c ∈ q, isBlank c = false) : field 2 (pathLine q path) = firstWord path := by
  simp [field, words_pathLine hq, firstWord, List.head?_eq_getElem?]

theorem addOwner_pathLine (f : Text → Text) (hq : ∀ c ∈ q, isBlank c = false) :
    addOwner xpkg f (pathLine q path) =
      if q ≠ xpkg then upd f (firstWord path) (q ++ ": ".toList ++ f (firstWord path)) else f := by
  rw [addOwner, field_one hq, field_two hq]
  have hline : q ++ [':'] ++ ' ' :: f (firstWord path) = q ++ ": ".toList ++ f (firstWord path) := by simp
  by_cases h : q = xpkg
  · simp [h]
  · rw [if_pos (fun heq => h (List.append_cancel_right heq)), if_pos h, hline]

/-- The value of a first word is its last owner in front of the others. -/
theorem foldl_addOwner {es : List (Text × Text)} (hes : ∀ e ∈ es, ∀ c ∈ e.1, isBlank c = false) (w : Text) :
    match ((es.filter fun e => e.1 ≠ xpkg ∧ firstWord e.2 = w).getLast?).map Prod.fst with
    | none => (es.map fun e => pathLine e.1 e.2).foldl (addOwner xpkg) (fun _ => []) w = []
    | some q => ∃ rest, (es.map fun e => pathLine e.1 e.2).foldl (addOwner xpkg) (fun _ => []) w =
        q ++ ": ".toList ++ rest := by
  induction es using List.reverseRecOn with
  | nil => rfl
  | append_singleton es e ih =>
    have ih := ih fun e he => hes e (List.mem_append_left _ he)
    rw [List.map_append, List.map_singleton, List.foldl_append, List.foldl_cons, List.foldl_nil,
      addOwner_pathLine _ (hes e (by simp)), List.filter_append, List.filter_singleton]
    generalize (es.map fun e => pathLine e.1 e.2).foldl (addOwner xpkg) (fun _ => []) = f at ih ⊢
    by_cases hx : e.1 = xpkg
    · simpa [hx] using ih
    · rw [if_pos hx]
      by_cases hw : firstWord e.2 = w
      · simp [hx, hw]
      · rw [upd_ne _ _ _ _ (Ne.symm hw)]
        simpa [hx, hw] using ih

theorem lines_entries (flists : List Flist) :
    flists.flatMap Flist.lines = (entries flists).map fun e => pathLine e.1 e.2 := by
  rw [entries, List.map_flatMap]
  simp only [List.map_map]
  rfl

/-- The first owner of a value is read back. -/
theorem firstOwner_append (hq : ∀ c ∈ q, isBlank c = false) (rest : Text) :
    firstOwner (q ++ ": ".toList ++ rest) = q := by
  have hfirst : ∀ q : Text, (∀ c ∈ q, isBlank c = false) →
      firstAt ": ".toList (q ++ ": ".toList ++ rest) = some (q, rest) := by
    intro q hq
    induction q with
    | nil => simp [firstAt]
    | cons c q ih =>
      obtain ⟨hc, hq⟩ := List.forall_mem_cons.1 hq
      have hno : ¬ ": ".toList <+: c :: (q ++ ": ".toList ++ rest) := by
        rintro hp
        cases q with
        | nil => simp at hp
        | cons d q =>
          have hd := hq d List.mem_cons_self
          have hsp : ' ' = d := (List.cons_prefix_cons.1 (List.cons_prefix_cons.1 hp).2).1
          rw [← hsp] at hd
          cases hd
      rw [List.cons_append, List.cons_append, firstAt, if_neg hno, ih hq, Option.map_some]
  rw [firstOwner, hfirst q hq]
  rfl

end

section
variable {xpkg : Text} {flists : List Flist} (hpkg : ∀ f ∈ flists, ∀ c ∈ f.pkg, isBlank c = false)
include hpkg

theorem owners_eq (w : Text) :
    match lastOwner xpkg flists w with
    | none => owners xpkg flists w = []
    | some q => ∃ rest, owners xpkg flists w = q ++ ": ".toList ++ rest := by
  have hes : ∀ e ∈ entries flists, ∀ c ∈ e.1, isBlank c = false := by
    intro e he
    obtain ⟨f, hf, he⟩ := List.mem_flatMap.1 he
    obtain ⟨path, -, rfl⟩ := List.mem_map.1 he
    exact hpkg f hf
  rw [owners, lines_entries]
  exact foldl_addOwner hes w

omit hpkg in
theorem lastOwner_mem {w q : Text} (h : lastOwner xpkg flists w = some q) :
    q ≠ xpkg ∧ ∃ f ∈ flists, f.pkg = q ∧ ∃ path ∈ f.paths, firstWord path = w := by
  obtain ⟨e, he, rfl⟩ := Option.map_eq_some_iff.1 h
  obtain ⟨he, hp⟩ := List.mem_filter.1 (List.mem_of_getLast? he)
  obtain ⟨f, hf, he⟩ := List.mem_flatMap.1 he
  obtain ⟨path, hpath, rfl⟩ := List.mem_map.1 he
  have hp : f.pkg ≠ xpkg ∧ firstWord path = w := by simpa using hp
  exact ⟨hp.1, f, hf, rfl, path, hpath, hp.2⟩

/-- What the second `awk` makes of the value of a word. -/
theorem firstOwner_owners (w : Text) :
    (if owners xpkg flists w ≠ [] then some (owners xpkg flists w ++ ' ' :: w) else none).map firstOwner =
      lastOwner xpkg flists w := by
  have ho := @owners_eq xpkg flists hpkg w
  cases hl : lastOwner xpkg flists w with
  | none =>
    rw [hl] at ho
    simp [ho]
  | some q =>
    rw [hl] at ho
    obtain ⟨rest, ho⟩ := ho
    obtain ⟨-, f, hf, rfl, -⟩ := lastOwner_mem hl
    have hfirst : firstOwner (f.pkg ++ ": ".toList ++ rest ++ ' ' :: w) = f.pkg := by
      rw [List.append_assoc]
      exact firstOwner_append (hpkg f hf) _
    rw [if_pos (by simp [ho]), Option.map_some, ho, hfirst]

/-- **What is found**: the last owner of the first word of a path. -/
theorem mem_dependencies {logged : List Text} {q : Text} :
    ": ".toList ++ q ∈ dependencies xpkg flists logged ↔
      ∃ path ∈ logged, outside (pathLine [] path) = true ∧ lastOwner xpkg flists (firstWord path) = some q := by
  have hfile : ∀ path, field 2 (pathLine [] path) = firstWord path := fun path => field_two (by simp)
  have hmap : dependencies xpkg flists logged =
      ((logged.map (pathLine [])).filter outside).filterMap fun line =>
        (lastOwner xpkg flists (field 2 line)).map (": ".toList ++ ·) := by
    rw [dependencies, debugLines, List.map_filterMap]
    simp only [← firstOwner_owners hpkg, Option.map_map]
    rfl
  rw [hmap, List.mem_filterMap]
  constructor
  · rintro ⟨line, hline, h⟩
    obtain ⟨hline, hout⟩ := List.mem_filter.1 hline
    obtain ⟨path, hpath, rfl⟩ := List.mem_map.1 hline
    obtain ⟨q', hq', heq⟩ := Option.map_eq_some_iff.1 h
    rw [hfile, List.append_cancel_left heq] at hq'
    exact ⟨path, hpath, hout, hq'⟩
  · rintro ⟨path, hpath, hout, h⟩
    refine ⟨_, List.mem_filter.2 ⟨List.mem_map_of_mem hpath, hout⟩, ?_⟩
    rw [hfile, h, Option.map_some]

omit hpkg in
theorem lastOwner_concat (flists : List Flist) (g : Flist) (w : Text) [Decidable (Shares g w)] :
    lastOwner xpkg (flists ++ [g]) w =
      if g.pkg ≠ xpkg ∧ Shares g w then some g.pkg else lastOwner xpkg flists w := by
  have hentries : entries (flists ++ [g]) = entries flists ++ g.paths.map (g.pkg, ·) := by simp [entries]
  rw [lastOwner, hentries, List.filter_append, List.getLast?_append]
  split
  next h =>
    obtain ⟨hne, path, hpath, hw⟩ := h
    have hmem : (g.pkg, path) ∈ (g.paths.map (g.pkg, ·)).filter fun e => e.1 ≠ xpkg ∧ firstWord e.2 = w :=
      List.mem_filter.2 ⟨List.mem_map_of_mem hpath, by simp [hne, hw]⟩
    obtain ⟨e, he⟩ := List.getLast?_isSome.2 (List.ne_nil_of_mem hmem) |> Option.isSome_iff_exists.1
    obtain ⟨_, -, rfl⟩ := List.mem_map.1 (List.mem_filter.1 (List.mem_of_getLast? he)).1
    rw [he]
    rfl
  next h =>
    have hnone : (g.paths.map (g.pkg, ·)).filter (fun e => e.1 ≠ xpkg ∧ firstWord e.2 = w) = [] := by
      refine List.filter_eq_nil_iff.2 fun e he hp => h ?_
      obtain ⟨path, hpath, rfl⟩ := List.mem_map.1 he
      obtain ⟨hne, hw⟩ : g.pkg ≠ xpkg ∧ firstWord path = w := by simpa using hp
      exact ⟨hne, path, hpath, hw⟩
    rw [hnone]
    rfl

omit hpkg in
/-- Where a list with one more at its end can be split. -/
theorem concat_split {g f : Flist} {pre post : List Flist} (h : flists ++ [g] = pre ++ f :: post) :
    f = g ∧ post = [] ∨ ∃ post', post = post' ++ [g] ∧ flists = pre ++ f :: post' := by
  rcases List.eq_nil_or_concat' post with rfl | ⟨post', x, rfl⟩
  · exact .inl ⟨(List.append_singleton_inj.1 h).2.symm, rfl⟩
  · have h : flists ++ [g] = (pre ++ f :: post') ++ [x] := by simpa using h
    obtain ⟨hfront, rfl⟩ := List.append_singleton_inj.1 h
    exact .inr ⟨post', rfl, hfront⟩

omit hpkg in
/-- The last owner of a first word has a path with it, and no third package behind it does. -/
theorem lastOwner_iff {w q : Text} :
    lastOwner xpkg flists w = some q ↔ q ≠ xpkg ∧ Owns flists q w ∧ ¬ Hidden xpkg flists q w := by
  classical
  induction flists using List.reverseRecOn with
  | nil => simp [lastOwner, entries, Owns]
  | append_singleton flists g ih =>
    rw [lastOwner_concat]
    split
    next hg =>
      rw [Option.some.injEq]
      constructor
      · rintro rfl
        refine ⟨hg.1, ⟨g, by simp, rfl, hg.2⟩, fun h => ?_⟩
        obtain ⟨_, hmem, -⟩ := h flists g [] rfl rfl hg.2
        cases hmem
      · rintro ⟨-, -, hhidden⟩
        by_contra hne
        refine hhidden fun pre f post h hq _ => ?_
        rcases concat_split h with ⟨rfl, -⟩ | ⟨post', rfl, -⟩
        · exact absurd hq hne
        · exact ⟨g, by simp, hg.1, hne, hg.2⟩
    next hg =>
      rw [ih]
      refine and_congr_right fun hne => and_congr ?_ (not_congr ?_)
      · constructor
        · rintro ⟨f, hf, h⟩
          exact ⟨f, List.mem_append_left _ hf, h⟩
        · rintro ⟨f, hf, hq, hshares⟩
          rcases List.mem_append.1 hf with hf | hf
          · exact ⟨f, hf, hq, hshares⟩
          · obtain rfl := List.mem_singleton.1 hf
            exact absurd ⟨hq.symm ▸ hne, hshares⟩ hg
      · constructor
        · intro h pre f post heq hq hshares
          rcases concat_split heq with ⟨rfl, -⟩ | ⟨post', rfl, hfront⟩
          · exact absurd ⟨hq.symm ▸ hne, hshares⟩ hg
          · obtain ⟨x, hx, hrest⟩ := h pre f post' hfront hq hshares
            exact ⟨x, List.mem_append_left _ hx, hrest⟩
        · intro h pre f post heq hq hshares
          obtain ⟨x, hx, hthird, hother, hw⟩ := h pre f (post ++ [g]) (by simp [heq]) hq hshares
          rcases List.mem_append.1 hx with hx | hx
          · exact ⟨x, hx, hthird, hother, hw⟩
          · obtain rfl := List.mem_singleton.1 hx
            exact absurd ⟨hthird, hw⟩ hg

omit hpkg in
theorem outside_iff (path : Text) : outside (pathLine [] path) = true ↔ Passes path := by
  have hspace : " var/adm/".toList = ' ' :: "var/adm/".toList := rfl
  have hline : pathLine [] path = ':' :: ' ' :: path := rfl
  refine decide_eq_true_iff.trans ?_
  rw [Passes, ← not_or, hline, List.infix_cons_iff, List.infix_cons_iff, hspace, List.prefix_cons_inj]
  refine not_congr (or_iff_right ?_)
  intro h
  exact absurd (List.cons_prefix_cons.1 h).1 (by decide)

/-- A package is found where it has a path with the first word of a used one, and is not hidden there. -/
theorem mem_dependencies_hidden {logged : List Text} {q : Text} :
    ": ".toList ++ q ∈ dependencies xpkg flists logged ↔ ∃ path ∈ logged, Passes path ∧ q ≠ xpkg ∧
      Owns flists q (firstWord path) ∧ ¬ Hidden xpkg flists q (firstWord path) := by
  simp only [mem_dependencies hpkg, lastOwner_iff, outside_iff]

/-- **When the detection is exact.** -/
theorem detection_exact_iff {logged : List Text} :
    (∀ q, ": ".toList ++ q ∈ dependencies xpkg flists logged ↔ DependsOn xpkg flists logged q) ↔
      OwnersApart xpkg flists logged := by
  simp only [mem_dependencies_hidden hpkg]
  constructor
  · intro h
    refine ⟨fun q hq => ?_, fun q hne hq path hpath hpass howns => ?_⟩
    · obtain ⟨path, hpath, hpass, -, howns, hhidden⟩ := (h q).2 hq
      exact ⟨path, hpath, hpass, howns, hhidden⟩
    · by_contra hhidden
      exact hq ((h q).1 ⟨path, hpath, hpass, hne, howns, hhidden⟩)
  · intro h q
    constructor
    · rintro ⟨path, hpath, hpass, hne, howns, hhidden⟩
      by_contra hq
      exact hhidden (h.unmixed q hne hq path hpath hpass howns)
    · intro hq
      obtain ⟨path, hpath, hpass, howns, hhidden⟩ := h.unhidden q hq
      exact ⟨path, hpath, hpass, hq.1, howns, hhidden⟩

end

theorem detection_exact_bash :
    (∀ q, ": ".toList ++ q ∈ dependencies "bash".toList
        [⟨"gcc".toList, ["bin/cc".toList]⟩, ⟨"sed".toList, ["bin/sed".toList]⟩] ["bin/cc".toList] ↔
      DependsOn "bash".toList [⟨"gcc".toList, ["bin/cc".toList]⟩, ⟨"sed".toList, ["bin/sed".toList]⟩]
        ["bin/cc".toList] q) ↔
      OwnersApart "bash".toList [⟨"gcc".toList, ["bin/cc".toList]⟩, ⟨"sed".toList, ["bin/sed".toList]⟩]
        ["bin/cc".toList] :=
  detection_exact_iff (by decide)

/-- The second owner of a path hides the first one. -/
theorem second_owner_hides_first :
    let flists := [Flist.mk "gcc".toList ["usr/lib/libssp.so".toList], ⟨"libssp".toList, ["usr/lib/libssp.so".toList]⟩]
    ¬ ∀ q, ": ".toList ++ q ∈ dependencies "bash".toList flists ["usr/lib/libssp.so".toList] ↔
      DependsOn "bash".toList flists ["usr/lib/libssp.so".toList] q := by
  intro flists h
  have hdep : DependsOn "bash".toList flists ["usr/lib/libssp.so".toList] "gcc".toList :=
    ⟨by decide, _, List.mem_cons_self, rfl, _, List.mem_cons_self, by decide, List.mem_cons_self⟩
  exact absurd ((h _).2 hdep) (by decide +kernel)

/-! ## Names without blanks -/

section
variable {xpkg : Text} {flists : List Flist} {logged : List Text}

theorem firstWord_of_isWord {path : Text} (h : IsWord path) : firstWord path = path := by
  rw [firstWord, words_of_isWord h]
  rfl

theorem passes_of_isWord {path : Text} (h : IsWord path) : Passes path ↔ ¬ "var/adm/".toList <+: path := by
  refine and_iff_left fun hin => ?_
  have hblank := h.2 ' ' (hin.subset (by simp))
  cases hblank

/-- Names without blanks: each package that has a used path is the last one with some used path. -/
theorem detection_exact_words (hpkg : ∀ f ∈ flists, ∀ c ∈ f.pkg, isBlank c = false)
    (hlogged : ∀ path ∈ logged, IsWord path) (hpaths : ∀ f ∈ flists, ∀ path ∈ f.paths, IsWord path) :
    (∀ q, ": ".toList ++ q ∈ dependencies xpkg flists logged ↔ DependsOn xpkg flists logged q) ↔
      ∀ q, DependsOn xpkg flists logged q → ∃ path ∈ logged, ¬ "var/adm/".toList <+: path ∧
        (∃ f ∈ flists, f.pkg = q ∧ path ∈ f.paths) ∧ ¬ Hidden xpkg flists q path := by
  have hshares : ∀ f ∈ flists, ∀ path ∈ logged, Shares f (firstWord path) ↔ path ∈ f.paths := by
    intro f hf path hpath
    rw [firstWord_of_isWord (hlogged path hpath)]
    constructor
    · rintro ⟨path', hp', rfl⟩
      rwa [firstWord_of_isWord (hpaths f hf path' hp')]
    · exact fun h => ⟨path, h, firstWord_of_isWord (hlogged path hpath)⟩
  have howns : ∀ q, ∀ path ∈ logged, Owns flists q (firstWord path) ↔ ∃ f ∈ flists, f.pkg = q ∧ path ∈ f.paths :=
    fun q path hpath => exists_congr fun f => and_congr_right fun hf => and_congr_right fun _ => hshares f hf path hpath
  simp only [mem_dependencies_hidden hpkg]
  constructor
  · intro h q hq
    obtain ⟨path, hpath, hpass, -, hown, hhidden⟩ := (h q).2 hq
    rw [firstWord_of_isWord (hlogged path hpath)] at hhidden
    exact ⟨path, hpath, (passes_of_isWord (hlogged path hpath)).1 hpass, (howns q path hpath).1 hown, hhidden⟩
  · intro h q
    constructor
    · rintro ⟨path, hpath, hpass, hne, hown, -⟩
      obtain ⟨f, hf, hfq, hp⟩ := (howns q path hpath).1 hown
      exact ⟨hne, f, hf, hfq, path, hpath, hpass.1, hp⟩
    · intro hq
      obtain ⟨path, hpath, hpass, hown, hhidden⟩ := h q hq
      rw [← firstWord_of_isWord (hlogged path hpath)] at hhidden
      exact ⟨path, hpath, (passes_of_isWord (hlogged path hpath)).2 hpass, hq.1, (howns q path hpath).2 hown, hhidden⟩

/-- Names without blanks, and no path with two owners. -/
theorem detection_exact_of_alone (hpkg : ∀ f ∈ flists, ∀ c ∈ f.pkg, isBlank c = false)
    (hlogged : ∀ path ∈ logged, IsWord path) (hpaths : ∀ f ∈ flists, ∀ path ∈ f.paths, IsWord path)
    (halone : ∀ f ∈ flists, ∀ g ∈ flists, f.pkg ≠ xpkg → g.pkg ≠ xpkg →
      ∀ path ∈ f.paths, path ∈ g.paths → f.pkg = g.pkg) (q : Text) :
    ": ".toList ++ q ∈ dependencies xpkg flists logged ↔ DependsOn xpkg flists logged q := by
  refine (detection_exact_words hpkg hlogged hpaths).2 (fun q hq => ?_) q
  obtain ⟨hne, f, hf, rfl, path, hpath, hout, hp⟩ := hq
  refine ⟨path, hpath, hout, ⟨f, hf, rfl, hp⟩, fun hhidden => ?_⟩
  obtain ⟨pre, post, rfl⟩ := List.append_of_mem hf
  obtain ⟨g, hg, hthird, hother, path', hp', hw⟩ :=
    hhidden pre f post rfl rfl ⟨path, hp, firstWord_of_isWord (hlogged path hpath)⟩
  have hgmem : g ∈ pre ++ f :: post := by simp [hg]
  rw [firstWord_of_isWord (hpaths g hgmem path' hp')] at hw
  exact hother (halone f hf g hgmem hne hthird path hp (hw ▸ hp')).symm

end

end T2Sde.Build
