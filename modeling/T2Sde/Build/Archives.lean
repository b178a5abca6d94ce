import T2Sde.Build.Vars
import T2Sde.Lib.Cut
import Mathlib.Data.List.DropRight
/-!
# The source archives of a package (`scripts/functions.in`)

`build_this_package` works through the archives one after the other, with shell variables that live longer than one
archive. The list of patches is saved and put back. The extractor is not: `custextract` is empty only before the first
archive, whose extractor then stays for the others.

| here | there |
| --- | --- |
| `xsourceballs`, `archives` | which archives :948-968, the words of the loop :969 |
| `stem`, `listing`          | the patches with the name of an archive :971-972 |
| `extractorOf`              | the `case` :977-981 |
| `archive`                  | the body of the loop :970-1029, :1288 |
| `buildThisPackage`         | the loop |

* `archive_spec` — one archive, with what the ones before have left.
* `work_spec` — all of them: one extractor, that of the first.
* `archives_independent_iff` — **when no archive depends on another one**.
-/
namespace T2Sde.Build
open Shell

/-- What the loop reads of a package. -/
structure Package where
  desc_SRC : Text
  desc_D : Text
  srctar : Text
  confdir : Text
  /-- The names in `confdir`, in the order of the shell. -/
  confFiles : List Text
  archdir : Text
  autoextract : Bool
  autopatch : Bool

/-- `s, ,\t,g; s,\t\t*,\t,g`, the tabs squeezed. -/
def tabbed : Text → Text
  | [] => []
  | c :: s => if c = ' ' ∨ c = '\t' then '\t' :: (tabbed s).dropWhile (· == '\t') else c :: tabbed s

/-- The second column of lines of `desc_D`. -/
def sourceballs (ls : List Text) : List Text := ls.map fun l => cutSecond '\t' (tabbed l)

/-- The lines of `$xsrcpattern`. -/
def xsrcpattern (p : Package) : List Text :=
  (((tabbed p.desc_SRC).map fun c => if c = '\t' then '\n' else c).rdropWhile (· == '\n')).splitOn '\n'

def xsourceballs (p : Package) : Text :=
  if p.srctar ≠ "auto".toList then p.srctar
  else if p.desc_SRC = [] then ['\n'].intercalate (sourceballs ((lines p.desc_D).take 1))
  else ['\n'].intercalate
    ((sourceballs (lines p.desc_D)).filter fun ball => (xsrcpattern p).any fun x => decide (x <:+: ball))

/-- The archives that the loop works through. -/
def archives (p : Package) : List Text := words (xsourceballs p)

/-- The name of an archive in front of its version. -/
def stem (xsrctar : Text) : Text := replaceOnce "-[v0-9]*".toList [] xsrctar

/-- The patches with the name of an archive. -/
def named (p : Package) (xsrctar : Text) : List Text :=
  (p.confFiles.filter fun f => f.head? != some '.' && fits ("*.patch.".toList ++ stem xsrctar) f).map
    fun f => p.confdir ++ '/' :: f

/-- What `ls` prints of them, without the line end. -/
def listing (p : Package) (xsrctar : Text) : Text := ['\n'].intercalate (named p xsrctar)

/-- The extractor that the name of an archive selects. -/
def extractorOf (xsrctar : Text) : Text :=
  if fits "*.zip".toList xsrctar then "autoextract_zip".toList
  else if fits "*.7z".toList xsrctar then "autoextract_7z".toList
  else "autoextract_tar".toList

/-- The variables of the loop, and what else the commands in it read and change. -/
structure Loop (World : Type) where
  patchfiles : Text
  saved_patchfiles : Text
  custextract : Text
  xsrctar : Text
  world : World

variable {World : Type}

/-- What an archive is unpacked with, and what it is patched with. -/
structure Event where
  xsrctar : Text
  extract : Option (Text × Text)
  patches : List Text
  deriving DecidableEq

/-- A step that sets no extractor and leaves the saved list alone. -/
def Keeps (f : Loop World → Loop World) : Prop :=
  ∀ s, (f s).custextract = s.custextract ∧ (f s).saved_patchfiles = s.saved_patchfiles

/-- The hooks and commands of a package; those before the patches leave the list as it is. -/
structure Steps (World : Type) where
  customextract : Loop World → Loop World
  prepatch : Loop World → Loop World
  postpatch : Loop World → Loop World
  customextract_keeps : Keeps customextract
  prepatch_keeps : Keeps prepatch
  postpatch_keeps : Keeps postpatch
  customextract_patchfiles : ∀ s, (customextract s).patchfiles = s.patchfiles
  prepatch_patchfiles : ∀ s, (prepatch s).patchfiles = s.patchfiles

/-- `var_append patchfiles ' ' …` -/
def appended (patchfiles text : Text) : Text := (if patchfiles ≠ [] then patchfiles ++ [' '] else patchfiles) ++ text

/-- The body of the loop. -/
def archive (p : Package) (steps : Steps World) (s : Loop World) (xsrctar : Text) : Event × Loop World :=
  let s := { s with xsrctar := xsrctar, saved_patchfiles := s.patchfiles }
  let s := { s with patchfiles := appended s.patchfiles (listing p xsrctar) }
  let automatic := xsrctar ≠ "none".toList ∧ p.autoextract = true
  let s :=
    if automatic then
      { s with custextract := if s.custextract = [] then extractorOf xsrctar else s.custextract }
    else steps.customextract s
  let extract := if automatic ∧ s.custextract ≠ [] then some (s.custextract, p.archdir ++ '/' :: xsrctar) else none
  let s := steps.prepatch s
  let patches := if p.autopatch then words s.patchfiles else []
  let s := steps.postpatch s
  (⟨xsrctar, extract, patches⟩, { s with patchfiles := s.saved_patchfiles })

def work (p : Package) (steps : Steps World) (s : Loop World) : List Text → List Event × Loop World
  | [] => ([], s)
  | xsrctar :: rest =>
    let (e, s) := archive p steps s xsrctar
    let (es, s) := work p steps s rest
    (e :: es, s)

/-- `for xsrctar in ${xsourceballs:-none}` -/
def buildThisPackage (p : Package) (steps : Steps World) (s : Loop World) : List Event × Loop World :=
  work p steps s (if xsourceballs p = [] then ["none".toList] else archives p)

/-! ## What is asked of an archive -/

/-- What an archive has by itself, with the list `common` of the package. -/
def own (p : Package) (common : Text) (xsrctar : Text) : Event where
  xsrctar := xsrctar
  extract := some (extractorOf xsrctar, p.archdir ++ '/' :: xsrctar)
  patches := if p.autopatch then words common ++ named p xsrctar else []

/-- Every archive is as it is by itself, and the list of patches is the one from before. -/
def Independent (p : Package) (steps : Steps World) (s : Loop World) : Prop :=
  (archives p ≠ [] → (buildThisPackage p steps s).1 = (archives p).map (own p s.patchfiles)) ∧
    (buildThisPackage p steps s).2.patchfiles = s.patchfiles

/-- No archive is called `none`, the patches with their names are words, and all have the same extractor. -/
def Alike (p : Package) : Prop :=
  (∀ a ∈ archives p, a ≠ "none".toList ∧ (p.autopatch = true → ∀ f ∈ named p a, IsWord f)) ∧
    ∀ a ∈ archives p, ∀ b ∈ archives p, extractorOf a = extractorOf b

/-! ## One archive -/

theorem words_appended (patchfiles text : Text) :
    words (appended patchfiles text) = words patchfiles ++ words text := by
  rw [appended]
  split
  · rw [List.append_assoc, List.singleton_append, words_append_blank rfl]
  next h => rw [not_not.1 h, List.nil_append, words_nil, List.nil_append]

theorem extractorOf_ne (xsrctar : Text) : extractorOf xsrctar ≠ [] := by
  unfold extractorOf
  split
  · decide
  · split <;> decide

variable (p : Package) (steps : Steps World)

/-- The extractor of an archive when `custextract` is `set`. -/
def used (set xsrctar : Text) : Text := if set = [] then extractorOf xsrctar else set

/-- **One archive**: it is unpacked with the extractor that is set, or with its own, which then is set; the list of
patches is put back. -/
theorem archive_spec (s : Loop World) {xsrctar : Text} (ha : p.autoextract = true) (hn : xsrctar ≠ "none".toList) :
    (archive p steps s xsrctar).1 =
        { xsrctar := xsrctar
          extract := some (used s.custextract xsrctar, p.archdir ++ '/' :: xsrctar)
          patches := if p.autopatch then words s.patchfiles ++ words (listing p xsrctar) else [] } ∧
      (archive p steps s xsrctar).2.custextract = used s.custextract xsrctar ∧
        (archive p steps s xsrctar).2.patchfiles = s.patchfiles := by
  have hused : used s.custextract xsrctar ≠ [] := by
    unfold used
    split
    · exact extractorOf_ne xsrctar
    · assumption
  have hauto : xsrctar ≠ "none".toList ∧ p.autoextract = true := ⟨hn, ha⟩
  have hset : (if s.custextract = [] then extractorOf xsrctar else s.custextract) = used s.custextract xsrctar := rfl
  simp only [archive, hauto, hset, hused, ne_eq, not_false_eq_true, and_self, if_true,
    steps.prepatch_patchfiles, words_appended, (steps.postpatch_keeps _).1, (steps.postpatch_keeps _).2,
    (steps.prepatch_keeps _).1, (steps.prepatch_keeps _).2]

/-- The list is put back behind every archive. -/
theorem archive_patchfiles (s : Loop World) (xsrctar : Text) :
    (archive p steps s xsrctar).2.patchfiles = s.patchfiles := by
  simp only [archive, (steps.postpatch_keeps _).2, (steps.prepatch_keeps _).2]
  split
  · rfl
  · exact (steps.customextract_keeps _).2

/-- Nothing is unpacked for the name that stands for no archive. -/
theorem archive_none (s : Loop World) : (archive p steps s "none".toList).1.extract = none := by
  simp [archive]

/-! ## All archives -/

theorem work_patchfiles (s : Loop World) (as : List Text) : (work p steps s as).2.patchfiles = s.patchfiles := by
  induction as generalizing s with
  | nil => rfl
  | cons a as ih => exact (ih _).trans (archive_patchfiles p steps s a)

/-- Behind an archive that is as `f` says of it, the state before it is of no account. -/
theorem work_map {f : Text → Event} {s : Loop World} {as : List Text} (h : (work p steps s as).1 = as.map f) :
    ∀ a ∈ as, ∃ s', (archive p steps s' a).1 = f a := by
  induction as generalizing s with
  | nil => simp
  | cons a as ih =>
    obtain ⟨ha, has⟩ := List.cons.inj h
    exact List.forall_mem_cons.2 ⟨⟨s, ha⟩, ih has⟩

/-- **All archives**: they are unpacked with one extractor, that of the first one. -/
theorem work_spec (ha : p.autoextract = true) {s : Loop World} {as : List Text} (hn : ∀ a ∈ as, a ≠ "none".toList) :
    (work p steps s as).1 = as.map fun a =>
      { xsrctar := a
        extract := some (used s.custextract (as.headD []), p.archdir ++ '/' :: a)
        patches := if p.autopatch then words s.patchfiles ++ words (listing p a) else [] } := by
  induction as generalizing s with
  | nil => rfl
  | cons a as ih =>
    obtain ⟨hna, hnas⟩ := List.forall_mem_cons.1 hn
    obtain ⟨hev, hset, hlist⟩ := archive_spec p steps s ha hna
    have hrest := ih (s := (archive p steps s a).2) hnas
    have hused : ∀ b, used (used s.custextract a) b = used s.custextract a := by
      intro b
      rw [used, if_neg]
      unfold used
      split
      · exact extractorOf_ne a
      · assumption
    simp only [hset, hlist, hused] at hrest
    simp only [work, hev, hrest, List.map_cons, List.headD_cons]

/-! ## Words -/

theorem words_newlines {ws : List Text} (h : ∀ w ∈ ws, IsWord w) : words (['\n'].intercalate ws) = ws :=
  words_intercalate rfl h

theorem words_listing_iff (xsrctar : Text) :
    words (listing p xsrctar) = named p xsrctar ↔ ∀ f ∈ named p xsrctar, IsWord f := by
  refine ⟨fun h f hf => isWord_of_mem_words (h ▸ hf), words_newlines⟩

/-- **No archive depends on another one exactly when all select one extractor**, and their patches are read back. -/
theorem archives_independent_iff (s : Loop World) (ha : p.autoextract = true) (hs : s.custextract = []) :
    Independent p steps s ↔ Alike p := by
  have hlist : (buildThisPackage p steps s).2.patchfiles = s.patchfiles := work_patchfiles p steps s _
  rw [Independent, and_iff_left hlist]
  by_cases hnil : archives p = []
  · simp [hnil, Alike]
  have hballs : xsourceballs p ≠ [] := fun h => hnil (by rw [archives, h, words_nil])
  rw [buildThisPackage, if_neg hballs]
  obtain ⟨a₀, as, hcons⟩ := List.exists_cons_of_ne_nil hnil
  have hfirst : used s.custextract ((archives p).headD []) = extractorOf a₀ := by
    rw [hs, hcons, List.headD_cons, used, if_pos rfl]
  constructor
  · intro h
    have hn : ∀ a ∈ archives p, a ≠ "none".toList := by
      rintro a hmem rfl
      obtain ⟨s', hs'⟩ := work_map p steps (h hnil) _ hmem
      have := congrArg Event.extract hs'
      rw [archive_none] at this
      cases this
    have hall := (work_spec p steps ha (s := s) hn).symm.trans (h hnil)
    rw [hfirst, List.map_inj_left] at hall
    have hext : ∀ a ∈ archives p, extractorOf a₀ = extractorOf a := fun a hmem => by
      have := congrArg Event.extract (hall a hmem)
      simpa [own] using this
    refine ⟨fun a hmem => ⟨hn a hmem, fun hpatch => ?_⟩, fun a hmem b hmem' => (hext a hmem).symm.trans (hext b hmem')⟩
    have hpatches := congrArg Event.patches (hall a hmem)
    simp only [own, hpatch, if_true] at hpatches
    exact (words_listing_iff p a).1 (List.append_cancel_left hpatches)
  · rintro ⟨hnone, hext⟩ -
    rw [work_spec p steps ha fun a hmem => (hnone a hmem).1, hfirst, List.map_inj_left]
    intro a hmem
    have hwords : p.autopatch = true → words (listing p a) = named p a := fun hpatch =>
      (words_listing_iff p a).2 ((hnone a hmem).2 hpatch)
    rw [own, hext a₀ (by simp [hcons]) a hmem]
    by_cases hpatch : p.autopatch = true
    · simp [hpatch, hwords hpatch]
    · simp [hpatch]

/-- No hooks. -/
def noSteps : Steps Unit where
  customextract := id
  prepatch := id
  postpatch := id
  customextract_keeps := fun _ => ⟨rfl, rfl⟩
  prepatch_keeps := fun _ => ⟨rfl, rfl⟩
  postpatch_keeps := fun _ => ⟨rfl, rfl⟩
  customextract_patchfiles := fun _ => rfl
  prepatch_patchfiles := fun _ => rfl

/-- A package that builds all its archives. -/
def package (desc_D : String) : Package where
  desc_SRC := "foo".toList
  desc_D := desc_D.toList
  srctar := "auto".toList
  confdir := "package/x/foo".toList
  confFiles := ["foo.desc".toList, "gcc.patch.foo".toList]
  archdir := "download".toList
  autoextract := true
  autopatch := true

def start : Loop Unit := ⟨"base.patch".toList, [], [], [], ()⟩

theorem independent_tars :
    Independent (package "X foo-1.tar.gz a\nX foo-data-2.tar.xz b") noSteps start ↔
      Alike (package "X foo-1.tar.gz a\nX foo-data-2.tar.xz b") :=
  archives_independent_iff (package "X foo-1.tar.gz a\nX foo-data-2.tar.xz b") noSteps start rfl rfl

/-- A zip archive behind a tar archive is unpacked with `tar`. -/
theorem zip_unpacked_with_tar :
    (buildThisPackage (package "X foo-1.tar.gz a\nX foo-data.zip b") noSteps start).1.map (·.extract) =
        [some ("autoextract_tar".toList, "download/foo-1.tar.gz".toList),
          some ("autoextract_tar".toList, "download/foo-data.zip".toList)] ∧
      ¬ Independent (package "X foo-1.tar.gz a\nX foo-data.zip b") noSteps start := by
  have hrun : (buildThisPackage (package "X foo-1.tar.gz a\nX foo-data.zip b") noSteps start).1.map (·.extract) =
      [some ("autoextract_tar".toList, "download/foo-1.tar.gz".toList),
        some ("autoextract_tar".toList, "download/foo-data.zip".toList)] := by decide +kernel
  have harchives : archives (package "X foo-1.tar.gz a\nX foo-data.zip b") =
      ["foo-1.tar.gz".toList, "foo-data.zip".toList] := by decide +kernel
  refine ⟨hrun, fun h => ?_⟩
  have hall := congrArg (List.map Event.extract) (h.1 (by rw [harchives]; simp))
  rw [hrun, harchives] at hall
  exact absurd hall (by decide +kernel)

end T2Sde.Build
