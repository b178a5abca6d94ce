import T2Sde.Lib.Run
import T2Sde.Download.Mirrors
/-!
# One mirror detection for all processes

Any number of processes that start together, with flock and without `-mirror`. A process takes one step at a time:

| here | `scripts/Download` |
| --- | --- |
| `Place.test`, `read`, `age`  | `cached_mirror` :263, :264, :270; behind the lock if `locked` |
| `Place.opening`, `flock`     | `exec 201>> download/Mirror-Cache`, `flock 201` :284 |
| `Place.probe`                | the mirror list and the tests :290-322 |
| `Place.truncate`, `write`    | `echo "$mirror $sdever" > download/Mirror-Cache` :323: the redirection, the line |
| `Place.close`                | `exec 201>&-` :287, :325 |
| `Place.ready`                | behind `detect_mirror`; a step is the `read` of `download_file` :448 |

No process is killed, and no cache gets old while they run. The lock lets one process probe, and the others read what
it has written, as long as it has found a mirror. Without one it writes a line that is read as something else.
-/
namespace T2Sde.Download.MirrorCache
open Shell

inductive Place
  | test (locked : Bool)
  | read (locked : Bool)
  | age (locked : Bool)
  | opening | flock | probe | truncate | write | close | ready
  deriving DecidableEq, Repr

structure Proc where
  place : Place
  mirror : Text
  mirrorver : Text

structure Procs (ι : Type) where
  /-- `download/Mirror-Cache` -/
  cache : Option Text
  /-- It is older than 30 days. -/
  old : Bool
  holder : Option ι
  proc : ι → Proc
  /-- Who has probed, and the mirror it has found. -/
  probed : List (ι × Option Text)

/-- Where a process goes on when `cached_mirror` fails. -/
def failed (locked : Bool) : Place := if locked then .probe else .opening

def succeeded (locked : Bool) : Place := if locked then .close else .ready

/-- `read mirror mirrorver < download/Mirror-Cache` -/
def Proc.reads (p : Proc) : Option Text → Proc
  | none => p
  | some c => { p with mirror := (readCache c).1, mirrorver := (readCache c).2 }

/-- Where the look at what was read leads. -/
def afterLook (locked : Bool) : Look → Place
  | .refused => failed locked
  | .accepted => succeeded locked
  | .byAge => .age locked

/-- A step of `cached_mirror`; it only reads. -/
def Proc.check (sdever : Text) (cache : Option Text) (old : Bool) (p : Proc) : Proc :=
  match p.place with
  | .test locked => { p with place := if cache.getD [] = [] then failed locked else .read locked }
  | .read locked =>
    { p.reads cache with
      place := afterLook locked (look sdever (p.reads cache).mirror (p.reads cache).mirrorver) }
  | .age locked => { p with place := if old then failed locked else succeeded locked }
  | _ => p

variable {ι : Type} [DecidableEq ι]

/-- Process `i` takes a step; `o` is what its detection meets. -/
def step (sdever : Text) (s : Procs ι) : ι × Probe → Option (Procs ι)
  | (i, o) =>
    let p := s.proc i
    let goto (place : Place) := upd s.proc i { p with place := place }
    match p.place with
    | .test _ | .read _ | .age _ => some { s with proc := upd s.proc i (p.check sdever s.cache s.old) }
    | .opening => some { s with cache := some (s.cache.getD []), old := s.old && s.cache.isSome, proc := goto .flock }
    | .flock => if s.holder = none then some { s with holder := some i, proc := goto (.test true) } else none
    | .probe =>
      some { s with
        proc := upd s.proc i { p with place := .truncate, mirror := (detect o p.mirror).mirror }
        probed := s.probed ++ [(i, (detect o p.mirror).result)] }
    | .truncate => some { s with cache := some [], old := false, proc := goto .write }
    | .write => some { s with cache := some (cacheLine p.mirror sdever), old := false, proc := goto .close }
    | .close => some { s with holder := none, proc := goto .ready }
    | .ready => some { s with proc := upd s.proc i (p.reads s.cache) }

def Procs.init (cache : Option Text) (old : Bool) : Procs ι := ⟨cache, old, none, fun _ => ⟨.test false, [], []⟩, []⟩

/-- At most one process has probed, and what it has found is what every process behind its detection goes on with,
what `cached_mirror` makes of the cache, and what `download_file` reads from it. -/
structure Agreed (sdever : Text) (s : Procs ι) : Prop where
  once : s.probed.length ≤ 1
  same : ∀ i, (s.proc i).place = .ready → ∃ j r, s.probed = [(j, r)] ∧ mirrorOf (s.proc i).mirror = r ∧
    (cachedMirror sdever s.cache s.old).map mirrorOf = some r ∧
    s.cache.map (fun c => mirrorOf (readCache c).1) = some r

/-- A probe finds a mirror, whose address is one field; a process that looks at the age of the cache has read the
mirror that is still in it. -/
def Clean (s : Procs ι) (a : ι × Probe) : Prop :=
  match (s.proc a.1).place with
  | .probe => (a.2.fastest.any fun x => Usable x.1) = true
  | .age _ => s.cache.map (fun c => (readCache c).1) = some (s.proc a.1).mirror
  | _ => True

instance (s : Procs ι) (a : ι × Probe) : Decidable (Clean s a) := by
  unfold Clean
  split <;> infer_instance

/-! ## One step of `cached_mirror` -/

/-- From `flock` to the close. -/
def Place.inside : Place → Bool
  | .test locked => locked
  | .read locked => locked
  | .age locked => locked
  | .probe => true
  | .truncate => true
  | .write => true
  | .close => true
  | .opening => false
  | .flock => false
  | .ready => false

/-- Nothing has been written or accepted. -/
def Place.early : Place → Bool
  | .truncate => false
  | .write => false
  | .close => false
  | .ready => false
  | _ => true

section
variable {V : Version} {p : Proc} {cache : Option Text} {old locked : Bool}

@[simp] theorem reads_place : (p.reads cache).place = p.place := by
  cases cache <;> rfl

@[simp] theorem failed_inside : (failed locked).inside = locked := by
  cases locked <;> rfl

@[simp] theorem succeeded_inside : (succeeded locked).inside = locked := by
  cases locked <;> rfl

@[simp] theorem failed_early : (failed locked).early = true := by
  cases locked <;> rfl

theorem afterLook_inside (l : Look) : (afterLook locked l).inside = locked := by
  cases l
  · exact failed_inside
  · exact succeeded_inside
  · rfl

theorem afterLook_age {l : Look} {locked' : Bool} (h : afterLook locked l = .age locked') : l = .byAge := by
  cases l with
  | byAge => rfl
  | refused => cases locked <;> cases h
  | accepted => cases locked <;> cases h

/-- The lock is not touched. -/
theorem check_inside : (p.check V.text cache old).place.inside = p.place.inside := by
  unfold Proc.check
  cases hp : p.place with
  | test l =>
    simp only
    split
    · exact failed_inside
    · rfl
  | read l => exact afterLook_inside _
  | age l =>
    simp only
    split
    · exact failed_inside
    · exact succeeded_inside
  | _ => simp [hp]

/-- A process looks at the age only of what may pass. -/
theorem check_looked {l : Bool} (hage : (p.check V.text cache old).place = .age l) :
    look V.text (p.check V.text cache old).mirror (p.check V.text cache old).mirrorver = .byAge := by
  unfold Proc.check at hage ⊢
  cases hp : p.place with
  | read l => exact afterLook_age (by simpa [hp] using hage)
  | test l =>
    simp only [hp] at hage
    split at hage <;> cases l <;> cases hage
  | age l' =>
    simp only [hp] at hage
    split at hage <;> cases l' <;> cases hage
  | _ => simp [hp] at hage

theorem readCache_nil : readCache [] = ([], []) := rfl

/-- A cache that is refused is refused for its fields or for its age. -/
theorem look_of_refused {c : Text} (h : cachedMirror V.text (some c) old = none) :
    look V.text (readCache c).1 (readCache c).2 = .refused ∨
      look V.text (readCache c).1 (readCache c).2 = .byAge ∧ old = true := by
  cases c with
  | nil => exact .inl rfl
  | cons d c =>
    unfold cachedMirror at h
    simp only at h
    cases hlook : look V.text (readCache (d :: c)).1 (readCache (d :: c)).2 with
    | refused => exact .inl rfl
    | accepted => simp [hlook] at h
    | byAge => exact .inr ⟨rfl, by simpa [hlook] using h⟩

/-- Nothing is accepted of a cache that is refused. -/
theorem check_refused (href : cachedMirror V.text cache old = none) (hearly : p.place.early = true)
    (hthere : ∀ l, p.place = .read l → cache.isSome = true) (hold : ∀ l, p.place = .age l → old = true) :
    (p.check V.text cache old).place.early = true ∧ ∀ l, (p.check V.text cache old).place = .age l →
      cache.map readCache = some ((p.check V.text cache old).mirror, (p.check V.text cache old).mirrorver) := by
  unfold Proc.check
  cases hp : p.place with
  | test l =>
    simp only
    split
    · exact ⟨failed_early, fun l' h => by cases l <;> cases h⟩
    · exact ⟨rfl, fun l' h => by cases h⟩
  | read l =>
    obtain ⟨c, rfl⟩ := Option.isSome_iff_exists.1 (hthere l hp)
    refine ⟨?_, fun _ _ => rfl⟩
    rcases look_of_refused href with hlook | ⟨hlook, -⟩
    · simp [Proc.reads, hlook, afterLook]
    · simp [Proc.reads, hlook, afterLook, Place.early]
  | age l =>
    simp only [hold l hp, if_true]
    exact ⟨failed_early, fun l' h => by cases l <;> cases h⟩
  | _ =>
    refine ⟨hearly, fun l h => ?_⟩
    simp [hp] at h

/-- With the mirror in the cache no check fails, and what succeeds has read it. -/
theorem check_found {m : Text} (hm : Usable m) (hage : ∀ l, p.place = .age l → p.mirror = m) {locked : Bool}
    (hplace : p.place = .test locked ∨ p.place = .read locked ∨ p.place = .age locked) :
    let p' := p.check V.text (some (cacheLine m V.text)) false
    p'.place = .read locked ∨ p'.place = .age locked ∨ p'.place = succeeded locked ∧ p'.mirror = m := by
  unfold Proc.check
  rcases hplace with hp | hp | hp
  · simp [hp, cacheLine]
  · simp [hp, Proc.reads, readCache_cacheLine hm V, look_version hm V, afterLook]
  · simp [hp, hage locked hp]

end

/-! ## The stages of a run -/

/-- Who is to look at the age has read what is in the cache. -/
def Proc.HasRead (cache : Option Text) (p : Proc) : Prop :=
  ∀ l, p.place = .age l → cache.map readCache = some (p.mirror, p.mirrorver)

def Proc.Looked (V : Version) (p : Proc) : Prop := ∀ l, p.place = .age l → look V.text p.mirror p.mirrorver = .byAge

section
variable {ι : Type} (V : Version) (s : Procs ι)

/-- The cache is as it was, and `cached_mirror` refuses it. -/
structure Refused : Prop where
  refused : cachedMirror V.text s.cache s.old = none
  read : ∀ i, (s.proc i).HasRead s.cache

/-- No process has probed. -/
structure Waiting : Prop extends Refused V s where
  none : s.probed = []
  early : ∀ i, (s.proc i).place.early = true

/-- Process `j` has found `m` and is about to write it. -/
structure Writing (j : ι) (m : Text) : Prop where
  one : s.probed = [(j, some m)]
  usable : Usable m
  var : (s.proc j).mirror = m
  place : (s.proc j).place = .truncate ∧ Refused V s ∨ (s.proc j).place = .write ∧ s.cache = some []
  early : ∀ i, i ≠ j → (s.proc i).place.early = true

/-- The cache has the mirror `m`. -/
structure Settled (j : ι) (m : Text) : Prop where
  one : s.probed = [(j, some m)]
  usable : Usable m
  cache : s.cache = some (cacheLine m V.text)
  old : s.old = false
  var : ∀ i, (s.proc i).place = .close ∨ (s.proc i).place = .ready → (s.proc i).mirror = m
  place : ∀ i, (s.proc i).place ≠ .probe ∧ (s.proc i).place ≠ .truncate ∧ (s.proc i).place ≠ .write

/-- What holds in every stage. -/
structure Base : Prop where
  holds : ∀ i, (s.proc i).place.inside = true → s.holder = some i
  there : ∀ i l, (s.proc i).place = .read l → s.cache.isSome = true
  looked : ∀ i, (s.proc i).Looked V

structure Inv : Prop extends Base V s where
  stage : Waiting V s ∨ (∃ j m, Writing V s j m) ∨ ∃ j m, Settled V s j m

variable {V s} {i : ι}

theorem inv_init {cache : Option Text} {old : Bool} (h : cachedMirror V.text cache old = none) :
    Inv V (Procs.init cache old : Procs ι) where
  holds i hi := by cases hi
  there i l hi := by cases hi
  looked i l hi := by cases hi
  stage := .inl ⟨⟨h, fun i l hi => by cases hi⟩, rfl, fun i => rfl⟩

/-- The age is looked at only of an old cache, while it is refused. -/
theorem Refused.old (h : Refused V s) (hlook : (s.proc i).Looked V) {l : Bool} (hi : (s.proc i).place = .age l) :
    s.old = true := by
  have href := h.refused
  have hbyAge := hlook l hi
  obtain ⟨c, hc, hcache⟩ := Option.map_eq_some_iff.1 (h.read i l hi)
  rw [hc] at href
  rcases look_of_refused href with hno | ⟨-, hold⟩
  · rw [hcache] at hno
    rw [hno] at hbyAge
    cases hbyAge
  · exact hold

end

theorem forall_upd {ι α : Type} [DecidableEq ι] {Q : ι → α → Prop} {f : ι → α} {i : ι} {a : α}
    (h : ∀ k, k ≠ i → Q k (f k)) (hi : Q i a) : ∀ k, Q k (upd f i a k) := by
  intro k
  by_cases hk : k = i
  · subst hk
    rwa [upd_same]
  · rw [upd_ne _ _ _ _ hk]
    exact h k hk

@[simp] theorem upd_upd {ι α : Type} [DecidableEq ι] (f : ι → α) (i : ι) (a b : α) :
    upd (upd f i a) i b = upd f i b := by
  funext k
  by_cases hk : k = i <;> simp [upd, hk]

section
variable {V : Version} {s s' : Procs ι} {i j : ι} {m : Text} {o : Probe}

/-- A process leaves the cache as it is. -/
theorem Refused.upd (h : Refused V s) {p : Proc} (hp : p.HasRead s.cache) (holder : Option ι)
    (probed : List (ι × Option Text)) : Refused V ⟨s.cache, s.old, holder, Shell.upd s.proc i p, probed⟩ where
  refused := h.refused
  read := forall_upd (fun k _ => h.read k) hp

/-- `exec 201>> download/Mirror-Cache` -/
theorem Refused.opening (h : Refused V s) :
    Refused V ⟨some (s.cache.getD []), s.old && s.cache.isSome, s.holder,
      Shell.upd s.proc i { s.proc i with place := .flock }, s.probed⟩ := by
  cases hc : s.cache with
  | some c =>
    have hsame := h.upd (i := i) (p := { s.proc i with place := .flock }) (fun l hl => by cases hl) s.holder s.probed
    simpa [hc] using hsame
  | none =>
    have hread : ∀ k, k ≠ i → (s.proc k).HasRead (some []) := by
      intro k _ l hk
      have hread := h.read k l hk
      simp [hc] at hread
    exact ⟨rfl, forall_upd hread fun l hl => by cases hl⟩

theorem Base.upd (h : Base V s) {p : Proc} {cache : Option Text} {holder : Option ι} (old : Bool)
    (probed : List (ι × Option Text)) (hcache : s.cache.isSome = true → cache.isSome = true)
    (hholder : ∀ k, k ≠ i → s.holder = some k → holder = some k) (hin : p.place.inside = true → holder = some i)
    (hthere : ∀ l, p.place = .read l → cache.isSome = true) (hlooked : p.Looked V) :
    Base V ⟨cache, old, holder, Shell.upd s.proc i p, probed⟩ where
  holds := forall_upd (Q := fun k (p : Proc) => p.place.inside = true → holder = some k)
    (fun k hk hin => hholder k hk (h.holds k hin)) hin
  there := forall_upd (Q := fun _ (p : Proc) => ∀ l, p.place = .read l → cache.isSome = true)
    (fun k _ l hl => hcache (h.there k l hl)) hthere
  looked := forall_upd (fun k _ => h.looked k) hlooked

/-- The three steps of `cached_mirror`. -/
theorem step_check {l : Bool}
    (hp : (s.proc i).place = .test l ∨ (s.proc i).place = .read l ∨ (s.proc i).place = .age l) :
    step V.text s (i, o) =
      some { s with proc := Shell.upd s.proc i ((s.proc i).check V.text s.cache s.old) } := by
  unfold step
  rcases hp with hp | hp | hp <;> simp [hp]

theorem check_there {p : Proc} {cache : Option Text} {old l : Bool}
    (h : (p.check V.text cache old).place = .read l) : p.place = .test l ∧ cache.isSome = true ∨
      p.place = .read l := by
  unfold Proc.check at h
  cases hp : p.place with
  | test l' =>
    simp only [hp] at h
    split at h
    · cases l' <;> cases h
    · next hne =>
      cases h
      refine .inl ⟨rfl, ?_⟩
      cases cache with
      | none => exact absurd rfl hne
      | some c => rfl
  | read l' =>
    simp only [hp] at h
    generalize look _ _ _ = x at h
    cases x <;> cases l' <;> cases h
  | age l' =>
    simp only [hp] at h
    split at h <;> cases l' <;> cases h
  | _ => simp [hp] at h

theorem base_check (h : Base V s) :
    Base V { s with proc := Shell.upd s.proc i ((s.proc i).check V.text s.cache s.old) } := by
  apply h.upd s.old s.probed id fun _ _ h => h
  · intro hin
    rw [check_inside] at hin
    exact h.holds i hin
  · intro l hl
    rcases check_there hl with ⟨-, hsome⟩ | hread
    · exact hsome
    · exact h.there i l hread
  · exact fun l hl => check_looked hl

theorem base_step (h : Base V s) (hs : step V.text s (i, o) = some s') : Base V s' := by
  have hnot : ∀ {p : Proc} {place : Place}, p.place = place → (∀ l, place ≠ .age l) → p.Looked V := by
    intro p place hp hne l hl
    exact absurd (hp.symm.trans hl) (hne l)
  have hinside : (s.proc i).place.inside = true → ∀ k, k ≠ i → s.holder ≠ some k := by
    intro hin k hk hholder
    rw [h.holds i hin] at hholder
    exact hk (Option.some.inj hholder).symm
  unfold step at hs
  cases hp : (s.proc i).place with
  | test l =>
    simp only [hp, Option.some.injEq] at hs
    exact hs ▸ base_check h
  | read l =>
    simp only [hp, Option.some.injEq] at hs
    exact hs ▸ base_check h
  | age l =>
    simp only [hp, Option.some.injEq] at hs
    exact hs ▸ base_check h
  | opening =>
    simp only [hp, Option.some.injEq] at hs
    subst hs
    exact h.upd _ _ (fun _ => rfl) (fun _ _ h => h) (fun hin => by cases hin) (fun l hl => by cases hl)
      (hnot rfl (by simp))
  | flock =>
    simp only [hp] at hs
    split at hs
    · next hfree =>
      cases hs
      exact h.upd _ _ id (fun k _ hk => by simp [hfree] at hk) (fun _ => rfl) (fun l hl => by cases hl)
        (hnot rfl (by simp))
    · cases hs
  | probe =>
    simp only [hp, Option.some.injEq] at hs
    subst hs
    exact h.upd _ _ id (fun _ _ h => h) (fun _ => h.holds i (by simp [hp, Place.inside])) (fun l hl => by cases hl)
      (hnot rfl (by simp))
  | truncate =>
    simp only [hp, Option.some.injEq] at hs
    subst hs
    exact h.upd _ _ (fun _ => rfl) (fun _ _ h => h) (fun _ => h.holds i (by simp [hp, Place.inside]))
      (fun l hl => by cases hl) (hnot rfl (by simp))
  | write =>
    simp only [hp, Option.some.injEq] at hs
    subst hs
    exact h.upd _ _ (fun _ => rfl) (fun _ _ h => h) (fun _ => h.holds i (by simp [hp, Place.inside]))
      (fun l hl => by cases hl) (hnot rfl (by simp))
  | close =>
    simp only [hp, Option.some.injEq] at hs
    subst hs
    exact h.upd _ _ id (fun k hk hholder => absurd hholder (hinside (by simp [hp, Place.inside]) k hk))
      (fun hin => by cases hin) (fun l hl => by cases hl) (hnot rfl (by simp))
  | ready =>
    simp only [hp, Option.some.injEq] at hs
    subst hs
    have hplace : ((s.proc i).reads s.cache).place = .ready := by simp [hp]
    have hout : ((s.proc i).reads s.cache).place.inside = true → s.holder = some i := by
      intro hin
      rw [hplace] at hin
      cases hin
    exact h.upd _ _ id (fun _ _ h => h) hout (fun l hl => nomatch hplace.symm.trans hl) (hnot hplace (by simp))

/-- A check while the cache is refused. -/
theorem Refused.check (h : Refused V s) (hb : Base V s) (hearly : (s.proc i).place.early = true) :
    let p := (s.proc i).check V.text s.cache s.old
    p.place.early = true ∧ Refused V { s with proc := Shell.upd s.proc i p } := by
  obtain ⟨hplace, hread⟩ := check_refused h.refused hearly (hb.there i) fun l hl => h.old (hb.looked i) hl
  exact ⟨hplace, h.upd hread s.holder s.probed⟩

theorem waiting_step (h : Waiting V s) (hb : Base V s) (hc : Clean s (i, o)) (hs : step V.text s (i, o) = some s') :
    Waiting V s' ∨ ∃ m, Writing V s' i m := by
  have hearly := h.early i
  have hcheck : ∀ {l}, (s.proc i).place = .test l ∨ (s.proc i).place = .read l ∨ (s.proc i).place = .age l →
      Waiting V s' := by
    intro l hp
    rw [step_check hp] at hs
    cases hs
    obtain ⟨hplace, href⟩ := h.toRefused.check hb hearly
    exact ⟨href, h.none, forall_upd (Q := fun _ (p : Proc) => p.place.early = true) (fun k _ => h.early k) hplace⟩
  cases hp : (s.proc i).place with
  | test l => exact .inl (hcheck (.inl hp))
  | read l => exact .inl (hcheck (.inr (.inl hp)))
  | age l => exact .inl (hcheck (.inr (.inr hp)))
  | opening =>
    simp only [step, hp, Option.some.injEq] at hs
    subst hs
    exact .inl ⟨h.toRefused.opening, h.none,
      forall_upd (Q := fun _ (p : Proc) => p.place.early = true) (fun k _ => h.early k) rfl⟩
  | flock =>
    simp only [step, hp] at hs
    split at hs <;> cases hs
    exact .inl ⟨h.toRefused.upd (fun l hl => by cases hl) _ _, h.none,
      forall_upd (Q := fun _ (p : Proc) => p.place.early = true) (fun k _ => h.early k) rfl⟩
  | probe =>
    -- what it has found is what the outside has, whatever the variable was
    simp only [step, hp, Option.some.injEq] at hs
    subst hs
    simp only [Clean, hp] at hc
    obtain ⟨⟨m, n⟩, hfast, hm⟩ := (Option.any_eq_true _ _).1 hc
    have hdetect : detect o (s.proc i).mirror = ⟨n, m, some m⟩ := by rw [detect_eq, hfast, Best.of]
    refine .inr ⟨m, ?_, of_decide_eq_true hm, ?_, .inl ⟨?_, ?_⟩, ?_⟩
    · simp [h.none, hdetect]
    · simp [hdetect]
    · simp
    · exact h.toRefused.upd (fun l hl => by cases hl) _ _
    · intro k hk
      simpa [hk] using h.early k
  | _ => simp [hp, Place.early] at hearly

theorem writing_step (h : Writing V s j m) (hb : Base V s) (hc : Clean s (i, o))
    (hs : step V.text s (i, o) = some s') : Writing V s' j m ∨ Settled V s' j m := by
  have hholder : s.holder = some j := by
    apply hb.holds
    rcases h.place with ⟨hp, -⟩ | ⟨hp, -⟩ <;> rw [hp] <;> rfl
  by_cases hij : i = j
  · subst hij
    rcases h.place with ⟨hp, -⟩ | ⟨hp, -⟩
    · simp only [step, hp, Option.some.injEq] at hs
      subst hs
      refine .inl ⟨h.one, h.usable, by simp [h.var], .inr ⟨by simp, rfl⟩, ?_⟩
      intro k hk
      simpa [hk] using h.early k hk
    · simp only [step, hp, Option.some.injEq, h.var] at hs
      subst hs
      refine .inr ⟨h.one, h.usable, rfl, rfl, ?_, ?_⟩
      · intro k hk
        by_cases hki : k = i
        · simp [hki]
        · have hearly := h.early k hki
          simp only [upd_ne _ _ _ _ hki] at hk
          rcases hk with hk | hk <;> rw [hk] at hearly <;> cases hearly
      · intro k
        by_cases hki : k = i
        · simp [hki]
        · have hearly := h.early k hki
          have hprobe : (s.proc k).place ≠ .probe := by
            intro hk
            have hhold := hb.holds k (by rw [hk]; rfl)
            rw [hholder] at hhold
            exact hki (Option.some.inj hhold).symm
          simp only [upd_ne _ _ _ _ hki]
          refine ⟨hprobe, ?_, ?_⟩ <;> rintro hk <;> rw [hk] at hearly <;> cases hearly
  · have hearly := h.early i hij
    have hji : j ≠ i := Ne.symm hij
    have hout : (s.proc i).place.inside = false := by
      cases hin : (s.proc i).place.inside with
      | false => rfl
      | true =>
        have hhold := hb.holds i hin
        rw [hholder] at hhold
        exact absurd (Option.some.inj hhold) hji
    have hother : ∀ {p : Proc}, p.place.early = true → ∀ k, k ≠ j → (Shell.upd s.proc i p k).place.early = true := by
      intro p hplace
      exact forall_upd (Q := fun k (p : Proc) => k ≠ j → p.place.early = true) (fun k _ => h.early k) fun _ => hplace
    have hcheck : ∀ {l}, (s.proc i).place = .test l ∨ (s.proc i).place = .read l ∨ (s.proc i).place = .age l →
        Writing V s' j m := by
      intro l hp
      have hplace := h.place
      rw [step_check hp] at hs
      cases hs
      rcases hplace with ⟨hj, href⟩ | ⟨hj, hempty⟩
      · obtain ⟨hnew, href'⟩ := href.check hb hearly
        exact ⟨h.one, h.usable, by simp [hji, h.var], .inl ⟨by simp [hji, hj], href'⟩, hother hnew⟩
      · -- who looks at the age now has read what is no longer there
        have hage : ∀ l, (s.proc i).place = .age l → s.old = true := by
          intro l hl
          have hlook := hb.looked i l hl
          simp only [Clean, hl, hempty, Option.map_some, readCache_nil, Option.some.injEq] at hc
          rw [← hc] at hlook
          cases hlook
        have hnew := (check_refused (V := V) (by rw [hempty]; rfl) hearly (hb.there i) hage).1
        exact ⟨h.one, h.usable, by simp [hji, h.var], .inr ⟨by simp [hji, hj], hempty⟩, hother hnew⟩
    cases hp : (s.proc i).place with
    | test l => exact .inl (hcheck (.inl hp))
    | read l => exact .inl (hcheck (.inr (.inl hp)))
    | age l => exact .inl (hcheck (.inr (.inr hp)))
    | opening =>
      simp only [step, hp, Option.some.injEq] at hs
      subst hs
      refine .inl ⟨h.one, h.usable, by simp [hji, h.var], ?_, hother rfl⟩
      rcases h.place with ⟨hj, href⟩ | ⟨hj, hempty⟩
      · exact .inl ⟨by simp [hji, hj], href.opening⟩
      · exact .inr ⟨by simp [hji, hj], by simp [hempty]⟩
    | flock => simp [step, hp, hholder] at hs
    | _ => simp [hp, Place.early, Place.inside] at hearly hout

theorem settled_step (h : Settled V s j m) (hc : Clean s (i, o)) (hs : step V.text s (i, o) = some s') :
    Settled V s' j m := by
  -- a process that moves on keeps what every place asks of it
  have hnext : ∀ {p : Proc} (holder : Option ι), (p.place = .close ∨ p.place = .ready → p.mirror = m) →
      p.place ≠ .probe ∧ p.place ≠ .truncate ∧ p.place ≠ .write →
      Settled V ⟨s.cache, s.old, holder, Shell.upd s.proc i p, s.probed⟩ j m := by
    intro p holder hvar hplace
    exact ⟨h.one, h.usable, h.cache, h.old,
      forall_upd (Q := fun _ (p : Proc) => p.place = .close ∨ p.place = .ready → p.mirror = m)
        (fun k _ => h.var k) hvar,
      forall_upd (Q := fun _ (p : Proc) => p.place ≠ .probe ∧ p.place ≠ .truncate ∧ p.place ≠ .write)
        (fun k _ => h.place k) hplace⟩
  have hcheck : ∀ {l}, (s.proc i).place = .test l ∨ (s.proc i).place = .read l ∨ (s.proc i).place = .age l →
      Settled V s' j m := by
    intro l hp
    have hage : ∀ l, (s.proc i).place = .age l → (s.proc i).mirror = m := by
      intro l hl
      simp only [Clean, hl, h.cache, Option.map_some, readCache_cacheLine h.usable V, Option.some.injEq] at hc
      exact hc.symm
    have hfound := check_found (V := V) h.usable hage hp
    rw [step_check hp, h.cache, h.old] at hs
    cases hs
    rw [← h.old, ← h.cache] at hfound ⊢
    apply hnext
    · rintro hend
      rcases hfound with hf | hf | ⟨-, hf⟩
      · rcases hend with he | he <;> cases hf.symm.trans he
      · rcases hend with he | he <;> cases hf.symm.trans he
      · exact hf
    · rcases hfound with hf | hf | ⟨hf, -⟩
      · simp [hf]
      · simp [hf]
      · cases l <;> simp [hf, succeeded]
  cases hp : (s.proc i).place with
  | test l => exact hcheck (.inl hp)
  | read l => exact hcheck (.inr (.inl hp))
  | age l => exact hcheck (.inr (.inr hp))
  | opening =>
    simp only [step, hp, Option.some.injEq] at hs
    subst hs
    have hsame := hnext (p := { s.proc i with place := .flock }) s.holder (by simp) (by simp)
    simpa [h.cache, h.old] using hsame
  | flock =>
    simp only [step, hp] at hs
    split at hs <;> cases hs
    exact hnext _ (by simp) (by simp)
  | close =>
    simp only [step, hp, Option.some.injEq] at hs
    subst hs
    exact hnext _ (fun _ => h.var i (.inl hp)) (by simp)
  | ready =>
    simp only [step, hp, Option.some.injEq] at hs
    subst hs
    apply hnext
    · intro _
      simp [h.cache, Proc.reads, readCache_cacheLine h.usable V]
    · simp [hp]
  | probe => exact absurd hp (h.place i).1
  | truncate => exact absurd hp (h.place i).2.1
  | write => exact absurd hp (h.place i).2.2

theorem inv_step (h : Inv V s) (hc : Clean s (i, o)) (hs : step V.text s (i, o) = some s') : Inv V s' := by
  refine ⟨base_step h.toBase hs, ?_⟩
  rcases h.stage with hw | ⟨j, m, hw⟩ | ⟨j, m, hd⟩
  · rcases waiting_step hw h.toBase hc hs with hw' | ⟨m, hw'⟩
    · exact .inl hw'
    · exact .inr (.inl ⟨i, m, hw'⟩)
  · rcases writing_step hw h.toBase hc hs with hw' | hd
    · exact .inr (.inl ⟨j, m, hw'⟩)
    · exact .inr (.inr ⟨j, m, hd⟩)
  · exact .inr (.inr ⟨j, m, settled_step hd hc hs⟩)

theorem agreed_of_inv (h : Inv V s) : Agreed V.text s := by
  rcases h.stage with hw | ⟨j, m, hw⟩ | ⟨j, m, hd⟩
  · refine ⟨by simp [hw.none], fun i hi => ?_⟩
    have hearly := hw.early i
    simp [hi, Place.early] at hearly
  · refine ⟨by simp [hw.one], fun i hi => ?_⟩
    by_cases hij : i = j
    · rcases hw.place with ⟨hp, -⟩ | ⟨hp, -⟩ <;> rw [hij, hp] at hi <;> cases hi
    · have hearly := hw.early i hij
      simp [hi, Place.early] at hearly
  · refine ⟨by simp [hd.one], fun i hi => ⟨j, some m, hd.one, ?_, ?_, ?_⟩⟩
    · rw [hd.var i (.inr hi), hd.usable.mirrorOf]
    · rw [hd.cache, hd.old, cachedMirror_cacheLine hd.usable, Option.map_some, hd.usable.mirrorOf]
    · rw [hd.cache, Option.map_some, readCache_cacheLine hd.usable, hd.usable.mirrorOf]

/-- **One process detects the mirror for all**, in every run in which the probes find one. -/
theorem detected_once {cache : Option Text} {old : Bool} (hcache : cachedMirror V.text cache old = none)
    {acts : List (ι × Probe)} (hclean : Lts.Along (step V.text) Clean (Procs.init cache old) acts)
    (hrun : Lts.run (step V.text) (Procs.init cache old) acts = some s) : Agreed V.text s :=
  agreed_of_inv (Lts.run_inv_along (fun _ _ _ h hc hs => inv_step h hc hs) (inv_init hcache) hclean hrun)

end

/-- `sdever=26-svn` -/
def sdever : Version := ⟨"26-svn".toList, by decide, by decide⟩

/-- A list with two mirrors, of which the second is the faster one. -/
def twoMirrors : Probe where
  list := "= A =\nhttp://a/\n= B =\nhttp://b/\n".toList
  me := []
  speeds k := (["ok 20", "ok 300"].getD k "").toList

/-- The second process is at the lock when the first one probes, and finds what it has written. -/
def overlap (o : Probe) : List (Bool × Probe) :=
  List.replicate 3 (false, o) ++ List.replicate 3 (true, o) ++ List.replicate 7 (false, o) ++
    List.replicate 5 (true, o) ++ [(false, o)]

theorem detected_once_overlap :
    ∃ s, Lts.run (step sdever.text) (Procs.init (some "http://c 25\n".toList) false) (overlap twoMirrors) = some s ∧
      (∀ i, (s.proc i).place = .ready ∧ mirrorOf (s.proc i).mirror = some "http://b".toList) ∧
      Agreed sdever.text s := by
  have hrun : (Lts.run (step sdever.text) (Procs.init (some "http://c 25\n".toList) false)
      (overlap twoMirrors)).any (fun s => ∀ i, (s.proc i).place = .ready ∧
        mirrorOf (s.proc i).mirror = some "http://b".toList) = true := by decide +kernel
  obtain ⟨s, hs, hboth⟩ := (Option.any_eq_true _ _).1 hrun
  exact ⟨s, hs, by simpa using hboth, detected_once (by decide +kernel) (by decide +kernel) hs⟩

/-- **Without a mirror to be found there is none to agree on**: a process alone with an empty cache refuses what it
has written itself, and `download_file` asks the version. -/
theorem alone_disagrees (V : Version) (hV : V.text ≠ "none".toList) (i : ι) (o : Probe) (ho : o.fastest = none) :
    ∃ s, Lts.run (step V.text) (Procs.init none false) (List.replicate 8 (i, o)) = some s ∧
      (s.proc i).place = .ready ∧ ¬Agreed V.text s := by
  have hdetect : detect o [] = ⟨0, [], none⟩ := by rw [detect_eq, ho, Best.of]
  have hrun : Lts.run (step V.text) (Procs.init none false) (List.replicate 8 (i, o)) =
      some ⟨some (cacheLine [] V.text), false, none, upd (fun _ => ⟨.test false, [], []⟩) i ⟨.ready, [], []⟩,
        [(i, none)]⟩ := by
    simp [List.replicate_succ, step, Procs.init, Proc.check, failed, hdetect]
  refine ⟨_, hrun, by simp, fun hagreed => ?_⟩
  obtain ⟨j, r, -, -, hcached, -⟩ := hagreed.same i (by simp)
  rw [(mirrorless_cacheLine V hV _).1] at hcached
  cases hcached

/-- curl brings nothing. -/
def noMirror : Probe := ⟨[], [], fun _ => []⟩

/-- Two processes, an empty cache and no mirror: both probe, and the first one then asks `26-svn` for its files. -/
theorem detected_twice :
    ∃ acts s, Lts.run (step sdever.text) (Procs.init none false) acts = some s ∧
      s.probed = [(false, none), (true, none)] ∧ mirrorOf (s.proc false).mirror = some "26-svn".toList ∧
      ¬Agreed sdever.text s := by
  refine ⟨List.replicate 9 (false, noMirror) ++ List.replicate 7 (true, noMirror), ?_⟩
  have hrun : (Lts.run (step sdever.text) (Procs.init none false)
      (List.replicate 9 (false, noMirror) ++ List.replicate 7 (true, noMirror))).any (fun s =>
        s.probed = [(false, none), (true, none)] ∧ mirrorOf (s.proc false).mirror = some "26-svn".toList) = true := by
    decide +kernel
  obtain ⟨s, hs, hboth⟩ := (Option.any_eq_true _ _).1 hrun
  obtain ⟨hprobed, hmirror⟩ : s.probed = [(false, none), (true, none)] ∧
      mirrorOf (s.proc false).mirror = some "26-svn".toList := by simpa using hboth
  exact ⟨s, hs, hprobed, hmirror, fun hagreed => by simpa [hprobed] using hagreed.once⟩

end T2Sde.Download.MirrorCache
