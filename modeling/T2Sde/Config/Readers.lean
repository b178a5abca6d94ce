import T2Sde.Config.Model
/-!
# What a read of the configuration gets

A read that does not overlap the time in which `scripts/Config` holds its lock gets a version of the file that
some finished run has written. The shared lock is one way to that; so is a file that the run does not write. Any
other read can get a file that is emptied and not yet written again, at each of the sites without the lock.
-/
namespace T2Sde.Config
open Shell

section
variable {ι : Type} {site : ι → Site} {i : ι} {s s' : Sys ι}

/-- The read `i`, if it takes no lock, does not overlap the time in which `scripts/Config` holds its lock. -/
def Outside (site : ι → Site) (i : ι) (s : Sys ι) : Act ι → Prop
  | .lock => (site i).locked = true ∨ (s.readers i).underWay = false
  | .start j => j = i → (site i).locked = true ∨ s.writer.holds = false
  | _ => True

/-- `Outside`, unless the run does not write the file. -/
def Clean (r : Run) (site : ι → Site) (i : ι) (s : Sys ι) (a : Act ι) : Prop :=
  r.Leaves (site i).file ∨ Outside site i s a

instance decidableOutside [DecidableEq ι] (site : ι → Site) (i : ι) (s : Sys ι) :
    (a : Act ι) → Decidable (Outside site i s a)
  | .lock => inferInstanceAs (Decidable (_ ∨ _))
  | .start j => inferInstanceAs (Decidable (j = i → _ ∨ _))
  | .write | .unlock | .read .. => .isTrue trivial

instance [DecidableEq ι] (r : Run) (site : ι → Site) (i : ι) (s : Sys ι) (a : Act ι) : Decidable (Clean r site i s a) :=
  inferInstanceAs (Decidable (_ ∨ _))

/-- While the read is under way nobody writes, and it has got the beginning of the file. -/
structure Safe (site : ι → Site) (i : ι) (s : Sys ι) : Prop where
  settled : s.writer.holds = false → s.files ∈ s.versions
  alone : ∀ got, s.readers i = .reading got → s.writer.holds = false
  prefix' : ∀ got, s.readers i = .reading got → got <+: s.files (site i).file
  held : ∀ got, s.readers i = .reading got → (site i).locked = true → i ∈ s.shared
  complete : ∀ got, s.readers i = .finished got → ∃ v ∈ s.versions, got = v (site i).file

theorem safe_init (site : ι → Site) (i : ι) (files : File → Text) (r : Run) : Safe site i (Sys.init files r) where
  settled _ := List.mem_cons_self
  alone _ h := by cases h
  prefix' _ h := by cases h
  held _ h := by cases h
  complete _ h := by cases h

theorem safe_lock {ws : List Write} (h : Safe site i s)
    (hc : (site i).locked = true ∨ (s.readers i).underWay = false) (hshared : s.shared = []) :
    Safe site i { s with writer := .writing ws } := by
  have hidle : ∀ got, s.readers i ≠ .reading got := by
    intro got hr
    rcases hc with hl | hc
    · have := h.held got hr hl
      rw [hshared] at this
      exact absurd this (by simp)
    · rw [hr] at hc
      exact absurd hc (by simp [Reader.underWay])
  exact ⟨fun hw => absurd hw (by simp [Writer.holds]), fun got hr => absurd hr (hidle got),
    fun got hr => absurd hr (hidle got),
    fun got hr => absurd hr (hidle got), h.complete⟩

@[simp] theorem write_readers (s : Sys ι) (x : Write) : (s.write x).readers = s.readers := by cases x <;> rfl

@[simp] theorem write_versions (s : Sys ι) (x : Write) : (s.write x).versions = s.versions := by cases x <;> rfl

theorem safe_write {x : Write} {ws ws' : List Write} (h : Safe site i s) (hw : s.writer = .writing ws) :
    Safe site i { s.write x with writer := .writing ws' } := by
  have hidle : ∀ got, s.readers i ≠ .reading got := by
    intro got hr
    have := h.alone got hr
    rw [hw] at this
    cases this
  refine ⟨fun hh => absurd hh (by simp [Writer.holds]), fun got hr => ?_, fun got hr => ?_, fun got hr => ?_,
    fun got hr => ?_⟩
  · exact absurd (by simpa using hr) (hidle got)
  · exact absurd (by simpa using hr) (hidle got)
  · exact absurd (by simpa using hr) (hidle got)
  · simpa using h.complete got (by simpa using hr)

theorem safe_unlock (h : Safe site i s) :
    Safe site i { s with writer := .finished, versions := s.files :: s.versions } where
  settled _ := List.mem_cons_self
  alone _ _ := rfl
  prefix' := h.prefix'
  held := h.held
  complete got hr := by
    obtain ⟨v, hv, hgot⟩ := h.complete got hr
    exact ⟨v, List.mem_cons_of_mem _ hv, hgot⟩

variable [DecidableEq ι]

/-- A step of another read. -/
theorem safe_other {j : ι} {x : Reader} {shared : List ι} (h : Safe site i s) (hj : j ≠ i)
    (hshared : i ∈ s.shared → i ∈ shared) : Safe site i { s with readers := upd s.readers j x, shared := shared } := by
  have hsame : upd s.readers j x i = s.readers i := upd_ne _ _ _ _ (Ne.symm hj)
  refine ⟨h.settled, fun got hr => ?_, fun got hr => ?_, fun got hr hl => ?_, fun got hr => ?_⟩
  all_goals simp only [hsame] at hr
  · exact h.alone got hr
  · exact h.prefix' got hr
  · exact hshared (h.held got hr hl)
  · exact h.complete got hr

theorem safe_start {shared : List ι} (h : Safe site i s) (hw : s.writer.holds = false)
    (hshared : (site i).locked = true → i ∈ shared) :
    Safe site i { s with readers := upd s.readers i (.reading []), shared := shared } := by
  refine ⟨h.settled, fun got hr => hw, fun got hr => ?_, fun got hr => hshared, fun got hr => ?_⟩
  all_goals simp only [upd_same] at hr
  · cases hr
    exact List.nil_prefix
  · cases hr

theorem safe_more {got t : Text} {n : Nat} (h : Safe site i s) (hr : s.readers i = .reading got)
    (ht : ((s.files (site i).file).drop got.length).take (n + 1) = t) :
    Safe site i { s with readers := upd s.readers i (.reading (got ++ t)) } := by
  refine ⟨h.settled, fun _ _ => h.alone got hr, fun _ hr' => ?_, fun _ _ => h.held got hr, fun _ hr' => ?_⟩
  all_goals simp only [upd_same] at hr'
  · cases hr'
    obtain ⟨rest, hrest⟩ := h.prefix' got hr
    rw [← hrest, List.drop_left] at ht
    rw [← hrest, ← ht]
    exact (List.prefix_append_right_inj got).2 (List.take_prefix _ _)
  · cases hr'

theorem safe_end {got : Text} {n : Nat} {shared : List ι} (h : Safe site i s) (hr : s.readers i = .reading got)
    (ht : ((s.files (site i).file).drop got.length).take (n + 1) = []) :
    Safe site i { s with readers := upd s.readers i (.finished got), shared := shared } := by
  refine ⟨h.settled, fun _ hr' => ?_, fun _ hr' => ?_, fun _ hr' => ?_, fun _ hr' => ?_⟩
  all_goals simp only [upd_same] at hr'
  · cases hr'
  · cases hr'
  · cases hr'
  · cases hr'
    obtain ⟨rest, hrest⟩ := h.prefix' got hr
    rw [← hrest, List.drop_left] at ht
    have hnil : rest = [] := by simpa using ht
    rw [hnil, List.append_nil] at hrest
    exact ⟨s.files, h.settled (h.alone got hr), hrest⟩

theorem safe_step {a : Act ι} (h : Safe site i s) (hc : Outside site i s a) (hs : s.step site a = some s') :
    Safe site i s' := by
  cases a with
  | lock =>
    simp only [Sys.step] at hs
    split at hs
    · split at hs
      · rename_i hshared
        cases hs
        exact safe_lock h hc hshared
      · cases hs
    · cases hs
  | write =>
    simp only [Sys.step] at hs
    split at hs
    · rename_i hw
      cases hs
      exact safe_write h hw
    · cases hs
  | unlock =>
    simp only [Sys.step] at hs
    split at hs
    · cases hs
      exact safe_unlock h
    · cases hs
  | start j =>
    simp only [Sys.step, Sys.start] at hs
    split at hs
    · by_cases hj : j = i
      · subst hj
        split at hs
        · split at hs
          · cases hs
          · rename_i hw
            cases hs
            exact safe_start h (by simpa using hw) fun _ => List.mem_cons_self
        · rename_i hl
          cases hs
          exact safe_start h ((hc rfl).resolve_left hl) fun hl' => absurd hl' hl
      · split at hs
        · split at hs <;> cases hs
          exact safe_other h hj (List.mem_cons_of_mem _)
        · cases hs
          exact safe_other h hj id
    · cases hs
  | read j n =>
    simp only [Sys.step, Sys.read] at hs
    split at hs
    · rename_i got hr
      by_cases hj : j = i
      · subst hj
        split at hs
        · rename_i ht
          cases hs
          exact safe_end h hr ht
        · cases hs
          exact safe_more h hr rfl
      · split at hs <;> cases hs
        · exact safe_other h hj fun hm => (List.mem_erase_of_ne (Ne.symm hj)).2 hm
        · exact safe_other h hj id
    · cases hs

theorem safe_run {files : File → Text} {r : Run} {acts : List (Act ι)}
    (hout : Lts.Along (Sys.step site) (Outside site i) (Sys.init files r) acts)
    (hrun : Lts.run (Sys.step site) (Sys.init files r) acts = some s) : Safe site i s :=
  Lts.run_inv_along (fun _ _ _ h hc hs => safe_step h hc hs) (safe_init site i files r) hout hrun

/-! ## A file that the run does not write -/

/-- The file is as it was, and so is what has been read of it. -/
structure Left (site : ι → Site) (i : ι) (old : File → Text) (s : Sys ι) : Prop where
  rest : ∀ x ∈ s.writer.rest, x.target ≠ some (site i).file
  file : s.files (site i).file = old (site i).file
  version : old ∈ s.versions
  reading : ∀ got, s.readers i = .reading got → got <+: old (site i).file
  complete : ∀ got, s.readers i = .finished got → got = old (site i).file

omit [DecidableEq ι] in
theorem write_files {x : Write} {f : File} (hx : x.target ≠ some f) (s : Sys ι) : (s.write x).files f = s.files f := by
  have hne : ∀ g, some g ≠ some f → f ≠ g := fun g hg hf => hg (congrArg some hf.symm)
  cases x with
  | truncate g | append g _ => exact upd_ne _ _ _ _ (hne g hx)
  | appendTemp => exact upd_ne _ _ _ _ (hne .config hx)
  | setKey | rmTemp => rfl

/-- A step of a read, of this one or of another, keeps it too, if what it has got then is of the old file. -/
theorem left_upd {old : File → Text} {j : ι} {x : Reader} {shared : List ι} (h : Left site i old s)
    (hreading : j = i → ∀ got, x = .reading got → got <+: old (site i).file)
    (hfinished : j = i → ∀ got, x = .finished got → got = old (site i).file) :
    Left site i old { s with readers := upd s.readers j x, shared := shared } := by
  refine ⟨h.rest, h.file, h.version, fun got hr => ?_, fun got hr => ?_⟩
  all_goals
    by_cases hj : j = i
    · subst hj
      simp only [upd_same] at hr
      first | exact hreading rfl got hr | exact hfinished rfl got hr
    · simp only [upd_ne _ _ _ _ (Ne.symm hj)] at hr
      first | exact h.reading got hr | exact h.complete got hr

theorem left_step {old : File → Text} {a : Act ι} (h : Left site i old s) (hs : s.step site a = some s') :
    Left site i old s' := by
  cases a with
  | lock =>
    simp only [Sys.step] at hs
    split at hs
    · rename_i hw
      split at hs <;> cases hs
      exact { h with rest := by simpa [hw, Writer.rest] using h.rest }
    · cases hs
  | write =>
    simp only [Sys.step] at hs
    split at hs
    · rename_i x ws hw
      cases hs
      have hrest : ∀ y ∈ x :: ws, y.target ≠ some (site i).file := by simpa [hw, Writer.rest] using h.rest
      refine ⟨fun y hy => hrest y (List.mem_cons_of_mem _ hy), ?_, ?_, fun got hr => ?_, fun got hr => ?_⟩
      · exact (write_files (hrest x List.mem_cons_self) s).trans h.file
      · simpa using h.version
      · exact h.reading got (by simpa using hr)
      · exact h.complete got (by simpa using hr)
    · cases hs
  | unlock =>
    simp only [Sys.step] at hs
    split at hs
    · cases hs
      exact { h with rest := by simp [Writer.rest], version := List.mem_cons_of_mem _ h.version }
    · cases hs
  | start j =>
    have hstart : ∀ shared, Left site i old { s with readers := upd s.readers j (.reading []), shared := shared } := by
      refine fun shared => left_upd h (fun _ got hr => ?_) (fun _ got hr => ?_) <;> cases hr
      exact List.nil_prefix
    simp only [Sys.step, Sys.start] at hs
    split at hs
    · split at hs
      · split at hs <;> cases hs
        exact hstart _
      · cases hs
        exact hstart _
    · cases hs
  | read j n =>
    simp only [Sys.step, Sys.read] at hs
    split at hs
    · rename_i got hr
      have hgot : j = i → ∃ rest, got ++ rest = s.files (site j).file ∧ got ++ rest = old (site i).file := by
        rintro rfl
        obtain ⟨rest, hrest⟩ := h.reading got hr
        exact ⟨rest, hrest.trans h.file.symm, hrest⟩
      split at hs
      · rename_i ht
        cases hs
        refine left_upd h (fun _ got' hr' => ?_) (fun hj got' hr' => ?_) <;> cases hr'
        obtain ⟨rest, hnow, hold⟩ := hgot hj
        rw [← hnow, List.drop_left] at ht
        have hnil : rest = [] := by simpa using ht
        rw [← hold, hnil, List.append_nil]
      · cases hs
        refine left_upd h (fun hj got' hr' => ?_) (fun _ got' hr' => ?_) <;> cases hr'
        obtain ⟨rest, hnow, hold⟩ := hgot hj
        rw [← hnow, List.drop_left, ← hold]
        exact (List.prefix_append_right_inj got).2 (List.take_prefix _ _)
    · cases hs

theorem left_run {files : File → Text} {r : Run} {acts : List (Act ι)} (hleaves : r.Leaves (site i).file)
    (hrun : Lts.run (Sys.step site) (Sys.init files r) acts = some s) : Left site i files s :=
  Lts.run_inv (fun _ _ _ h hs => left_step h hs)
    (show Left site i files (Sys.init files r) from
      ⟨hleaves, rfl, List.mem_cons_self, fun _ h => (by cases h), fun _ h => (by cases h)⟩) hrun

/-- **A read that takes the shared lock, or does not overlap the time in which `scripts/Config` holds its lock, or is of
a file that the run does not write, gets what a finished run has written**, in every interleaving with the run and any
other reads. -/
theorem complete_read {files : File → Text} {r : Run} {acts : List (Act ι)} {got : Text}
    (hclean : Lts.Along (Sys.step site) (Clean r site i) (Sys.init files r) acts)
    (hrun : Lts.run (Sys.step site) (Sys.init files r) acts = some s) (hgot : s.readers i = .finished got) :
    ∃ v ∈ s.versions, got = v (site i).file := by
  by_cases hleaves : r.Leaves (site i).file
  · have hleft := left_run hleaves hrun
    exact ⟨files, hleft.version, hleft.complete got hgot⟩
  · have hout := Lts.along_imp (fun _ _ h => h.resolve_left hleaves) hclean
    exact (safe_run hout hrun).complete got hgot

/-- The shared lock alone is enough. -/
theorem complete_locked {files : File → Text} {r : Run} {acts : List (Act ι)} {got : Text}
    (hl : (site i).locked = true) (hrun : Lts.run (Sys.step site) (Sys.init files r) acts = some s)
    (hgot : s.readers i = .finished got) : ∃ v ∈ s.versions, got = v (site i).file := by
  have hout : ∀ (s : Sys ι) (a : Act ι), True → Outside site i s a := by
    rintro s (_ | _ | _ | j | ⟨j, n⟩) -
    · exact .inl hl
    · trivial
    · trivial
    · exact fun _ => .inl hl
    · trivial
  have halong : Lts.Along (Sys.step site) (Outside site i) (Sys.init files r) acts :=
    Lts.along_of_inv (I := fun _ => True) (fun _ _ _ _ _ => trivial) hout trivial acts
  exact (safe_run halong hrun).complete got hgot

/-- Beside `key=value` a read of the package list needs no lock. -/
theorem packages_kept {files : File → Text} {other : Text → Text → Text} {xs : List Text} {acts : List (Act ι)}
    {got : Text} (hfile : (site i).file = .packages)
    (hrun : Lts.run (Sys.step site) (Sys.init files (.keyValue other xs)) acts = some s)
    (hgot : s.readers i = .finished got) : got = files .packages := by
  have hleaves : (Run.keyValue other xs).Leaves (site i).file := hfile ▸ keyValue_leaves other xs
  rw [← hfile]
  exact (left_run hleaves hrun).complete got hgot

/-! ## The versions are the old and the new configuration -/

def Recorded (old : File → Text) (s : Sys ι) : Prop :=
  match s.writer with
  | .waiting _ => s.files = old ∧ s.versions = [old]
  | .writing _ => s.versions = [old]
  | .finished => s.versions = [s.files, old]

omit [DecidableEq ι] in
theorem recorded_congr {old : File → Text} (h : Recorded old s) (hw : s'.writer = s.writer)
    (hf : s'.files = s.files) (hv : s'.versions = s.versions) : Recorded old s' := by
  unfold Recorded at *
  rw [hw, hf, hv]
  exact h

theorem recorded_step {old : File → Text} {a : Act ι} (h : Recorded old s) (hs : s.step site a = some s') :
    Recorded old s' := by
  cases a with
  | lock =>
    simp only [Sys.step] at hs
    split at hs
    · rename_i hw
      split at hs <;> cases hs
      have hold : s.files = old ∧ s.versions = [old] := by simpa [Recorded, hw] using h
      exact hold.2
    · cases hs
  | write =>
    simp only [Sys.step] at hs
    split at hs
    · rename_i x ws hw
      cases hs
      have hold : s.versions = [old] := by simpa [Recorded, hw] using h
      show (s.write x).versions = [old]
      rw [write_versions, hold]
    · cases hs
  | unlock =>
    simp only [Sys.step] at hs
    split at hs
    · rename_i hw
      cases hs
      have hold : s.versions = [old] := by simpa [Recorded, hw] using h
      show s.files :: s.versions = [s.files, old]
      rw [hold]
    · cases hs
  | start j =>
    simp only [Sys.step, Sys.start] at hs
    split at hs
    · split at hs
      · split at hs <;> cases hs
        exact recorded_congr h rfl rfl rfl
      · cases hs
        exact recorded_congr h rfl rfl rfl
    · cases hs
  | read j n =>
    simp only [Sys.step, Sys.read] at hs
    split at hs
    · split at hs <;> cases hs
      · exact recorded_congr h rfl rfl rfl
      · exact recorded_congr h rfl rfl rfl
    · cases hs

theorem recorded_run {files : File → Text} {r : Run} {acts : List (Act ι)}
    (hrun : Lts.run (Sys.step site) (Sys.init files r) acts = some s) : Recorded files s :=
  Lts.run_inv (fun _ _ _ h hs => recorded_step h hs) (show Recorded files (Sys.init files r) from ⟨rfl, rfl⟩) hrun

/-- Read under the shared lock, a file is as it was before the run, or as the run has left it. -/
theorem old_or_new {files : File → Text} {r : Run} {acts : List (Act ι)} {got : Text}
    (hl : (site i).locked = true) (hrun : Lts.run (Sys.step site) (Sys.init files r) acts = some s)
    (hgot : s.readers i = .finished got) :
    got = files (site i).file ∨ s.writer = .finished ∧ got = s.files (site i).file := by
  obtain ⟨v, hv, hgot⟩ := complete_locked hl hrun hgot
  have hrec := recorded_run hrun
  cases hw : s.writer with
  | waiting ws =>
    have hold : s.files = files ∧ s.versions = [files] := by simpa [Recorded, hw] using hrec
    rw [hold.2, List.mem_singleton] at hv
    exact .inl (hv ▸ hgot)
  | writing ws =>
    have hold : s.versions = [files] := by simpa [Recorded, hw] using hrec
    rw [hold, List.mem_singleton] at hv
    exact .inl (hv ▸ hgot)
  | finished =>
    have hnew : s.versions = [s.files, files] := by simpa [Recorded, hw] using hrec
    rw [hnew, List.mem_cons, List.mem_singleton] at hv
    rcases hv with rfl | rfl
    · exact .inr ⟨rfl, hgot⟩
    · exact .inl hgot

end

/-! ## Reads that overlap -/

/-- A configuration before and after its package list has been made. -/
def oldFiles : File → Text
  | .config => "export SDECFG_TARGET='generic'\n".toList
  | .packages => "X 01 100.000 base zlib 1.3\n".toList

def newCycle : Cycle where
  sdever := "26-svn".toList
  pkglist := "X 01 100.000 base zlib 1.4\n".toList
  configIn := [.append .config "export SDECFG_TARGET='embedded'\n".toList]
  packages := "X 01 100.000 base zlib 1.4\n".toList
  id := "26-svn-generic".toList
  menu := []

/-- The package is looked up before `scripts/Config` starts. -/
theorem complete_read_build :
    ∃ s, Lts.run (Sys.step fun _ : Unit => Site.build) (Sys.init oldFiles (.cycles [newCycle]))
        [.start (), .read () 63, .read () 63, .lock, .write] = some s ∧
      ∃ got, s.readers () = .finished got ∧ ∃ v ∈ s.versions, got = v .packages := by
  have hrun : ∃ s got, Lts.run (Sys.step fun _ : Unit => Site.build) (Sys.init oldFiles (.cycles [newCycle]))
      [.start (), .read () 63, .read () 63, .lock, .write] = some s ∧ s.readers () = .finished got := ⟨_, _, rfl, rfl⟩
  obtain ⟨s, got, hs, hgot⟩ := hrun
  refine ⟨s, hs, got, hgot, complete_read ?_ hs hgot⟩
  decide

/-- A read of `build` of `scripts/Build-Target` while the package list is emptied. -/
theorem torn_build :
    ∃ acts s, Lts.run (Sys.step fun _ : Unit => Site.build) (Sys.init oldFiles (.cycles [newCycle])) acts = some s ∧
      s.readers () = .finished [] ∧ ∀ v ∈ s.versions, v .packages ≠ [] := by
  refine ⟨[.lock, .write, .write, .write, .start (), .read () 63], _, rfl, rfl, ?_⟩
  decide

/-- The writes up to the one that empties the file. -/
def untilEmpty : File → Nat
  | .config => 1
  | .packages => 3

/-- So at each site without the shared lock. -/
theorem torn_unlocked {x : Site} (hx : x.locked = false) :
    ∃ acts s, Lts.run (Sys.step fun _ : Unit => x) (Sys.init oldFiles (.cycles [newCycle])) acts = some s ∧
      s.readers () = .finished [] ∧ ∀ v ∈ s.versions, v x.file ≠ [] := by
  refine ⟨.lock :: List.replicate (untilEmpty x.file) .write ++ [.start (), .read () 63], ?_⟩
  cases x with
  | parseConfig | pkglist => cases hx
  | _ => exact ⟨_, rfl, rfl, by decide⟩

end T2Sde.Config
