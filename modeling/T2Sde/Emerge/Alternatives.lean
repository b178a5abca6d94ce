import T2Sde.Emerge.Closure
import T2Sde.Scheduler.Safety
/-!
# From the closure to the scheduler

`add_pkg` writes the dependency names of a package down as its `.cache` has them, and the scheduler
keeps those that are keys of `deplist`. A name that the closure switched to its alternative is no key
(`n`), and nothing puts the alternative in its place: `alternative_iff`. `add_if_updated` does map
the name (`switched`), so the alternative is scheduled all the same.
-/
namespace T2Sde.Emerge
open Shell

/-- Every package to be built has the names of its `.cache` as dependencies. -/
def Written (E : Env) (g : Glob) : Prop := ∀ t, g.deplist t = some .y → g.dependencies t = E.depText t

def Visit.glob : Visit → Glob
  | .next g _ | .group g _ | .exit g => g

section
variable {E : Env} {g : Glob}

theorem written_addPkg (h : Written E g) (depth : Int) (df : List Name) (p : Name) :
    Written E (addPkg E depth g df p).1 := by
  intro t ht
  by_cases htp : t = p
  · subst htp; simp [addPkg]
  · simp only [addPkg, upd_ne _ _ _ _ htp] at ht ⊢
    exact h t ht

theorem written_mark (h : Written E g) (p : Name) {m : Mark} (hm : m ≠ .y) :
    Written E { g with deplist := upd g.deplist p (some m) } := by
  intro t ht
  by_cases htp : t = p
  · subst htp
    simp only [upd_same, Option.some.injEq] at ht
    exact absurd ht hm
  · simp only [upd_ne _ _ _ _ htp] at ht
    exact h t ht

theorem written_beenHere (h : Written E g) (p : Name) : Written E (beenHere g p) := by
  unfold beenHere
  split
  · exact written_mark h p (by simp)
  · exact h

theorem written_askOptional (h : Written E g) : Written E (askOptional g).2 := by
  unfold askOptional
  split <;> exact h

theorem written_rereadConfig (h : Written E g) (depth : Int) (p : Name) : Written E (rereadConfig E depth g p) := by
  unfold rereadConfig
  split <;> exact h

theorem written_addIfReq (h : Written E g) (depth : Int) (df : List Name) (p : Name) (typ : Option DepTyp) :
    Written E (addIfReq E depth g df p typ).1 := by
  unfold addIfReq
  split
  · exact h
  · split
    · dsimp only
      split
      · exact written_addPkg (written_askOptional h) depth df p
      · exact written_mark (written_askOptional h) p (by simp)
    · split
      · exact h
      · exact written_addPkg h depth df p

theorem written_addUpdated (h : Written E g) (depth : Int) (typ : Option DepTyp) (df : List Name) (p : Name) :
    Written E (addUpdated E depth typ g df p).1 := by
  have key := fun typ => written_addIfReq h depth df p typ
  unfold addUpdated
  split
  · exact key typ
  · split
    · exact key none
    · split
      · exact key none
      · split
        · split
          · exact key none
          · exact h
        · split
          · exact key none
          · exact h

theorem written_visit (h : Written E g) (depth : Int) (typ : Option DepTyp) (df : List Name) (p : Name) :
    Written E (visit E depth typ g df p).glob := by
  have hb := written_beenHere h p
  unfold visit
  split
  · exact h
  · dsimp only
    split
    · split
      · split <;> exact hb
      · exact hb
    · split
      · exact hb
      · have hr := written_rereadConfig hb depth p
        split
        · split <;> exact hr
        · split
          · exact written_addUpdated hr depth typ df _
          · exact hr

end

theorem written_step {E : Env} (s : St) (a : Act) (s' : St) (h : Written E s.glob) (hs : step E s a = some s') :
    Written E s'.glob := by
  cases step_fires hs with
  | @next depth typ df p _ _ _ _ _ _ hv => simpa [hv, Visit.glob] using written_visit h depth typ df p
  | @group depth typ df p _ _ _ _ _ _ hv => simpa [hv, Visit.glob] using written_visit h depth typ df p
  | @exit depth typ df p _ _ _ _ _ hv => simpa [hv, Visit.glob] using written_visit h depth typ df p
  | _ => exact h

theorem written_reachable {E : Env} {r : Request} {acts : List Act} {s : St}
    (h : Lts.run (step E) (E.init r) acts = some s) : Written E s.glob :=
  Lts.run_inv (I := fun s => Written E s.glob) written_step (fun t ht => by simp [Env.init] at ht) h

/-- What the scheduler is given: the packages marked `y` (:369) and their dependency texts. -/
structure Handover (s : St) (P : Scheduler.Plan) : Prop where
  finished : s.finished
  deplist : ∀ t, t ∈ P.deplist ↔ s.glob.deplist t = some .y
  dependencies : ∀ t ∈ P.deplist, P.dependencies t = s.glob.dependencies t

/-- The package `t` lists the unselected name `b`, whose selected alternative is `a`; both `t` and `a`
are scheduled. -/
structure SwitchedDep (E : Env) (s : St) (t b a : Name) : Prop where
  dep : (.dep, b) ∈ E.cache t
  unselected : s.glob.packages b ≠ some .X
  alternative : E.alternatives b = some a
  selected : s.glob.packages a = some .X
  scheduled : s.glob.deplist t = some .y
  scheduledAlt : s.glob.deplist a = some .y

theorem words_depText (E : Env) (t : Name) : words (E.depText t) = (E.cache t).map (·.2) := by
  have h : E.depText t = ((E.cache t).map (·.2)).flatMap (· ++ [' ']) := by
    simp [Env.depText, List.flatMap_map]
  rw [h]
  refine words_flatMap_append fun d hd => ?_
  obtain ⟨c, hc, rfl⟩ := List.mem_map.1 hd
  exact E.words t c hc

/-- The dependencies of a scheduled package after the clean/sync loop (:412). -/
theorem mem_dependencies_iff {E : Env} {s : St} {P : Scheduler.Plan} (hw : Written E s.glob) (hP : Handover s P)
    {t a : Name} (ht : t ∈ P.deplist) :
    a ∈ words (P.init.dependencies t) ↔ a ∈ P.deplist ∧ ∃ c, (c, a) ∈ E.cache t := by
  simp only [Scheduler.Plan.init, if_pos ht]
  rw [Scheduler.words_syncDeps, hP.dependencies t ht, hw t ((hP.deplist t).1 ht), words_depText]
  simp [and_comm]

/-- **Alternatives and the build order**: the alternative `a` that `b` was switched to is a dependency
of `t` in the scheduler iff the `.cache` of `t` has `a` as well. Then `a` is done when `t` is started,
unless the cycle breaker starts `t`. -/
theorem alternative_iff (E : Env) (r : Request) (acts : List Act) (s : St) (P : Scheduler.Plan)
    (hrun : Lts.run (step E) (E.init r) acts = some s) (hP : Handover s P) (t b a : Name) (h : SwitchedDep E s t b a) :
    (a ∈ words (P.init.dependencies t) ↔ ∃ c, (c, a) ∈ E.cache t) ∧
      ((∃ c, (c, a) ∈ E.cache t) → ∀ builds x s₁ s₂, Lts.run (Scheduler.step P) P.init builds = some s₁ →
        Scheduler.step P s₁ x = some s₂ → s₂.started = s₁.started ++ [t] → s₁.state a = some .done ∨
          ((∀ u, s₁.state u ≠ some .running) ∧ ∀ u, s₁.state u = some .pending → ¬ Scheduler.Ready P s₁ u)) := by
  have hw := written_reachable hrun
  have ht : t ∈ P.deplist := (hP.deplist t).2 h.scheduled
  have ha : a ∈ P.deplist := (hP.deplist a).2 h.scheduledAlt
  refine ⟨?_, fun hc builds x s₁ s₂ hbuilds hx hstart => ?_⟩
  · rw [mem_dependencies_iff hw hP ht]
    exact and_iff_right ha
  · have hsafe := Scheduler.safeStart_of_step (Scheduler.inv_reachable hbuilds) hx hstart ht
    rcases hsafe.ordered with hready | ⟨hrunning, -, hnone⟩
    · refine .inl (hready a ?_ ha)
      rw [hP.dependencies t ht, hw t h.scheduled, words_depText]
      obtain ⟨c, hc⟩ := hc
      exact List.mem_map.2 ⟨(c, a), hc, rfl⟩
    · exact .inr ⟨hrunning, hnone⟩

/-! ## `udev` and `eudev` -/

/-- `libinput` needs `udev`, for which `eudev` is selected. -/
def inputEnv : Env :=
  treeEnv .indirect2 [("libinput".toList, [(.dep, "udev".toList)]), ("udev".toList, []), ("eudev".toList, [])]
    [("udev".toList, "eudev".toList)] (by decide)

def inputRequest : Request := ⟨["libinput".toList], [], none⟩

def inputActs : List Act :=
  [.tick, .walk ["libinput".toList], .tick, .tick, .tick, .walk ["eudev".toList], .tick, .walk [], .tick, .tick, .tick]

/-- The variables after the run. -/
def inputGlob : Glob :=
  let g := (addPkg inputEnv 0 (beenHere (inputEnv.init inputRequest).glob "libinput".toList) [] "libinput".toList).1
  (addPkg inputEnv 2 (beenHere g "udev".toList) [] "eudev".toList).1

def inputPlan : Scheduler.Plan where
  script := .emergePkg
  deplist := ["libinput".toList, "eudev".toList]
  dependencies := inputGlob.dependencies
  order := ["eudev".toList, "libinput".toList]
  JOBS := 2
  nodup := by decide
  names := by decide

theorem input_run : Lts.run (step inputEnv) (inputEnv.init inputRequest) inputActs = some ⟨inputGlob, [], false⟩ := rfl

theorem handover_input : Handover ⟨inputGlob, [], false⟩ inputPlan where
  finished := ⟨rfl, rfl⟩
  deplist t := by
    have hmarks : inputGlob.deplist = upd (upd (upd (upd (fun _ => none) "libinput".toList (some .n))
        "libinput".toList (some .y)) "udev".toList (some .n)) "eudev".toList (some .y) := rfl
    have hne : "udev".toList ≠ "libinput".toList := by decide
    rw [hmarks]
    simp only [inputPlan, List.mem_cons, List.not_mem_nil, or_false, upd]
    split_ifs <;> simp_all
  dependencies _ _ := rfl

theorem switched_input : SwitchedDep inputEnv ⟨inputGlob, [], false⟩ "libinput".toList "udev".toList "eudev".toList :=
  ⟨by decide, by decide, by decide, by decide, by decide, by decide⟩

theorem alternative_iff_input :
    "eudev".toList ∈ words (inputPlan.init.dependencies "libinput".toList) ↔
      ∃ c, (c, "eudev".toList) ∈ inputEnv.cache "libinput".toList :=
  (alternative_iff inputEnv inputRequest inputActs _ inputPlan input_run handover_input _ _ _ switched_input).1

/-- `eudev` is no dependency of `libinput`, and the first pass of the scheduler starts `libinput`
while `eudev` is pending. -/
theorem not_ordered_udev :
    Lts.run (step inputEnv) (inputEnv.init inputRequest) inputActs = some ⟨inputGlob, [], false⟩ ∧
      Handover ⟨inputGlob, [], false⟩ inputPlan ∧
      SwitchedDep inputEnv ⟨inputGlob, [], false⟩ "libinput".toList "udev".toList "eudev".toList ∧
      "eudev".toList ∉ words (inputPlan.init.dependencies "libinput".toList) ∧
      (Lts.run (Scheduler.step inputPlan) inputPlan.init
        [.walk ["libinput".toList, "eudev".toList], .tick 100]).map
          (fun s => (s.started, s.state "eudev".toList, s.pc)) =
        some (["libinput".toList], some .pending, .launch ["eudev".toList]) :=
  ⟨input_run, handover_input, switched_input, by decide, by decide⟩

end T2Sde.Emerge
