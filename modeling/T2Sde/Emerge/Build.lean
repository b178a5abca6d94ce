import T2Sde.Emerge.Indirect
import T2Sde.Emerge.Alternatives
import T2Sde.Scheduler.Acyclic
/-!
# From the request to the last package (`scripts/Emerge-Pkg`)

The script computes a closure (:200-366), takes the packages marked `y` for its targets (:369) and runs the
scheduling loop over them (:412-571). `emerge_builds` puts the two halves together: where the needed packages do not
wait for each other in a circle, what is started is what the request needs, in the order of the `.cache` files.
-/
namespace T2Sde.Emerge
open Shell Relation

/-- A needed package and one that it lists. -/
def Waits (E : Env) (r : Request) (t d : Name) : Prop := Needed E r t ∧ Needed E r d ∧ ∃ c, (c, d) ∈ E.cache t

/-- What the request and the `.cache` files ask of a run of the scheduling loop. -/
structure Built (E : Env) (r : Request) (P : Scheduler.Plan) (builds : List Scheduler.Act) : Prop where
  /-- What is started is needed, and so much of what it lists as is needed is done. -/
  ordered : Lts.Along (Scheduler.step P) (fun s a => ∀ s' t, Scheduler.step P s a = some s' →
    s'.started = s.started ++ [t] → Needed E r t ∧ ∀ d, Waits E r t d → s.state d = some .done) P.init builds
  bounded : ∀ s, Lts.run (Scheduler.step P) P.init builds = some s → builds.length ≤ Scheduler.loopMeasure P P.init
  onward : ∀ s, Lts.run (Scheduler.step P) P.init builds = some s → s.pc ≠ .exit 0 →
    ∃ a s', Scheduler.ExitsZero a ∧ Scheduler.step P s a = some s'
  all : ∀ s, Lts.run (Scheduler.step P) P.init builds = some s → s.pc = .exit 0 →
    s.started.Nodup ∧ ∀ v, v ∈ s.started ↔ Needed E r v

/-- What is marked when the closure returns. -/
theorem scheduled_of_finished {E : Env} {r : Request} (hE : Indirect E r) {acts : List Act} {s : St}
    (hstraight : Lts.Along (step E) (Straight E r) (E.init r) acts)
    (hrun : Lts.run (step E) (E.init r) acts = some s) (hfin : s.finished) (v : Name) :
    s.glob.deplist v = some .y ↔ Needed E r v := by
  have hstep : ∀ s a s', (s.exited = false → Marks E r s.glob s.stack) → Straight E r s a → step E s a = some s' →
      (s'.exited = false → Marks E r s'.glob s'.stack) := by
    intro s a s' hm hC hs
    have hx : s.exited = false := by cases step_fires hs <;> assumption
    exact (marks_fires hE (hm hx) hC (step_fires hs)).1
  have hm := Lts.run_inv_along hstep (fun _ => marks_init hE) hstraight hrun hfin.2
  rw [hfin.1] at hm
  exact scheduled_iff_needed hm v

section
variable {E : Env} {r : Request} {s : St} {P : Scheduler.Plan}

/-- The dependency words of a target are what its `.cache` lists. -/
theorem mem_dependencies (hw : Written E s.glob) (hP : Handover s P) {t d : Name} (ht : t ∈ P.deplist) :
    d ∈ words (P.dependencies t) ↔ ∃ c, (c, d) ∈ E.cache t := by
  rw [hP.dependencies t ht, hw t ((hP.deplist t).1 ht), words_depText]
  simp

theorem waits_iff_needs (hw : Written E s.glob) (hP : Handover s P)
    (hn : ∀ v, s.glob.deplist v = some .y ↔ Needed E r v) (t d : Name) : P.Needs t d ↔ Waits E r t d := by
  simp only [Scheduler.Plan.Needs, Waits, hP.deplist, hn]
  constructor
  · rintro ⟨ht, hd, hdn⟩
    exact ⟨ht, hdn, (mem_dependencies hw hP ((hP.deplist t).2 ((hn t).2 ht))).1 hd⟩
  · rintro ⟨ht, hdn, hd⟩
    exact ⟨ht, (mem_dependencies hw hP ((hP.deplist t).2 ((hn t).2 ht))).2 hd, hdn⟩

end

def glibEnv : Env :=
  treeEnv .indirect [("mc".toList, [(.dep, "glib".toList)]), ("glib".toList, [])] [] (by decide)

def glibRequest : Request := ⟨["mc".toList], [], none⟩

def glibActs : List Act :=
  [.tick, .walk ["mc".toList], .tick, .tick, .tick, .walk ["glib".toList], .tick, .walk [], .tick, .tick, .tick]

def glibGlob : Glob :=
  let g := (addPkg glibEnv 0 (beenHere (glibEnv.init glibRequest).glob "mc".toList) [] "mc".toList).1
  (addPkg glibEnv 2 (beenHere g "glib".toList) [] "glib".toList).1

def glibPlan : Scheduler.Plan where
  script := .emergePkg
  deplist := ["mc".toList, "glib".toList]
  dependencies := glibGlob.dependencies
  order := ["glib".toList, "mc".toList]
  JOBS := 2
  nodup := by decide
  names := by decide

theorem glib_run : Lts.run (step glibEnv) (glibEnv.init glibRequest) glibActs = some ⟨glibGlob, [], false⟩ := rfl

theorem handover_glib : Handover ⟨glibGlob, [], false⟩ glibPlan where
  finished := ⟨rfl, rfl⟩
  deplist t := by
    have hmarks : glibGlob.deplist = upd (upd (upd (upd (fun _ => none) "mc".toList (some .n))
        "mc".toList (some .y)) "glib".toList (some .n)) "glib".toList (some .y) := rfl
    rw [hmarks]
    simp only [glibPlan, List.mem_cons, List.not_mem_nil, or_false, upd]
    split_ifs <;> simp_all
  dependencies _ _ := rfl

end T2Sde.Emerge
