import Mathlib.Algebra.BigOperators.Group.Finset.Basic
import Mathlib.Algebra.Order.BigOperators.Group.Finset
import T2Sde.Emerge.Frames
/-!
# The closure ends

`closureMeasure` goes down with every step: a visit uses up a word, and if it defers a package it
also uses up some of the marks left (`marksLeft`): a name goes from no mark to `o` to `y` and not
back, or, where an alternative is declined again, another name has got its first mark.
-/
namespace T2Sde.Emerge
open Shell

/-- How often the mark of a name can still change. -/
def Mark.left : Option Mark → Nat
  | none => 2
  | some .o => 1
  | some .n | some .y => 0

/-- Every name that a word of an argument list can be. -/
def allNames (E : Env) (r : Request) : Finset Name :=
  (r.names ++ E.groups.map (·.1) ++ E.cached.flatMap fun p => (E.cache p).map (·.2)).toFinset

def marksLeft (U : Finset Name) (deplist : Name → Option Mark) : Nat := ∑ p ∈ U, Mark.left (deplist p)

/-- More than the words of any argument list. -/
def wordsBound (E : Env) : Nat := (E.cached.map fun p => 2 * (E.cache p).length).sum + E.groups.length + 4

def Frame.cost (K : Nat) (f : Frame) : Nat :=
  match f.phase with
  | .args ws => ws.length + 2 + K * f.deferred.length
  | .calls ks => 1 + K * ks.length

def closureMeasure (E : Env) (r : Request) (s : St) : Nat :=
  (s.stack.map (Frame.cost (wordsBound E))).sum + wordsBound E * marksLeft (allNames E r) s.glob.deplist +
    (if s.exited then 0 else 1)

theorem marksLeft_upd {U : Finset Name} {f : Name → Option Mark} {p : Name} {x : Option Mark} (hp : p ∈ U) :
    marksLeft U (upd f p x) + Mark.left (f p) = marksLeft U f + Mark.left x := by
  have h1 : marksLeft U f = Mark.left (f p) + ∑ q ∈ U.erase p, Mark.left (f q) :=
    (Finset.add_sum_erase U (fun q => Mark.left (f q)) hp).symm
  have h2 : marksLeft U (upd f p x) = Mark.left (upd f p x p) + ∑ q ∈ U.erase p, Mark.left (upd f p x q) :=
    (Finset.add_sum_erase U (fun q => Mark.left (upd f p x q)) hp).symm
  have h3 : ∑ q ∈ U.erase p, Mark.left (upd f p x q) = ∑ q ∈ U.erase p, Mark.left (f q) :=
    Finset.sum_congr rfl fun q hq => by rw [upd_ne _ _ _ _ (Finset.ne_of_mem_erase hq)]
  rw [h3, upd_same] at h2
  omega

theorem marksLeft_upd_le (U : Finset Name) (f : Name → Option Mark) (p : Name) (x : Option Mark) :
    marksLeft U (upd f p x) ≤ marksLeft U f + Mark.left x := by
  by_cases hp : p ∈ U
  · have := marksLeft_upd (f := f) (x := x) hp
    omega
  · have : marksLeft U (upd f p x) = marksLeft U f :=
      Finset.sum_congr rfl fun q hq => by rw [upd_ne]; rintro rfl; exact hp hq
    omega

theorem marksLeft_beenHere_le (U : Finset Name) (g : Glob) (p : Name) :
    marksLeft U (beenHere g p).deplist ≤ marksLeft U g.deplist := by
  rw [beenHere_deplist]
  split
  · exact marksLeft_upd_le U g.deplist p (some .n)
  · exact Nat.le_refl _

/-- A first visit. -/
theorem marksLeft_beenHere {U : Finset Name} {g : Glob} {p : Name} (hp : p ∈ U) (h : g.deplist p = none) :
    marksLeft U (beenHere g p).deplist + 2 = marksLeft U g.deplist := by
  have := marksLeft_upd (f := g.deplist) (x := some .n) hp
  rw [h] at this
  rw [beenHere_deplist, if_pos h]
  simpa [Mark.left] using this

theorem skips_eq_false {g : Glob} {typ : Option DepTyp} {p : Name} (h : skips g typ p = false) :
    g.deplist p = none ∨ (g.deplist p = some .o ∧ typ ≠ some .opt) := by
  unfold skips at h
  cases hm : g.deplist p with
  | none => exact .inl rfl
  | some m =>
    cases m with
    | o => exact .inr ⟨rfl, by simpa [hm] using h⟩
    | n => simp [hm] at h
    | y => simp [hm] at h

theorem length_depWords (E : Env) (p : Name) : (E.depWords p).length + 4 ≤ wordsBound E := by
  have hlen : (E.depWords p).length = 2 * (E.cache p).length := by
    unfold Env.depWords
    induction E.cache p with
    | nil => rfl
    | cons d ds ih => simp only [List.flatMap_cons, List.length_append, ih, List.length_cons, List.length_nil]; omega
  unfold wordsBound
  by_cases hp : p ∈ E.cached
  · have := List.le_sum_of_mem (List.mem_map_of_mem (f := fun p => 2 * (E.cache p).length) hp)
    omega
  · rw [hlen, E.uncached p hp, List.length_nil]
    omega

theorem length_cvGroup (E : Env) (p : Name) : (E.cvGroup p).length + 4 ≤ wordsBound E := by
  have : (E.cvGroup p).length ≤ E.groups.length := by
    unfold Env.cvGroup
    rw [List.length_map]
    exact List.length_filter_le _ _
  unfold wordsBound
  omega

theorem length_setKey (ks : List Name) (p : Name) : (setKey ks p).length ≤ ks.length + 1 := by
  unfold setKey
  split
  · omega
  · simp

theorem mem_allNames_cache {E : Env} {r : Request} {t p : Name} {c : DepTyp} (h : (c, p) ∈ E.cache t) :
    p ∈ allNames E r := by
  have ht : t ∈ E.cached := by
    by_contra hn
    rw [E.uncached t hn] at h
    cases h
  simp only [allNames, List.mem_toFinset, List.mem_append, List.mem_flatMap, List.mem_map]
  exact .inr ⟨t, ht, (c, p), h, rfl⟩

theorem mem_allNames_group {E : Env} {r : Request} {p m : Name} (h : m ∈ E.cvGroup p) : m ∈ allNames E r := by
  obtain ⟨g, hg, rfl⟩ := List.mem_map.1 h
  simp only [allNames, List.mem_toFinset, List.mem_append, List.mem_map]
  exact .inl (.inr ⟨g, (List.mem_filter.1 hg).1, rfl⟩)

theorem mem_allNames_names {E : Env} {r : Request} {p : Name} (h : p ∈ r.names) : p ∈ allNames E r := by
  simp only [allNames, List.mem_toFinset, List.mem_append]
  exact .inl (.inl h)

/-- A visit that goes on to a package uses up a mark if it defers one. -/
theorem marksLeft_visit {E : Env} (hE : Plain E) {U : Finset Name} {g g' : Glob} {depth : Int} {typ : Option DepTyp}
    {df df' : List Name} {p : Name} (hg : g.packages = E.packages) (hp : p ∈ U)
    (ho : ∀ v, g.deplist v = some .o → E.packages v = some .X)
    (h : visit E depth typ g df p = .next g' df') :
    df'.length + marksLeft U g'.deplist ≤ df.length + marksLeft U g.deplist ∧
      marksLeft U g'.deplist ≤ marksLeft U g.deplist := by
  -- adding `v` after the mark of `p` has been set
  have hadd : ∀ v, skips g typ p = false → E.pick p = some v →
      marksLeft U (upd (beenHere g p).deplist v (some .y)) + 1 ≤ marksLeft U g.deplist := by
    intro v hskip hpick
    have hle : marksLeft U (upd (beenHere g p).deplist v (some .y)) ≤ marksLeft U (beenHere g p).deplist :=
      marksLeft_upd_le U _ v (some .y)
    rcases skips_eq_false hskip with hn | ⟨hm, -⟩
    · have := marksLeft_beenHere hp hn
      omega
    · -- an optional dependency is its own package
      have hvp : v = p := by
        rcases (pick_eq_some.1 hpick).2.2.2 with h | ⟨hO, -⟩
        · exact h
        · rw [ho p hm] at hO; cases hO
      subst hvp
      have hb : (beenHere g v).deplist = g.deplist := by rw [beenHere_deplist, if_neg (by simp [hm])]
      have := marksLeft_upd (f := g.deplist) (x := some .y) hp
      rw [hb]
      simp only [hm, Mark.left] at this
      omega
  have hlen : ∀ v, (addPkg E depth (beenHere g p) df v).2.length ≤ df.length + 1 := by
    intro v
    simp only [addPkg]
    split
    · exact length_setKey df v
    · omega
  have hv := visit_visits hE hg depth typ df p
  rw [h] at hv
  cases hv with
  | skip _ => exact ⟨Nat.le_refl _, Nat.le_refl _⟩
  | pass _ _ _ =>
    have := marksLeft_beenHere_le U g p
    exact ⟨by omega, this⟩
  | @add v hskip hpick _ =>
    have h1 := hadd v hskip hpick
    have h2 := hlen v
    simp only [addPkg] at h1 h2 ⊢
    omega
  | @accept v g₁ hskip hpick _ _ hask _ =>
    have h1 := hadd v hskip hpick
    have h2 := hlen v
    have h3 : g₁.2.deplist = (beenHere g p).deplist := by rw [← hask]; simp
    simp only [addPkg, h3] at h1 h2 ⊢
    omega
  | @decline v g₁ hskip hpick _ htyp hask =>
    have hn : g.deplist p = none := (skips_eq_false hskip).resolve_right fun h => h.2 htyp
    have h1 := marksLeft_beenHere hp hn
    have h2 := marksLeft_upd_le U (beenHere g p).deplist v (some .o)
    have h3 : g₁.2.deplist = (beenHere g p).deplist := by rw [← hask]; simp
    simp only [h3, Mark.left] at h2 ⊢
    omega

theorem closureMeasure_fires {E : Env} {r : Request} (hE : Plain E) {s s' : St} {a : Act}
    (hg : s.glob.packages = E.packages) (hU : ∀ d typ p, Todo s.stack d typ p → p ∈ allNames E r)
    (ho : ∀ v, s.glob.deplist v = some .o → E.packages v = some .X ∧ (E.desc v = true ∨ E.cvGroup v = []))
    (hf : Fires E s a s') : closureMeasure E r s' < closureMeasure E r s := by
  have hmem : ∀ {d typ df p ws fs}, s.stack = ⟨d, typ, df, .args (.pkg p :: ws)⟩ :: fs → p ∈ allNames E r := by
    intro d typ df p ws fs hs
    exact hU d typ p (by rw [hs]; exact todo_cons.2 (.inl ⟨rfl, List.mem_cons_self⟩))
  cases hf with
  | typ hx hs =>
    simp only [closureMeasure, hs, List.map_cons, List.sum_cons, Frame.cost, List.length_cons]
    omega
  | next hx hs hv =>
    obtain ⟨h1, h2⟩ := marksLeft_visit hE hg (hmem hs) (fun v hv => (ho v hv).1) hv
    have hmul := Nat.mul_le_mul_left (wordsBound E) h1
    rw [Nat.mul_add, Nat.mul_add] at hmul
    simp only [closureMeasure, hs, List.map_cons, List.sum_cons, Frame.cost, List.length_cons]
    omega
  | @group depth typ df p ws fs g pkgs hx hs hv =>
    have hvis := visit_visits hE hg depth typ df p
    rw [hv] at hvis
    cases hvis with
    | group hskip hdesc h0 hne =>
      have hn : s.glob.deplist p = none := by
        rcases skips_eq_false hskip with h | ⟨h, -⟩
        · exact h
        · rcases (ho p h).2 with h | h
          · rw [hdesc] at h; cases h
          · exact absurd h hne
      have h1 := marksLeft_beenHere (hmem hs) hn
      have h2 := length_cvGroup E p
      have hmul := congrArg (wordsBound E * ·) h1
      simp only [Nat.mul_add] at hmul
      simp only [closureMeasure, hs, List.map_cons, List.sum_cons, Frame.cost, Frame.call, List.length_cons,
        List.length_map, List.length_nil]
      omega
  | @exit depth typ df p ws fs g hx hs hv =>
    have hvis := visit_visits hE hg depth typ df p
    rw [hv] at hvis
    cases hvis with
    | exit =>
      have := Nat.mul_le_mul_left (wordsBound E) (marksLeft_beenHere_le (allNames E r) s.glob p)
      simp only [closureMeasure, hx]
      simp only [if_true, Bool.false_eq_true, if_false]
      omega
  | walk hx hs hks =>
    have := hks.length_eq
    simp only [closureMeasure, hs, List.map_cons, List.sum_cons, Frame.cost, List.length_nil, this]
    omega
  | @dep depth typ df k ks fs hx hs =>
    have h1 := length_depWords E k
    simp only [closureMeasure, hs, List.map_cons, List.sum_cons, Frame.cost, Frame.call, List.length_cons,
      List.length_nil, Nat.mul_add]
    omega
  | ret hx hs =>
    simp only [closureMeasure, hs, List.map_cons, List.sum_cons, Frame.cost]
    omega

end T2Sde.Emerge
