import T2Sde.Emerge.Closure
/-!
# What a visit does when nothing is installed

`Visits` lists the ways one word of `add_if_updated` can go when no package is installed, `-force` is
not given and re-reading the configuration finds the same package list (`Plain`). Which package a
word leads to does not depend on the marks then: `Env.pick`.
-/
namespace T2Sde.Emerge
open Shell

/-- No package installed, no `-force`, one package list. -/
structure Plain (E : Env) : Prop where
  notInstalled : ∀ p, E.installed p = false
  notForced : E.force = false
  sameList : E.reread = E.packages

/-- The package that is asked for under the name `p`: an existing package that is not excluded, or
its selected alternative when it is not selected itself. -/
def Env.pick (E : Env) (p : Name) : Option Name :=
  if E.desc p ∧ ¬ E.excludes p then
    match E.packages p with
    | none => none
    | some .X => some p
    | some .O => (E.alternatives p).filter fun alt => E.packages alt = some .X
  else none

theorem pick_eq_some {E : Env} {p v : Name} :
    E.pick p = some v ↔ E.desc p = true ∧ E.excludes p = false ∧ E.packages v = some .X ∧
      (v = p ∨ E.packages p = some .O ∧ E.alternatives p = some v) := by
  unfold Env.pick
  constructor
  · intro h
    split at h
    · rename_i hd
      simp only [Bool.not_eq_true] at hd
      split at h
      · cases h
      · rename_i hp; cases h; exact ⟨hd.1, hd.2, hp, .inl rfl⟩
      · rename_i hp
        obtain ⟨ha, hs⟩ := Option.filter_eq_some_iff.1 h
        exact ⟨hd.1, hd.2, by simpa using hs, .inr ⟨hp, ha⟩⟩
    · cases h
  · rintro ⟨h1, h2, h3, h4⟩
    simp only [h1, h2, Bool.false_eq_true, not_false_eq_true, and_self, if_true]
    rcases h4 with rfl | ⟨hp, ha⟩
    · simp [h3]
    · simp [hp, ha, h3]

/-- Neither a package in the list nor a group: the requests that end the script. -/
def Env.unknown (E : Env) (p : Name) : Prop :=
  (E.desc p = false ∧ E.cvGroup p = []) ∨ (E.desc p = true ∧ E.excludes p = false ∧ E.packages p = none)

theorem pick_self {E : Env} {p : Name} (hd : E.desc p = true) (hx : E.excludes p = false)
    (hp : E.packages p = some .X) : E.pick p = some p := pick_eq_some.2 ⟨hd, hx, hp, .inl rfl⟩

@[simp] theorem beenHere_packages (g : Glob) (p : Name) : (beenHere g p).packages = g.packages := by
  unfold beenHere; split <;> rfl

@[simp] theorem beenHere_optional (g : Glob) (p : Name) : (beenHere g p).optional = g.optional := by
  unfold beenHere; split <;> rfl

@[simp] theorem beenHere_dependencies (g : Glob) (p : Name) : (beenHere g p).dependencies = g.dependencies := by
  unfold beenHere; split <;> rfl

theorem beenHere_deplist (g : Glob) (p : Name) :
    (beenHere g p).deplist = if g.deplist p = none then upd g.deplist p (some .n) else g.deplist := by
  unfold beenHere; split <;> rfl

@[simp] theorem askOptional_deplist (g : Glob) : (askOptional g).2.deplist = g.deplist := by
  unfold askOptional; split <;> rfl

@[simp] theorem askOptional_packages (g : Glob) : (askOptional g).2.packages = g.packages := by
  unfold askOptional; split <;> rfl

@[simp] theorem askOptional_dependencies (g : Glob) : (askOptional g).2.dependencies = g.dependencies := by
  unfold askOptional; split <;> rfl

theorem askOptional_no {g : Glob} (h : g.optional = "no".toList) : askOptional g = (g.optional, g) := by
  unfold askOptional
  rw [if_neg]
  rw [h]
  decide

/-- One constructor for each way a visit can go. -/
inductive Visits (E : Env) (depth : Int) (typ : Option DepTyp) (g : Glob) (df : List Name) (p : Name) : Visit → Prop
  | skip : skips g typ p = true → Visits E depth typ g df p (.next g df)
  | group : skips g typ p = false → E.desc p = false → depth = 0 → E.cvGroup p ≠ [] →
      Visits E depth typ g df p (.group (beenHere g p) (E.cvGroup p))
  | exit : skips g typ p = false → depth = 0 → E.unknown p → Visits E depth typ g df p (.exit (beenHere g p))
  | pass : skips g typ p = false → E.pick p = none → (E.desc p = false → depth ≠ 0) →
      Visits E depth typ g df p (.next (beenHere g p) df)
  | add {v} : skips g typ p = false → E.pick p = some v → ¬ (depth > 0 ∧ typ = some .opt) →
      Visits E depth typ g df p
        (.next (addPkg E depth (beenHere g p) df v).1 (addPkg E depth (beenHere g p) df v).2)
  | accept {v g'} : skips g typ p = false → E.pick p = some v → depth > 0 → typ = some .opt →
      askOptional (beenHere g p) = g' → g'.1.head? = some 'y' →
      Visits E depth typ g df p (.next (addPkg E depth g'.2 df v).1 (addPkg E depth g'.2 df v).2)
  | decline {v g'} : skips g typ p = false → E.pick p = some v → depth > 0 → typ = some .opt →
      askOptional (beenHere g p) = g' →
      Visits E depth typ g df p (.next { g'.2 with deplist := upd g'.2.deplist v (some .o) } df)

theorem addUpdated_plain {E : Env} (hE : Plain E) (depth : Int) (typ : Option DepTyp) (g : Glob) (df : List Name)
    (v : Name) :
    addUpdated E depth typ g df v =
      if depth > 0 ∧ typ = some .opt then
        if (askOptional g).1.head? = some 'y' then addPkg E depth (askOptional g).2 df v
        else ({ (askOptional g).2 with deplist := upd (askOptional g).2.deplist v (some .o) }, df)
      else addPkg E depth g df v := by
  simp [addUpdated, addIfReq, hE.notInstalled]

theorem visit_visits {E : Env} (hE : Plain E) {g : Glob} (hg : g.packages = E.packages) (depth : Int)
    (typ : Option DepTyp) (df : List Name) (p : Name) :
    Visits E depth typ g df p (visit E depth typ g df p) := by
  have hreread : rereadConfig E depth (beenHere g p) p = beenHere g p := by
    unfold rereadConfig
    split
    · have hor : (fun q => (E.reread q).or ((beenHere g p).packages q)) = (beenHere g p).packages := by
        funext q
        simp [hE.sameList, hg]
      rw [hor]
    · rfl
  unfold visit
  by_cases hskip : skips g typ p = true
  · rw [if_pos hskip]
    exact .skip hskip
  have hskip' : skips g typ p = false := by simpa using hskip
  rw [if_neg hskip]
  simp only [hreread, beenHere_packages, hg]
  by_cases hd : E.desc p = true
  · simp only [hd, not_true_eq_false, if_false]
    by_cases hx : E.excludes p = true
    · rw [if_pos hx]
      exact .pass hskip' (by simp [Env.pick, hx]) (by simp [hd])
    · have hx' : E.excludes p = false := by simpa using hx
      rw [if_neg hx]
      by_cases hp : E.packages p = none
      · have hpick : E.pick p = none := by simp [Env.pick, hp]
        rw [if_pos hp]
        by_cases h0 : depth = 0
        · rw [if_pos h0]
          exact .exit hskip' h0 (.inr ⟨hd, hx', hp⟩)
        · rw [if_neg h0]
          exact .pass hskip' hpick (by simp [hd])
      · -- listed: the package itself, its alternative, or none
        rw [if_neg hp]
        have hsw : switched E depth E.packages p = E.pick p := by
          unfold switched Env.pick
          simp only [hd, hx', hE.notForced]
          cases hs : E.packages p with
          | none => exact absurd hs hp
          | some x =>
            cases x with
            | X => simp
            | O => cases h : (E.alternatives p).filter fun alt => decide (E.packages alt = some .X) <;> simp
        rw [hsw]
        cases hpick : E.pick p with
        | none => exact .pass hskip' hpick (by simp [hd])
        | some v =>
          simp only [addUpdated_plain hE]
          by_cases ht : depth > 0 ∧ typ = some .opt
          · rw [if_pos ht]
            by_cases hy : (askOptional (beenHere g p)).1.head? = some 'y'
            · rw [if_pos hy]
              exact .accept hskip' hpick ht.1 ht.2 rfl hy
            · rw [if_neg hy]
              exact .decline hskip' hpick ht.1 ht.2 rfl
          · rw [if_neg ht]
            exact .add hskip' hpick ht
  · have hd' : E.desc p = false := by simpa using hd
    have hpick : E.pick p = none := by simp [Env.pick, hd']
    rw [if_pos hd]
    by_cases h0 : depth = 0
    · rw [if_pos h0]
      by_cases hgr : E.cvGroup p ≠ []
      · rw [if_pos hgr]
        exact .group hskip' hd' h0 hgr
      · rw [if_neg hgr]
        exact .exit hskip' h0 (.inl ⟨hd', by simpa using hgr⟩)
    · rw [if_neg h0]
      exact .pass hskip' hpick fun _ => h0

end T2Sde.Emerge
