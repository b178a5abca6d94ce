import T2Sde.Packages.Line
import Mathlib.Data.List.Forall2
/-!
# What the calls do to a table

`pkgswitch` and the rule files change nothing but the status of entries, and not that of a removed one
(`Later`). Writing and reading (`pkgfilter` with a command that keeps all lines) drops the removed entries, and
makes the status of each other one its default status (`reread`).

* `pkgswitch_kept`, `pkgselParse_kept` — entry by entry, `Later`.
* `switchArg_reached` — the entry that the loop of `pkgswitch` comes to is switched (`Reached`).
* `pkglistwrite_eq`, `cycle_eq` — a table of well-formed entries is written without an error and read back.
-/
namespace T2Sde.Packages
open Shell Pattern Lua

/-- The same entry, perhaps with another status; a removed one stays removed. -/
def Later (e e' : Pkg) : Prop := ∃ s, e' = { e with status := s } ∧ (e.live = false → s = .removed)

theorem live_eq_false {e : Pkg} : e.live = false ↔ e.status = .removed := by
  cases h : e.status <;> simp [Pkg.live, h]

theorem live_eq_true {e : Pkg} : e.live = true ↔ e.status ≠ .removed := by
  cases h : e.status <;> simp [Pkg.live, h]

theorem Later.refl (e : Pkg) : Later e e := ⟨e.status, rfl, live_eq_false.1⟩

theorem Later.trans {e e' e'' : Pkg} (h : Later e e') (h' : Later e' e'') : Later e e'' := by
  obtain ⟨s, rfl, hs⟩ := h
  obtain ⟨s', rfl, hs'⟩ := h'
  exact ⟨s', rfl, fun hl => hs' (live_eq_false.2 (hs hl))⟩

theorem later_switch (m : Mode) (e : Pkg) : Later e (e.switch m) := by
  unfold Pkg.switch
  by_cases hl : e.live = true
  · rw [if_pos hl]
    exact ⟨_, rfl, by simp [hl]⟩
  · rw [if_neg hl]
    exact Later.refl e

theorem Later.wf {e e' : Pkg} (h : Later e e') (he : e.WF) : e'.WF := by
  obtain ⟨s, rfl, -⟩ := h
  exact ⟨he.stages, he.priority, he.repository, he.pkgAlias, he.ver, he.extraver, he.categories, he.flags, he.flagsStop⟩

theorem Later.defaultStatus {e e' : Pkg} (h : Later e e') : e'.defaultStatus = e.defaultStatus := by
  obtain ⟨s, rfl, -⟩ := h
  rfl

/-- Entry by entry. -/
abbrev Kept : Table → Table → Prop := List.Forall₂ Later

theorem Kept.refl (t : Table) : Kept t t := List.forall₂_same.2 fun e _ => Later.refl e

theorem Kept.trans {t t' t'' : Table} (h : Kept t t') (h' : Kept t' t'') : Kept t t'' := by
  induction h generalizing t'' with
  | nil =>
    cases h'
    exact .nil
  | cons he _ ih =>
    cases h' with
    | cons he' h' => exact .cons (he.trans he') (ih h')

/-- What an entry keeps, a table keeps. -/
theorem Kept.forall {P : Pkg → Prop} (hP : ∀ e e', Later e e' → P e → P e') {t t' : Table} (h : Kept t t')
    (ht : ∀ e ∈ t, P e) : ∀ e ∈ t', P e := by
  induction h with
  | nil => simp
  | cons he _ ih =>
    obtain ⟨h1, h2⟩ := List.forall_mem_cons.1 ht
    exact List.forall_mem_cons.2 ⟨hP _ _ he h1, ih h2⟩

theorem Kept.wf {t t' : Table} (h : Kept t t') (ht : ∀ e ∈ t, e.WF) : ∀ e ∈ t', e.WF :=
  h.forall (fun _ _ he => he.wf) ht

theorem Kept.entry {t t' : Table} (h : Kept t t') {i : Nat} {e : Pkg} (he : t[i]? = some e) :
    ∃ e', t'[i]? = some e' ∧ Later e e' := by
  induction h generalizing i with
  | nil => simp at he
  | cons hl _ ih =>
    cases i with
    | zero =>
      obtain rfl := Option.some.inj he
      exact ⟨_, rfl, hl⟩
    | succ i => exact ih (by simpa using he)

/-- The places are the same both ways. -/
theorem Kept.entry_of {t t' : Table} (h : Kept t t') {i : Nat} {e' : Pkg} (he : t'[i]? = some e') :
    ∃ e, t[i]? = some e ∧ Later e e' := by
  induction h generalizing i with
  | nil => simp at he
  | cons hl _ ih =>
    cases i with
    | zero =>
      obtain rfl := Option.some.inj he
      exact ⟨_, rfl, hl⟩
    | succ i => exact ih (by simpa using he)

theorem switchArg_kept (m : Mode) (g : Target) (t : Table) : Kept t (switchArg m g t).1 := by
  induction t with
  | nil => exact .nil
  | cons p ps ih =>
    rw [switchArg]
    split
    · exact .cons (Later.refl p) (Kept.refl ps)
    · exact .cons (Later.refl p) ih
    · split
      · exact .cons (later_switch m p) (Kept.refl ps)
      · exact .cons (later_switch m p) ih

/-- **`pkgswitch`** changes nothing but the status. -/
theorem pkgswitch_kept (m : Mode) (args : List Text) (t : Table) : Kept t (pkgswitch m args t).1 := by
  induction args generalizing t with
  | nil => exact Kept.refl t
  | cons arg args ih =>
    rw [pkgswitch]
    split
    · exact (switchArg_kept m _ t).trans (ih _)
    · exact switchArg_kept m _ t

theorem selLine_kept {sub : Text → Table → Out} (hsub : ∀ f t, Kept t (sub f t).packages) (line : Text) (t : Table) :
    Kept t (selLine sub line t).packages := by
  unfold selLine
  split
  · exact pkgswitch_kept _ _ t
  · exact hsub _ t
  · exact Kept.refl t

theorem selLines_kept {sub : Text → Table → Out} (hsub : ∀ f t, Kept t (sub f t).packages) (lines : List Text)
    (t : Table) : Kept t (selLines sub lines t).packages := by
  induction lines generalizing t with
  | nil => exact Kept.refl t
  | cons line lines ih =>
    rw [selLines]
    split
    · exact (selLine_kept hsub line t).trans (ih _)
    · exact selLine_kept hsub line t

/-- **A rule file** changes nothing but the status, whatever it includes. -/
theorem pkgselParse_kept (files : Files) (n : Nat) (file : Text) (t : Table) :
    Kept t (pkgselParse files n file t).packages := by
  induction n generalizing file t with
  | zero => exact Kept.refl t
  | succ n ih =>
    rw [pkgselParse]
    split
    · exact Kept.refl t
    · exact selLines_kept ih _ t

theorem Op.apply_kept {files : Files} {n : Nat} {op : Op} (h : ∀ cmd, op ≠ .filter cmd) (t : Table) :
    Kept t (op.apply files n t) := by
  cases op with
  | enable args => exact pkgswitch_kept _ args t
  | disable args => exact pkgswitch_kept _ args t
  | remove args => exact pkgswitch_kept _ args t
  | sel file => exact pkgselParse_kept files n file t
  | filter cmd => exact absurd rfl (h cmd)

/-! ## A match -/

/-- The loop of `pkgswitch` comes to the entry at a place, and the entry matches. -/
structure Reached (g : Target) (t : Table) (i : Nat) : Prop where
  hit : ∀ e, t[i]? = some e → matching g e = .ok ()
  before : ∀ j < i, ∀ e, t[j]? = some e → matching g e ≠ .error ∧ (g.single = true → matching g e = .fail)

theorem switchArg_reached {m : Mode} {g : Target} {t : Table} {i : Nat} {e : Pkg} (h : Reached g t i)
    (he : t[i]? = some e) : (switchArg m g t).1[i]? = some (e.switch m) := by
  induction t generalizing i with
  | nil => simp at he
  | cons p ps ih =>
    cases i with
    | zero =>
      obtain rfl : p = e := Option.some.inj he
      rw [switchArg, h.hit p rfl]
      simp only
      split <;> rfl
    | succ i =>
      obtain ⟨hne, hsingle⟩ := h.before 0 (Nat.succ_pos i) p rfl
      have hrest : Reached g ps i :=
        ⟨fun x hx => h.hit x (by simpa using hx),
          fun j hj x hx => h.before (j + 1) (by omega) x (by simpa using hx)⟩
      have he' : ps[i]? = some e := by simpa using he
      rw [switchArg]
      cases hm : matching g p with
      | error => exact absurd hm hne
      | fail => simpa using ih hrest he'
      | ok u =>
        have hs : ¬ g.single = true := by
          intro hs
          rw [hsingle hs] at hm
          simp at hm
        simpa [hs] using ih hrest he'

theorem Later.matching {e e' : Pkg} (h : Later e e') (g : Target) : matching g e' = matching g e := by
  obtain ⟨_, rfl, -⟩ := h
  rfl

/-- Whether an entry is reached is decided by the names. -/
theorem Reached.kept {g : Target} {t t' : Table} {i : Nat} (h : Reached g t i) (hk : Kept t t') : Reached g t' i := by
  constructor
  · intro e' he'
    obtain ⟨e, he, hl⟩ := hk.entry_of he'
    rw [hl.matching, h.hit e he]
  · intro j hj e' he'
    obtain ⟨e, he, hl⟩ := hk.entry_of he'
    rw [hl.matching]
    exact h.before j hj e he

/-! ## Writing and reading -/

theorem readLine_live {line : Text} {e : Pkg} (h : readLine line = some e) : e.live = true := by
  obtain ⟨q, -, rfl, -⟩ := readLine_sound h
  rw [live_eq_true]
  unfold Parts.pkg
  simp only
  split_ifs <;> simp

/-- The entry that is read from the line of `e`. -/
def Pkg.again (e : Pkg) : Pkg := reread e (e.categories.getD [])

def Pkg.line (e : Pkg) : Text := writeLine e (e.categories.getD [])

theorem Pkg.WF.categories_getD {e : Pkg} (h : e.WF) : e.categories = some (e.categories.getD []) ∧
    Categories (e.categories.getD []) := by
  obtain ⟨c, hc, hcat⟩ := h.categories
  rw [hc]
  exact ⟨rfl, hcat⟩

theorem readLine_line {e : Pkg} (h : e.WF) (hl : e.live = true) : readLine e.line = some e.again :=
  readLine_writeLine h hl h.categories_getD.2

theorem again_wf {e : Pkg} (h : e.WF) (hl : e.live = true) : e.again.WF := reread_wf h hl h.categories_getD.2

/-- **Writing** a table of well-formed entries. -/
theorem pkglistwrite_eq {t : Table} (ht : ∀ e ∈ t, e.WF) :
    pkglistwrite t = ((t.filter Pkg.live).map Pkg.line, true) := by
  induction t with
  | nil => rfl
  | cons e t ih =>
    have ih := ih fun x hx => ht x (List.mem_cons_of_mem _ hx)
    have hc := (ht e List.mem_cons_self).categories_getD.1
    rw [pkglistwrite, ih]
    by_cases hl : e.live = true
    · rw [if_pos hl, List.filter_cons_of_pos hl, hc]
      rfl
    · rw [if_neg hl, List.filter_cons_of_neg hl]

theorem readLines_eq {t : Table} (ht : ∀ e ∈ t, e.WF ∧ e.live = true) :
    pkglistread (t.map Pkg.line) = t.map Pkg.again := by
  induction t with
  | nil => rfl
  | cons e t ih =>
    have he := ht e List.mem_cons_self
    have ih := ih fun x hx => ht x (List.mem_cons_of_mem _ hx)
    rw [List.map_cons, pkglistread, List.filterMap_cons, readLine_line he.1 he.2, List.map_cons]
    exact congrArg _ ih

/-- **Writing and reading back**: the removed entries are gone. -/
theorem cycle_eq {t : Table} (ht : ∀ e ∈ t, e.WF) :
    pkglistread (pkglistwrite t).1 = (t.filter Pkg.live).map Pkg.again := by
  rw [pkglistwrite_eq ht]
  exact readLines_eq fun e he => ⟨ht e (List.mem_filter.1 he).1, (List.mem_filter.1 he).2⟩

end T2Sde.Packages
