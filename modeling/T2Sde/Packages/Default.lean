import T2Sde.Packages.RoundTrip
import T2Sde.Lib.Run
/-!
# The default status (`= p`)

One entry of a table is followed through a history: `pkgswitch` and the rule files keep its place, `pkgfilter`
moves it up by the removed entries before it. The default status is not in the file, so `pkgfilter` makes what
the entry happens to be its default.

| here | there |
| --- | --- |
| `Tracked`   | the table and the place of a package in it |
| `AtDefault` | at each `pkgfilter` the package has its first status |
-/
namespace T2Sde.Packages
open Shell Pattern Lua
open Desc (Awk printPackage)

structure Tracked where
  packages : Table
  place : Nat
  deriving DecidableEq

def Tracked.entry (s : Tracked) : Option Pkg := s.packages[s.place]?

def Op.place : Op → Table → Nat → Nat
  | .filter _, t, i => ((t.take i).filter Pkg.live).length
  | _, _, i => i

/-- A call after which the package is not removed. -/
def Tracked.step (files : Files) (maxOpen : Nat) (s : Tracked) (op : Op) : Option Tracked :=
  let s' : Tracked := ⟨op.apply files maxOpen s.packages, op.place s.packages s.place⟩
  if s'.entry.any Pkg.live then some s' else none

/-- The command of a `pkgfilter` keeps all lines. -/
def Op.Keeps : Op → Prop
  | .filter cmd => ∀ lines, cmd lines = lines
  | _ => True

/-- A `pkgfilter` comes when the package has the status `st`. -/
def AtDefault (st : Status) (s : Tracked) : Op → Prop
  | .filter _ => ∀ e, s.entry = some e → e.status = st
  | _ => True

instance (st : Status) (s : Tracked) : (op : Op) → Decidable (AtDefault st s op)
  | .filter _ => decidable_of_iff (∀ e ∈ s.entry, e.status = st) Iff.rfl
  | .enable _ | .disable _ | .remove _ | .sel _ => .isTrue trivial

/-! ## Places -/

theorem filter_place {t : Table} {p : Pkg → Bool} {i : Nat} {e : Pkg} (he : t[i]? = some e) (hp : p e = true) :
    (t.filter p)[((t.take i).filter p).length]? = some e := by
  have hsplit : t = t.take i ++ e :: t.drop (i + 1) := by
    obtain ⟨hi, rfl⟩ := List.getElem?_eq_some_iff.1 he
    rw [List.getElem_cons_drop, List.take_append_drop]
  conv_lhs => rw [hsplit]
  have hlen : i ≤ t.length := (List.getElem?_eq_some_iff.1 he).1.le
  rw [List.filter_append, List.take_append_of_le_length (by simp [hlen]), List.take_take, min_self,
    List.getElem?_append_right (le_refl _), List.filter_cons_of_pos hp]
  simp

/-! ## The invariant -/

/-- The package is there with its name and its first status as the default. -/
structure Tracked.Inv (st : Status) (name : Text) (s : Tracked) : Prop where
  wf : ∀ e ∈ s.packages, e.WF
  entry : ∃ e, s.entry = some e ∧ e.live = true ∧ e.defaultStatus = st ∧ e.pkgAlias = name

theorem pkgfilter_keeps {cmd : List Text → List Text} (hcmd : ∀ lines, cmd lines = lines) {t : Table}
    (ht : ∀ e ∈ t, e.WF) : pkgfilter cmd t = (t.filter Pkg.live).map Pkg.again := by
  rw [pkgfilter, hcmd, cycle_eq ht]

theorem Tracked.step_inv {files : Files} {n : Nat} {st : Status} {name : Text} {s s' : Tracked} {op : Op}
    (h : s.Inv st name) (hk : op.Keeps) (hc : AtDefault st s op) (hstep : s.step files n op = some s') :
    s'.Inv st name := by
  obtain ⟨e, he, hlive, hdef, hname⟩ := h.entry
  unfold Tracked.step at hstep
  simp only at hstep
  split at hstep
  next hany =>
    cases hstep
    by_cases hf : ∃ cmd, op = .filter cmd
    · -- the file forgets the default, the status takes its place
      obtain ⟨cmd, rfl⟩ := hf
      have hst : e.status = st := hc e he
      have hplace := filter_place he hlive
      have hwf := h.wf e (List.mem_of_getElem? he)
      constructor
      · intro x hx
        simp only [Op.apply, pkgfilter_keeps hk h.wf] at hx
        obtain ⟨y, hy, rfl⟩ := List.mem_map.1 hx
        exact again_wf (h.wf y (List.mem_filter.1 hy).1) (List.mem_filter.1 hy).2
      · refine ⟨e.again, ?_, hlive, hst, hname⟩
        simp only [Tracked.entry, Op.apply, Op.place, pkgfilter_keeps hk h.wf, List.getElem?_map, hplace,
          Option.map_some]
    · have hkept := @Op.apply_kept files n _ (fun cmd h => hf ⟨cmd, h⟩) s.packages
      have hplace : op.place s.packages s.place = s.place := by
        cases op with
        | filter cmd => exact absurd ⟨cmd, rfl⟩ hf
        | _ => rfl
      obtain ⟨e', he', hlater⟩ := hkept.entry he
      constructor
      · exact hkept.wf h.wf
      · refine ⟨e', by simpa [Tracked.entry, hplace] using he', ?_, by rw [hlater.defaultStatus, hdef], ?_⟩
        · simpa [Tracked.entry, hplace, he'] using hany
        · obtain ⟨_, rfl, -⟩ := hlater
          exact hname
  · simp at hstep

/-- **The default status**: along a history that writes the list only when the package has its first status,
`= p` gives it that status back, if it comes to the package. -/
theorem default_stable {files : Files} {n : Nat} {rs : List Awk} (hrs : ∀ s ∈ rs, Printed s) {i : Nat} {e : Pkg}
    (he : (pkglistread (rs.map printPackage))[i]? = some e) {ops : List Op} (hops : ∀ op ∈ ops, op.Keeps)
    {s : Tracked} (hrun : Lts.run (Tracked.step files n) ⟨pkglistread (rs.map printPackage), i⟩ ops = some s)
    (hcond : Lts.Along (Tracked.step files n) (AtDefault e.status) ⟨pkglistread (rs.map printPackage), i⟩ ops)
    (hreached : Reached (target e.pkgAlias) s.packages s.place) :
    (pkgswitch .default [e.pkgAlias] s.packages).1[s.place]?.map Pkg.status = some e.status := by
  have hread : e.live = true ∧ e.defaultStatus = e.status := by
    obtain ⟨line, -, hread⟩ := List.mem_filterMap.1 (List.mem_of_getElem? he)
    refine ⟨readLine_live hread, ?_⟩
    obtain ⟨q, -, rfl, -⟩ := readLine_sound hread
    rfl
  have hinit : Tracked.Inv e.status e.pkgAlias ⟨pkglistread (rs.map printPackage), i⟩ :=
    ⟨printed_table_wf hrs, e, he, hread.1, hread.2, rfl⟩
  have hboth := Lts.along_and hcond (Lts.along_of_forall (D := Op.Keeps) hops)
  have hinv : s.Inv e.status e.pkgAlias :=
    Lts.run_inv_along (fun _ _ _ h hc hstep => Tracked.step_inv h hc.2 hc.1 hstep) hinit hboth hrun
  obtain ⟨e', he', hlive, hdef, -⟩ := hinv.entry
  have hswitch : (pkgswitch .default [e.pkgAlias] s.packages).1 =
      (switchArg .default (target e.pkgAlias) s.packages).1 := by
    rw [pkgswitch]
    simp only [pkgswitch]
    split <;> rfl
  rw [hswitch, switchArg_reached hreached he', Option.map_some, Pkg.switch, if_pos hlive]
  exact congrArg some hdef

/-- The entry of `flaggedRecord "DIETLIBC"`. -/
def zlib (status : Status) : Pkg where
  status
  stages := "-----5---9".toList
  priority := "149.8".toList
  repository := "base".toList
  name := "zlib".toList
  ver := "1.3".toList
  extraver := []
  categories := some "extra/x11".toList
  flags := "DIETLIBC".toList
  pkgAlias := "zlib".toList
  defaultStatus := .X

def noRules : Files := fun _ => none

theorem zlib_read : pkglistread ([flaggedRecord "DIETLIBC"].map printPackage) = [zlib .X] := by decide +kernel

/-- Written and read while it has its first status. -/
def zlibOps : List Op := [.disable ["zlib".toList], .enable ["zlib".toList], .filter id, .disable ["zlib".toList]]

theorem zlib_disabled : Lts.run (Tracked.step noRules 1) ⟨[zlib .X], 0⟩ zlibOps = some ⟨[zlib .O], 0⟩ := by
  decide +kernel

theorem zlib_reached (st : Status) : Reached (target (zlib .X).pkgAlias) [zlib st] 0 := by
  refine ⟨fun e he => ?_, fun j hj => absurd hj (by omega)⟩
  obtain rfl : zlib st = e := Option.some.inj he
  cases st <;> decide +kernel

/-- Disabled at last and set back. -/
theorem default_stable_zlib :
    (pkgswitch .default ["zlib".toList] [zlib .O]).1[0]?.map Pkg.status = some .X := by
  have hprinted : ∀ s ∈ [flaggedRecord "DIETLIBC"], Printed s := by simpa using dietlibc_printed.1
  have hcond : Lts.Along (Tracked.step noRules 1) (AtDefault .X) ⟨[zlib .X], 0⟩ zlibOps := by decide +kernel
  exact @default_stable noRules 1 _ hprinted 0 (zlib .X) (by rw [zlib_read]; rfl)
    zlibOps (by simp [zlibOps, Op.Keeps]) ⟨[zlib .O], 0⟩
    (by rw [zlib_read]; exact zlib_disabled) (by rw [zlib_read]; exact hcond) (zlib_reached .O)

/-- Disabled, written and read: the default is now `O`. -/
theorem default_forgotten :
    Printed (flaggedRecord "DIETLIBC") ∧
      pkglistread ([flaggedRecord "DIETLIBC"].map printPackage) = [zlib .X] ∧
      ((Lts.run (Tracked.step noRules 1) ⟨[zlib .X], 0⟩ [.disable ["zlib".toList], .filter id]).map fun s =>
        (pkgswitch .default ["zlib".toList] s.packages).1[s.place]?.map Pkg.status) = some (some .O) :=
  ⟨dietlibc_printed.1, zlib_read, by decide +kernel⟩

end T2Sde.Packages
