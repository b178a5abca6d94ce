import Mathlib.Algebra.Order.BigOperators.Group.List
import Mathlib.Algebra.Order.Group.Nat
import T2Sde.Lib.Stdio
import T2Sde.Wrapper.Clean
import T2Sde.Wrapper.Filter
import T2Sde.Wrapper.Path
/-!
# What the command wrapper allocates (`misc/tools-source/cmd_wrapper.c`)

A run of the wrapper, with the size of each string that it allocates beside what it writes there. Each size is the
length of some text and one more for the zero, except for the list of programs that are done.

| here | there |
| --- | --- |
| `bypassed`       | :184-196 |
| `Variables.setting` | `setenv(…, "", 1)` :191-195, `cleanenv` :198-202 |
| `copies`         | :278, :306, :337 |
| `filled`         | "Main work" :263-357 |
| `refill`         | :394-415 |
| `nullCell`       | `newargv[c1] = NULL` :447, :520 |
| `finish`         | :427-520 |
| `wrapperRun`     | `main` |

* `filled_spec`, `refill_spec` — the array has room for the null pointer.
* `stripLoop_fits`, `cleaned_fits` — a text is no longer than the one it is taken from.
* `wrapperRun_iff` — **when everything fits**.
-/
namespace T2Sde.Wrapper
open Shell Stdio

inductive Ended
  | exit (status : Nat)
  | execvp
  /-- A write behind the end of `newargv`, or of the output of the filter -/
  | outOfBounds
  deriving DecidableEq

/-- What the wrapper is started with. -/
structure Variables where
  bypass : Option Text
  others : Option Text
  done : Option Text
  insert : Option Text
  remove : Option Text
  append : Option Text
  filter : Option Text
  path : Option Text
  mypath : Option Text
  noloop : Option Text
  noNul : ∀ t ∈ [insert, remove, append], nul ∉ t.getD []

/-- `delim[0] && atoi(delim)` -/
def Variables.bypassed (v : Variables) : Prop :=
  ((readInt (skipSpace (v.bypass.getD []))).map (·.1)).getD 0 ≠ 0

instance (v : Variables) : Decidable v.bypassed := inferInstanceAs (Decidable (_ ≠ _))

/-- A variable that `BYPASS` clears. -/
def Variables.setting (v : Variables) (t : Option Text) : Option Text := if v.bypassed then some [] else t

/-- The copy of `cleanenv`; the delimiter at the end is written, too. -/
def cleaned (ch : Char) (t : Option Text) : Built := ⟨(t.getD []).length + 1, cleanLoop ch true (t.getD [])⟩

def Variables.cleaned (v : Variables) : List Built :=
  [Wrapper.cleaned ':' (v.setting v.others), Wrapper.cleaned ' ' (v.setting v.insert),
    Wrapper.cleaned ' ' (v.setting v.remove), Wrapper.cleaned ' ' (v.setting v.append),
    Wrapper.cleaned '|' (v.setting v.filter)]

/-- The copies for `strtok`, that of `REMOVE` once for each argument. -/
def copies (argc : Nat) (insert remove append : Text) : List Built :=
  [⟨insert.length + 1, insert⟩] ++ List.replicate (argc - 1) ⟨remove.length + 1, remove⟩ ++
    [⟨append.length + 1, append⟩]

section
variable (fnmatch : Text → Text → Bool)

/-- The array before the null pointer is written. -/
def filled (argv : List Text) (other insert remove append : Text) : Option NewArgv := do
  let a ← firstCells other
  let (_, a) ← insertOptions fnmatch argv .insert (copy insert).length (copy insert) 0 a
  let a ← copyArgs fnmatch argv remove (argv.drop 1) 1 a
  let (_, a) ← insertOptions fnmatch argv .append (copy append).length (copy append) 0 a
  return a

/-- The number of cells and `c1` behind the filter, whose output is `output`. -/
def refill (filter output : Text) (spare : Char) (newargc c1 : Nat) : Except Ended (Nat × Nat) :=
  if filter = [] then .ok (newargc, c1)
  else if output = [] then .error (.exit 248)
  else
    match rereadOutput output spare newargc with
    | none => .error .outOfBounds
    | some r => .ok (r.2.newargc, r.2.stored.length)

def nullCell (x : Nat × Nat) : Ended := if x.2 < x.1 then .execvp else .outOfBounds

def finish (v : Variables) (other : Text) (x : Nat × Nat) : List Built × Ended :=
  if other ≠ [] then ([], nullCell x)
  else
    let path := v.path.getD []
    match cmdPath (v.mypath.getD []) path with
    | none => ([], .exit 252)
    | some optbuf =>
      ([⟨path.length + 1, optbuf⟩],
        if isSet v.noloop && (v.noloop.getD []).head? != some '0' then .exit 251 else nullCell x)

/-- Behind the choice of the other wrapper. The filter, if there is one, prints `output`. -/
def commandRun (v : Variables) (output : Text) (spare : Char) (argv : List Text) (other : Text) :
    List Built × Ended :=
  let insert := cleanenv ' ' (v.setting v.insert)
  let remove := cleanenv ' ' (v.setting v.remove)
  let append := cleanenv ' ' (v.setting v.append)
  let filter := cleanenv '|' (v.setting v.filter)
  let built := copies argv.length insert remove append
  match filled fnmatch argv other insert remove append with
  | none => (built, .outOfBounds)
  | some a =>
    let built := built ++ if filter = [] then [] else [⟨output.length + 1, output⟩]
    match refill filter output spare a.cells.length a.c1 with
    | .error ended => (built, ended)
    | .ok x => (built ++ (finish v other x).1, (finish v other x).2)

def wrapperRun (myname : Text) (v : Variables) (output : Text) (spare : Char) (args : List Text) :
    List Built × Ended :=
  match ownArgs myname args with
  | none => ([], .exit 250)
  | some argv =>
    let others := cleanenv ':' (v.setting v.others)
    let built := v.cleaned ++ doneBuilt others v.done
    match nextOther others v.done with
    | none => (built, .exit 249)
    | some (other, _) =>
      let r := commandRun fnmatch v output spare argv other
      (built ++ r.1, r.2)

end

/-- Each write is in the memory that it is for. -/
def InBounds (r : List Built × Ended) : Prop := (∀ b ∈ r.1, b.Fits) ∧ r.2 ≠ .outOfBounds

/-- The list that is done is the front of the list of programs, and something comes behind it. -/
def Resumes (v : Variables) : Prop :=
  ∃ d ∈ v.done, ∃ t ≠ [], cleanenv ':' (v.setting v.others) = d ++ t

/-! ## Strings -/

theorem cleaned_fits (ch : Char) (t : Option Text) : (cleaned ch t).Fits := by
  have hloop := (@cleanLoop_sublist ch true (t.getD [])).length_le
  unfold Built.Fits cleaned
  dsimp only
  omega

theorem copies_fit {argc : Nat} {insert remove append : Text} : ∀ b ∈ copies argc insert remove append, b.Fits := by
  intro b hb
  unfold copies at hb
  simp only [List.mem_append, List.mem_singleton, List.mem_replicate] at hb
  rcases hb with (rfl | ⟨_, rfl⟩) | rfl <;> exact le_rfl

/-- Components and a colon behind each. -/
theorem length_joined (cs : List Text) : (joined cs).length = (cs.map (·.length + 1)).sum - 1 := by
  induction cs with
  | nil => rfl
  | cons c cs ih =>
    by_cases hcs : cs = []
    · subst hcs
      simp
    · have hpos : 0 < (cs.map (·.length + 1)).sum := by
        obtain ⟨d, ds, rfl⟩ := List.exists_cons_of_ne_nil hcs
        simp
      rw [joined_cons c hcs, List.length_append, List.length_cons, ih, List.map_cons, List.sum_cons]
      omega

/-- `PATH` without the directory. -/
theorem stripLoop_fits {wrdir path optbuf : Text} (h : cmdPath wrdir path = some optbuf) :
    Built.Fits ⟨path.length + 1, optbuf⟩ := by
  have hne : path ≠ [] ∧ wrdir ≠ [] := by
    by_contra hn
    rw [cmdPath, if_neg hn] at h
    cases h
  have heq : optbuf = joined ((pathTokens path).filter (· ≠ wrdir)) :=
    Option.some.inj (h.symm.trans (cmdPath_eq hne.1 hne.2))
  have hsub : ((pathTokens path).filter (· ≠ wrdir)).Sublist (dirs path) :=
    List.filter_sublist.trans List.filter_sublist
  have hsum := (hsub.map (·.length + 1)).sum_le_sum (by simp)
  have hlength := length_joined (dirs path)
  rw [joined_dirs] at hlength
  unfold Built.Fits
  dsimp only
  rw [heq, length_joined]
  omega

/-! ## The array -/

section
variable {fnmatch : Text → Text → Bool}

/-- **Room for one more cell** behind the options. -/
theorem filled_spec {argv : List Text} {insert remove append : Text} (hi : nul ∉ insert) (hr : nul ∉ remove)
    (ha : nul ∉ append) (other : Text) :
    ∃ a, filled fnmatch argv other insert remove append = some a ∧ a.c1 < a.cells.length := by
  obtain ⟨a₂, h₂, hold₂⟩ := firstCells_spec other
  obtain ⟨qs, x, a₃, h₃, hold₃, -⟩ :=
    @insertOptions_spec fnmatch argv .insert (copy insert).length insert (by simp [copy]) hi [] _ _ hold₂
  obtain ⟨is, a₄, h₄, hold₄, -⟩ := @copyArgs_spec fnmatch argv _ hr _ 1 rfl _ _ hold₃
  obtain ⟨rs, y, a₅, h₅, ⟨k, hcells, hc1⟩, -⟩ :=
    @insertOptions_spec fnmatch argv .append (copy append).length append (by simp [copy]) ha [] _ _ hold₄
  have h₃' : insertOptions fnmatch argv .insert (copy insert).length (copy insert) 0 a₂ = some (x, a₃) := h₃
  have h₅' : insertOptions fnmatch argv .append (copy append).length (copy append) 0 a₄ = some (y, a₅) := h₅
  refine ⟨a₅, ?_, ?_⟩
  · unfold filled
    simp only [Option.bind_eq_bind, h₂, h₃', h₄, h₅', Option.bind_some]
    rfl
  · have hlen := congrArg List.length hcells
    rw [List.length_append, List.length_map, List.length_replicate] at hlen
    omega

theorem refill_spec {newargc c1 : Nat} (h : c1 < newargc) (filter output : Text) (spare : Char) :
    refill filter output spare newargc c1 = .error (.exit 248) ∨
      ∃ x, refill filter output spare newargc c1 = .ok x ∧ x.2 < x.1 := by
  unfold refill
  split
  · exact .inr ⟨_, rfl, h⟩
  · split
    · exact .inl rfl
    next houtput =>
      obtain ⟨r, hr, -, -, hroom⟩ := rereadOutput_spec houtput spare (show 0 < newargc by omega)
      rw [hr]
      exact .inr ⟨_, rfl, hroom⟩

theorem finish_inBounds (v : Variables) (other : Text) {x : Nat × Nat} (hx : x.2 < x.1) :
    InBounds (finish v other x) := by
  have hnull : nullCell x = .execvp := if_pos hx
  unfold finish
  split
  · refine ⟨by simp, ?_⟩
    rw [hnull]
    simp
  · dsimp only
    split
    · exact ⟨by simp, by simp⟩
    next optbuf hpath =>
      refine ⟨?_, ?_⟩
      · intro b hb
        obtain rfl := List.mem_singleton.1 hb
        exact stripLoop_fits hpath
      · dsimp only
        rw [hnull]
        split <;> simp

theorem noNul_setting (v : Variables) : nul ∉ cleanenv ' ' (v.setting v.insert) ∧
    nul ∉ cleanenv ' ' (v.setting v.remove) ∧ nul ∉ cleanenv ' ' (v.setting v.append) := by
  have hz : ∀ t ∈ [v.insert, v.remove, v.append], nul ∉ cleanenv ' ' (v.setting t) := by
    intro t ht hmem
    have hin := mem_cleanenv hmem
    unfold Variables.setting at hin
    split at hin
    · cases hin
    · exact v.noNul t ht hin
  exact ⟨hz _ (by simp), hz _ (by simp), hz _ (by simp)⟩

theorem inBounds_append {l l' : List Built} {ended : Ended} (hl : ∀ b ∈ l, b.Fits) :
    InBounds (l ++ l', ended) ↔ InBounds (l', ended) := by
  unfold InBounds
  rw [List.forall_mem_append, and_iff_right hl]

theorem variables_cleaned_fit (v : Variables) : ∀ b ∈ v.cleaned, b.Fits := by
  intro b hb
  unfold Variables.cleaned at hb
  simp only [List.mem_cons, List.not_mem_nil, or_false] at hb
  rcases hb with rfl | rfl | rfl | rfl | rfl <;> exact cleaned_fits _ _

/-- The rest of a run. -/
theorem commandRun_inBounds (v : Variables) (output : Text) (spare : Char) (argv : List Text) (other : Text) :
    InBounds (commandRun fnmatch v output spare argv other) := by
  obtain ⟨hinsert, hremove, happend⟩ := noNul_setting v
  obtain ⟨a, ha, hroom⟩ := @filled_spec fnmatch argv _ _ _ hinsert hremove happend other
  have houtput : ∀ b ∈ if cleanenv '|' (v.setting v.filter) = [] then [] else
      [(⟨output.length + 1, output⟩ : Built)], b.Fits := by
    intro b hb
    split at hb
    · cases hb
    · obtain rfl := List.mem_singleton.1 hb
      exact le_rfl
  unfold commandRun
  dsimp only
  rw [ha]
  dsimp only
  rcases refill_spec hroom (cleanenv '|' (v.setting v.filter)) output spare with hfilter | ⟨x, hfilter, hx⟩
  · rw [hfilter]
    dsimp only
    rw [inBounds_append copies_fit]
    exact ⟨houtput, by simp⟩
  · rw [hfilter]
    dsimp only
    rw [List.append_assoc, inBounds_append copies_fit, inBounds_append houtput]
    exact finish_inBounds v other hx

end

/-- **Everything fits** if and only if no list of programs is gone on with: where one is, the new value of
`OTHERS_DONE` has no room. -/
theorem wrapperRun_iff (fnmatch : Text → Text → Bool) (myname : Text) (v : Variables) (output : Text) (spare : Char)
    (args : List Text) :
    InBounds (wrapperRun fnmatch myname v output spare args) ↔ ownArgs myname args = none ∨ ¬ Resumes v := by
  unfold wrapperRun
  cases hargs : ownArgs myname args with
  | none => exact iff_of_true ⟨by simp, by simp⟩ (.inl rfl)
  | some argv =>
    rw [or_iff_right (by simp), Resumes, ← doneBuilt_fit]
    dsimp only
    -- the new value is the one string that may be too long
    have hfront : ∀ l ended, InBounds (l, ended) →
        (InBounds (v.cleaned ++ doneBuilt (cleanenv ':' (v.setting v.others)) v.done ++ l, ended) ↔
          ∀ b ∈ doneBuilt (cleanenv ':' (v.setting v.others)) v.done, b.Fits) := by
      intro l ended hl
      rw [List.append_assoc, inBounds_append (variables_cleaned_fit v)]
      refine ⟨fun h b hb => h.1 b (List.mem_append_left _ hb), fun h => ?_⟩
      exact (inBounds_append h).2 hl
    split
    · have hexit := hfront [] (.exit 249) ⟨by simp, by simp⟩
      rwa [List.append_nil] at hexit
    next other _ _ => exact hfront _ _ (commandRun_inBounds v output spare argv other)

/-- Two other wrappers, and the first one was run. -/
def secondOther : Variables where
  bypass := none
  others := some "ccache:distcc".toList
  done := some "ccache".toList
  insert := none
  remove := none
  append := none
  filter := none
  path := some "/usr/bin".toList
  mypath := some "/w".toList
  noloop := none
  noNul := by simp

/-- Thirteen bytes for thirteen characters and a zero. -/
theorem secondOther_overflow :
    ¬ InBounds (wrapperRun (fun _ _ => false) "gcc_wrapper".toList secondOther [] nul ["gcc".toList]) := by
  intro h
  have hmem : (⟨13, "ccache:distcc".toList⟩ : Built) ∈
      (wrapperRun (fun _ _ => false) "gcc_wrapper".toList secondOther [] nul ["gcc".toList]).1 := by decide +kernel
  have hfits := h.1 _ hmem
  unfold Built.Fits at hfits
  simp at hfits

end T2Sde.Wrapper
