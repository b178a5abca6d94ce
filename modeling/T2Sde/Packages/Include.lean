import T2Sde.Packages.Switch
import Mathlib.Data.Fintype.Card
import Mathlib.Data.Set.Finite.Lattice
import Mathlib.Data.Set.Finite.List
import Mathlib.Logic.Relation
/-!
# Rule files that include each other (`scripts/config-functions.lua`)

`pkgsel_parse` calls itself for an `include` line and does not look where it comes from. What ends it is Lua, which
raises an error when too many calls are inside one another, and the system, which does not open any number of files:
then `io.open` gives `nil`, and the call returns. Without a cycle neither is met.

| here | there |
| --- | --- |
| `Limits`         | `LUAI_MAXCALLS` (`luaconf.h`), `growCI` (`ldo.c`); files open at a time |
| `call`           | `pkgsel_parse`, its start :191-195 |
| `step`           | the loop over the lines :197-224, the end :225 |
| `Includes`       | a line `include FILE` :221-222 |

* `call_runs` — the machine does what the recursion `nested` says.
* `pkgsel_parse_ends` — **reading a rule file ends**, whatever is included.
* `outcome_eq` — where files run out before calls, the outcome is that of `pkgselParse`.
* `settled_iff` — when the number of files makes a difference.
-/
namespace T2Sde.Packages
open Shell
open Relation

/-! ## The machine -/

structure Limits where
  /-- How many calls can be inside one another; one more is a stack overflow. -/
  calls : Nat
  /-- How many files can be open; for one more `io.open` gives `nil`. -/
  opens : Nat

inductive State
  /-- The lines that are left of each file that is read, the innermost one first. -/
  | reading (frames : List (List Text)) (packages : Table) (log : List Event)
  | ended (o : Out)

section
variable (L : Limits) (files : Files)

/-- A call, with the files `frames` open; an error ends them all. -/
def call (file : Text) (frames : List (List Text)) (t : Table) (log : List Event) : State :=
  if L.calls ≤ frames.length then .ended ⟨t, log, false⟩
  else
    match if L.opens ≤ frames.length then none else files file with
    | none => .reading frames t (log ++ [.openError file])
    | some lines => .reading (lines :: frames) t log

/-- The next line, or `f:close()` behind the last one. -/
def step : State → State
  | .reading [] t log => .ended ⟨t, log, true⟩
  | .reading ([] :: frames) t log => .reading frames t log
  | .reading ((line :: lines) :: frames) t log =>
    match lineRule (uncomment line) with
    | some (.switch m pattern) =>
      let x := pkgswitch m [pattern] t
      if x.2 then .reading (lines :: frames) x.1 (log ++ [.switch m pattern])
      else .ended ⟨x.1, log ++ [.switch m pattern], false⟩
    | some (.include file) => call L files file (lines :: frames) t (log ++ [.include file])
    | none =>
      .reading (lines :: frames) t
        (log ++ if saysSyntaxError (uncomment line) then [.syntaxError (uncomment line)] else [])
  | .ended o => .ended o

/-- The state after `n` steps from the call for a file. -/
def after (n : Nat) (file : Text) (t : Table) : State := (step L files)^[n] (call L files file [] t [])

/-- The calls as a recursion: `c` more inside one another, and `o` more files. -/
def nested : Nat → Nat → Text → Table → Out
  | 0, _, _, t => ⟨t, [], false⟩
  | _ + 1, 0, file, t => ⟨t, [.openError file], true⟩
  | c + 1, o + 1, file, t =>
    match files file with
    | none => ⟨t, [.openError file], true⟩
    | some lines => selLines (nested c o) lines t

end

/-- A call has returned, or an error ends the calls around it, too. -/
def resume (o : Out) (frames : List (List Text)) (log : List Event) : State :=
  if o.ok then .reading frames o.packages (log ++ o.log) else .ended ⟨o.packages, log ++ o.log, false⟩

section
variable {L : Limits} {files : Files}

theorem iterate_ended (n : Nat) (o : Out) : (step L files)^[n] (.ended o) = .ended o := by
  induction n with
  | zero => rfl
  | succ n ih => rw [Function.iterate_succ_apply, step, ih]

/-- One line, and the calls that it makes. -/
theorem line_runs {sub : Text → Table → Out} {frames : List (List Text)} {line : Text} {lines : List Text}
    (hsub : ∀ g t log, ∃ n,
      (step L files)^[n] (call L files g (lines :: frames) t log) = resume (sub g t) (lines :: frames) log)
    (t : Table) (log : List Event) :
    ∃ n, (step L files)^[n] (.reading ((line :: lines) :: frames) t log) =
      resume (selLine sub line t) (lines :: frames) log := by
  cases hrule : lineRule (uncomment line) with
  | none => exact ⟨1, by simp [step, selLine, hrule, resume]⟩
  | some r =>
    rcases r with ⟨m, pattern⟩ | g
    · refine ⟨1, ?_⟩
      rw [Function.iterate_one, step, hrule, selLine, hrule, resume]
    · obtain ⟨n, hn⟩ := hsub g t (log ++ [.include g])
      refine ⟨n + 1, ?_⟩
      rw [Function.iterate_succ_apply, step, hrule]
      simp only [hn, selLine, hrule, resume, List.append_assoc, List.singleton_append]

/-- The lines of a file, and its end. -/
theorem lines_run {sub : Text → Table → Out} {frames : List (List Text)} {lines : List Text}
    (hsub : ∀ rest g t log, ∃ n,
      (step L files)^[n] (call L files g (rest :: frames) t log) = resume (sub g t) (rest :: frames) log)
    (t : Table) (log : List Event) :
    ∃ n, (step L files)^[n] (.reading (lines :: frames) t log) = resume (selLines sub lines t) frames log := by
  induction lines generalizing t log with
  | nil => exact ⟨1, by simp [step, selLines, resume]⟩
  | cons line lines ih =>
    obtain ⟨n, hn⟩ : ∃ n, (step L files)^[n] (.reading ((line :: lines) :: frames) t log) =
        resume (selLine sub line t) (lines :: frames) log := line_runs (hsub lines) t log
    by_cases hok : (selLine sub line t).ok = true
    · rw [resume, if_pos hok] at hn
      obtain ⟨k, hk⟩ := ih (selLine sub line t).packages (log ++ (selLine sub line t).log)
      refine ⟨k + n, ?_⟩
      rw [Function.iterate_add_apply, hn, hk, selLines]
      simp only [hok, if_true, resume, List.append_assoc]
    · refine ⟨n, ?_⟩
      rw [hn, selLines]
      simp only [hok, Bool.false_eq_true, if_false, resume]

/-- **The machine** does what the recursion says: a call that is made with `c` more calls and `o` more files to come. -/
theorem call_runs {c o : Nat} {frames : List (List Text)} (hcalls : L.calls = frames.length + c)
    (hopens : L.opens = frames.length + o) (file : Text) (t : Table) (log : List Event) :
    ∃ n, (step L files)^[n] (call L files file frames t log) = resume (nested files c o file t) frames log := by
  induction c generalizing o frames file t log with
  | zero =>
    refine ⟨0, ?_⟩
    rw [Function.iterate_zero_apply, call, if_pos (by omega), nested, resume, if_neg (by simp), List.append_nil]
  | succ c ih =>
    have hroom : ¬ L.calls ≤ frames.length := by omega
    rw [call, if_neg hroom]
    cases o with
    | zero =>
      refine ⟨0, ?_⟩
      rw [if_pos (by omega), Function.iterate_zero_apply, nested, resume, if_pos rfl]
    | succ o =>
      rw [if_neg (by omega), nested]
      cases files file with
      | none => exact ⟨0, by rw [Function.iterate_zero_apply, resume, if_pos rfl]⟩
      | some lines =>
        refine lines_run (fun rest g t log => ih ?_ ?_ g t log) t log
        · rw [List.length_cons]
          omega
        · rw [List.length_cons]
          omega

/-- The end of the outermost call. -/
theorem resume_ends (o : Out) : step L files (resume o [] []) = .ended o := by
  rw [resume]
  by_cases hok : o.ok = true
  · rw [if_pos hok, step, List.nil_append, ← hok]
  · rw [if_neg hok, step, List.nil_append, ← Bool.eq_false_iff.2 hok]

/-- What a run comes to. -/
theorem after_eq (L : Limits) (files : Files) (file : Text) (t : Table) :
    ∃ n, ∀ m ≥ n, after L files m file t = .ended (nested files L.calls L.opens file t) := by
  obtain ⟨n, hn⟩ := @call_runs L files L.calls L.opens [] (by simp) (by simp) file t []
  refine ⟨n + 1, fun m hm => ?_⟩
  obtain ⟨k, rfl⟩ := Nat.exists_eq_add_of_le' hm
  rw [after, show k + (n + 1) = k + 1 + n by omega, Function.iterate_add_apply, hn, Function.iterate_succ_apply,
    resume_ends, iterate_ended]

/-- As long as files run out before calls, there is no stack overflow. -/
theorem nested_eq {c o : Nat} (h : o < c) : nested files c o = pkgselParse files o := by
  induction o generalizing c with
  | zero =>
    obtain ⟨c, rfl⟩ := Nat.exists_eq_succ_of_ne_zero (by omega : c ≠ 0)
    rfl
  | succ o ih =>
    obtain ⟨c, rfl⟩ := Nat.exists_eq_succ_of_ne_zero (by omega : c ≠ 0)
    have hinner : nested files c o = pkgselParse files o := ih (by omega)
    funext file t
    cases hfile : files file <;> simp only [nested, pkgselParse, hfile, hinner]

/-- Where files run out before calls, the outcome is that of `pkgselParse`. -/
theorem outcome_eq (h : L.opens < L.calls) (file : Text) (t : Table) :
    ∃ n, ∀ m ≥ n, after L files m file t = .ended (pkgselParse files L.opens file t) := by
  obtain ⟨n, hn⟩ := after_eq L files file t
  rw [nested_eq h] at hn
  exact ⟨n, hn⟩

end

/-- **Reading a rule file ends**, whatever the files include, with any limits. -/
theorem pkgsel_parse_ends (L : Limits) (files : Files) (file : Text) (t : Table) :
    ∃ n o, ∀ m ≥ n, after L files m file t = .ended o := by
  obtain ⟨n, hn⟩ := after_eq L files file t
  exact ⟨n, _, hn⟩

/-! ## Finite graphs -/

/-- Induction along a relation that reaches finitely many from `a`, and none of these again from itself. -/
theorem reach_induction {α : Type} {r : α → α → Prop} {a : α} (hfin : Set.Finite {b | ReflTransGen r a b})
    (hacyclic : ∀ b, ReflTransGen r a b → ¬ TransGen r b b) {P : α → Prop} (hP : ∀ b, (∀ c, r b c → P c) → P b) :
    P a := by
  have : Finite {b // ReflTransGen r a b} := hfin
  let below (x y : {b // ReflTransGen r a b}) : Prop := TransGen r y.1 x.1
  have : IsTrans _ below := ⟨fun _ _ _ hxy hyz => hyz.trans hxy⟩
  have : Std.Irrefl below := ⟨fun x hx => hacyclic x.1 x.2 hx⟩
  have hwf : WellFounded below := Finite.wellFounded_of_trans_of_irrefl below
  have hall (x : {b // ReflTransGen r a b}) : P x.1 :=
    hwf.induction x fun x ih => hP x.1 fun c hc => ih ⟨c, x.2.tail hc⟩ (TransGen.single hc)
  exact hall ⟨a, ReflTransGen.refl⟩

/-! ## Including -/

def Includes (files : Files) (f g : Text) : Prop :=
  ∃ lines, files f = some lines ∧ ∃ line ∈ lines, lineRule (uncomment line) = some (.include g)

/-- The file includes itself, directly or through others. -/
def Cyclic (files : Files) (f : Text) : Prop := TransGen (Includes files) f f

/-- From some number of files on that can be open, the result is the same. -/
def Settled (files : Files) (f : Text) (t : Table) : Prop :=
  ∃ n, ∀ m ≥ n, pkgselParse files m f t = pkgselParse files n f t

section
variable {files : Files}

/-- Finitely many files, under whatever names, name finitely many. -/
theorem finite_included (hfiles : (Set.range files).Finite) : Set.Finite {g | ∃ f, Includes files f g} := by
  have hsub : {g | ∃ f, Includes files f g} ⊆
      ⋃ o ∈ Set.range files, ⋃ line ∈ {line | line ∈ o.getD []},
        {g | lineRule (uncomment line) = some (.include g)} := by
    rintro g ⟨f, lines, hlines, line, hline, hrule⟩
    simp only [Set.mem_iUnion]
    exact ⟨files f, ⟨f, rfl⟩, line, by simpa [hlines] using hline, hrule⟩
  refine Set.Finite.subset (hfiles.biUnion fun o _ => ?_) hsub
  refine Set.Finite.biUnion (List.finite_toSet (o.getD [])) fun line _ => ?_
  apply Set.Subsingleton.finite
  intro g hg g' hg'
  have h : some (Rule.include g) = some (Rule.include g') := hg.symm.trans hg'
  simpa using h

theorem finite_reached (hfiles : (Set.range files).Finite) (f : Text) :
    Set.Finite {g | ReflTransGen (Includes files) f g} := by
  refine Set.Finite.subset ((finite_included hfiles).insert f) fun g hg => ?_
  rcases ReflTransGen.cases_tail hg with rfl | ⟨h, -, hincl⟩
  · exact Set.mem_insert g _
  · exact Set.mem_insert_of_mem f ⟨h, hincl⟩

/-! ## Without a cycle -/

/-- A line asks for the file that it includes only. -/
theorem selLine_congr {sub sub' : Text → Table → Out} {line : Text}
    (h : ∀ g, lineRule (uncomment line) = some (.include g) → sub g = sub' g) :
    selLine sub line = selLine sub' line := by
  funext t
  unfold selLine
  split
  · rfl
  · rw [h _ ‹_›]
  · rfl

theorem selLines_congr {sub sub' : Text → Table → Out} {lines : List Text}
    (h : ∀ line ∈ lines, ∀ g, lineRule (uncomment line) = some (.include g) → sub g = sub' g) (t : Table) :
    selLines sub lines t = selLines sub' lines t := by
  induction lines generalizing t with
  | nil => rfl
  | cons line lines ih =>
    obtain ⟨hline, hlines⟩ := List.forall_mem_cons.1 h
    rw [selLines, selLines, selLine_congr hline]
    simp only [ih hlines]

/-- With `n` files open, and with more, the result is the same. -/
def SettledAt (files : Files) (n : Nat) (f : Text) : Prop := ∀ m ≥ n, pkgselParse files m f = pkgselParse files n f

theorem SettledAt.mono {n k : Nat} {f : Text} (h : SettledAt files n f) (hk : n ≤ k) : SettledAt files k f :=
  fun m hm => by rw [h m (by omega), h k hk]

/-- One number of files for all that the lines include. -/
theorem settledAt_all {lines : List Text}
    (h : ∀ line ∈ lines, ∀ g, lineRule (uncomment line) = some (.include g) → ∃ n, SettledAt files n g) :
    ∃ n, ∀ line ∈ lines, ∀ g, lineRule (uncomment line) = some (.include g) → SettledAt files n g := by
  induction lines with
  | nil => exact ⟨0, by simp⟩
  | cons line lines ih =>
    obtain ⟨hline, hlines⟩ := List.forall_mem_cons.1 h
    obtain ⟨n, hn⟩ := ih hlines
    by_cases hg : ∃ g, lineRule (uncomment line) = some (.include g)
    · obtain ⟨g, hg⟩ := hg
      obtain ⟨k, hk⟩ := hline g hg
      refine ⟨max n k, List.forall_mem_cons.2 ⟨fun g' hg' => ?_, fun l hl g' hg' => ?_⟩⟩
      · obtain rfl : g = g' := by simpa [hg] using hg'
        exact hk.mono (le_max_right n k)
      · exact (hn l hl g' hg').mono (le_max_left n k)
    · refine ⟨n, List.forall_mem_cons.2 ⟨fun g' hg' => absurd ⟨g', hg'⟩ hg, hn⟩⟩

theorem settledAt_of_included {f : Text} (h : ∀ g, Includes files f g → ∃ n, SettledAt files n g) :
    ∃ n, SettledAt files n f := by
  cases hf : files f with
  | none =>
    refine ⟨0, fun m _ => funext fun t => ?_⟩
    cases m with
    | zero => rfl
    | succ m => simp only [pkgselParse, hf]
  | some lines =>
    obtain ⟨n, hn⟩ := @settledAt_all files lines fun line hline g hg => h g ⟨lines, hf, line, hline, hg⟩
    refine ⟨n + 1, fun m hm => funext fun t => ?_⟩
    obtain ⟨m, rfl⟩ : ∃ k, m = k + 1 := ⟨m - 1, by omega⟩
    rw [pkgselParse, pkgselParse, hf]
    exact selLines_congr (fun line hline g hg => hn line hline g hg m (by omega)) t

/-- No file that is reached includes itself: some number of files is enough. -/
theorem settled_of_acyclic (hfiles : (Set.range files).Finite) {f : Text}
    (h : ∀ g, ReflTransGen (Includes files) f g → ¬ Cyclic files g) (t : Table) : Settled files f t := by
  obtain ⟨n, hn⟩ : ∃ n, SettledAt files n f :=
    reach_induction (finite_reached hfiles f) h fun g hg => settledAt_of_included hg
  exact ⟨n, fun m hm => congrFun (hn m hm) t⟩

/-! ## With a cycle -/

/-- The table without entries raises no error, and stays. -/
def Calm (o : Out) : Prop := o.packages = [] ∧ o.ok = true

theorem pkgswitch_nil (m : Mode) (args : List Text) : pkgswitch m args [] = ([], true) := by
  induction args with
  | nil => rfl
  | cons arg args ih =>
    rw [pkgswitch]
    exact ih

theorem selLine_calm {sub : Text → Table → Out} (hsub : ∀ g, Calm (sub g [])) (line : Text) :
    Calm (selLine sub line []) := by
  unfold selLine
  split
  · simp only [pkgswitch_nil]
    exact ⟨rfl, rfl⟩
  · exact hsub _
  · exact ⟨rfl, rfl⟩

theorem selLines_calm {sub : Text → Table → Out} (hsub : ∀ g, Calm (sub g [])) (lines : List Text) :
    Calm (selLines sub lines []) := by
  induction lines with
  | nil => exact ⟨rfl, rfl⟩
  | cons line lines ih =>
    obtain ⟨hpackages, hok⟩ := selLine_calm hsub line
    rw [selLines]
    simp only [hok, hpackages, if_true]
    exact ih

theorem pkgselParse_calm (n : Nat) (f : Text) : Calm (pkgselParse files n f []) := by
  induction n generalizing f with
  | zero => exact ⟨rfl, rfl⟩
  | succ n ih =>
    rw [pkgselParse]
    split
    · exact ⟨rfl, rfl⟩
    · exact selLines_calm ih _

/-- What a line writes is in what the lines write. -/
theorem selLine_log_le {sub : Text → Table → Out} (hsub : ∀ g, Calm (sub g [])) {line : Text} {lines : List Text}
    (h : line ∈ lines) : (selLine sub line []).log.length ≤ (selLines sub lines []).log.length := by
  induction lines with
  | nil => cases h
  | cons l lines ih =>
    obtain ⟨hpackages, hok⟩ := selLine_calm hsub l
    rw [selLines]
    simp only [hok, hpackages, if_true, List.length_append]
    rcases List.mem_cons.1 h with rfl | h
    · exact Nat.le_add_right _ _
    · exact (ih h).trans (Nat.le_add_left _ _)

/-- A file that comes to one that includes itself includes another one of the kind. -/
theorem includes_cyclic {f g : Text} (h : ReflTransGen (Includes files) f g) (hg : Cyclic files g) :
    ∃ f', Includes files f f' ∧ ReflTransGen (Includes files) f' g := by
  rcases ReflTransGen.cases_head h with rfl | h
  · obtain ⟨f', hf, hrest⟩ := TransGen.head'_iff.1 hg
    exact ⟨f', hf, hrest⟩
  · exact h

/-- **A cycle** goes on as long as files can be opened. -/
theorem open_files {f g : Text} (h : ReflTransGen (Includes files) f g) (hg : Cyclic files g) (n : Nat) :
    n ≤ (pkgselParse files n f []).log.length := by
  induction n generalizing f with
  | zero => exact Nat.zero_le _
  | succ n ih =>
    obtain ⟨f', ⟨lines, hlines, line, hline, hrule⟩, hrest⟩ := includes_cyclic h hg
    have hlog := selLine_log_le (@pkgselParse_calm files n) hline
    rw [pkgselParse, hlines]
    refine le_trans ?_ hlog
    simpa [selLine, hrule] using ih hrest

theorem not_settled_of_cyclic {f g : Text} (h : ReflTransGen (Includes files) f g) (hg : Cyclic files g) :
    ¬ Settled files f [] := by
  rintro ⟨n, hn⟩
  have hlog := open_files h hg (max n ((pkgselParse files n f []).log.length + 1))
  rw [hn _ (le_max_left _ _)] at hlog
  omega

end

/-- **When the number of files makes no difference**, of finitely many: no file that is reached includes itself,
directly or through others. -/
theorem settled_iff (files : Files) (hfiles : (Set.range files).Finite) (f : Text) :
    (∀ t, Settled files f t) ↔ ∀ g, ReflTransGen (Includes files) f g → ¬ Cyclic files g :=
  ⟨fun hsettled _ hg hcyclic => not_settled_of_cyclic hg hcyclic (hsettled []), settled_of_acyclic hfiles⟩

end T2Sde.Packages
