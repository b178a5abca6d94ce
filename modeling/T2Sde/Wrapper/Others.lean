import T2Sde.Lib.Words
/-!
# Other command wrappers (`misc/tools-source/cmd_wrapper.c`)

`prefix_WRAPPER_OTHERS` lists programs that are run before the command; each of them starts the command wrapper
again. How far the list has been run is kept in `prefix_WRAPPER_OTHERS_DONE`, which gets the whole rest of the list
with the second program. The memory for it has as many bytes as the list has characters, so that its zero, and what
may come before it, is written behind the end.

| here | `cmd_wrapper.c` |
| --- | --- |
| `cleanenv`     | `cleanenv` :59-82 |
| `nextOther`    | `main`, "extract the next other wrapper" :222-258 |
| `doneBuilt`    | `strdup` and `malloc` there :229, :245-248 |
| `Env.exec`     | `main`, the end :423-516 |

Left out are the options (`INSERT`, `REMOVE`, `APPEND`) and the filter, which the list does not depend on, and
`BYPASS`.

* `exec_first`, `exec_resumed`, `exec_last` — one generation.
* `doneBuilt_fit` — a list that is taken up again does not fit.
* `others_run_once` — **the list is run** if it has at most one name.
-/
namespace T2Sde.Wrapper
open Shell

/-- The loop of `cleanenv`; `delim` says that a separator comes to nothing. -/
def cleanLoop (ch : Char) : Bool → Text → Text
  | _, [] => []
  | delim, c :: s =>
    if c = ch then if delim then cleanLoop ch true s else ch :: cleanLoop ch true s
    else c :: cleanLoop ch false s

def cleanenv (ch : Char) (value : Option Text) : Text :=
  let t := cleanLoop ch true (value.getD [])
  if t.getLast? = some ch then t.dropLast else t

/-- The variables that the end of `main` reads. -/
structure Env where
  others : Option Text
  done : Option Text
  path : Option Text
  mypath : Option Text
  noloop : Option Text
  deriving DecidableEq

/-- What becomes of the process. -/
inductive Exec
  | wrapper (name : Text)
  | command
  | exit (status : Nat)
  /-- A write behind the end of a string -/
  | outOfBounds
  deriving DecidableEq

/-- A string, without its zero, and how many bytes it was given. -/
structure Built where
  size : Nat
  text : Text
  deriving DecidableEq

def Built.Fits (b : Built) : Prop := b.text.length + 1 ≤ b.size

instance Built.decidableFits (b : Built) : Decidable b.Fits := inferInstanceAs (Decidable (_ ≤ _))

/-- The wrapper to run next, and the list that is done then; none if the two lists do not match. What is allocated for
them is in `doneBuilt`. -/
def nextOther (others : Text) (done : Option Text) : Option (Text × Option Text) :=
  if others = [] then some ([], done)
  else
    match done with
    | none =>
      let other := others.takeWhile (· != ':')
      some (other, some other)
    | some d =>
      if d.isPrefixOf others then
        match others.drop d.length with
        | [] => some ([], done)
        | c :: t =>
          let other := if c = ':' then t else c :: t
          some (other, some (d ++ ':' :: other))
      else none

/-- `strdup(other)`, and the new value where there is one; it gets as many bytes as `OTHERS` has characters. -/
def doneBuilt (others : Text) (done : Option Text) : List Built :=
  if others = [] then []
  else ⟨others.length + 1, others⟩ ::
    match done with
    | none => []
    | some d =>
      if d.isPrefixOf others then
        match others.drop d.length with
        | [] => []
        | c :: t => [⟨others.length, d ++ ':' :: if c = ':' then t else c :: t⟩]
      else []

def isSet (v : Option Text) : Bool := (v.getD []) != []

/-- One run of the wrapper: what it executes, and with which variables. -/
def Env.exec (e : Env) : Exec × Env :=
  let others := cleanenv ':' e.others
  let e := { e with others := some others }
  match nextOther others e.done with
  | none => (.exit 249, e)
  | some (other, done) =>
    let e' := { e with done }
    if ∃ b ∈ doneBuilt others e.done, ¬ b.Fits then (.outOfBounds, e)
    else if other ≠ [] then (.wrapper other, e')
    else if !isSet e.path || !isSet e.mypath then (.exit 252, e')
    else if isSet e.noloop && (e.noloop.getD []).head? != some '0' then (.exit 251, e')
    else (.command, { e' with noloop := some "1".toList })

/-- The programs of the list start the wrapper again, with the same variables; nothing else does. -/
inductive Runs (names : List Text) : Env → List Exec → Prop
  | last {e : Env} {x : Exec} (hx : e.exec.1 = x) (h : ∀ name ∈ names, x ≠ .wrapper name) : Runs names e [x]
  | again {e : Env} {name : Text} {xs : List Exec} (hname : name ∈ names) (h : e.exec.1 = .wrapper name)
      (hrest : Runs names e.exec.2 xs) : Runs names e (.wrapper name :: xs)

/-- A list of programs, and a first process that can come to the command. -/
structure Start where
  names : List Text
  ne : ∀ name ∈ names, name ≠ []
  noColon : ∀ name ∈ names, ':' ∉ name
  path : Text
  mypath : Text
  pathSet : path ≠ []
  mypathSet : mypath ≠ []

/-- `w1:w2:…` -/
def joinNames (names : List Text) : Text := [':'].intercalate names

def Start.env (s : Start) : Env where
  others := some (joinNames s.names)
  done := none
  path := some s.path
  mypath := some s.mypath
  noloop := some ['0']

/-! ## Clean lists -/

theorem joinNames_cons (name : Text) (names : List Text) :
    joinNames (name :: names) = name ++ names.flatMap (':' :: ·) := by
  induction names generalizing name with
  | nil => simp [joinNames]
  | cons n names ih =>
    have h := ih n
    unfold joinNames at h ⊢
    rw [List.intercalate_cons_cons, h]
    simp

theorem cleanLoop_name {w : Text} (hw : ':' ∉ w) (delim : Bool) (s : Text) :
    cleanLoop ':' delim (w ++ s) = w ++ cleanLoop ':' (if w = [] then delim else false) s := by
  induction w generalizing delim with
  | nil => rfl
  | cons c w ih =>
    rw [List.mem_cons, not_or] at hw
    rw [List.cons_append, cleanLoop, if_neg (Ne.symm hw.1), ih hw.2]
    cases w <;> rfl

theorem cleanLoop_names {names : List Text} (hne : ∀ name ∈ names, name ≠ []) (hcolon : ∀ name ∈ names, ':' ∉ name) :
    cleanLoop ':' false (names.flatMap (':' :: ·)) = names.flatMap (':' :: ·) := by
  induction names with
  | nil => rfl
  | cons n names ih =>
    obtain ⟨hn, hne⟩ := List.forall_mem_cons.1 hne
    obtain ⟨hc, hcolon⟩ := List.forall_mem_cons.1 hcolon
    rw [List.flatMap_cons, List.cons_append, cleanLoop, if_pos rfl, if_neg (by simp), cleanLoop_name hc, if_neg hn,
      ih hne hcolon]

/-- A list without empty names is clean. -/
theorem cleanenv_joinNames (s : Start) : cleanenv ':' (some (joinNames s.names)) = joinNames s.names := by
  have hloop : cleanLoop ':' true (joinNames s.names) = joinNames s.names := by
    cases hnames : s.names with
    | nil => rfl
    | cons n names =>
      obtain ⟨hn, hne⟩ := List.forall_mem_cons.1 (hnames ▸ s.ne)
      obtain ⟨hc, hcolon⟩ := List.forall_mem_cons.1 (hnames ▸ s.noColon)
      rw [joinNames_cons, cleanLoop_name hc, if_neg hn, cleanLoop_names hne hcolon]
  have hlast : (joinNames s.names).getLast? ≠ some ':' := by
    intro h
    obtain ⟨names, n, hnames⟩ : ∃ names n, s.names = names ++ [n] := by
      rcases List.eq_nil_or_concat s.names with hnil | h
      · simp [joinNames, hnil] at h
      · simpa using h
    have hn : n ∈ s.names := by simp [hnames]
    have hend : ∃ u, joinNames s.names = u ++ n := by
      rw [hnames]
      cases names with
      | nil => exact ⟨[], by simp [joinNames]⟩
      | cons m names => exact ⟨m ++ names.flatMap (':' :: ·) ++ [':'], by simp [joinNames_cons]⟩
    obtain ⟨u, hu⟩ := hend
    rw [hu, List.getLast?_append_of_ne_nil _ (s.ne n hn)] at h
    exact s.noColon n hn (List.mem_of_getLast? h)
  simp only [cleanenv, Option.getD_some, hloop, if_neg hlast]

/-! ## Generations -/

/-- The new value of `OTHERS_DONE` is longer than `OTHERS`, or as long. -/
theorem doneBuilt_fit (others : Text) (done : Option Text) :
    (∀ b ∈ doneBuilt others done, b.Fits) ↔ ¬ ∃ d ∈ done, ∃ t ≠ [], others = d ++ t := by
  unfold doneBuilt
  by_cases hempty : others = []
  · rw [if_pos hempty]
    refine iff_of_true (by simp) ?_
    rintro ⟨d, -, t, hne, ht⟩
    exact hne (List.append_eq_nil_iff.1 (ht.symm.trans hempty)).2
  · rw [if_neg hempty, List.forall_mem_cons]
    have hcopy : Built.Fits ⟨others.length + 1, others⟩ := le_rfl
    rw [iff_true_intro hcopy, true_and]
    cases done with
    | none => simp
    | some d =>
      dsimp only
      by_cases hprefix : d <+: others
      · obtain ⟨t, rfl⟩ := hprefix
        rw [if_pos (by simp), List.drop_left]
        cases t with
        | nil =>
          refine iff_of_true (by simp) ?_
          rintro ⟨d', hd, t, hne, ht⟩
          obtain rfl := Option.some.inj hd
          exact hne (List.append_cancel_left ht).symm
        | cons c t =>
          refine iff_of_false ?_ ?_
          · intro hfits
            have hfits := hfits _ (List.mem_singleton_self _)
            unfold Built.Fits at hfits
            dsimp only at hfits
            split at hfits <;> simp only [List.length_append, List.length_cons] at hfits <;> omega
          · rw [not_not]
            exact ⟨d, rfl, c :: t, by simp, rfl⟩
      · rw [if_neg (by simpa using hprefix)]
        refine iff_of_true (by simp) ?_
        rintro ⟨d', hd, t, _, ht⟩
        obtain rfl := Option.some.inj hd
        exact hprefix ⟨t, ht.symm⟩

section
variable (s : Start)

/-- The variables when `done` of the list is done. -/
def Start.env' (done : Option Text) : Env := { s.env with done }

/-- One run: the wrapper that `nextOther` gives, or the command. -/
theorem Start.exec_eq (done : Option Text) :
    (s.env' done).exec =
      match nextOther (joinNames s.names) done with
      | none => (.exit 249, s.env' done)
      | some (other, done') =>
        if ∃ b ∈ doneBuilt (joinNames s.names) done, ¬ b.Fits then (.outOfBounds, s.env' done)
        else if other ≠ [] then (.wrapper other, s.env' done')
        else (.command, { s.env' done' with noloop := some "1".toList }) := by
  have hpath : isSet (some s.path) = true := by simp [isSet, s.pathSet]
  have hmypath : isSet (some s.mypath) = true := by simp [isSet, s.mypathSet]
  unfold Env.exec
  simp only [Start.env', Start.env, cleanenv_joinNames]
  cases nextOther (joinNames s.names) done with
  | none => rfl
  | some x =>
    simp only [hpath, hmypath]
    rfl

variable {s}

/-- The first program. -/
theorem exec_first {name : Text} {names : List Text} (h : s.names = name :: names) :
    s.env.exec = (.wrapper name, s.env' (some name)) := by
  have hne : name ≠ [] := s.ne name (by simp [h])
  have hcolon : ∀ c ∈ name, (c != ':') = true := fun c hc => by
    rw [bne_iff_ne]
    rintro rfl
    exact s.noColon name (by simp [h]) hc
  have hjoin : joinNames s.names ≠ [] := by simp [h, joinNames_cons, hne]
  have htake : (joinNames s.names).takeWhile (· != ':') = name := by
    rw [h, joinNames_cons, List.takeWhile_append_of_pos hcolon]
    cases names <;> simp
  have hfits : ¬ ∃ b ∈ doneBuilt (joinNames s.names) none, ¬ b.Fits := by
    have hall := (doneBuilt_fit (joinNames s.names) none).2 (by simp)
    simpa using hall
  rw [show s.env = s.env' none from rfl, s.exec_eq, nextOther, if_neg hjoin]
  simp only [htake, if_neg hfits, if_pos hne]

/-- A list that is done in part does not fit: the new value is as long as the memory, or longer. -/
theorem exec_resumed {d t : Text} (h : joinNames s.names = d ++ t) (ht : t ≠ []) :
    (s.env' (some d)).exec.1 = .outOfBounds := by
  obtain ⟨c, u, rfl⟩ := List.exists_cons_of_ne_nil ht
  have hjoin : joinNames s.names ≠ [] := by simp [h]
  have hfront : d.isPrefixOf (joinNames s.names) = true := List.isPrefixOf_iff_prefix.2 ⟨c :: u, h.symm⟩
  have hdrop : (joinNames s.names).drop d.length = c :: u := by rw [h, List.drop_left]
  have hover : ∃ b ∈ doneBuilt (joinNames s.names) (some d), ¬ b.Fits := by
    have hnot := mt (doneBuilt_fit (joinNames s.names) (some d)).1 (not_not.2 ⟨d, rfl, c :: u, ht, h⟩)
    simpa using hnot
  rw [s.exec_eq, nextOther, if_neg hjoin]
  simp only [hfront, hdrop, if_true, if_pos hover]

/-- When the list is done, or there is none, the command is run. -/
theorem exec_last {done : Option Text} (h : done = some (joinNames s.names) ∨ s.names = []) :
    (s.env' done).exec.1 = .command := by
  have hnone : ∃ done', nextOther (joinNames s.names) done = some ([], done') := by
    unfold nextOther
    by_cases hnil : joinNames s.names = []
    · exact ⟨done, by rw [if_pos hnil]⟩
    · rcases h with rfl | h
      · refine ⟨some (joinNames s.names), ?_⟩
        simp only [if_neg hnil, List.isPrefixOf_iff_prefix.2 (List.prefix_refl _), if_true, List.drop_length]
      · exact absurd (by simp [h, joinNames]) hnil
  have hfits : ¬ ∃ b ∈ doneBuilt (joinNames s.names) done, ¬ b.Fits := by
    have hall : ∀ b ∈ doneBuilt (joinNames s.names) done, b.Fits := by
      rw [doneBuilt_fit]
      rintro ⟨d, hd, t, hne, ht⟩
      rcases h with rfl | h
      · obtain rfl := Option.some.inj hd
        exact hne (List.self_eq_append_right.1 ht)
      · have hnil : joinNames s.names = [] := by simp [h, joinNames]
        exact hne (List.append_eq_nil_iff.1 (ht.symm.trans hnil)).2
    simpa using hall
  obtain ⟨done', hnone⟩ := hnone
  rw [s.exec_eq, hnone]
  simp only [if_neg hfits]
  rfl

end

theorem Runs.command {s : Start} {done : Option Text} (h : done = some (joinNames s.names) ∨ s.names = []) :
    Runs s.names (s.env' done) [.command] :=
  .last (exec_last h) fun _ _ => by simp

/-- **The programs of the list are run, each once and in order, and then the command**, exactly if there is at most
one. -/
theorem others_run_once (s : Start) :
    Runs s.names s.env (s.names.map .wrapper ++ [.command]) ↔ s.names.length ≤ 1 := by
  constructor
  · intro h
    by_contra hlen
    obtain ⟨name, other, names, hnames⟩ : ∃ a b l, s.names = a :: b :: l := by
      rcases hs : s.names with _ | ⟨a, _ | ⟨b, l⟩⟩
      · simp [hs] at hlen
      · simp [hs] at hlen
      · exact ⟨a, b, l, rfl⟩
    have hlist : s.names.map Exec.wrapper ++ [.command] =
        .wrapper name :: .wrapper other :: (names.map Exec.wrapper ++ [.command]) := by
      simp [hnames]
    have hsplit : joinNames s.names = name ++ (':' :: (other ++ names.flatMap (':' :: ·))) := by
      simp [hnames, joinNames_cons]
    rw [hlist] at h
    generalize names.map Exec.wrapper ++ [.command] = rest at h
    have hrest : Runs s.names s.env.exec.2 (.wrapper other :: rest) := by
      cases h
      assumption
    have hsecond : s.env.exec.2.exec.1 = .wrapper other := by
      cases hrest <;> assumption
    rw [exec_first hnames, exec_resumed hsplit (List.cons_ne_nil _ _)] at hsecond
    cases hsecond
  · intro hlen
    rcases hs : s.names with _ | ⟨name, _ | ⟨other, names⟩⟩
    · have hcommand : Runs s.names (s.env' none) [.command] := .command (.inr hs)
      rwa [hs] at hcommand
    · have hone : joinNames s.names = name := by simp [hs, joinNames]
      have hcommand : Runs s.names s.env.exec.2 [.command] := by
        rw [exec_first hs]
        exact .command (.inl (by rw [hone]))
      rw [← hs]
      simpa [hs] using Runs.again (by simp [hs]) (congrArg Prod.fst (exec_first hs)) hcommand
    · simp [hs] at hlen

/-- Three wrappers, as `ccache`, `distcc` and a third one would be. -/
def threeWrappers : Start where
  names := ["ccache".toList, "distcc".toList, "nice".toList]
  ne := by decide
  noColon := by decide
  path := "/usr/bin".toList
  mypath := "/tools".toList
  pathSet := by decide
  mypathSet := by decide

/-- The second run takes the last two names for one program, and has no room for the zero behind them. -/
theorem third_wrapper_lost :
    threeWrappers.env.exec.1 = .wrapper "ccache".toList ∧
      (nextOther "ccache:distcc:nice".toList (some "ccache".toList)).map Prod.fst = some "distcc:nice".toList ∧
      threeWrappers.env.exec.2.exec.1 = .outOfBounds ∧
      ¬ Runs threeWrappers.names threeWrappers.env (threeWrappers.names.map .wrapper ++ [.command]) := by
  have hsecond : threeWrappers.env.exec.2.exec.1 = .outOfBounds := by decide +kernel
  refine ⟨by decide +kernel, by decide +kernel, hsecond, fun h => ?_⟩
  have hlist : threeWrappers.names.map Exec.wrapper ++ [.command] =
      .wrapper "ccache".toList :: .wrapper "distcc".toList :: .wrapper "nice".toList :: [.command] := rfl
  rw [hlist] at h
  cases h with
  | again _ _ hrest =>
    cases hrest with
    | again _ hexec _ =>
      rw [hsecond] at hexec
      cases hexec

end T2Sde.Wrapper
