import T2Sde.Wrapper.Others
import T2Sde.Wrapper.Log
/-!
# The new command line (`misc/tools-source/cmd_wrapper.c`)

The wrapper puts options in and takes options off with `strtok` over copies of its variables, and evaluates conditions
`condition?matched:unmatched` in place, with zeros in the copy. What it executes is an array of pointers into these
copies, which are read when the command starts.

| here | there |
| --- | --- |
| `charAt`, `scan`, `strtok` | `strtok` of the C library, the loops over a text |
| `evalCondArg`   | `eval_cond_arg` :88-126 |
| `NewArgv.push`  | `realloc_if_needed` :129-135, `newargv[c1++] = …` |
| `insertOptions` | the loops over `INSERT` :277-297 and `APPEND` :336-357 |
| `isRemoved`     | the loop over `REMOVE` :305-319 |
| `mainWork`      | "Main work" :263-357, `newargv[c1] = NULL` |
| `newCommand`    | `main` up to `execvp` |

* `evalCondArg_spec` — a condition is evaluated in place as it reads as a text.
* `insertOptions_spec`, `isRemoved_spec` — the loops over the tokens.
* `newArgv_push` — the array grows before it is full.
* `newCommand_eq` — **the command line that is executed**.
-/
namespace T2Sde.Wrapper
open Shell

/-! ## Texts in memory -/

def charAt (buf : Text) (p : Nat) : Char := buf.getD p nul

/-- From `p` to the next `d`, or to the end of the text. -/
def scan (d : Char) (buf : Text) (p : Nat) : Nat := p + ((buf.drop p).takeWhile fun c => c != nul && c != d).length

/-- `strtok`: the next token, the buffer with the zero behind it, and where to go on. -/
def strtok (buf : Text) (save : Nat) : Option Nat × Text × Nat :=
  let token := save + ((buf.drop save).takeWhile (· == ' ')).length
  if charAt buf token = nul then (none, buf, token)
  else
    let stop := scan ' ' buf token
    if charAt buf stop = nul then (some token, buf, stop) else (some token, buf.set stop nul, stop + 1)

section
variable (fnmatch : Text → Text → Bool) (argv : List Text)

/-- What `arg` is replaced by, and the buffer; the conditions of an argument are not more than its characters. -/
def evalCondArg : Nat → Text → Nat → Nat × Text
  | 0, buf, arg => (arg, buf)
  | n + 1, buf, arg =>
    let c := scan '?' buf arg
    if charAt buf c ≠ '?' then (arg, buf)
    else
      let buf := buf.set c nul
      let lhs := c + 1
      let c := scan ':' buf lhs
      let rhs := if charAt buf c = ':' then c + 1 else c
      let buf := if charAt buf c = ':' then buf.set c nul else buf
      if argv.any (fnmatch (cstr (buf.drop arg))) then (lhs, buf) else evalCondArg n buf rhs

/-! ## The array -/

/-- A pointer to the other wrapper, to an argument, or into the copy of `INSERT` or of `APPEND`. -/
inductive Ptr
  | other
  | argv (i : Nat)
  | insert (p : Nat)
  | append (p : Nat)
  deriving DecidableEq

inductive Cell
  | unset
  | ptr (p : Ptr)
  | null
  deriving DecidableEq

structure NewArgv where
  cells : List Cell
  c1 : Nat

/-- `newargv[c1++] = …`; a cell beyond the end is none of the array. -/
def NewArgv.store (a : NewArgv) (cell : Cell) : Option NewArgv :=
  if a.c1 < a.cells.length then some { cells := a.cells.set a.c1 cell, c1 := a.c1 + 1 } else none

def NewArgv.reallocIfNeeded (a : NewArgv) : NewArgv :=
  if a.c1 + 1 ≥ a.cells.length then { a with cells := a.cells ++ List.replicate a.cells.length .unset } else a

def NewArgv.push (a : NewArgv) (p : Ptr) : Option NewArgv := a.reallocIfNeeded.store (.ptr p)

/-- The pointers up to the null pointer. -/
def readArgv : List Cell → Option (List Ptr)
  | .ptr p :: cells => (readArgv cells).map (p :: ·)
  | .null :: _ => some []
  | _ => none

/-! ## The loops -/

/-- The tokens of a copy, evaluated, into the array; `into` makes a pointer of a place. -/
def insertOptions (into : Nat → Ptr) : Nat → Text → Nat → NewArgv → Option (Text × NewArgv)
  | 0, buf, _, a => some (buf, a)
  | n + 1, buf, save, a =>
    match strtok buf save with
    | (none, buf, _) => some (buf, a)
    | (some token, buf, save) =>
      let (p, buf) := evalCondArg fnmatch argv buf.length buf token
      if charAt buf p ≠ nul then (a.push (into p)).bind (insertOptions into n buf save)
      else insertOptions into n buf save a

/-- A token of the copy matches the argument. -/
def isRemoved (arg : Text) : Nat → Text → Nat → Bool
  | 0, _, _ => false
  | n + 1, buf, save =>
    match strtok buf save with
    | (none, _, _) => false
    | (some token, buf, save) =>
      let (p, buf) := evalCondArg fnmatch argv buf.length buf token
      if charAt buf p ≠ nul && fnmatch (cstr (buf.drop p)) arg then true else isRemoved arg n buf save

/-- `malloc`, `strcpy` -/
def copy (value : Text) : Text := value ++ [nul]

/-- The arguments from number `c2` on. -/
def copyArgs (remove : Text) : List Text → Nat → NewArgv → Option NewArgv
  | [], _, a => some a
  | arg :: args, c2, a =>
    if isRemoved fnmatch argv arg (copy remove).length (copy remove) 0 then copyArgs remove args (c2 + 1) a
    else (a.push (.argv c2)).bind (copyArgs remove args (c2 + 1))

/-- The array and the two copies when the command starts. -/
structure Memory where
  cells : List Cell
  inserted : Text
  appended : Text

/-- The array with the other wrapper, if there is one, and the name of the command. -/
def firstCells (other : Text) : Option NewArgv :=
  let a : NewArgv := { cells := List.replicate 64 .unset, c1 := 0 }
  if other ≠ [] then (a.store (.ptr .other)).bind (·.store (.ptr (.argv 0))) else a.store (.ptr (.argv 0))

def mainWork (other insert remove append : Text) : Option Memory := do
  let a ← firstCells other
  let (inserted, a) ← insertOptions fnmatch argv .insert (copy insert).length (copy insert) 0 a
  let a ← copyArgs fnmatch argv remove (argv.drop 1) 1 a
  let (appended, a) ← insertOptions fnmatch argv .append (copy append).length (copy append) 0 a
  let a ← a.store .null
  return { cells := a.cells, inserted, appended }

/-- The text at a pointer. -/
def Memory.text (m : Memory) (other : Text) : Ptr → Text
  | .other => other
  | .argv i => argv.getD i []
  | .insert p => cstr (m.inserted.drop p)
  | .append p => cstr (m.appended.drop p)

end

/-- What a process is started with: text without zeros. -/
structure Config where
  others : Option Text
  done : Option Text
  insert : Option Text
  remove : Option Text
  append : Option Text
  noNul : ∀ v ∈ [insert, remove, append], nul ∉ v.getD []

/-- The arguments of `main` without the name of the wrapper itself; none if there is nothing else. -/
def ownArgs (myname : Text) : List Text → Option (List Text)
  | [] => none
  | arg :: args =>
    if basename arg = myname then
      match args with
      | [] => none
      | arg :: args => some (basename arg :: args)
    else some (basename arg :: args)

/-- The command line for `execvp`, if it comes to that. -/
def newCommand (fnmatch : Text → Text → Bool) (myname : Text) (c : Config) (args : List Text) :
    Option (List Text) := do
  let argv ← ownArgs myname args
  let (other, _) ← nextOther (cleanenv ':' c.others) c.done
  let m ← mainWork fnmatch argv other (cleanenv ' ' c.insert) (cleanenv ' ' c.remove) (cleanenv ' ' c.append)
  let ps ← readArgv m.cells
  return ps.map (m.text argv other)

/-! ## What is asked of the command line -/

/-- The tokens of a variable. -/
def tokens (value : Text) : List Text := (value.splitOnP (· == ' ')).filter (· ≠ [])

/-- `condition?matched:unmatched`, with further conditions behind the colon. -/
def evalCond (fnmatch : Text → Text → Bool) (argv : List Text) (t : Text) : Text :=
  match _h : t.dropWhile (· != '?') with
  | [] => t
  | _ :: s =>
    if argv.any (fnmatch (t.takeWhile (· != '?'))) then s.takeWhile (· != ':')
    else evalCond fnmatch argv ((s.dropWhile (· != ':')).drop 1)
termination_by t.length
decreasing_by
  have h₁ := (List.dropWhile_suffix (l := t) (· != '?')).length_le
  have h₂ := (List.dropWhile_suffix (l := s) (· != ':')).length_le
  rw [_h, List.length_cons] at h₁
  rw [List.length_drop]
  omega

/-- The tokens that come to something, evaluated. -/
def options (fnmatch : Text → Text → Bool) (argv : List Text) (value : Option Text) : List Text :=
  ((tokens (value.getD [])).map (evalCond fnmatch argv)).filter (· ≠ [])

/-- The command line that is asked for. -/
def expected (fnmatch : Text → Text → Bool) (c : Config) (other : Text) (argv : List Text) : List Text :=
  (if other ≠ [] then [other] else []) ++ argv.take 1 ++ options fnmatch argv c.insert ++
    (argv.drop 1).filter (fun arg => !(options fnmatch argv c.remove).any (fnmatch · arg)) ++
    options fnmatch argv c.append

/-! ## Places in a buffer -/

theorem charAt_append (pre s : Text) : charAt (pre ++ s) pre.length = s.headD nul := by
  cases s <;> simp [charAt]

theorem set_append (pre s : Text) (c x : Char) : (pre ++ c :: s).set pre.length x = pre ++ x :: s := by
  simp

theorem scan_append (d : Char) (pre s : Text) :
    scan d (pre ++ s) pre.length = pre.length + (s.takeWhile fun c => c != nul && c != d).length := by
  rw [scan, List.drop_left]

/-- A text in memory up to a character or to its end. -/
theorem takeWhile_text {t : Text} (ht : nul ∉ t) (d : Char) (post : Text) :
    ((t ++ nul :: post).takeWhile fun c => c != nul && c != d) = t.takeWhile (· != d) := by
  induction t with
  | nil => rfl
  | cons c t ih =>
    rw [List.mem_cons, not_or] at ht
    by_cases hc : c = d
    · simp [hc]
    · simp [hc, Ne.symm ht.1, ih ht.2]

/-- What is behind a zero does not belong to the text. -/
theorem cstr_append {s : Text} (hs : nul ∈ s) (x : Text) : cstr (s ++ x) = cstr s := by
  induction s with
  | nil => simp at hs
  | cons c s ih =>
    by_cases hc : c = nul
    · simp [cstr, hc]
    · have hs : nul ∈ s := (List.mem_cons.1 hs).resolve_left (Ne.symm hc)
      have := ih hs
      rw [cstr, cstr] at this
      rw [cstr, cstr, List.cons_append, List.takeWhile_cons_of_pos (by simpa using hc), this,
        List.takeWhile_cons_of_pos (by simpa using hc)]

theorem charAt_eq_nul (buf : Text) (p : Nat) : charAt buf p = nul ↔ cstr (buf.drop p) = [] := by
  have hhead : charAt buf p = (buf.drop p).headD nul := by
    rw [charAt, List.getD_eq_getElem?_getD, List.headD_eq_head?_getD, List.head?_drop]
  rw [hhead, cstr]
  cases buf.drop p with
  | nil => simp
  | cons c s => by_cases hc : c = nul <;> simp [hc]

/-! ## Conditions -/

section
variable {fnmatch : Text → Text → Bool} {argv : List Text}

/-- A text in front of the first `d`, and what is behind it. -/
theorem split_at (d : Char) (t : Text) :
    (t.takeWhile (· != d) = t ∧ d ∉ t ∧ t.dropWhile (· != d) = []) ∨
      ∃ s, t = t.takeWhile (· != d) ++ d :: s ∧ t.dropWhile (· != d) = d :: s := by
  cases hd : t.dropWhile (· != d) with
  | nil =>
    have hall : ∀ c ∈ t, c ≠ d := by simpa using List.dropWhile_eq_nil_iff.1 hd
    refine .inl ⟨?_, fun h => hall d h rfl, rfl⟩
    have := List.takeWhile_append_dropWhile (p := (· != d)) (l := t)
    rwa [hd, List.append_nil] at this
  | cons c s =>
    have hc : c = d := by
      have := List.head?_dropWhile_not (· != d) t
      rw [hd] at this
      simpa using this
    subst hc
    refine .inr ⟨s, ?_, rfl⟩
    conv_lhs => rw [← List.takeWhile_append_dropWhile (p := (· != c)) (l := t), hd]

theorem evalCond_plain {t : Text} (h : t.dropWhile (· != '?') = []) : evalCond fnmatch argv t = t := by
  rw [evalCond]
  split
  · rfl
  next h' => rw [h] at h'; cases h'

theorem evalCond_cond {t s : Text} (h : t.dropWhile (· != '?') = '?' :: s) : evalCond fnmatch argv t =
    if argv.any (fnmatch (t.takeWhile (· != '?'))) then s.takeWhile (· != ':')
    else evalCond fnmatch argv ((s.dropWhile (· != ':')).drop 1) := by
  rw [evalCond]
  split
  next h' => rw [h] at h'; cases h'
  next h' =>
    rw [h] at h'
    obtain ⟨-, rfl⟩ := List.cons.inj h'
    rfl

/-- `eval_cond_arg` at a condition: it goes on with the text behind the question mark. -/
theorem evalCondArg_cond {cond s : Text} (hc : '?' ∉ cond) (hcn : nul ∉ cond) (n : Nat) (pre post : Text) :
    evalCondArg fnmatch argv (n + 1) (pre ++ (cond ++ '?' :: s) ++ nul :: post) pre.length =
      let before := pre ++ cond ++ [nul]
      let buf := before ++ (s ++ nul :: post)
      let c := scan ':' buf before.length
      let rhs := if charAt buf c = ':' then c + 1 else c
      let buf := if charAt buf c = ':' then buf.set c nul else buf
      if argv.any (fnmatch (cstr (buf.drop pre.length))) then (before.length, buf)
      else evalCondArg fnmatch argv n buf rhs := by
  have hbuf : pre ++ (cond ++ '?' :: s) ++ nul :: post = (pre ++ cond) ++ '?' :: (s ++ nul :: post) := by simp
  have hscan : scan '?' (pre ++ (cond ++ '?' :: s) ++ nul :: post) pre.length = (pre ++ cond).length := by
    have hall : ∀ c ∈ cond, (c != nul && c != '?') = true := fun c hcm => by
      simp only [Bool.and_eq_true, bne_iff_ne]
      exact ⟨fun h => hcn (h ▸ hcm), fun h => hc (h ▸ hcm)⟩
    rw [List.append_assoc, scan_append, List.append_assoc, List.takeWhile_append_of_pos hall, List.cons_append,
      List.takeWhile_cons_of_neg (by simp), List.append_nil, List.length_append]
  have hchar : charAt (pre ++ (cond ++ '?' :: s) ++ nul :: post) (pre ++ cond).length = '?' := by
    rw [hbuf, charAt_append]
    rfl
  have hset : (pre ++ (cond ++ '?' :: s) ++ nul :: post).set (pre ++ cond).length nul =
      pre ++ cond ++ [nul] ++ (s ++ nul :: post) := by
    rw [hbuf, set_append]
    simp
  have hlen : (pre ++ cond).length + 1 = (pre ++ cond ++ [nul]).length := by simp; omega
  rw [evalCondArg]
  simp only [hscan, hchar, hset, hlen, ne_eq, not_true_eq_false, if_false]

theorem evalCondArg_last {cond s : Text} (hc : '?' ∉ cond) (hcn : nul ∉ cond) (hs : ':' ∉ s) (hsn : nul ∉ s) (n : Nat)
    (pre post : Text) :
    evalCondArg fnmatch argv (n + 1) (pre ++ (cond ++ '?' :: s) ++ nul :: post) pre.length =
      if argv.any (fnmatch cond) then ((pre ++ cond ++ [nul]).length, pre ++ (cond ++ nul :: s) ++ nul :: post)
      else evalCondArg fnmatch argv n ((pre ++ (cond ++ nul :: s)) ++ [] ++ nul :: post)
        (pre ++ (cond ++ nul :: s)).length := by
  have htake : s.takeWhile (· != ':') = s := by
    rw [List.takeWhile_eq_self_iff]
    exact fun c hcm => by simpa using fun h : c = ':' => hs (h ▸ hcm)
  have hscan : scan ':' (pre ++ cond ++ [nul] ++ (s ++ nul :: post)) (pre ++ cond ++ [nul]).length =
      (pre ++ cond ++ [nul] ++ s).length := by
    rw [scan_append, takeWhile_text hsn, htake, ← List.length_append]
  have hchar : charAt (pre ++ cond ++ [nul] ++ (s ++ nul :: post)) (pre ++ cond ++ [nul] ++ s).length ≠ ':' := by
    rw [← List.append_assoc, charAt_append]
    exact (by decide : nul ≠ ':')
  have hcond : cstr ((pre ++ cond ++ [nul] ++ (s ++ nul :: post)).drop pre.length) = cond := by
    simp only [List.append_assoc, List.drop_left, List.singleton_append, cstr_text hcn]
  rw [evalCondArg_cond hc hcn]
  simp only [hscan, hchar, if_false, hcond]
  simp

theorem evalCondArg_colon {cond l r : Text} (hc : '?' ∉ cond) (hcn : nul ∉ cond) (hl : ':' ∉ l) (hln : nul ∉ l)
    (hrn : nul ∉ r) (n : Nat) (pre post : Text) :
    evalCondArg fnmatch argv (n + 1) (pre ++ (cond ++ '?' :: (l ++ ':' :: r)) ++ nul :: post) pre.length =
      if argv.any (fnmatch cond) then
        ((pre ++ cond ++ [nul]).length, pre ++ (cond ++ nul :: (l ++ nul :: r)) ++ nul :: post)
      else evalCondArg fnmatch argv n ((pre ++ (cond ++ nul :: (l ++ [nul]))) ++ r ++ nul :: post)
        (pre ++ (cond ++ nul :: (l ++ [nul]))).length := by
  have hsn : nul ∉ l ++ ':' :: r := by
    rw [List.mem_append, List.mem_cons, not_or, not_or]
    exact ⟨hln, by decide, hrn⟩
  have htake : (l ++ ':' :: r).takeWhile (· != ':') = l := by
    rw [List.takeWhile_append_of_pos fun c hcm => by simpa using fun h : c = ':' => hl (h ▸ hcm),
      List.takeWhile_cons_of_neg (by simp), List.append_nil]
  have hscan : scan ':' (pre ++ cond ++ [nul] ++ (l ++ ':' :: r ++ nul :: post)) (pre ++ cond ++ [nul]).length =
      (pre ++ cond ++ [nul] ++ l).length := by
    rw [scan_append, takeWhile_text hsn, htake, ← List.length_append]
  have hbuf : pre ++ cond ++ [nul] ++ (l ++ ':' :: r ++ nul :: post) =
      (pre ++ cond ++ [nul] ++ l) ++ ':' :: (r ++ nul :: post) := by simp
  have hchar : charAt (pre ++ cond ++ [nul] ++ (l ++ ':' :: r ++ nul :: post)) (pre ++ cond ++ [nul] ++ l).length =
      ':' := by
    rw [hbuf, charAt_append]
    rfl
  have hset : (pre ++ cond ++ [nul] ++ (l ++ ':' :: r ++ nul :: post)).set (pre ++ cond ++ [nul] ++ l).length nul =
      pre ++ cond ++ [nul] ++ (l ++ nul :: r ++ nul :: post) := by
    rw [hbuf, set_append]
    simp
  have hcond : cstr ((pre ++ cond ++ [nul] ++ (l ++ nul :: r ++ nul :: post)).drop pre.length) = cond := by
    simp only [List.append_assoc, List.drop_left, List.singleton_append, cstr_text hcn]
  rw [evalCondArg_cond hc hcn]
  simp only [hscan, hchar, hset, if_true, hcond]
  simp [Nat.add_assoc]

/-- **A condition in place**: the text that the pointer then points to, with nothing changed around the token. -/
theorem evalCondArg_spec {n : Nat} {t : Text} (hn : t.length < n) (ht : nul ∉ t) (pre post : Text) :
    ∃ p t', evalCondArg fnmatch argv n (pre ++ t ++ nul :: post) pre.length = (p, pre ++ t' ++ nul :: post) ∧
      t'.length = t.length ∧ p ≤ (pre ++ t).length ∧
      cstr ((pre ++ t' ++ nul :: post).drop p) = evalCond fnmatch argv t := by
  induction n generalizing t pre with
  | zero => omega
  | succ n ih =>
    obtain ⟨htake, hnone, hdrop⟩ | ⟨s, hts, hdrop⟩ := split_at '?' t
    · -- no condition
      refine ⟨pre.length, t, ?_, rfl, by simp, ?_⟩
      · have hscan : scan '?' (pre ++ t ++ nul :: post) pre.length = (pre ++ t).length := by
          rw [List.append_assoc, scan_append, takeWhile_text ht, htake, List.length_append]
        rw [evalCondArg, hscan, charAt_append]
        simp [nul]
      · rw [List.append_assoc, List.drop_left, cstr_text ht, evalCond_plain hdrop]
    · have hcond : '?' ∉ t.takeWhile (· != '?') := fun h => by simpa using List.mem_takeWhile_imp h
      rw [evalCond_cond hdrop]
      generalize t.takeWhile (· != '?') = cond at hts hcond ⊢
      subst hts
      have hcn : nul ∉ cond := fun h => ht (by simp [h])
      have hsn : nul ∉ s := fun h => ht (by simp [h])
      simp only [List.length_append, List.length_cons] at hn
      obtain ⟨htake, hnone, hdrop'⟩ | ⟨r, hlr, hdrop'⟩ := split_at ':' s
      · rw [evalCondArg_last hcond hcn hnone hsn, htake, hdrop']
        split
        · refine ⟨_, cond ++ nul :: s, rfl, by simp, by simp, ?_⟩
          have hbuf : pre ++ (cond ++ nul :: s) ++ nul :: post = (pre ++ cond ++ [nul]) ++ (s ++ nul :: post) := by simp
          rw [hbuf, List.drop_left, cstr_text hsn]
        · obtain ⟨p, t', heq, hlen, hp, htext⟩ := ih (t := []) (by simp; omega) (by simp) (pre ++ (cond ++ nul :: s))
          obtain rfl := List.eq_nil_of_length_eq_zero hlen
          refine ⟨p, cond ++ nul :: s, ?_, by simp, ?_, ?_⟩
          · rw [heq]
            simp
          · simpa using hp
          · simpa using htext
      · have hlcol : ':' ∉ s.takeWhile (· != ':') := fun h => by simpa using List.mem_takeWhile_imp h
        rw [hdrop', List.drop_one, List.tail_cons]
        generalize s.takeWhile (· != ':') = l at hlr hlcol ⊢
        subst hlr
        have hln : nul ∉ l := fun h => hsn (by simp [h])
        have hrn : nul ∉ r := fun h => hsn (by simp [h])
        rw [evalCondArg_colon hcond hcn hlcol hln hrn]
        split
        · refine ⟨_, cond ++ nul :: (l ++ nul :: r), rfl, by simp, by simp, ?_⟩
          have hbuf : pre ++ (cond ++ nul :: (l ++ nul :: r)) ++ nul :: post =
              (pre ++ cond ++ [nul]) ++ (l ++ nul :: (r ++ nul :: post)) := by simp
          rw [hbuf, List.drop_left, cstr_text hln]
        · obtain ⟨p, t', heq, hlen, hp, htext⟩ := ih (t := r)
            (by simp only [List.length_append, List.length_cons] at hn; omega) hrn
            (pre ++ (cond ++ nul :: (l ++ [nul])))
          refine ⟨p, cond ++ nul :: (l ++ nul :: t'), ?_, by simp [hlen], ?_, ?_⟩
          · rw [heq]
            simp
          · simpa using hp
          · simpa using htext

end

/-! ## Tokens -/

theorem tokens_append_space (u v : Text) : tokens (u ++ ' ' :: v) = tokens u ++ tokens v := by
  rw [tokens, List.splitOnP_append_cons u v rfl, List.filter_append, ← tokens, ← tokens]

theorem tokens_space (v : Text) : tokens (' ' :: v) = tokens v := by
  have h := tokens_append_space [] v
  rwa [List.nil_append, show tokens [] = [] from rfl, List.nil_append] at h

theorem tokens_spaces {sp : Text} (h : ∀ c ∈ sp, c = ' ') (v : Text) : tokens (sp ++ v) = tokens v := by
  induction sp with
  | nil => rfl
  | cons c sp ih =>
    obtain ⟨rfl, hsp⟩ := List.forall_mem_cons.1 h
    rw [List.cons_append, tokens_space, ih hsp]

theorem tokens_word {w : Text} (hne : w ≠ []) (hw : ' ' ∉ w) : tokens w = [w] := by
  have hone : w.splitOnP (· == ' ') = [w] := by
    have h := List.splitOn_intercalate ' ' (show ∀ u ∈ [w], ' ' ∉ u by simpa using hw) (by simp)
    simpa [List.splitOn] using h
  rw [tokens, hone]
  simp [hne]

/-- What is left of a variable: spaces, or a token behind spaces, alone or with a space behind it. -/
theorem rest_cases (rest : Text) : (∀ c ∈ rest, c = ' ') ∨ ∃ sp w : Text, (∀ c ∈ sp, c = ' ') ∧ w ≠ [] ∧ ' ' ∉ w ∧
    (rest = sp ++ w ∨ ∃ rest', rest = sp ++ w ++ ' ' :: rest') := by
  have hsp : ∀ c ∈ rest.takeWhile (· == ' '), c = ' ' := fun c hc => by simpa using List.mem_takeWhile_imp hc
  have hrest := List.takeWhile_append_dropWhile (p := (· == ' ')) (l := rest)
  have hstart : ∀ c, (rest.dropWhile (· == ' ')).head? = some c → c ≠ ' ' := fun c hc => by
    have := List.head?_dropWhile_not (· == ' ') rest
    rw [hc] at this
    simpa using this
  generalize rest.takeWhile (· == ' ') = sp at *
  generalize rest.dropWhile (· == ' ') = t at *
  subst hrest
  by_cases ht : t = []
  · exact .inl (by simpa [ht] using hsp)
  · obtain ⟨c, t, rfl⟩ := List.exists_cons_of_ne_nil ht
    have hc : c ≠ ' ' := hstart c rfl
    refine .inr ⟨sp, (c :: t).takeWhile (· != ' '), hsp, by simp [hc], fun h => ?_, ?_⟩
    · simpa using List.mem_takeWhile_imp h
    · obtain ⟨htake, -, -⟩ | ⟨s, hs, -⟩ := split_at ' ' (c :: t)
      · exact .inl (by rw [htake])
      · exact .inr ⟨s, by rw [List.append_assoc, ← hs]⟩

section
variable {done : Text}

/-- Where the next token starts, and what stands there. -/
theorem strtok_start {sp : Text} (h : ∀ c ∈ sp, c = ' ') {s : Text} (hs : s.head? ≠ some ' ') :
    done.length + (((done ++ (sp ++ s)).drop done.length).takeWhile (· == ' ')).length = (done ++ sp).length := by
  rw [List.drop_left, List.takeWhile_append_of_pos (by simpa using h)]
  cases s with
  | nil => simp
  | cons c s => rw [List.takeWhile_cons_of_neg (by simpa using hs), List.append_nil, List.length_append]

theorem strtok_spaces {sp : Text} (h : ∀ c ∈ sp, c = ' ') :
    strtok (done ++ sp ++ [nul]) done.length = (none, done ++ sp ++ [nul], (done ++ sp).length) := by
  have hstart := @strtok_start done _ h [nul] (by simp [nul])
  rw [← List.append_assoc] at hstart
  have hchar : charAt (done ++ sp ++ [nul]) (done ++ sp).length = nul := charAt_append _ _
  rw [strtok, hstart, if_pos hchar]

/-- The token from its first character on, up to the next space or to the end. -/
theorem strtok_word {sp w : Text} (h : ∀ c ∈ sp, c = ' ') (hne : w ≠ []) (hw : ' ' ∉ w) (hn : nul ∉ w) {s : Text}
    (hs : s.head? = some ' ' ∨ s.head? = some nul) :
    strtok (done ++ (sp ++ (w ++ s))) done.length =
      if s.head? = some nul then (some (done ++ sp).length, done ++ (sp ++ (w ++ s)), (done ++ sp ++ w).length)
      else (some (done ++ sp).length, (done ++ (sp ++ (w ++ s))).set (done ++ sp ++ w).length nul,
        (done ++ sp ++ w).length + 1) := by
  have hhead : (w ++ s).head? ≠ some ' ' ∧ (w ++ s).headD nul ≠ nul := by
    obtain ⟨c, w, rfl⟩ := List.exists_cons_of_ne_nil hne
    simp only [List.mem_cons, not_or] at hw hn
    simpa using ⟨Ne.symm hw.1, Ne.symm hn.1⟩
  have hbuf : done ++ (sp ++ (w ++ s)) = done ++ sp ++ (w ++ s) := by simp
  have hscan : scan ' ' (done ++ (sp ++ (w ++ s))) (done ++ sp).length = (done ++ sp ++ w).length := by
    have hall : ∀ c ∈ w, (c != nul && c != ' ') = true := fun c hcm => by
      simp only [Bool.and_eq_true, bne_iff_ne]
      exact ⟨fun h => hn (h ▸ hcm), fun h => hw (h ▸ hcm)⟩
    have hstop : (s.takeWhile fun c => c != nul && c != ' ') = [] := by
      cases s with
      | nil => rfl
      | cons c s =>
        simp only [List.head?_cons, Option.some.injEq] at hs
        rw [List.takeWhile_cons_of_neg]
        rcases hs with rfl | rfl <;> simp
    rw [hbuf, scan_append, List.takeWhile_append_of_pos hall, hstop, List.append_nil, ← List.length_append]
  have hchar : charAt (done ++ (sp ++ (w ++ s))) (done ++ sp).length ≠ nul := by
    rw [hbuf, charAt_append]
    exact hhead.2
  have hstop : charAt (done ++ (sp ++ (w ++ s))) (done ++ sp ++ w).length = s.headD nul := by
    rw [← charAt_append (done ++ sp ++ w) s]
    simp
  rw [strtok, strtok_start h hhead.1, if_neg hchar]
  simp only [hscan, hstop]
  rcases hs with hs | hs <;> simp [List.headD_eq_head?_getD, hs, nul]

theorem strtok_token {sp w : Text} (h : ∀ c ∈ sp, c = ' ') (hne : w ≠ []) (hw : ' ' ∉ w) (hn : nul ∉ w) (rest : Text) :
    strtok (done ++ (sp ++ w ++ ' ' :: rest) ++ [nul]) done.length =
      (some (done ++ sp).length, done ++ sp ++ w ++ nul :: (rest ++ [nul]), (done ++ sp ++ w ++ [nul]).length) := by
  have hword := @strtok_word done _ _ h hne hw hn (' ' :: (rest ++ [nul])) (.inl rfl)
  have hbuf : done ++ (sp ++ w ++ ' ' :: rest) ++ [nul] = done ++ (sp ++ (w ++ ' ' :: (rest ++ [nul]))) := by simp
  have hset : (done ++ (sp ++ (w ++ ' ' :: (rest ++ [nul])))).set (done ++ sp ++ w).length nul =
      done ++ sp ++ w ++ nul :: (rest ++ [nul]) := by
    rw [← set_append _ _ ' ']
    simp
  rw [hbuf, hword, if_neg (by simp [nul]), hset]
  simp [Nat.add_assoc]

theorem strtok_last {sp w : Text} (h : ∀ c ∈ sp, c = ' ') (hne : w ≠ []) (hw : ' ' ∉ w) (hn : nul ∉ w) :
    strtok (done ++ (sp ++ w) ++ [nul]) done.length =
      (some (done ++ sp).length, done ++ sp ++ w ++ [nul], (done ++ sp ++ w).length) := by
  have hword := @strtok_word done _ _ h hne hw hn [nul] (.inr rfl)
  have hbuf : done ++ (sp ++ w) ++ [nul] = done ++ (sp ++ (w ++ [nul])) := by simp
  rw [hbuf, hword, List.head?_cons, if_pos rfl]
  simp

end

/-! ## The array -/

/-- The array holds these pointers, and there is room for the null pointer. -/
def Holds (a : NewArgv) (ps : List Ptr) : Prop :=
  ∃ k, a.cells = ps.map Cell.ptr ++ List.replicate (k + 1) .unset ∧ a.c1 = ps.length

theorem store_spec {a : NewArgv} {ps : List Ptr} {k : Nat}
    (hcells : a.cells = ps.map Cell.ptr ++ List.replicate (k + 1) .unset) (hc1 : a.c1 = ps.length) (cell : Cell) :
    a.store cell = some { cells := ps.map Cell.ptr ++ cell :: List.replicate k .unset, c1 := ps.length + 1 } := by
  have hlt : a.c1 < a.cells.length := by
    rw [hcells, hc1, List.length_append, List.length_map, List.length_replicate]
    omega
  have hset : a.cells.set a.c1 cell = ps.map Cell.ptr ++ cell :: List.replicate k .unset := by
    rw [hcells, hc1, List.replicate_succ, ← List.length_map (f := Cell.ptr)]
    simp
  rw [NewArgv.store, if_pos hlt, hset, hc1]

/-- **The array grows before it is full**: a pointer always finds a cell. -/
theorem newArgv_push {a : NewArgv} {ps : List Ptr} (h : Holds a ps) (p : Ptr) :
    ∃ a', a.push p = some a' ∧ Holds a' (ps ++ [p]) := by
  obtain ⟨k, hcells, hc1⟩ := h
  have hlen : a.cells.length = ps.length + (k + 1) := by
    rw [hcells, List.length_append, List.length_map, List.length_replicate]
  have hroom : ∃ m, a.reallocIfNeeded.cells = ps.map Cell.ptr ++ List.replicate (m + 1 + 1) .unset ∧
      a.reallocIfNeeded.c1 = ps.length := by
    rw [NewArgv.reallocIfNeeded]
    split
    · refine ⟨k + ps.length + k, ?_, hc1⟩
      have hcount : k + 1 + a.cells.length = k + ps.length + k + 1 + 1 := by omega
      rw [hcells, List.append_assoc, ← hcells, List.replicate_append_replicate, hcount]
    next hfull =>
      refine ⟨k - 1, ?_, hc1⟩
      have hcount : k + 1 = k - 1 + 1 + 1 := by omega
      rw [hcells, hcount]
  obtain ⟨m, hm, hc⟩ := hroom
  refine ⟨_, store_spec hm hc _, m, ?_, ?_⟩
  · simp
  · simp

theorem readArgv_spec (ps : List Ptr) (cells : List Cell) :
    readArgv (ps.map Cell.ptr ++ Cell.null :: cells) = some ps := by
  induction ps with
  | nil => rfl
  | cons p ps ih => rw [List.map_cons, List.cons_append, readArgv, ih, Option.map_some]

/-! ## The loops -/

/-- What the tokens of a text come to. -/
def evaluated (fnmatch : Text → Text → Bool) (argv : List Text) (rest : Text) : List Text :=
  ((tokens rest).map (evalCond fnmatch argv)).filter (· ≠ [])

section
variable {fnmatch : Text → Text → Bool} {argv : List Text}

theorem evaluated_spaces {sp : Text} (h : ∀ c ∈ sp, c = ' ') : evaluated fnmatch argv sp = [] := by
  have := tokens_spaces h []
  rw [List.append_nil] at this
  rw [evaluated, this]
  rfl

theorem evaluated_token {sp w : Text} (h : ∀ c ∈ sp, c = ' ') (hne : w ≠ []) (hw : ' ' ∉ w) (rest : Text) :
    evaluated fnmatch argv (sp ++ w ++ ' ' :: rest) =
      (if evalCond fnmatch argv w ≠ [] then [evalCond fnmatch argv w] else []) ++ evaluated fnmatch argv rest := by
  rw [evaluated, List.append_assoc, tokens_spaces h, tokens_append_space, tokens_word hne hw]
  split
  next hc => simp [evaluated, hc]
  next hc => simp [evaluated, not_not.1 hc]

theorem evaluated_last {sp w : Text} (h : ∀ c ∈ sp, c = ' ') (hne : w ≠ []) (hw : ' ' ∉ w) :
    evaluated fnmatch argv (sp ++ w) = if evalCond fnmatch argv w ≠ [] then [evalCond fnmatch argv w] else [] := by
  rw [evaluated, tokens_spaces h, tokens_word hne hw]
  split
  next hc => simp [hc]
  next hc => simp [not_not.1 hc]

/-- A pointer into a part of the buffer that is done keeps its text. -/
theorem cstr_done {done x : Text} {p : Nat} (hp : p < done.length) (hz : done.getLast? = some nul) :
    cstr ((done ++ x).drop p) = cstr (done.drop p) := by
  rw [List.drop_append_of_le_length hp.le]
  refine cstr_append ?_ x
  obtain ⟨d, rfl⟩ := List.getLast?_eq_some_iff.1 hz
  rw [List.length_append, List.length_singleton] at hp
  rw [List.drop_append_of_le_length (by omega)]
  simp

/-- A token in place: `p` points to what it comes to, and everything around it is as before. -/
theorem token_in_place (done sp : Text) {w : Text} (hn : nul ∉ w) (post : Text) :
    ∃ p w', evalCondArg fnmatch argv (done ++ sp ++ w ++ nul :: post).length (done ++ sp ++ w ++ nul :: post)
          (done ++ sp).length = (p, done ++ sp ++ w' ++ [nul] ++ post) ∧
        w'.length = w.length ∧ p < (done ++ sp ++ w' ++ [nul]).length ∧
          (charAt (done ++ sp ++ w' ++ [nul] ++ post) p = nul ↔ evalCond fnmatch argv w = []) ∧
            ∀ x, cstr ((done ++ sp ++ w' ++ [nul] ++ x).drop p) = evalCond fnmatch argv w := by
  have hfuel : w.length < (done ++ sp ++ w ++ nul :: post).length := by
    simp only [List.length_append, List.length_cons]
    omega
  obtain ⟨p, w', heq, hlen, hp, htext⟩ := @evalCondArg_spec fnmatch argv _ _ hfuel hn (done ++ sp) post
  have hp : p < (done ++ sp ++ w' ++ [nul]).length := by
    simp only [List.length_append, List.length_singleton] at hp ⊢
    omega
  have hbuf : done ++ sp ++ w' ++ nul :: post = done ++ sp ++ w' ++ [nul] ++ post := by simp
  rw [hbuf] at heq htext
  rw [cstr_done hp (by simp)] at htext
  refine ⟨p, w', heq, hlen, hp, ?_, fun x => ?_⟩
  · rw [charAt_eq_nul, cstr_done hp (by simp), htext]
  · rw [cstr_done hp (by simp), htext]

theorem insertOptions_end (into : Nat → Ptr) (n : Nat) (done : Text) (a : NewArgv) :
    insertOptions fnmatch argv into n (done ++ [nul]) done.length a = some (done ++ [nul], a) := by
  cases n with
  | zero => rfl
  | succ n =>
    have h := @strtok_spaces done [] (by simp)
    rw [List.append_nil] at h
    rw [insertOptions, h]

theorem isRemoved_end (arg : Text) (n : Nat) (done : Text) :
    isRemoved fnmatch argv arg n (done ++ [nul]) done.length = false := by
  cases n with
  | zero => rfl
  | succ n =>
    have h := @strtok_spaces done [] (by simp)
    rw [List.append_nil] at h
    rw [isRemoved, h]

/-- **The loop over the tokens**: the array gets pointers to what the tokens come to, and they are still there when
the loop has changed the rest of the buffer. -/
theorem insertOptions_spec (into : Nat → Ptr) {n : Nat} {rest : Text} (hn : rest.length < n) (hz : nul ∉ rest)
    (done : Text) {a : NewArgv} {ps : List Ptr} (ha : Holds a ps) :
    ∃ (qs : List Nat) (x : Text) (a' : NewArgv),
      insertOptions fnmatch argv into n (done ++ rest ++ [nul]) done.length a = some (done ++ x, a') ∧
        Holds a' (ps ++ qs.map into) ∧
          qs.map (fun q => cstr ((done ++ x).drop q)) = evaluated fnmatch argv rest := by
  induction n generalizing rest done a ps with
  | zero => omega
  | succ n ih =>
    obtain hsp | ⟨sp, w, hsp, hne, hw, rfl | ⟨rest, rfl⟩⟩ := rest_cases rest
    · refine ⟨[], rest ++ [nul], a, ?_, by simpa using ha, by rw [evaluated_spaces hsp]; rfl⟩
      rw [insertOptions, strtok_spaces hsp, List.append_assoc]
    · -- the last token
      have hwz : nul ∉ w := fun h => hz (by simp [h])
      obtain ⟨p, w', heq, hlen, hp, hnul, htext⟩ := @token_in_place fnmatch argv done sp w hwz []
      have hsave : (done ++ sp ++ w).length = (done ++ sp ++ w').length := by simp [hlen]
      rw [List.append_nil] at heq hnul
      rw [insertOptions, strtok_last hsp hne hw hwz]
      simp only [heq, hsave, evaluated_last hsp hne hw]
      by_cases hc : evalCond fnmatch argv w = []
      · refine ⟨[], sp ++ w' ++ [nul], a, ?_, by simpa using ha, by simp [hc]⟩
        rw [if_neg (not_not.2 (hnul.2 hc)), insertOptions_end]
        simp
      · obtain ⟨a', hpush, ha'⟩ := newArgv_push ha (into p)
        refine ⟨[p], sp ++ w' ++ [nul], a', ?_, by simpa using ha', ?_⟩
        · rw [if_pos (fun h => hc (hnul.1 h)), hpush, Option.bind_some, insertOptions_end]
          simp
        · have := htext []
          simp only [List.append_assoc, List.append_nil] at this
          simp [hc, this]
    · -- a token with a space behind it
      have hwz : nul ∉ w := fun h => hz (by simp [h])
      have hrz : nul ∉ rest := fun h => hz (by simp [h])
      have hrn : rest.length < n := by
        simp only [List.length_append, List.length_cons] at hn
        omega
      obtain ⟨p, w', heq, hlen, hp, hnul, htext⟩ := @token_in_place fnmatch argv done sp w hwz (rest ++ [nul])
      have hsave : (done ++ sp ++ w ++ [nul]).length = (done ++ sp ++ w' ++ [nul]).length := by simp [hlen]
      rw [← List.append_assoc _ rest] at heq hnul
      rw [insertOptions, strtok_token hsp hne hw hwz]
      simp only [heq, hsave, evaluated_token hsp hne hw]
      by_cases hc : evalCond fnmatch argv w = []
      · obtain ⟨qs, x, a', hrun, ha', hqs⟩ := ih hrn hrz (done ++ sp ++ w' ++ [nul]) ha
        refine ⟨qs, sp ++ w' ++ [nul] ++ x, a', ?_, ha', ?_⟩
        · rw [if_neg (not_not.2 (hnul.2 hc)), hrun]
          simp
        · rw [if_neg (not_not.2 hc), List.nil_append, ← hqs]
          simp
      · obtain ⟨a₁, hpush, ha₁⟩ := newArgv_push ha (into p)
        obtain ⟨qs, x, a', hrun, ha', hqs⟩ := ih hrn hrz (done ++ sp ++ w' ++ [nul]) ha₁
        refine ⟨p :: qs, sp ++ w' ++ [nul] ++ x, a', ?_, by simpa using ha', ?_⟩
        · rw [if_pos (fun h => hc (hnul.1 h)), hpush, Option.bind_some, hrun]
          simp
        · rw [if_pos hc, ← hqs, List.map_cons, ← htext x]
          simp

/-- **The loop that looks for a token that matches.** -/
theorem isRemoved_spec (arg : Text) {n : Nat} {rest : Text} (hn : rest.length < n) (hz : nul ∉ rest) (done : Text) :
    isRemoved fnmatch argv arg n (done ++ rest ++ [nul]) done.length =
      (evaluated fnmatch argv rest).any (fnmatch · arg) := by
  induction n generalizing rest done with
  | zero => omega
  | succ n ih =>
    obtain hsp | ⟨sp, w, hsp, hne, hw, rfl | ⟨rest, rfl⟩⟩ := rest_cases rest
    · rw [isRemoved, strtok_spaces hsp, evaluated_spaces hsp]
      rfl
    · have hwz : nul ∉ w := fun h => hz (by simp [h])
      obtain ⟨p, w', heq, hlen, hp, hnul, htext⟩ := @token_in_place fnmatch argv done sp w hwz []
      have hsave : (done ++ sp ++ w).length = (done ++ sp ++ w').length := by simp [hlen]
      have htext := htext []
      rw [List.append_nil] at heq hnul htext
      rw [isRemoved, strtok_last hsp hne hw hwz]
      simp only [heq, hsave, evaluated_last hsp hne hw, htext, isRemoved_end, ne_eq, hnul]
      by_cases hc : evalCond fnmatch argv w = []
      · simp [hc]
      · simp [hc]
    · have hwz : nul ∉ w := fun h => hz (by simp [h])
      have hrz : nul ∉ rest := fun h => hz (by simp [h])
      have hrn : rest.length < n := by
        simp only [List.length_append, List.length_cons] at hn
        omega
      obtain ⟨p, w', heq, hlen, hp, hnul, htext⟩ := @token_in_place fnmatch argv done sp w hwz (rest ++ [nul])
      have hsave : (done ++ sp ++ w ++ [nul]).length = (done ++ sp ++ w' ++ [nul]).length := by simp [hlen]
      have htext := htext (rest ++ [nul])
      rw [← List.append_assoc _ rest] at heq hnul htext
      have hrest := ih hrn hrz (done ++ sp ++ w' ++ [nul])
      rw [isRemoved, strtok_token hsp hne hw hwz]
      simp only [heq, hsave, evaluated_token hsp hne hw, htext, hrest, ne_eq, hnul]
      by_cases hc : evalCond fnmatch argv w = []
      · simp [hc]
      · simp [hc]

end

/-! ## The whole command line -/

section
variable {fnmatch : Text → Text → Bool}

theorem mem_cleanLoop {ch c : Char} {delim : Bool} {s : Text} (h : c ∈ cleanLoop ch delim s) : c ∈ s := by
  induction s generalizing delim with
  | nil => simp [cleanLoop] at h
  | cons d s ih =>
    rw [cleanLoop] at h
    split at h
    · split at h
      · exact List.mem_cons_of_mem _ (ih h)
      next hd _ =>
        rcases List.mem_cons.1 h with rfl | h
        · simp [hd]
        · exact List.mem_cons_of_mem _ (ih h)
    · rcases List.mem_cons.1 h with rfl | h
      · simp
      · exact List.mem_cons_of_mem _ (ih h)

theorem mem_cleanenv {ch c : Char} {v : Option Text} (h : c ∈ cleanenv ch v) : c ∈ v.getD [] := by
  rw [cleanenv] at h
  split at h
  · exact mem_cleanLoop (List.dropLast_subset _ h)
  · exact mem_cleanLoop h

/-- Spaces that come to nothing do not separate tokens. -/
theorem tokens_cleanLoop (s : Text) :
    ∀ u, tokens (u ++ cleanLoop ' ' false s) = tokens (u ++ s) ∧
      tokens (u ++ ' ' :: cleanLoop ' ' true s) = tokens (u ++ ' ' :: s) := by
  induction s with
  | nil => exact fun u => ⟨rfl, rfl⟩
  | cons c s ih =>
    intro u
    by_cases hc : c = ' '
    · subst hc
      refine ⟨?_, ?_⟩
      · simpa [cleanLoop] using (ih u).2
      · rw [cleanLoop, if_pos rfl, if_pos rfl, (ih u).2, tokens_append_space, tokens_append_space, tokens_space]
    · refine ⟨?_, ?_⟩
      · simpa [cleanLoop, hc] using (ih (u ++ [c])).1
      · simpa [cleanLoop, hc] using (ih (u ++ [' ', c])).1

theorem tokens_cleanenv (v : Option Text) : tokens (cleanenv ' ' v) = tokens (v.getD []) := by
  have hloop : tokens (cleanLoop ' ' true (v.getD [])) = tokens (v.getD []) := by
    have h := (tokens_cleanLoop (v.getD []) []).2
    rwa [List.nil_append, List.nil_append, tokens_space, tokens_space] at h
  rw [cleanenv]
  split
  next h =>
    obtain ⟨u, hu⟩ := List.getLast?_eq_some_iff.1 h
    rw [hu, tokens_append_space] at hloop
    rw [hu, List.dropLast_concat, ← hloop]
    exact (List.append_nil _).symm
  · exact hloop

theorem evaluated_cleanenv (argv : List Text) (v : Option Text) :
    evaluated fnmatch argv (cleanenv ' ' v) = options fnmatch argv v := by
  rw [evaluated, tokens_cleanenv, options]

theorem copyArgs_spec {argv : List Text} {remove : Text} (hz : nul ∉ remove) (args : List Text) (c2 : Nat)
    (hargs : argv.drop c2 = args) {a : NewArgv} {ps : List Ptr} (ha : Holds a ps) :
    ∃ (is : List Nat) (a' : NewArgv), copyArgs fnmatch argv remove args c2 a = some a' ∧
      Holds a' (ps ++ is.map Ptr.argv) ∧ is.map (fun i => argv.getD i []) =
        args.filter fun arg => !(evaluated fnmatch argv remove).any (fnmatch · arg) := by
  induction args generalizing c2 a ps with
  | nil => exact ⟨[], a, rfl, by simpa using ha, rfl⟩
  | cons arg args ih =>
    have hrest : argv.drop (c2 + 1) = args := by rw [← List.drop_drop, hargs, List.drop_one, List.tail_cons]
    have hget : argv.getD c2 [] = arg := by
      have := congrArg List.head? hargs
      rw [List.head?_drop, List.head?_cons] at this
      rw [List.getD_eq_getElem?_getD, this, Option.getD_some]
    have hremoved : isRemoved fnmatch argv arg (copy remove).length (copy remove) 0 =
        (evaluated fnmatch argv remove).any (fnmatch · arg) :=
      isRemoved_spec arg (by simp [copy]) hz []
    rw [copyArgs, hremoved]
    by_cases hmatch : (evaluated fnmatch argv remove).any (fnmatch · arg) = true
    · obtain ⟨is, a', hrun, ha', his⟩ := ih (c2 + 1) hrest ha
      refine ⟨is, a', ?_, ha', ?_⟩
      · rw [if_pos hmatch, hrun]
      · rw [his, List.filter_cons_of_neg (by simp [hmatch])]
    · obtain ⟨a₁, hpush, ha₁⟩ := newArgv_push ha (.argv c2)
      obtain ⟨is, a', hrun, ha', his⟩ := ih (c2 + 1) hrest ha₁
      refine ⟨c2 :: is, a', ?_, by simpa using ha', ?_⟩
      · rw [if_neg hmatch, hpush, Option.bind_some, hrun]
      · rw [List.map_cons, his, hget, List.filter_cons_of_pos (by simp [hmatch])]

/-- The other wrapper and the name of the command are in the array, which is large enough for them. -/
theorem firstCells_spec (other : Text) :
    ∃ a, firstCells other = some a ∧ Holds a ((if other ≠ [] then [Ptr.other] else []) ++ [.argv 0]) := by
  have hempty : (List.replicate 64 Cell.unset) = [].map Cell.ptr ++ List.replicate (63 + 1) .unset := rfl
  by_cases h : other = []
  · refine ⟨_, (if_neg (not_not.2 h)).trans (store_spec hempty rfl _), 62, ?_, ?_⟩
    · simp [h]
    · simp [h]
  · have hone := store_spec (a := { cells := List.replicate 64 .unset, c1 := 0 }) hempty rfl (.ptr .other)
    have htwo := @store_spec { cells := [.other].map Cell.ptr ++ List.replicate (62 + 1) .unset, c1 := 1 } [.other] 62
      rfl rfl (.ptr (.argv 0))
    refine ⟨_, (if_pos h).trans ((congrArg (Option.bind · _) hone).trans htwo), 61, ?_, ?_⟩
    · simp [h]
    · simp [h]

/-- **Main work**: the array is read back to its null pointer, and its pointers to their texts. -/
theorem mainWork_spec {argv : List Text} {other insert remove append : Text} (hi : nul ∉ insert) (hr : nul ∉ remove)
    (ha : nul ∉ append) :
    ∃ (m : Memory) (ps : List Ptr), mainWork fnmatch argv other insert remove append = some m ∧
      readArgv m.cells = some ps ∧ ps.map (m.text argv other) =
        (if other ≠ [] then [other] else []) ++ [argv.getD 0 []] ++ evaluated fnmatch argv insert ++
          (argv.drop 1).filter (fun arg => !(evaluated fnmatch argv remove).any (fnmatch · arg)) ++
          evaluated fnmatch argv append := by
  obtain ⟨a₂, h₂, hold₂⟩ := firstCells_spec other
  obtain ⟨qs, x, a₃, h₃, hold₃, hqs⟩ :=
    @insertOptions_spec fnmatch argv .insert (copy insert).length insert (by simp [copy]) hi [] _ _
      hold₂
  obtain ⟨is, a₄, h₄, hold₄, his⟩ := @copyArgs_spec fnmatch argv _ hr _ 1 rfl _ _ hold₃
  obtain ⟨rs, y, a₅, h₅, hold₅, hrs⟩ :=
    @insertOptions_spec fnmatch argv .append (copy append).length append (by simp [copy]) ha [] _ _
      hold₄
  obtain ⟨k, hcells, hc1⟩ := hold₅
  have h₃' : insertOptions fnmatch argv .insert (copy insert).length (copy insert) 0 a₂ = some (x, a₃) := h₃
  have h₅' : insertOptions fnmatch argv .append (copy append).length (copy append) 0 a₄ = some (y, a₅) := h₅
  let ps := (if other ≠ [] then [Ptr.other] else []) ++ [.argv 0] ++ qs.map .insert ++ is.map .argv ++ rs.map .append
  let m : Memory := { cells := ps.map Cell.ptr ++ .null :: List.replicate k .unset, inserted := x, appended := y }
  refine ⟨m, ps, ?_, readArgv_spec _ _, ?_⟩
  · simp only [mainWork, Option.bind_eq_bind, h₂, h₃', h₄, h₅', store_spec hcells hc1, Option.bind_some]
    rfl
  · have hother : (if other ≠ [] then [Ptr.other] else []).map (m.text argv other) =
        if other ≠ [] then [other] else [] := by
      split <;> rfl
    have hinserted : (qs.map Ptr.insert).map (m.text argv other) = evaluated fnmatch argv insert := by
      rw [List.map_map, ← hqs]
      rfl
    have happended : (rs.map Ptr.append).map (m.text argv other) = evaluated fnmatch argv append := by
      rw [List.map_map, ← hrs]
      rfl
    rw [List.map_append, List.map_append, List.map_append, List.map_append, hother, hinserted, happended, List.map_map,
      ← his]
    rfl

theorem ownArgs_ne {myname : Text} {args argv : List Text} (h : ownArgs myname args = some argv) :
    argv.take 1 = [argv.getD 0 []] := by
  unfold ownArgs at h
  split at h
  · cases h
  · split at h
    · split at h <;> cases h
      rfl
    · cases h
      rfl

/-- **The command line that is executed**, for every list of arguments and all values of the variables; the array ends
with a null pointer. -/
theorem newCommand_eq (fnmatch : Text → Text → Bool) (myname : Text) (c : Config) (args : List Text) :
    newCommand fnmatch myname c args = (ownArgs myname args).bind fun argv =>
      (nextOther (cleanenv ':' c.others) c.done).map fun o => expected fnmatch c o.1 argv := by
  have hz : ∀ v ∈ [c.insert, c.remove, c.append], nul ∉ cleanenv ' ' v := fun v hv h => c.noNul v hv (mem_cleanenv h)
  rw [newCommand]
  cases hargs : ownArgs myname args with
  | none => rfl
  | some argv =>
    cases ho : nextOther (cleanenv ':' c.others) c.done with
    | none => rfl
    | some o =>
      obtain ⟨m, ps, hm, hps, htext⟩ := @mainWork_spec fnmatch argv o.1 _ _ _
        (hz c.insert (by simp)) (hz c.remove (by simp)) (hz c.append (by simp))
      simp only [evaluated_cleanenv] at htext
      simp only [Option.bind_eq_bind, Option.bind_some, hm, hps, Option.map_some, expected, ownArgs_ne hargs, ← htext]
      rfl

end

end T2Sde.Wrapper
