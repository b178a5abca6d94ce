import T2Sde.Wrapper.Args
/-!
# The filter (`misc/tools-source/cmd_wrapper.c`)

The arguments are written one to a line, a command reads them, and its output is read back: the array gets pointers into
the buffer, and each newline becomes a zero. The buffer has one byte more than the output, for the zero behind a last
line that lacks its newline. The vector has the name of the command always, and an empty output ends the wrapper.

| here | there |
| --- | --- |
| `written`        | what the filter reads :366-369 |
| `Pointers.push`  | `realloc_if_needed` :129-135, `newargv[c1++] = argvmem + c2` |
| `lineEnd`        | the inner loop :411-412 |
| `terminate`      | `argvmem[c2] = 0` :413 |
| `reread`         | the loop :406-414 |
| `rereadOutput`   | :394-415; none if the wrapper ends :401-404 |

* `reread_spec` — what the loop makes of the rest of the output.
* `filter_roundtrip` — **the vector is the list of lines**.
-/
namespace T2Sde.Wrapper
open Shell

/-- The pointers in front of number `c1`, and the number of cells. -/
structure Pointers where
  newargc : Nat
  stored : List Nat
  deriving DecidableEq, Repr

/-- A cell beyond the end is none of the array. -/
def Pointers.push (v : Pointers) (p : Nat) : Option Pointers :=
  let newargc := if v.stored.length + 1 ≥ v.newargc then v.newargc * 2 else v.newargc
  if v.stored.length < newargc then some { newargc, stored := v.stored ++ [p] } else none

def lineEnd (argvmem : Text) (argvsize c2 : Nat) : Nat :=
  c2 + (((argvmem.take argvsize).drop c2).takeWhile (· ≠ '\n')).length

/-- A byte beyond the end is none of the buffer. -/
def terminate (argvmem : Text) (c2 : Nat) : Option Text :=
  if c2 < argvmem.length then some (argvmem.set c2 nul) else none

def reread (argvsize : Nat) (argvmem : Text) (c2 : Nat) (v : Pointers) : Option (Text × Pointers) :=
  if c2 < argvsize then
    (v.push c2).bind fun v =>
      (terminate argvmem (lineEnd argvmem argvsize c2)).bind fun argvmem' =>
        reread argvsize argvmem' (lineEnd argvmem argvsize c2 + 1) v
  else some (argvmem, v)
termination_by argvsize - c2
decreasing_by
  have : c2 ≤ lineEnd argvmem argvsize c2 := Nat.le_add_right _ _
  omega

/-- `spare` is what the byte behind the output is before. -/
def rereadOutput (output : Text) (spare : Char) (newargc : Nat) : Option (Text × Pointers) :=
  if output.length = 0 then none else reread output.length (output ++ [spare]) 0 { newargc, stored := [] }

def written (newargv : List Text) : Text := unlines newargv

/-- The texts of a vector. -/
def texts (r : Text × Pointers) : List Text := r.2.stored.map fun p => cstr (r.1.drop p)

/-! ## The array -/

theorem Pointers.push_spec {v : Pointers} (h : v.stored.length < v.newargc) (p : Nat) :
    ∃ v', v.push p = some v' ∧ v'.stored = v.stored ++ [p] ∧ v'.stored.length < v'.newargc := by
  rw [push]
  by_cases hfull : v.stored.length + 1 ≥ v.newargc
  · refine ⟨{ newargc := v.newargc * 2, stored := v.stored ++ [p] }, ?_, rfl, ?_⟩
    · rw [if_pos hfull]
      exact if_pos (by omega)
    · simp only [List.length_append, List.length_singleton]
      omega
  · refine ⟨{ newargc := v.newargc, stored := v.stored ++ [p] }, ?_, rfl, ?_⟩
    · rw [if_neg hfull]
      exact if_pos h
    · simp only [List.length_append, List.length_singleton]
      omega

/-! ## The loop -/

/-- A line with a zero behind it stands where the pointer points to. -/
def At (argvmem : Text) (p : Nat) (line : Text) : Prop := line ++ [nul] <+: argvmem.drop p

theorem at_front (done l x : Text) : At (done ++ l ++ [nul] ++ x) done.length l := by
  rw [At, List.append_assoc, List.append_assoc, List.drop_left, ← List.append_assoc]
  exact List.prefix_append (l ++ [nul]) x

theorem at_done (done l : Text) : At (done ++ (l ++ [nul])) done.length l := by
  rw [At, List.drop_left]

theorem cstr_nul (l : Text) : cstr (l ++ [nul]) = cstr l := by
  induction l with
  | nil => rfl
  | cons c l ih =>
    by_cases hc : c = nul
    · simp [cstr, hc]
    · rw [cstr, cstr] at ih
      rw [cstr, cstr, List.cons_append, List.takeWhile_cons_of_pos (by simpa using hc), ih,
        List.takeWhile_cons_of_pos (by simpa using hc)]

/-- The text at the pointer; it ends at its first zero. -/
theorem At.cstr_eq {argvmem : Text} {p : Nat} {line : Text} (h : At argvmem p line) :
    cstr (argvmem.drop p) = cstr line := by
  obtain ⟨t, ht⟩ := h
  rw [← ht, cstr_append (by simp), cstr_nul]

theorem cstr_of_not_mem {l : Text} (hl : nul ∉ l) : cstr l = l :=
  List.takeWhile_eq_self_iff.2 fun c hc => by simpa using fun h : c = nul => hl (h ▸ hc)

theorem lineEnd_newline {l : Text} (hl : '\n' ∉ l) (done r : Text) (spare : Char) :
    lineEnd (done ++ (l ++ '\n' :: r) ++ [spare]) (done ++ (l ++ '\n' :: r)).length done.length =
      (done ++ l).length := by
  have hall : ∀ c ∈ l, decide (c ≠ '\n') = true := fun c hc => by simpa using fun h : c = '\n' => hl (h ▸ hc)
  rw [lineEnd, List.take_left, List.drop_left, List.takeWhile_append_of_pos hall, List.takeWhile_cons_of_neg (by simp),
    List.append_nil, List.length_append]

theorem lineEnd_last {l : Text} (hl : '\n' ∉ l) (done : Text) (spare : Char) :
    lineEnd (done ++ l ++ [spare]) (done ++ l).length done.length = (done ++ l).length := by
  have hall : l.takeWhile (· ≠ '\n') = l :=
    List.takeWhile_eq_self_iff.2 fun c hc => by simpa using fun h : c = '\n' => hl (h ▸ hc)
  rw [lineEnd, List.take_left, List.drop_left, hall, List.length_append]

theorem terminate_at (u : Text) (c : Char) (s : Text) : terminate (u ++ c :: s) u.length = some (u ++ nul :: s) := by
  rw [terminate, if_pos (by simp), set_append]

/-- What is left of the output: a line with its newline, or the last one without. -/
theorem reread_newline {l : Text} (hl : '\n' ∉ l) (done r : Text) (spare : Char) {v v' : Pointers}
    (hv : v.push done.length = some v') :
    reread (done ++ (l ++ '\n' :: r)).length (done ++ (l ++ '\n' :: r) ++ [spare]) done.length v =
      reread ((done ++ l ++ [nul]) ++ r).length ((done ++ l ++ [nul]) ++ r ++ [spare]) (done ++ l ++ [nul]).length
        v' := by
  have hlt : done.length < (done ++ (l ++ '\n' :: r)).length := by
    simp only [List.length_append, List.length_cons]
    omega
  have hbuf : done ++ (l ++ '\n' :: r) ++ [spare] = (done ++ l) ++ '\n' :: (r ++ [spare]) := by simp
  have hset : terminate (done ++ (l ++ '\n' :: r) ++ [spare]) (done ++ l).length =
      some ((done ++ l ++ [nul]) ++ r ++ [spare]) := by
    rw [hbuf, terminate_at]
    simp
  have hsize : (done ++ (l ++ '\n' :: r)).length = ((done ++ l ++ [nul]) ++ r).length := by simp
  have hnext : (done ++ l).length + 1 = (done ++ l ++ [nul]).length := by
    rw [@List.length_append Char (done ++ l) [nul]]
    rfl
  rw [reread, if_pos hlt, hv, Option.bind_some, lineEnd_newline hl, hset, Option.bind_some, hnext, hsize]

theorem reread_last {l : Text} (hl : '\n' ∉ l) (hne : l ≠ []) (done : Text) (spare : Char) {v v' : Pointers}
    (hv : v.push done.length = some v') :
    reread (done ++ l).length (done ++ l ++ [spare]) done.length v = some (done ++ l ++ [nul], v') := by
  have hpos := List.length_pos_iff.2 hne
  have hlt : done.length < (done ++ l).length := by
    rw [List.length_append]
    omega
  rw [reread, if_pos hlt, hv, Option.bind_some, lineEnd_last hl, terminate_at, Option.bind_some, reread,
    if_neg (by omega)]

/-- **The loop**: pointers to the lines that are left, each with its zero, and room for the null pointer. -/
theorem reread_spec (k : Nat) {rest : Text} (hk : rest.length ≤ k) (done : Text) (spare : Char) {v : Pointers}
    (hv : v.stored.length < v.newargc) :
    ∃ (x : Text) (ps : List Nat) (v' : Pointers),
      reread (done ++ rest).length (done ++ rest ++ [spare]) done.length v = some (done ++ x, v') ∧
        x.length = rest.length + 1 ∧ v'.stored = v.stored ++ ps ∧ v'.stored.length < v'.newargc ∧
          List.Forall₂ (At (done ++ x)) ps (lines rest) := by
  induction k generalizing rest done v with
  | zero =>
    obtain rfl := List.eq_nil_of_length_eq_zero (Nat.le_zero.1 hk)
    refine ⟨[spare], [], v, ?_, rfl, by simp, hv, ?_⟩
    · rw [reread, if_neg (by simp), List.append_nil]
    · rw [lines_nil]
      exact .nil
  | succ k ih =>
    obtain ⟨v', hpush, hstored, hroom⟩ := Pointers.push_spec hv done.length
    obtain ⟨htake, hnone, -⟩ | ⟨r, hr, -⟩ := split_at '\n' rest
    · by_cases hne : rest = []
      · subst hne
        exact @ih [] (Nat.zero_le k) done v hv
      · refine ⟨rest ++ [nul], [done.length], v', ?_, by simp, hstored, hroom, ?_⟩
        · rw [reread_last hnone hne done spare hpush, List.append_assoc]
        · rw [lines_last hnone hne]
          exact .cons (at_done done rest) .nil
    · have hl : '\n' ∉ rest.takeWhile (· != '\n') := fun h => by simpa using List.mem_takeWhile_imp h
      generalize rest.takeWhile (· != '\n') = l at hr hl
      subst hr
      have hrk : r.length ≤ k := by
        rw [List.length_append, List.length_cons] at hk
        omega
      obtain ⟨x, ps, v'', hrun, hlen, hstored', hroom', hat⟩ := ih hrk (done ++ l ++ [nul]) hroom
      refine ⟨l ++ [nul] ++ x, done.length :: ps, v'', ?_, ?_, ?_, hroom', ?_⟩
      · rw [reread_newline hl done r spare hpush, hrun]
        simp
      · simp only [List.length_append, List.length_cons, List.length_nil, hlen]
        omega
      · rw [hstored', hstored, List.append_assoc, List.singleton_append]
      · have hbuf : done ++ (l ++ [nul] ++ x) = done ++ l ++ [nul] ++ x := by simp
        rw [lines_cons hl, hbuf]
        exact .cons (at_front done l x) hat

/-- **The output is read back line by line.** -/
theorem rereadOutput_spec {output : Text} (hne : output ≠ []) (spare : Char) {newargc : Nat} (hroom : 0 < newargc) :
    ∃ r, rereadOutput output spare newargc = some r ∧ r.1.length = output.length + 1 ∧
      List.Forall₂ (At r.1) r.2.stored (lines output) ∧ r.2.stored.length < r.2.newargc := by
  have hlen : ¬ output.length = 0 := fun h => hne (List.eq_nil_of_length_eq_zero h)
  obtain ⟨x, ps, v, hrun, hx, hps, hv, hat⟩ :=
    reread_spec output.length le_rfl [] spare (v := { newargc, stored := [] }) hroom
  rw [List.nil_append] at hps
  refine ⟨(x, v), ?_, hx, ?_, hv⟩
  · rw [rereadOutput, if_neg hlen]
    exact hrun
  · rw [hps]
    exact hat

theorem texts_eq {r : Text × Pointers} {ls : List Text} (h : List.Forall₂ (At r.1) r.2.stored ls) :
    texts r = ls.map cstr := by
  rw [texts]
  generalize r.2.stored = ps at h
  induction h with
  | nil => rfl
  | cons hat _ ih => rw [List.map_cons, List.map_cons, hat.cstr_eq, ih]

/-- **The protocol of the filter.** Words without newline and zero come back as they were. Any output is read back line
by line: each pointer has its line with a zero behind it, all that is written is in the buffer (`rereadOutput` has a
result), and there is room for the null pointer; `newargc` is 64 or has been doubled. -/
theorem filter_roundtrip :
    (∀ argv0 args spare k, (∀ w ∈ argv0 :: args, '\n' ∉ w ∧ nul ∉ w) →
      ∃ r, rereadOutput (written (argv0 :: args)) spare (64 * 2 ^ k) = some r ∧ texts r = argv0 :: args) ∧
    ∀ output spare k, output ≠ [] → ∃ r, rereadOutput output spare (64 * 2 ^ k) = some r ∧
      r.1.length = output.length + 1 ∧ List.Forall₂ (At r.1) r.2.stored (lines output) ∧
        texts r = (lines output).map cstr ∧ r.2.stored.length < r.2.newargc := by
  have hroom : ∀ k, 0 < 64 * 2 ^ k := fun k => Nat.mul_pos (by decide) (Nat.pow_pos (by decide))
  constructor
  · intro argv0 args spare k hwords
    have hne : written (argv0 :: args) ≠ [] := by
      rw [written, unlines_cons]
      simp
    obtain ⟨r, hr, -, hat, -⟩ := rereadOutput_spec hne spare (hroom k)
    refine ⟨r, hr, ?_⟩
    rw [texts_eq hat, written, lines_unlines fun w hw => (hwords w hw).1]
    exact (List.map_congr_left fun w hw => cstr_of_not_mem (hwords w hw).2).trans (List.map_id _)
  · intro output spare k hne
    obtain ⟨r, hr, hlen, hat, hv⟩ := rereadOutput_spec hne spare (hroom k)
    exact ⟨r, hr, hlen, hat, texts_eq hat, hv⟩

/-- An empty word, and a last line without its newline. -/
theorem filter_roundtrip_empty :
    (∃ r, rereadOutput (written ["gcc".toList, []]) 'x' (64 * 2 ^ 0) = some r ∧ texts r = ["gcc".toList, []]) ∧
      ∃ r, rereadOutput "gcc\n\n-c".toList 'x' (64 * 2 ^ 0) = some r ∧
        r.1.length = "gcc\n\n-c".toList.length + 1 ∧
          List.Forall₂ (At r.1) r.2.stored (lines "gcc\n\n-c".toList) ∧
            texts r = (lines "gcc\n\n-c".toList).map cstr ∧ r.2.stored.length < r.2.newargc :=
  ⟨filter_roundtrip.1 "gcc".toList [[]] 'x' 0 (by decide), filter_roundtrip.2 "gcc\n\n-c".toList 'x' 0 (by decide)⟩

end T2Sde.Wrapper
