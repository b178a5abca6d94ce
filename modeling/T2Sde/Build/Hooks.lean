import T2Sde.Lib.Cut
import T2Sde.Lib.Read
import Mathlib.Data.List.Pairwise
/-!
# Hooks (`scripts/functions.in`)

A package adds fragments of code to named hooks, each with a priority. `hook_eval` sorts the lines `priority counter` of
a hook as texts: so `10` is before `5`, and of two fragments with one priority the one that was added as number 10 is
before the one that was added as number 9.

| here | there |
| --- | --- |
| `Hooks`    | `hook_functions`, `hook_fcounter`, `hookidx_NAME` :76-78 |
| `hookAdd`  | `hook_add` :84-88 |
| `hookEval` | `hook_eval` :94-99 |

* `added_spec` — what the calls of `hook_add` leave.
* `hookLoop_spec` — the loop runs the fragments of its lines.
* `hook_order_iff` — **when the order is that of the numbers**.
-/
namespace T2Sde.Build
open Shell

variable {Code : Type}

structure Hooks (Code : Type) where
  hook_functions : Nat → Option Code
  hook_fcounter : Nat
  hookidx : Text → List Text

/-- `unset hook_functions hook_fcounter` and no hooks. -/
def noHooks : Hooks Code where
  hook_functions := fun _ => none
  hook_fcounter := 0
  hookidx := fun _ => []

def decimal (n : Nat) : Text := Nat.toDigits 10 n

/-- `hook_add $1 $2 $3` -/
def hookAdd (s : Hooks Code) (name pri : Text) (code : Code) : Hooks Code where
  hook_functions := upd s.hook_functions s.hook_fcounter (some code)
  hook_fcounter := s.hook_fcounter + 1
  hookidx := upd s.hookidx name (s.hookidx name ++ [pri ++ ' ' :: decimal s.hook_fcounter])

/-- What `eval` of a fragment does with the hooks and the standard input of the loop; `none` when it leaves the loop. -/
abbrev Exec (Code : Type) := Code → Hooks Code → Text → Option (Hooks Code × Text)

/-- The index that a text is between `[` and `]`. -/
def arrayIndex (fnr : Text) : Nat := Nat.ofDigitChars 10 fnr 0

/-- `while read pri fnr`, with the fragments that it runs; it ends after `n` lines at the latest. -/
def hookLoop (exec : Exec Code) : Nat → Hooks Code → Text → List (Nat × Code)
  | 0, _, _ => []
  | n + 1, s, stdin =>
    match readLine stdin with
    | none => []
    | some (m, stdin) =>
      let pri := (readFields 1 m).headD []
      let fnr := (readFields 1 m).getD 1 []
      if pri = [] then hookLoop exec n s stdin
      else
        match s.hook_functions (arrayIndex fnr) with
        | none => hookLoop exec n s stdin
        | some code =>
          (arrayIndex fnr, code) ::
            match exec code s stdin with
            | none => []
            | some (s, stdin) => hookLoop exec n s stdin

/-- `echo "${hookidx_NAME[*]}" | sort` -/
def hookLines (s : Hooks Code) (name : Text) : Text :=
  unlines (sort (lines (['\n'].intercalate (s.hookidx name) ++ ['\n'])))

/-- `hook_eval $1`: the fragments that run, by their numbers. -/
def hookEval (exec : Exec Code) (s : Hooks Code) (name : Text) : List (Nat × Code) :=
  hookLoop exec (hookLines s name).length s (hookLines s name)

/-! ## Fragments -/

/-- A number as it is written. -/
structure Priority where
  text : Text
  ne : text ≠ []
  digits : ∀ c ∈ text, c.isDigit = true

def Priority.value (p : Priority) : Nat := Nat.ofDigitChars 10 p.text 0

/-- A call of `hook_add`. -/
structure Call (Code : Type) where
  name : Text
  pri : Priority
  code : Code

/-- The hooks after these calls. -/
def added (calls : List (Call Code)) : Hooks Code :=
  calls.foldl (fun s c => hookAdd s c.name c.pri.text c.code) noHooks

/-- A fragment with the number of its call. -/
structure Fragment (Code : Type) where
  fnr : Nat
  pri : Priority
  code : Code

def Fragment.line (f : Fragment Code) : Text := f.pri.text ++ ' ' :: decimal f.fnr

/-- The fragments of a hook, in the order of the calls. -/
def registered (calls : List (Call Code)) (name : Text) : List (Fragment Code) :=
  (calls.zipIdx.filter (·.1.name = name)).map fun x => ⟨x.2, x.1.pri, x.1.code⟩

/-- The order that is asked for. -/
def Fragment.Comes (f g : Fragment Code) : Prop :=
  f.pri.value < g.pri.value ∨ (f.pri.value = g.pri.value ∧ f.fnr < g.fnr)

instance (f g : Fragment Code) : Decidable (f.Comes g) := inferInstanceAs (Decidable (_ ∨ _))

/-- Each fragment once, by priority and then by number. -/
def InOrder (ran : List (Nat × Code)) (fs : List (Fragment Code)) : Prop :=
  ∃ order : List (Fragment Code), order.Perm fs ∧ order.Pairwise Fragment.Comes ∧
    ran = order.map fun f => (f.fnr, f.code)

/-- The texts of two fragments of a hook are in the order of their numbers. -/
def TextsAgree (fs : List (Fragment Code)) : Prop :=
  ∀ f ∈ fs, ∀ g ∈ fs, (Before f.line g.line ↔ f.Comes g)

/-- The fragment goes on, leaves the input to the loop and keeps the fragments that are there. -/
def Quiet (exec : Exec Code) (code : Code) : Prop :=
  ∀ s stdin, ∃ s', exec code s stdin = some (s', stdin) ∧
    ∀ i c, s.hook_functions i = some c → s'.hook_functions i = some c

/-! ## What `hook_add` leaves -/

theorem arrayIndex_decimal (n : Nat) : arrayIndex (decimal n) = n := Nat.ofDigitChars_ten_toDigits

theorem isWord_digits {t : Text} (hne : t ≠ []) (h : ∀ c ∈ t, c.isDigit = true) : IsWord t := by
  refine ⟨hne, fun c hc => ?_⟩
  have hd := h c hc
  by_contra hb
  rw [Bool.not_eq_false] at hb
  simp only [isBlank, Bool.or_eq_true, beq_iff_eq] at hb
  rcases hb with (rfl | rfl) | rfl <;> exact absurd hd (by decide)

theorem isWord_decimal (n : Nat) : IsWord (decimal n) :=
  isWord_digits Nat.toDigits_ne_nil fun _ hc => Nat.isDigit_of_mem_toDigits (by decide) (by decide) hc

theorem mem_line {f : Fragment Code} {c : Char} (hc : c ∈ f.line) : c.isDigit = true ∨ c = ' ' := by
  rw [Fragment.line, List.mem_append, List.mem_cons] at hc
  rcases hc with hc | rfl | hc
  · exact .inl (f.pri.digits c hc)
  · exact .inr rfl
  · exact .inl (Nat.isDigit_of_mem_toDigits (by decide) (by decide) hc)

theorem line_noNewline (f : Fragment Code) : '\n' ∉ f.line := fun h => by
  rcases mem_line h with h | h
  · exact absurd h (by decide)
  · exact absurd h (by decide)

theorem line_noBackslash (f : Fragment Code) : '\\' ∉ f.line := fun h => by
  rcases mem_line h with h | h
  · exact absurd h (by decide)
  · exact absurd h (by decide)

theorem readFields_line (f : Fragment Code) : readFields 1 (plain f.line) = [f.pri.text, decimal f.fnr] :=
  readFields_trimmed (isWord_digits f.pri.ne f.pri.digits) (isWord_decimal f.fnr).trimmed

theorem line_inj {f g : Fragment Code} (h : f.line = g.line) : f.fnr = g.fnr := by
  have hread := (readFields_line f).symm.trans (h ▸ readFields_line g)
  have hfnr : decimal f.fnr = decimal g.fnr := (List.cons.inj (List.cons.inj hread).2).1
  rw [← arrayIndex_decimal f.fnr, hfnr, arrayIndex_decimal]

theorem added_concat (calls : List (Call Code)) (c : Call Code) :
    added (calls ++ [c]) = hookAdd (added calls) c.name c.pri.text c.code := by
  rw [added, List.foldl_concat, ← added]

theorem registered_concat (calls : List (Call Code)) (c : Call Code) (name : Text) :
    registered (calls ++ [c]) name =
      registered calls name ++ if c.name = name then [⟨calls.length, c.pri, c.code⟩] else [] := by
  rw [registered, List.zipIdx_append, List.filter_append, List.map_append, ← registered]
  by_cases h : c.name = name <;> simp [h]

/-- **The calls of `hook_add`**: every fragment stands under its number, and its line with its hook. -/
theorem added_spec (calls : List (Call Code)) :
    (added calls).hook_fcounter = calls.length ∧
      (∀ i c, calls[i]? = some c → (added calls).hook_functions i = some c.code) ∧
        ∀ name, (added calls).hookidx name = (registered calls name).map Fragment.line := by
  induction calls using List.reverseRecOn with
  | nil => simp [added, noHooks, registered]
  | append_singleton calls c ih =>
    obtain ⟨hcount, hfun, hidx⟩ := ih
    rw [added_concat]
    refine ⟨by simp [hookAdd, hcount], fun i c' hi => ?_, fun name => ?_⟩
    · by_cases hlast : i = calls.length
      · subst hlast
        obtain rfl : c = c' := by simpa using hi
        simp [hookAdd, hcount]
      · have hlt : i < calls.length := by
          have := (List.getElem?_eq_some_iff.1 hi).1
          rw [List.length_append, List.length_singleton] at this
          omega
        rw [List.getElem?_append_left hlt] at hi
        simpa [hookAdd, hcount, hlast] using hfun i c' hi
    · rw [registered_concat, hookAdd]
      by_cases h : name = c.name
      · subst h
        simp [hidx, hcount, Fragment.line]
      · simp [h, Ne.symm h, hidx]

variable {calls : List (Call Code)} {name : Text}

theorem functions_registered {f : Fragment Code} (hf : f ∈ registered calls name) :
    (added calls).hook_functions f.fnr = some f.code ∧ ∃ c ∈ calls, c.name = name ∧ c.code = f.code := by
  obtain ⟨⟨c, i⟩, hx, rfl⟩ := List.mem_map.1 hf
  obtain ⟨hmem, hname⟩ := List.mem_filter.1 hx
  have hi := List.mem_zipIdx_iff_getElem?.1 hmem
  exact ⟨(added_spec calls).2.1 i c hi, c, List.mem_of_getElem? hi, by simpa using hname, rfl⟩

/-- The numbers go up. -/
theorem registered_increasing (calls : List (Call Code)) (name : Text) :
    (registered calls name).Pairwise fun f g => f.fnr < g.fnr := by
  induction calls using List.reverseRecOn with
  | nil => exact List.Pairwise.nil
  | append_singleton calls c ih =>
    rw [registered_concat]
    split
    · refine List.pairwise_append.2 ⟨ih, List.pairwise_singleton _ _, fun f hf g hg => ?_⟩
      rw [List.mem_singleton] at hg
      subst hg
      obtain ⟨⟨c, i⟩, hx, rfl⟩ := List.mem_map.1 hf
      exact (List.getElem?_eq_some_iff.1 (List.mem_zipIdx_iff_getElem?.1 (List.mem_filter.1 hx).1)).1
    · simpa using ih

theorem eq_of_fnr {f g : Fragment Code} (hf : f ∈ registered calls name) (hg : g ∈ registered calls name)
    (h : f.fnr = g.fnr) : f = g := by
  by_contra hne
  have hpair : (registered calls name).Pairwise fun f g => f.fnr ≠ g.fnr :=
    (registered_increasing calls name).imp Nat.ne_of_lt
  have : Std.Symm fun f g : Fragment Code => f.fnr ≠ g.fnr := ⟨fun _ _ h => h.symm⟩
  exact hpair.forall hf hg hne h

/-! ## The loop -/

/-- The loop runs the fragments of its lines, one after the other. -/
theorem hookLoop_spec {exec : Exec Code} {fs : List (Fragment Code)} {s : Hooks Code} {n : Nat} (hn : fs.length ≤ n)
    (hfun : ∀ f ∈ fs, s.hook_functions f.fnr = some f.code) (hq : ∀ f ∈ fs, Quiet exec f.code) :
    hookLoop exec n s (unlines (fs.map Fragment.line)) = fs.map fun f => (f.fnr, f.code) := by
  induction fs generalizing s n with
  | nil => cases n <;> rfl
  | cons f fs ih =>
    obtain ⟨n, rfl⟩ : ∃ m, n = m + 1 := ⟨n - 1, by simp at hn; omega⟩
    obtain ⟨hf, hfs⟩ := List.forall_mem_cons.1 hfun
    obtain ⟨hqf, hqs⟩ := List.forall_mem_cons.1 hq
    obtain ⟨s', hexec, hkept⟩ := hqf s (unlines (fs.map Fragment.line))
    have hread : readLine (unlines ((f :: fs).map Fragment.line)) =
        some (plain f.line, unlines (fs.map Fragment.line)) := by
      rw [List.map_cons, unlines, List.flatMap_cons, ← unlines, List.append_assoc]
      exact readLine_plain (line_noBackslash f) (line_noNewline f) _
    have hrest := ih (s := s') (n := n) (by simpa using hn) (fun g hg => hkept _ _ (hfs g hg)) hqs
    rw [List.map_cons] at hread
    simp only [hookLoop, List.map_cons, hread, readFields_line, List.headD_cons, if_neg f.pri.ne, List.getD_cons_succ,
      List.getD_cons_zero, arrayIndex_decimal, hf, hexec, hrest]

/-- The fragments in the order of the lines. -/
def byLine (fs : List (Fragment Code)) : List (Fragment Code) :=
  fs.mergeSort fun f g => decide (¬ Before g.line f.line)

theorem perm_byLine (fs : List (Fragment Code)) : (byLine fs).Perm fs := List.mergeSort_perm fs _

theorem sort_lines (fs : List (Fragment Code)) : sort (fs.map Fragment.line) = (byLine fs).map Fragment.line :=
  (List.map_mergeSort (f := Fragment.line) (l := fs) fun _ _ _ _ => rfl).symm

/-- No two lines are equal. -/
theorem lines_nodup : ((registered calls name).map Fragment.line).Nodup := by
  refine List.Pairwise.map _ (fun f g (h : f.fnr < g.fnr) heq => ?_) (registered_increasing calls name)
  exact absurd (line_inj heq) (Nat.ne_of_lt h)

theorem byLine_sorted : (byLine (registered calls name)).Pairwise fun f g => Before f.line g.line := by
  have h := pairwise_sort_nodup (@lines_nodup _ calls name)
  rwa [sort_lines, List.pairwise_map] at h

theorem hookLines_added (h : registered calls name ≠ []) :
    hookLines (added calls) name = unlines ((byLine (registered calls name)).map Fragment.line) := by
  have hlines : lines (['\n'].intercalate ((registered calls name).map Fragment.line) ++ ['\n']) =
      (registered calls name).map Fragment.line := by
    rw [intercalate_newline (by simpa using h), lines_unlines]
    intro l hl
    obtain ⟨f, -, rfl⟩ := List.mem_map.1 hl
    exact line_noNewline f
  rw [hookLines, (added_spec calls).2.2, hlines, sort_lines]

/-- **The run of a hook**: its fragments in the order of their lines. -/
theorem hookEval_added {exec : Exec Code} (hq : ∀ c ∈ calls, c.name = name → Quiet exec c.code) :
    hookEval exec (added calls) name = (byLine (registered calls name)).map fun f => (f.fnr, f.code) := by
  by_cases h : registered calls name = []
  · have hidx : (added calls).hookidx name = [] := by rw [(added_spec calls).2.2, h, List.map_nil]
    have hone : hookLines (added calls) name = ['\n'] := by
      have hlines : lines ['\n'] = [[]] := by rw [← List.nil_append ['\n'], lines_cons List.not_mem_nil, lines_nil]
      rw [hookLines, hidx, List.intercalate_nil, List.nil_append, hlines, sort, List.mergeSort_singleton]
      rfl
    rw [hookEval, hone, h, byLine, List.mergeSort_nil]
    rfl
  · have hmem : ∀ f ∈ byLine (registered calls name), f ∈ registered calls name := fun f hf =>
      (perm_byLine _).mem_iff.1 hf
    rw [hookEval, hookLines_added h]
    refine hookLoop_spec ?_ (fun f hf => (functions_registered (hmem f hf)).1) fun f hf => ?_
    · have hlen := length_le_unlines ((byLine (registered calls name)).map Fragment.line)
      rwa [List.length_map] at hlen
    · obtain ⟨-, c, hc, hname, hcode⟩ := functions_registered (hmem f hf)
      exact hcode ▸ hq c hc hname

theorem eq_of_map_eq {α β : Type} {f : α → β} {l l' : List α} (hf : ∀ a ∈ l, ∀ b ∈ l', f a = f b → a = b)
    (h : l.map f = l'.map f) : l = l' := by
  induction l generalizing l' with
  | nil => exact (List.map_eq_nil_iff.1 h.symm).symm
  | cons a l ih =>
    obtain ⟨b, l', rfl, hab, hl⟩ := List.map_eq_cons_iff.1 h.symm
    rw [hf a (by simp) b (by simp) hab.symm, ih (fun x hx y hy => hf x (by simp [hx]) y (by simp [hy])) hl.symm]

theorem comes_asymm {f g : Fragment Code} (h : f.Comes g) : ¬ g.Comes f := by
  rintro (h' | h') <;> rcases h with h | h <;> omega

/-- A run in the order of the numbers shows the texts in that order. -/
theorem textsAgree_of_inOrder {exec : Exec Code} (hq : ∀ c ∈ calls, c.name = name → Quiet exec c.code)
    (h : InOrder (hookEval exec (added calls) name) (registered calls name)) : TextsAgree (registered calls name) := by
  rw [hookEval_added hq] at h
  obtain ⟨order, hperm, hcomes, hrun⟩ := h
  have horder : byLine (registered calls name) = order := by
    refine eq_of_map_eq (fun f hf g hg heq => ?_) hrun
    exact eq_of_fnr ((perm_byLine _).mem_iff.1 hf) (hperm.mem_iff.1 hg) (Prod.mk.inj heq).1
  subst horder
  have hboth : (byLine (registered calls name)).Pairwise fun f g =>
      (Before f.line g.line ↔ f.Comes g) ∧ (Before g.line f.line ↔ g.Comes f) :=
    (byLine_sorted.and hcomes).imp fun h =>
      ⟨iff_of_true h.1 h.2, iff_of_false (before_asymm h.1) (comes_asymm h.2)⟩
  intro f hf g hg
  by_cases hfg : f = g
  · subst hfg
    exact iff_of_false (before_irrefl _) fun h => comes_asymm h h
  · have : Std.Symm fun f g : Fragment Code =>
        (Before f.line g.line ↔ f.Comes g) ∧ (Before g.line f.line ↔ g.Comes f) := ⟨fun _ _ h => ⟨h.2, h.1⟩⟩
    exact (hboth.forall ((perm_byLine _).mem_iff.2 hf) ((perm_byLine _).mem_iff.2 hg) hfg).1

/-- **A hook runs its fragments in the order of their numbers exactly when the texts of the lines are in that
order.** -/
theorem hook_order_iff (exec : Exec Code) (calls : List (Call Code)) (name : Text)
    (hq : ∀ c ∈ calls, c.name = name → Quiet exec c.code) :
    InOrder (hookEval exec (added calls) name) (registered calls name) ↔ TextsAgree (registered calls name) := by
  refine ⟨textsAgree_of_inOrder hq, fun h => ?_⟩
  rw [hookEval_added hq]
  refine ⟨_, perm_byLine _, ?_, rfl⟩
  refine byLine_sorted.imp_of_mem fun {f g} hf hg hfg => (h f ?_ g ?_).1 hfg
  · exact (perm_byLine _).mem_iff.1 hf
  · exact (perm_byLine _).mem_iff.1 hg

/-- A fragment that does nothing to the loop. -/
def goOn : Exec Text := fun _ s stdin => some (s, stdin)

theorem quiet_goOn (code : Text) : Quiet goOn code := fun s _ => ⟨s, rfl, fun _ _ h => h⟩

def five : Priority := ⟨"5".toList, by simp, List.all_eq_true.1 (by decide)⟩

def ten : Priority := ⟨"10".toList, by simp, List.all_eq_true.1 (by decide)⟩

/-- Two fragments of a hook, with one of another hook between them. -/
def fragments : List (Call Text) :=
  [⟨"premake".toList, five, "a".toList⟩, ⟨"preconf".toList, five, "b".toList⟩, ⟨"premake".toList, five, "c".toList⟩]

theorem hook_order_fragments :
    InOrder (hookEval goOn (added fragments) "premake".toList) (registered fragments "premake".toList) ↔
      TextsAgree (registered fragments "premake".toList) :=
  hook_order_iff goOn fragments "premake".toList fun c _ _ => quiet_goOn c.code

/-- Priority 10 is before priority 5. -/
def tenAndFive : List (Call Text) := [⟨"premake".toList, five, ['a']⟩, ⟨"premake".toList, ten, ['b']⟩]

theorem ten_runs_first :
    hookEval goOn (added tenAndFive) "premake".toList = [(1, ['b']), (0, ['a'])] ∧
      ¬ InOrder (hookEval goOn (added tenAndFive) "premake".toList) (registered tenAndFive "premake".toList) := by
  have hreg : registered tenAndFive "premake".toList = [⟨0, five, ['a']⟩, ⟨1, ten, ['b']⟩] := by rfl
  refine ⟨?_, fun h => ?_⟩
  · rw [hookEval_added fun c _ _ => quiet_goOn c.code, hreg]
    have hlt : Before (Fragment.line ⟨1, ten, ['b']⟩) (Fragment.line ⟨0, five, ['a']⟩) := by decide
    simp [byLine, List.mergeSort, List.MergeSort.Internal.splitInTwo, hlt]
  · have hagree := textsAgree_of_inOrder (fun c _ _ => quiet_goOn c.code) h
    rw [hreg] at hagree
    have hcomes := (hagree ⟨1, ten, ['b']⟩ (by simp) ⟨0, five, ['a']⟩ (by simp)).1 (by decide)
    exact absurd hcomes (by decide)

/-- Of two fragments with one priority number 10 is before number 9. -/
example : Before (⟨10, five, ()⟩ : Fragment Unit).line (⟨9, five, ()⟩ : Fragment Unit).line := by decide

end T2Sde.Build
