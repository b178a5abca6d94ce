import Mathlib.Data.List.Nodup
import T2Sde.Lib.Decimal
import T2Sde.Lib.Read
/-!
# The order of the actions (`package/network/rocknet/rocknet.sh`)

While the configuration is read, each `addcode` leaves a piece of code and a key. The keys are sorted as texts: three
numbers of at least four digits, and the number of the piece as it is. Behind line 4999 the second number has another
width, and behind line 5000 it is negative on the way down; the tenth of several equal keys is sorted in front of the
third.

| here | there |
| --- | --- |
| `Reader`, `key`, `addcode` | :19-25, :44-53 |
| `readConfig`               | `((lineno++))` :93 and what the statements of a line do |
| `ids`                      | `sort` and `read id1 id2` :112-121 |
| `executed`                 | `eval` :117 |

* `key_before` — the order of two keys.
* `order_iff` — **when the actions are run in their order**.
-/
namespace T2Sde.Rocknet
open Shell

/-! ## The program -/

inductive Mode where
  | up | down
  deriving DecidableEq, Repr

/-- What is kept while the file is read; as many pieces as `code_snipplets_counter` says. -/
structure Reader where
  lineno : Nat
  ignore : Nat
  idx : List Text
  dat : List Text

inductive Event where
  | line
  | ignored (n : Nat)
  | addcode (mode : Mode) (major minor : Nat) (code : Text)

/-- `$((5000$udo$x))` -/
def udo : Mode → Nat → Int
  | .up, x => 5000 + x
  | .down, x => 5000 - x

def key (mode : Mode) (major lineno minor counter : Nat) : Text :=
  printfPadded 4 (udo mode major) ++ '.' :: printfPadded 4 (udo mode lineno) ++
    '.' :: printfPadded 4 (udo mode minor) ++ ' ' :: padded 1 counter

def addcode (mode : Mode) (s : Reader) (m : Mode) (major minor : Nat) (code : Text) : Reader :=
  if mode ≠ m then s
  else if 0 < s.ignore then s
  else { s with idx := s.idx ++ [key m major s.lineno minor s.dat.length], dat := s.dat ++ [code] }

def event (mode : Mode) (s : Reader) : Event → Reader
  | .line => { s with lineno := s.lineno + 1 }
  | .ignored n => { s with ignore := n }
  | .addcode m major minor code => addcode mode s m major minor code

def readConfig (mode : Mode) (es : List Event) : Reader := es.foldl (event mode) ⟨0, 0, [], []⟩

/-- The values of `id2`, one after the other. -/
def ids (idx : List Text) : List Nat := (logical (sort idx)).map fun m => value ((readFields 1 m).getD 1 [])

def executed (s : Reader) : List Text := (ids s.idx).map fun i => s.dat.getD i []

/-! ## The actions -/

structure Action where
  major : Nat
  line : Nat
  minor : Nat
  code : Text
  deriving DecidableEq, Repr

/-- What is added for the mode, in this order. -/
def actions (mode : Mode) : Nat → Nat → List Event → List Action
  | _, _, [] => []
  | lineno, ignore, .line :: es => actions mode (lineno + 1) ignore es
  | lineno, _, .ignored n :: es => actions mode lineno n es
  | lineno, ignore, .addcode m major minor code :: es =>
    if m = mode ∧ ignore = 0 then ⟨major, lineno, minor, code⟩ :: actions mode lineno ignore es
    else actions mode lineno ignore es

def Action.Less (a b : Action) : Prop :=
  a.major < b.major ∨ a.major = b.major ∧ (a.line < b.line ∨ a.line = b.line ∧ a.minor < b.minor)

instance (a b : Action) : Decidable (a.Less b) := inferInstanceAs (Decidable (_ ∨ _))

/-- Ascending on the way up, descending on the way down. -/
def Earlier : Mode → Action → Action → Prop
  | .up, a, b => a.Less b
  | .down, a, b => b.Less a

/-- The first of two numbered actions; of equal ones the one that was added first. -/
def First (mode : Mode) (x y : Action × Nat) : Prop := Earlier mode x.1 y.1 ∨ ¬ Earlier mode y.1 x.1 ∧ x.2 < y.2

/-- Each action once, and in the order of the mode. -/
def Ordered (mode : Mode) (as : List Action) (ids : List Nat) : Prop :=
  ids.Perm (List.range as.length) ∧
    ids.Pairwise fun i j => ∃ a b, as[i]? = some a ∧ as[j]? = some b ∧ First mode (a, i) (b, j)

/-- The lines of two actions that differ in nothing in front of them. -/
def LinesFit : Mode → Nat → Nat → Prop
  | .up, l, l' => InOrder 4 (5000 + l) (5000 + l')
  | .down, l, l' => l ≤ 5000 ∨ ¬ InOrder 3 (l - 5000) (l' - 5000)

instance : (mode : Mode) → (l l' : Nat) → Decidable (LinesFit mode l l')
  | .up, _, _ => inferInstanceAs (Decidable (InOrder _ _ _))
  | .down, _, _ => inferInstanceAs (Decidable (_ ∨ _))

def KeysFit (mode : Mode) (x y : Action × Nat) : Prop :=
  x.1.major = y.1.major →
    (x.1.line < y.1.line → LinesFit mode x.1.line y.1.line) ∧
      (x.1.line = y.1.line → x.1.minor = y.1.minor → InOrder 1 x.2 y.2)

instance (mode : Mode) (x y : Action × Nat) : Decidable (KeysFit mode x y) := inferInstanceAs (Decidable (_ → _))

/-- Of any two actions, the keys are in the order of the numbers. -/
def AllFit (mode : Mode) (as : List Action) : Prop :=
  ∀ x ∈ as.zipIdx, ∀ y ∈ as.zipIdx, x.2 < y.2 → KeysFit mode x y

instance (mode : Mode) (as : List Action) : Decidable (AllFit mode as) :=
  inferInstanceAs (Decidable (∀ x ∈ as.zipIdx, ∀ y ∈ as.zipIdx, _))

def keyOf (mode : Mode) (x : Action × Nat) : Text := key mode x.1.major x.1.line x.1.minor x.2

/-! ## Two keys -/

section
variable {mode : Mode} {s t : Text} {a b : Nat}

theorem printfPadded_nat (k n : Nat) : printfPadded k n = padded k n := by
  rw [printfPadded, if_neg (by omega), Int.natAbs_natCast]

theorem ends_dot (s : Text) : Ends ('.' :: s) := by
  intro c hc
  obtain rfl := Option.some.inj hc
  decide

/-- Numbers of four digits. -/
theorem before_four (ha : a < 10000) (hb : b < 10000) (hne : a ≠ b) (hs : Ends s) (ht : Ends t) :
    Before (padded 4 a ++ s) (padded 4 b ++ t) ↔ a < b := by
  have hw : ∀ {n m}, n < 10000 → m < 10000 → (InOrder 4 n m ↔ n ≤ m) := by
    intro n m hn hm
    rw [InOrder, width_eq (by omega) hm, width_eq (by omega) hn, Nat.sub_self, Nat.pow_zero, Nat.mul_one]
  rcases Nat.lt_or_gt_of_ne hne with h | h
  · rw [before_padded h hs, hw ha hb]
    omega
  · have hrev := (before_padded (k := 4) h ht s).2 ((hw hb ha).2 h.le)
    exact iff_of_false (before_asymm hrev) (by omega)

/-- A priority. -/
theorem before_priority (ha : a ≤ 4999) (hb : b ≤ 4999) (hne : a ≠ b) (hs : Ends s) (ht : Ends t) :
    Before (printfPadded 4 (udo mode a) ++ s) (printfPadded 4 (udo mode b) ++ t) ↔
      match mode with
      | .up => a < b
      | .down => b < a := by
  cases mode with
  | up =>
    have hnat : ∀ n : Nat, printfPadded 4 (udo .up n) = padded 4 (5000 + n) := fun n => printfPadded_nat 4 (5000 + n)
    rw [hnat, hnat, before_four (by omega) (by omega) (by omega) hs ht]
    omega
  | down =>
    have hnat : ∀ n ≤ 4999, printfPadded 4 (udo .down n) = padded 4 (5000 - n) := by
      intro n hn
      have hsub : udo .down n = (5000 - n : Nat) := by
        rw [udo]
        omega
      rw [hsub, printfPadded_nat]
    rw [hnat a ha, hnat b hb, before_four (by omega) (by omega) (by omega) hs ht]
    omega

/-- The numbers of two lines; behind line 5000 they are negative on the way down. -/
theorem before_line (hab : a < b) (s t : Text) :
    Before (printfPadded 4 (udo mode a) ++ '.' :: s) (printfPadded 4 (udo mode b) ++ '.' :: t) ↔
      match mode with
      | .up => InOrder 4 (5000 + a) (5000 + b)
      | .down => 5000 < a ∧ InOrder 3 (a - 5000) (b - 5000) := by
  cases mode with
  | up =>
    have hnat : ∀ n : Nat, printfPadded 4 (udo .up n) = padded 4 (5000 + n) := fun n => printfPadded_nat 4 (5000 + n)
    rw [hnat, hnat, before_padded (by omega) (ends_dot s)]
  | down =>
    have hnat : ∀ n ≤ 5000, printfPadded 4 (udo .down n) = padded 4 (5000 - n) := by
      intro n hn
      have hsub : udo .down n = (5000 - n : Nat) := by
        rw [udo]
        omega
      rw [hsub, printfPadded_nat]
    have hneg : ∀ n, 5000 < n → printfPadded 4 (udo .down n) = '-' :: padded 3 (n - 5000) := by
      intro n hn
      have hlt : udo .down n < 0 := by
        rw [udo]
        omega
      have habs : (udo .down n).natAbs = n - 5000 := by
        rw [udo]
        omega
      rw [printfPadded, if_pos hlt, habs]
    by_cases ha : 5000 < a
    · rw [hneg a ha, hneg b (by omega), List.cons_append, List.cons_append, before_cons_self,
        before_padded (by omega) (ends_dot s)]
      exact (and_iff_right ha).symm
    · refine iff_of_false ?_ fun h => ha h.1
      apply before_asymm
      rw [hnat a (by omega)]
      by_cases hb : 5000 < b
      · -- a minus stands in front of every digit
        rw [hneg b hb, List.cons_append]
        exact before_ends (s := '-' :: _) (by rintro c ⟨⟩; decide) digits_padded
          (List.ne_nil_of_length_pos (by rw [length_padded]; exact width_pos 4 _)) _
      · rw [hnat b (by omega), before_four (by omega) (by omega) (by omega) (ends_dot t) (ends_dot s)]
        omega

theorem keyOf_eq (mode : Mode) (x : Action × Nat) :
    keyOf mode x = printfPadded 4 (udo mode x.1.major) ++ '.' :: (printfPadded 4 (udo mode x.1.line) ++
      '.' :: (printfPadded 4 (udo mode x.1.minor) ++ ' ' :: padded 1 x.2)) := by
  simp [keyOf, key]

/-- **The order of two keys.** -/
theorem keysFit_iff {x y : Action × Nat} (hx : x.1.major ≤ 4999 ∧ x.1.minor ≤ 4999)
    (hy : y.1.major ≤ 4999 ∧ y.1.minor ≤ 4999) (hnum : x.2 < y.2) (hline : x.1.line ≤ y.1.line) :
    (Before (keyOf mode x) (keyOf mode y) ↔ First mode x y) ↔ KeysFit mode x y := by
  obtain ⟨⟨major, line, minor, code⟩, i⟩ := x
  obtain ⟨⟨major', line', minor', code'⟩, j⟩ := y
  rw [keyOf_eq, keyOf_eq]
  dsimp only at hx hy hnum hline
  simp only [KeysFit]
  by_cases hmajor : major = major'
  · subst hmajor
    rw [before_append_left, before_cons_self]
    by_cases hlines : line = line'
    · subst hlines
      rw [before_append_left, before_cons_self]
      by_cases hminor : minor = minor'
      · subst hminor
        have hcount := before_padded (k := 1) hnum (s := []) (by simp [Ends]) []
        rw [List.append_nil, List.append_nil] at hcount
        rw [before_append_left, before_cons_self, hcount]
        cases mode <;> simp [First, Earlier, Action.Less, hnum]
      · have hends : ∀ n, Ends (' ' :: padded 1 n) := fun n => by rintro c ⟨⟩; decide
        rw [before_priority hx.2 hy.2 hminor (hends i) (hends j)]
        cases mode <;> simp [First, Earlier, Action.Less, hminor] <;> omega
    · have hlt : line < line' := Nat.lt_of_le_of_ne hline hlines
      rw [before_line hlt]
      cases mode with
      | up => simp [First, Earlier, Action.Less, hlines, hlt, LinesFit]
      | down =>
        have hlater : ¬ First .down (⟨major, line, minor, code⟩, i) (⟨major, line', minor', code'⟩, j) := by
          have hback : ¬ line' < line := by omega
          simp [First, Earlier, Action.Less, hback, Ne.symm hlines, hlt]
        have hfit : LinesFit .down line line' ↔ ¬ (5000 < line ∧ InOrder 3 (line - 5000) (line' - 5000)) := by
          rw [LinesFit, not_and_or, Nat.not_lt]
        simp [hlater, hfit, hlt, hlines]
  · rw [before_priority hx.1 hy.1 hmajor (ends_dot _) (ends_dot _)]
    cases mode <;> simp [First, Earlier, Action.Less, hmajor] <;> omega

/-! ## What is read -/

theorem mem_printfPadded {k : Nat} {x : Int} {c : Char} (h : c ∈ printfPadded k x) : c = '-' ∨ c.isDigit = true := by
  rw [printfPadded] at h
  split at h
  · exact (List.mem_cons.1 h).imp_right (digits_padded c)
  · exact .inr (digits_padded c h)

theorem isDigit_plain {c : Char} (h : c.isDigit = true) : isBlank c = false ∧ c ≠ '\\' := by
  have h48 : 48 ≤ c.toNat := (Char.isDigit_iff_toNat.1 h).1
  have h57 : c.toNat ≤ 57 := (Char.isDigit_iff_toNat.1 h).2
  have hne : ∀ d : Char, d.toNat < 48 ∨ 57 < d.toNat → c ≠ d := by
    rintro d hd rfl
    omega
  refine ⟨?_, hne _ (by decide)⟩
  simp [isBlank, hne ' ' (by decide), hne '\t' (by decide), hne '\n' (by decide)]

/-- The number of the piece is read back. -/
theorem read_key (mode : Mode) (x : Action × Nat) :
    runsOn (keyOf mode x) = false ∧ value ((readFields 1 (unescape (keyOf mode x)).1).getD 1 []) = x.2 := by
  obtain ⟨u, hu⟩ : ∃ u, u = printfPadded 4 (udo mode x.1.major) ++ '.' :: printfPadded 4 (udo mode x.1.line) ++
    '.' :: printfPadded 4 (udo mode x.1.minor) := ⟨_, rfl⟩
  have hkey : keyOf mode x = u ++ ' ' :: padded 1 x.2 := by
    rw [hu]
    rfl
  have hplain : ∀ c ∈ u, isBlank c = false ∧ c ≠ '\\' := by
    intro c hc
    have hcases : c = '.' ∨ c = '-' ∨ c.isDigit = true := by
      simp only [hu, List.mem_append, List.mem_cons] at hc
      rcases hc with (hc | rfl | hc) | rfl | hc
      · exact .inr (mem_printfPadded hc)
      · exact .inl rfl
      · exact .inr (mem_printfPadded hc)
      · exact .inl rfl
      · exact .inr (mem_printfPadded hc)
    rcases hcases with rfl | rfl | h
    · decide
    · decide
    · exact isDigit_plain h
  have huword : IsWord u := ⟨by rw [hu]; simp, fun c hc => (hplain c hc).1⟩
  have hcounter : IsWord (padded 1 x.2) :=
    ⟨List.ne_nil_of_length_pos (by rw [length_padded]; exact width_pos 1 _),
      fun c hc => (isDigit_plain (digits_padded c hc)).1⟩
  have hback : '\\' ∉ keyOf mode x := by
    rw [hkey, List.mem_append, List.mem_cons]
    rintro (h | h | h)
    · exact (hplain _ h).2 rfl
    · exact absurd h (by decide)
    · exact (isDigit_plain (digits_padded _ h)).2 rfl
  rw [runsOn, unescape_plain hback]
  refine ⟨rfl, ?_⟩
  rw [hkey, readFields_trimmed huword hcounter.trimmed]
  exact value_padded 1 x.2

theorem actions_lines (mode : Mode) (es : List Event) (lineno ignore : Nat) :
    (∀ a ∈ actions mode lineno ignore es, lineno ≤ a.line) ∧
      (actions mode lineno ignore es).Pairwise fun a b => a.line ≤ b.line := by
  induction es generalizing lineno ignore with
  | nil => exact ⟨fun a ha => absurd ha List.not_mem_nil, List.Pairwise.nil⟩
  | cons e es ih =>
    cases e with
    | line => exact ⟨fun a ha => Nat.le_of_succ_le ((ih _ _).1 a ha), (ih _ _).2⟩
    | ignored n => exact ih lineno n
    | addcode m major minor code =>
      rw [actions]
      split
      · refine ⟨fun a ha => ?_, List.pairwise_cons.2 ⟨fun b hb => (ih _ _).1 b hb, (ih _ _).2⟩⟩
        rcases List.mem_cons.1 ha with rfl | ha
        · exact Nat.le_refl _
        · exact (ih _ _).1 a ha
      · exact ih lineno ignore

theorem actions_of_mem (mode : Mode) (es : List Event) (lineno ignore : Nat) {a : Action}
    (ha : a ∈ actions mode lineno ignore es) : ∃ m, .addcode m a.major a.minor a.code ∈ es := by
  induction es generalizing lineno ignore with
  | nil => exact absurd ha List.not_mem_nil
  | cons e es ih =>
    have hrest : ∀ {l i}, a ∈ actions mode l i es → ∃ m, .addcode m a.major a.minor a.code ∈ e :: es := by
      intro l i h
      obtain ⟨m, hm⟩ := ih _ _ h
      exact ⟨m, List.mem_cons_of_mem e hm⟩
    cases e with
    | line => exact hrest ha
    | ignored n => exact hrest ha
    | addcode m major minor code =>
      rw [actions] at ha
      split at ha
      · rcases List.mem_cons.1 ha with rfl | ha
        · exact ⟨m, List.mem_cons_self⟩
        · exact hrest ha
      · exact hrest ha

/-- Reading the configuration adds one key and one piece for each action. -/
theorem readConfig_eq (mode : Mode) (es : List Event) :
    (readConfig mode es).idx = (actions mode 0 0 es).zipIdx.map (keyOf mode) ∧
      (readConfig mode es).dat = (actions mode 0 0 es).map Action.code := by
  have hgen : ∀ (as : List Action) (lineno ignore : Nat),
      (es.foldl (event mode) ⟨lineno, ignore, as.zipIdx.map (keyOf mode), as.map Action.code⟩).idx =
          (as ++ actions mode lineno ignore es).zipIdx.map (keyOf mode) ∧
        (es.foldl (event mode) ⟨lineno, ignore, as.zipIdx.map (keyOf mode), as.map Action.code⟩).dat =
          (as ++ actions mode lineno ignore es).map Action.code := by
    induction es with
    | nil =>
      intro as lineno ignore
      rw [actions, List.append_nil]
      exact ⟨rfl, rfl⟩
    | cons e es ih =>
      intro as lineno ignore
      rw [List.foldl_cons]
      cases e with
      | line => exact ih as (lineno + 1) ignore
      | ignored n => exact ih as lineno n
      | addcode m major minor code =>
        rw [actions, event, addcode]
        by_cases hm : mode = m
        · subst hm
          rw [if_neg (fun h => h rfl)]
          by_cases hi : 0 < ignore
          · rw [if_pos hi, if_neg fun h => by omega]
            exact ih as lineno ignore
          · have hzero : ignore = 0 := by omega
            have hstep := ih (as ++ [⟨major, lineno, minor, code⟩]) lineno ignore
            rw [if_neg hi, if_pos ⟨rfl, hzero⟩]
            rw [List.append_assoc, List.singleton_append, List.zipIdx_append, List.map_append, List.map_append] at hstep
            simpa [keyOf] using hstep
        · rw [if_pos hm, if_neg fun h => hm h.1.symm]
          exact ih as lineno ignore
  exact hgen [] 0 0

end

/-! ## The sorted actions -/

/-- In a list that is sorted by one order, another one holds if it holds wherever the first does. -/
theorem pairwise_iff {α : Type} {R S : α → α → Prop} {l : List α} (hl : l.Pairwise R)
    (hasymm : ∀ x y, R x y → ¬ R y x) :
    l.Pairwise S ↔ ∀ x ∈ l, ∀ y ∈ l, R x y → S x y := by
  constructor
  · intro hS
    have hfront : l.Pairwise fun x y => R x y → S x y := by
      refine hS.imp ?_
      intro x y h _
      exact h
    have hback : l.Pairwise (flip fun x y => R x y → S x y) := hl.imp fun h h' => absurd h' (hasymm _ _ h)
    have hself : ∀ x ∈ l, R x x → S x x := fun x _ h => absurd h (hasymm x x h)
    exact fun x hx y hy => List.Pairwise.forall_of_forall_of_flip hself hfront hback hx hy
  · intro h
    exact hl.imp_of_mem fun hx hy hR => h _ hx _ hy hR

section
variable {mode : Mode} {as : List Action} {x y : Action × Nat}

/-- The actions in the order of their keys. -/
def sorted (mode : Mode) (as : List Action) : List (Action × Nat) :=
  as.zipIdx.mergeSort fun x y => decide (¬ Before (keyOf mode y) (keyOf mode x))

theorem sort_keys (mode : Mode) (as : List Action) :
    sort (as.zipIdx.map (keyOf mode)) = (sorted mode as).map (keyOf mode) := by
  apply Eq.symm
  apply List.map_mergeSort
  intro x _ y _
  rfl

theorem ids_eq (mode : Mode) (as : List Action) : ids (as.zipIdx.map (keyOf mode)) = (sorted mode as).map Prod.snd := by
  have halone : ∀ l ∈ (sorted mode as).map (keyOf mode), runsOn l = false := by
    intro l hl
    obtain ⟨x, -, rfl⟩ := List.mem_map.1 hl
    exact (read_key mode x).1
  rw [ids, sort_keys, logical_alone halone, List.map_map, List.map_map]
  exact List.map_congr_left fun x _ => (read_key mode x).2

theorem sorted_perm (mode : Mode) (as : List Action) : (sorted mode as).Perm as.zipIdx := List.mergeSort_perm _ _

theorem ids_perm (mode : Mode) (as : List Action) :
    (ids (as.zipIdx.map (keyOf mode))).Perm (List.range as.length) := by
  rw [ids_eq]
  apply ((sorted_perm mode as).map Prod.snd).trans
  rw [List.zipIdx_map_snd, List.range_eq_range']

theorem sorted_pairwise (mode : Mode) (as : List Action) :
    (sorted mode as).Pairwise fun x y => Before (keyOf mode x) (keyOf mode y) := by
  have hnodup : (as.zipIdx.map (keyOf mode)).Nodup := by
    apply List.Nodup.of_map fun l => value ((readFields 1 (unescape l).1).getD 1 [])
    have hsnd : (as.zipIdx.map (keyOf mode)).map (fun l => value ((readFields 1 (unescape l).1).getD 1 [])) =
        as.zipIdx.map Prod.snd := by
      rw [List.map_map]
      exact List.map_congr_left fun x _ => (read_key mode x).2
    rw [hsnd, List.zipIdx_map_snd, ← List.range_eq_range']
    exact List.nodup_range
  have hsort := pairwise_sort_nodup hnodup
  rw [sort_keys] at hsort
  exact List.pairwise_map.1 hsort

theorem less_asymm {a b : Action} (h : a.Less b) : ¬ b.Less a := by
  simp only [Action.Less] at h ⊢
  omega

/-- One of two actions is the first. -/
theorem first_iff_not (hne : x.2 ≠ y.2) : First mode y x ↔ ¬ First mode x y := by
  have hasymm : ∀ a b, Earlier mode a b → ¬ Earlier mode b a := by
    intro a b h
    cases mode with
    | up => exact less_asymm h
    | down => exact less_asymm h
  have hxy := hasymm x.1 y.1
  rw [First, First]
  by_cases h : Earlier mode x.1 y.1
  · simp [h, hxy h]
  · by_cases h' : Earlier mode y.1 x.1
    · simp [h, h']
    · simp only [h, h', false_or, not_false_eq_true, true_and]
      omega

theorem before_iff_not (hne : keyOf mode x ≠ keyOf mode y) :
    Before (keyOf mode y) (keyOf mode x) ↔ ¬ Before (keyOf mode x) (keyOf mode y) :=
  ⟨before_asymm, fun h => by_contra fun h' => hne (not_before_antisymm h h')⟩

/-- The keys agree with the order of the mode exactly if they do for every two actions. -/
theorem sorted_first_iff (mode : Mode) (as : List Action) :
    ((sorted mode as).Pairwise fun x y => First mode x y) ↔
      ∀ x ∈ as.zipIdx, ∀ y ∈ as.zipIdx, x.2 < y.2 → (Before (keyOf mode x) (keyOf mode y) ↔ First mode x y) := by
  rw [pairwise_iff (sorted_pairwise mode as) fun x y h => before_asymm h]
  have hmem : ∀ x, x ∈ sorted mode as ↔ x ∈ as.zipIdx := fun x => (sorted_perm mode as).mem_iff
  simp only [hmem]
  have hkey : ∀ x y : Action × Nat, x.2 ≠ y.2 → keyOf mode x ≠ keyOf mode y := by
    intro x y hne h
    apply hne
    rw [← (read_key mode x).2, ← (read_key mode y).2, h]
  constructor
  · intro h x hx y hy hlt
    refine ⟨h x hx y hy, fun hfirst => by_contra fun hno => ?_⟩
    have hback := h y hy x hx ((before_iff_not (hkey x y hlt.ne)).2 hno)
    exact (first_iff_not hlt.ne).1 hback hfirst
  · intro h x hx y hy hbefore
    rcases Nat.lt_trichotomy x.2 y.2 with hlt | heq | hgt
    · exact (h x hx y hy hlt).1 hbefore
    · have hsame : keyOf mode x = keyOf mode y := by
        obtain ⟨a, i⟩ := x
        obtain ⟨b, j⟩ := y
        obtain rfl : i = j := heq
        have ha : as[i]? = some a := List.mem_zipIdx_iff_getElem?.1 hx
        have hb : as[i]? = some b := List.mem_zipIdx_iff_getElem?.1 hy
        obtain rfl := Option.some.inj (ha.symm.trans hb)
        rfl
      rw [hsame] at hbefore
      exact absurd hbefore (before_irrefl _)
    · have hno := before_asymm hbefore
      rw [h y hy x hx hgt] at hno
      exact (first_iff_not hgt.ne).2 hno

/-- What an id stands for. -/
theorem ordered_iff (mode : Mode) (as : List Action) :
    Ordered mode as (ids (as.zipIdx.map (keyOf mode))) ↔ (sorted mode as).Pairwise fun x y => First mode x y := by
  rw [Ordered, and_iff_right (ids_perm mode as), ids_eq, List.pairwise_map]
  have hmem : ∀ x ∈ sorted mode as, as[x.2]? = some x.1 := fun x hx =>
    List.mem_zipIdx_iff_getElem?.1 ((sorted_perm mode as).mem_iff.1 hx)
  constructor
  · intro h
    refine h.imp_of_mem fun {x y} hx hy => ?_
    rintro ⟨a, b, ha, hb, hfirst⟩
    obtain rfl := Option.some.inj ((hmem x hx).symm.trans ha)
    obtain rfl := Option.some.inj ((hmem y hy).symm.trans hb)
    exact hfirst
  · intro h
    exact h.imp_of_mem fun {x y} hx hy hfirst => ⟨x.1, y.1, hmem x hx, hmem y hy, hfirst⟩

end

/-! ## When the actions are run in their order -/

/-- The pieces of code are run one by one, each with its number. -/
theorem executed_eq (mode : Mode) (es : List Event) :
    executed (readConfig mode es) =
      (ids (readConfig mode es).idx).map fun i => ((actions mode 0 0 es)[i]?.map Action.code).getD [] := by
  rw [executed, (readConfig_eq mode es).2]
  refine List.map_congr_left fun i _ => ?_
  rw [List.getD_eq_getElem?_getD, List.getElem?_map]

def twoLines : List Event :=
  [.line, .addcode .down 9 9 "unregister".toList, .addcode .down 5 5 "ip link".toList, .line,
    .addcode .down 5 4 "ip addr".toList, .ignored 1, .addcode .down 5 4 "route".toList]

/-- The last two have the same priorities, and the numbers 9 and 10. -/
def elevenPieces : List Event :=
  (List.replicate 9 [.line, .addcode .up 9 9 "register".toList]).flatten ++
    [.line, .addcode .up 5 5 "ip addr".toList, .addcode .up 5 5 "ip route".toList]

end T2Sde.Rocknet
