import T2Sde.Lib.Cut
import T2Sde.Lib.Stdio
/-!
# Blocks, menus and expert sections (`scripts/config-functions.in`)

A block is pushed on two texts, `spacer` and `tabspace_list`, where the menu it is in is the current one; a menu is
pushed on `menu_stack`, and is a block of its own. `expert_begin` and `expert_end` count from `$exprt`, which no script
sets: behind a section `expert` is -1.

| here | there |
| --- | --- |
| `start`        | `scripts/Config` :185-201 |
| `arith`        | `$(($x + …))` |
| `shown`        | the test of :108, :394 |
| `comment`      | :105-117, as the option of a menu |
| `blockBegin`, `blockEnd` | :362-380 |
| `expertBegin`, `expertEnd` | :382-388 |
| `menuBegin`, `menuEnd` | :390-424 |

* `blockEnd_same` — what a block pushes is popped.
* `calls_spec` — so it is for every nested sequence.
* `expert_calls` — an expert section is not.
* `nesting_iff` — **when the state comes back**.
-/
namespace T2Sde.Config.Menus
open Shell Stdio

/-! ## The calls -/

/-- A line of the dialog. -/
inductive Shown
  | comment (nr : Nat) (spacer text : Text)
  | submenu (id spacer tabspace title : Text)
  | back (id title : Text)
  deriving DecidableEq

structure MenuState where
  spacer : Text
  tabspace : Text
  tabspaceList : Text
  menuThis : Text
  menuStack : Text
  expert : Int
  /-- Not set. -/
  exprt : Option Int
  menuCurrent : Text
  menuCounter : Nat
  menuBack : Text
  menuBackpos : Text
  sdecfgExpert : Bool
  commentnr : Nat
  dialog : List Shown
  data : List (Text × Text)
  deriving DecidableEq

/-- A cycle with the menu that the configuration names. -/
def start (menuCurrent : Text) (sdecfgExpert : Bool) : MenuState where
  spacer := []
  tabspace := "5".toList
  tabspaceList := []
  menuThis := "0".toList
  menuStack := "x".toList
  expert := 0
  exprt := none
  menuCurrent := menuCurrent
  menuCounter := 0
  menuBack := "-1".toList
  menuBackpos := "-1".toList
  sdecfgExpert := sdecfgExpert
  commentnr := 0
  dialog := []
  data := []

/-- A number in a variable, and what is added. -/
def arith (x : Text) (n : Int) : Text := decimal ((((readInt x).map (·.1)).getD 0 + n).bmod (2 ^ 64))

/-- `${x%??}` -/
def cutTwo (x : Text) : Text := if 2 ≤ x.length then x.take (x.length - 2) else x

/-- `${x%% *}` -/
def top (x : Text) : Text := x.takeWhile (· != ' ')

def shown (s : MenuState) : Prop := s.sdecfgExpert = true ∨ s.expert = 0

instance (s : MenuState) : Decidable (shown s) := inferInstanceAs (Decidable (_ ∨ _))

def comment (s : MenuState) (text : Text) : MenuState :=
  if shown s ∧ s.menuCurrent = s.menuThis then
    { s with commentnr := s.commentnr + 1, dialog := s.dialog ++ [.comment (s.commentnr + 1) s.spacer text] }
  else s

def blockBegin (s : MenuState) (n : Int) : MenuState :=
  if s.menuCurrent = s.menuThis then
    { s with
      spacer := if s.tabspaceList ≠ [] then s.spacer ++ "  ".toList else s.spacer
      tabspaceList := s.tabspace ++ ' ' :: s.tabspaceList
      tabspace := arith s.tabspace (n - 2) }
  else s

def blockEnd (s : MenuState) : MenuState :=
  if s.menuCurrent = s.menuThis then
    { s with
      spacer := cutTwo s.spacer
      tabspace := top s.tabspaceList
      tabspaceList := cutRest ' ' s.tabspaceList }
  else s

def expertBegin (s : MenuState) : MenuState := { s with expert := s.exprt.getD 0 + 1 }

def expertEnd (s : MenuState) : MenuState := { s with expert := s.exprt.getD 0 - 1 }

/-- The two entries that lead to the menu and back. -/
def menuLinks (s : MenuState) (id title : Text) : MenuState :=
  let number := decimal s.menuCounter
  let s := if shown s ∧ s.menuCurrent = s.menuThis then
    { s with dialog := s.dialog ++ [.submenu id s.spacer s.tabspace title], data := s.data ++ [(id, number)] } else s
  let s := if shown s ∧ s.menuCurrent = number then
    { s with dialog := s.dialog ++ [.back id title], data := s.data ++ [(id, s.menuThis)] } else s
  if s.menuCurrent = number then { s with menuBack := s.menuThis, menuBackpos := id } else s

def menuPush (s : MenuState) : MenuState :=
  { s with menuStack := s.menuThis ++ ' ' :: s.menuStack, menuThis := decimal s.menuCounter }

def menuPop (s : MenuState) : MenuState := { s with menuThis := top s.menuStack, menuStack := cutRest ' ' s.menuStack }

def menuBegin (s : MenuState) (id title : Text) : MenuState :=
  blockBegin (menuPush (menuLinks { s with menuCounter := s.menuCounter + 1 } id title)) 3

def menuEnd (s : MenuState) : MenuState := menuPop (blockEnd s)

inductive Call
  | option (text : Text)
  | blockBegin (n : Int) | blockEnd
  | expertBegin | expertEnd
  | menuBegin (id title : Text) | menuEnd
  deriving DecidableEq

def Call.apply (s : MenuState) : Call → MenuState
  | .option text => comment s text
  | .blockBegin n => Menus.blockBegin s n
  | .blockEnd => Menus.blockEnd s
  | .expertBegin => Menus.expertBegin s
  | .expertEnd => Menus.expertEnd s
  | .menuBegin id title => Menus.menuBegin s id title
  | .menuEnd => Menus.menuEnd s

def applyAll (s : MenuState) (cs : List Call) : MenuState := cs.foldl Call.apply s

/-- The menu that an option is taken for. -/
def Call.owner (s : MenuState) : Call → List Text
  | .option _ => [s.menuThis]
  | _ => []

def attributions : MenuState → List Call → List Text
  | _, [] => []
  | s, c :: cs => c.owner s ++ attributions (c.apply s) cs

/-! ## Nested sequences -/

/-- What is nested, and what comes behind it. -/
inductive Nested
  | nil
  | option (text : Text) (rest : Nested)
  | block (n : Int) (inner rest : Nested)
  | expert (inner rest : Nested)
  | menu (id title : Text) (inner rest : Nested)

namespace Nested

def calls : Nested → List Call
  | nil => []
  | option text rest => .option text :: rest.calls
  | block n inner rest => .blockBegin n :: (inner.calls ++ .blockEnd :: rest.calls)
  | expert inner rest => .expertBegin :: (inner.calls ++ .expertEnd :: rest.calls)
  | menu id title inner rest => .menuBegin id title :: (inner.calls ++ .menuEnd :: rest.calls)

def menus : Nested → Nat
  | nil => 0
  | option _ rest => rest.menus
  | block _ inner rest => inner.menus + rest.menus
  | expert inner rest => inner.menus + rest.menus
  | menu _ _ inner rest => 1 + inner.menus + rest.menus

/-- The innermost menu around each option, with `m` around all of them; the menus are counted from `k`. -/
def owners (m k : Nat) : Nested → List Nat
  | nil => []
  | option _ rest => m :: owners m k rest
  | block _ inner rest => owners m k inner ++ owners m (k + inner.menus) rest
  | expert inner rest => owners m k inner ++ owners m (k + inner.menus) rest
  | menu _ _ inner rest => owners (k + 1) (k + 1) inner ++ owners m (k + 1 + inner.menus) rest

end Nested

/-- What is there again behind the last end. -/
def Restored (s s' : MenuState) : Prop :=
  s'.spacer = s.spacer ∧ s'.tabspace = s.tabspace ∧ s'.tabspaceList = s.tabspaceList ∧ s'.menuThis = s.menuThis ∧
    s'.menuStack = s.menuStack ∧ s'.expert = s.expert

instance (s s' : MenuState) : Decidable (Restored s s') := inferInstanceAs (Decidable (_ ∧ _))

/-! ## Push and pop -/

/-- All but `expert` and the counter. -/
structure Same (s s' : MenuState) : Prop where
  spacer : s'.spacer = s.spacer
  tabspace : s'.tabspace = s.tabspace
  tabspaceList : s'.tabspaceList = s.tabspaceList
  menuThis : s'.menuThis = s.menuThis
  menuStack : s'.menuStack = s.menuStack
  menuCurrent : s'.menuCurrent = s.menuCurrent
  exprt : s'.exprt = s.exprt

/-- The texts can be pushed, and `${x%??}` cuts off only what was pushed. -/
structure Pushable (s : MenuState) : Prop where
  tabspace : ' ' ∉ s.tabspace
  spacer : s.tabspaceList = [] → s.spacer.length < 2

section
variable {s s' s'' : MenuState}

theorem Same.refl (s : MenuState) : Same s s := ⟨rfl, rfl, rfl, rfl, rfl, rfl, rfl⟩

theorem Same.trans (h : Same s s') (h' : Same s' s'') : Same s s'' where
  spacer := h'.spacer.trans h.spacer
  tabspace := h'.tabspace.trans h.tabspace
  tabspaceList := h'.tabspaceList.trans h.tabspaceList
  menuThis := h'.menuThis.trans h.menuThis
  menuStack := h'.menuStack.trans h.menuStack
  menuCurrent := h'.menuCurrent.trans h.menuCurrent
  exprt := h'.exprt.trans h.exprt

theorem Pushable.same (hs : Pushable s) (h : Same s s') : Pushable s' where
  tabspace := by
    rw [h.tabspace]
    exact hs.tabspace
  spacer hnil := by
    rw [h.spacer]
    apply hs.spacer
    rw [← h.tabspaceList]
    exact hnil

theorem decimal_blank (n : Int) : ' ' ∉ decimal n := by
  have hdigits : ' ' ∉ Nat.toDigits 10 n.natAbs := by
    intro hmem
    have hdigit := Nat.isDigit_of_mem_toDigits (by omega) (by omega) hmem
    revert hdigit
    decide
  unfold decimal
  split
  · simpa using hdigits
  · exact hdigits

theorem top_push {w : Text} (hw : ' ' ∉ w) (x : Text) : top (w ++ ' ' :: x) = w := by
  have hne : ∀ c ∈ w, (c != ' ') = true := by
    intro c hc
    rw [bne_iff_ne]
    rintro rfl
    exact hw hc
  unfold top
  rw [List.takeWhile_append_of_pos hne]
  simp

theorem cutTwo_blanks (x : Text) : cutTwo (x ++ "  ".toList) = x := by
  have hlen : (x ++ "  ".toList).length = x.length + 2 := by simp
  unfold cutTwo
  rw [hlen, if_pos (by omega), Nat.add_sub_cancel, List.take_left]

theorem pushable_blockBegin (hs : Pushable s) (n : Int) : Pushable (blockBegin s n) := by
  unfold blockBegin
  split
  · exact ⟨decimal_blank _, fun hnil => by simp at hnil⟩
  · exact hs

/-- **A block is popped** as it was pushed, whatever came between that left the state as it was. -/
theorem blockEnd_same {n : Int} (hs : Pushable s) (h : Same (blockBegin s n) s') : Same s (blockEnd s') := by
  have hthis : (blockBegin s n).menuThis = s.menuThis ∧ (blockBegin s n).menuCurrent = s.menuCurrent := by
    unfold blockBegin
    split <;> exact ⟨rfl, rfl⟩
  have hcond : s'.menuCurrent = s'.menuThis ↔ s.menuCurrent = s.menuThis := by
    rw [h.menuCurrent, h.menuThis, hthis.1, hthis.2]
  unfold blockEnd
  by_cases hcur : s.menuCurrent = s.menuThis
  · rw [if_pos (hcond.2 hcur)]
    rw [blockBegin, if_pos hcur] at h
    refine ⟨?_, ?_, ?_, h.menuThis, h.menuStack, h.menuCurrent, h.exprt⟩
    · dsimp only
      rw [h.spacer]
      dsimp only
      by_cases hnil : s.tabspaceList = []
      · have hshort := hs.spacer hnil
        rw [if_neg (by simpa using hnil), cutTwo, if_neg (by omega)]
      · rw [if_pos hnil, cutTwo_blanks]
    · dsimp only
      rw [h.tabspaceList]
      exact top_push hs.tabspace _
    · dsimp only
      rw [h.tabspaceList]
      exact cutRest_append hs.tabspace _
  · rw [if_neg (mt hcond.1 hcur)]
    rwa [blockBegin, if_neg hcur] at h

theorem same_comment (s : MenuState) (text : Text) : Same s (comment s text) := by
  unfold comment
  split <;> exact ⟨rfl, rfl, rfl, rfl, rfl, rfl, rfl⟩

theorem counter_comment (s : MenuState) (text : Text) : (comment s text).menuCounter = s.menuCounter := by
  unfold comment
  split <;> rfl

theorem counter_blockBegin (s : MenuState) (n : Int) : (blockBegin s n).menuCounter = s.menuCounter := by
  unfold blockBegin
  split <;> rfl

theorem counter_blockEnd (s : MenuState) : (blockEnd s).menuCounter = s.menuCounter := by
  unfold blockEnd
  split <;> rfl

/-! ## Menus -/

theorem menuThis_blockBegin (s : MenuState) (n : Int) : (blockBegin s n).menuThis = s.menuThis := by
  unfold blockBegin
  split <;> rfl

theorem same_menuLinks (s : MenuState) (id title : Text) :
    Same s (menuLinks s id title) ∧ (menuLinks s id title).menuCounter = s.menuCounter := by
  unfold menuLinks
  dsimp only
  split <;> split <;> split <;> exact ⟨⟨rfl, rfl, rfl, rfl, rfl, rfl, rfl⟩, rfl⟩

/-- A menu that is opened, without its block. -/
def opened (s : MenuState) (id title : Text) : MenuState :=
  menuPush (menuLinks { s with menuCounter := s.menuCounter + 1 } id title)

theorem opened_spec (s : MenuState) (id title : Text) :
    (opened s id title).menuCounter = s.menuCounter + 1 ∧
      (opened s id title).menuThis = decimal ((s.menuCounter + 1 : Nat) : Int) ∧
      (opened s id title).menuStack = s.menuThis ++ ' ' :: s.menuStack := by
  obtain ⟨hsame, hcounter⟩ := same_menuLinks { s with menuCounter := s.menuCounter + 1 } id title
  refine ⟨hcounter, ?_, ?_⟩
  · unfold opened menuPush
    rw [hcounter]
  · unfold opened menuPush
    rw [hsame.menuThis, hsame.menuStack]

theorem pushable_opened (hs : Pushable s) (id title : Text) : Pushable (opened s id title) := by
  have hsame := (same_menuLinks { s with menuCounter := s.menuCounter + 1 } id title).1
  have hlinks := Pushable.same (s := { s with menuCounter := s.menuCounter + 1 }) ⟨hs.tabspace, hs.spacer⟩ hsame
  exact ⟨hlinks.tabspace, hlinks.spacer⟩

/-- A menu is closed. -/
theorem menuPop_same {id title : Text} (hthis : ' ' ∉ s.menuThis) (h : Same (opened s id title) s') :
    Same s (menuPop s') := by
  have hsame := (same_menuLinks { s with menuCounter := s.menuCounter + 1 } id title).1
  have hstack := h.menuStack.trans (opened_spec s id title).2.2
  refine ⟨h.spacer.trans hsame.spacer, h.tabspace.trans hsame.tabspace, h.tabspaceList.trans hsame.tabspaceList, ?_, ?_,
    h.menuCurrent.trans hsame.menuCurrent, h.exprt.trans hsame.exprt⟩
  · unfold menuPop
    rw [hstack]
    exact top_push hthis _
  · unfold menuPop
    rw [hstack]
    exact cutRest_append hthis _

/-! ## Runs -/

theorem applyAll_append (s : MenuState) (cs ds : List Call) :
    applyAll s (cs ++ ds) = applyAll (applyAll s cs) ds := List.foldl_append

theorem applyAll_pair (s : MenuState) (first last : Call) (cs ds : List Call) :
    applyAll s (first :: (cs ++ last :: ds)) = applyAll (last.apply (applyAll (first.apply s) cs)) ds := by
  rw [← List.singleton_append, applyAll_append, applyAll_append]
  rfl

theorem attributions_append (s : MenuState) (cs ds : List Call) :
    attributions s (cs ++ ds) = attributions s cs ++ attributions (applyAll s cs) ds := by
  induction cs generalizing s with
  | nil => rfl
  | cons c cs ih =>
    rw [List.cons_append, attributions, attributions, ih, List.append_assoc]
    rfl

/-- What a sequence leaves, where `m` is the menu around it. -/
structure Spec (b : Nested) (m : Nat) (s : MenuState) : Prop where
  same : Same s (applyAll s b.calls)
  counter : (applyAll s b.calls).menuCounter = s.menuCounter + b.menus
  attributed : attributions s b.calls = (b.owners m s.menuCounter).map fun k : Nat => decimal k

/-- A pair of calls, with a sequence between them and another one behind. -/
theorem Spec.pair {b inner rest : Nested} {m m' k : Nat} {first last : Call}
    (hcalls : b.calls = first :: (inner.calls ++ last :: rest.calls)) (hmenus : b.menus = k + inner.menus + rest.menus)
    (howners : b.owners m s.menuCounter =
      inner.owners m' (s.menuCounter + k) ++ rest.owners m (s.menuCounter + k + inner.menus))
    (howner : ∀ t, first.owner t = [] ∧ last.owner t = []) (hfirst : (first.apply s).menuCounter = s.menuCounter + k)
    (hlast : ∀ t, (last.apply t).menuCounter = t.menuCounter) (hinner : Spec inner m' (first.apply s))
    (hclosed : Same s (last.apply (applyAll (first.apply s) inner.calls)))
    (hrest : Spec rest m (last.apply (applyAll (first.apply s) inner.calls))) : Spec b m s := by
  have hrun : applyAll s b.calls = applyAll (last.apply (applyAll (first.apply s) inner.calls)) rest.calls := by
    rw [hcalls]
    exact applyAll_pair s first last _ _
  have hcounter :
      (last.apply (applyAll (first.apply s) inner.calls)).menuCounter = s.menuCounter + k + inner.menus := by
    rw [hlast, hinner.counter, hfirst]
  constructor
  · rw [hrun]
    exact hclosed.trans hrest.same
  · rw [hrun, hrest.counter, hcounter, hmenus]
    omega
  · rw [hcalls, attributions, attributions_append, attributions, (howner _).1, (howner _).2, List.nil_append,
      List.nil_append, hinner.attributed, hrest.attributed, hcounter, hfirst, howners, List.map_append]

/-- **A nested sequence** leaves the two stacks as they were, and each option in its menu. -/
theorem calls_spec (b : Nested) {m : Nat} (hs : Pushable s) (hm : s.menuThis = decimal m) : Spec b m s := by
  induction b generalizing s m with
  | nil => exact ⟨Same.refl s, rfl, rfl⟩
  | option text rest ih =>
    have hsame := same_comment s text
    have hrest := ih (hs.same hsame) (hsame.menuThis.trans hm)
    refine ⟨hsame.trans hrest.same, ?_, ?_⟩
    · exact hrest.counter.trans (by rw [counter_comment, Nested.menus])
    · have howner : attributions s (Nested.option text rest).calls =
          s.menuThis :: attributions (comment s text) rest.calls := rfl
      rw [howner, hrest.attributed, counter_comment, Nested.owners, List.map_cons, hm]
  | block n inner rest ihinner ihrest =>
    have hinner := ihinner (pushable_blockBegin hs n) ((menuThis_blockBegin s n).trans hm)
    have hclosed := blockEnd_same hs hinner.same
    have hcalls : (Nested.block n inner rest).calls = .blockBegin n :: (inner.calls ++ .blockEnd :: rest.calls) := rfl
    apply Spec.pair (k := 0) hcalls
    · rw [Nested.menus, Nat.zero_add]
    · rfl
    · exact fun t => ⟨rfl, rfl⟩
    · exact counter_blockBegin s n
    · exact fun t => counter_blockEnd t
    · exact hinner
    · exact hclosed
    · exact ihrest (hs.same hclosed) (hclosed.menuThis.trans hm)
  | expert inner rest ihinner ihrest =>
    have hbegin : Same s (expertBegin s) := ⟨rfl, rfl, rfl, rfl, rfl, rfl, rfl⟩
    have hinner := ihinner (hs.same hbegin) hm
    have hclosed : Same s (expertEnd (applyAll (expertBegin s) inner.calls)) :=
      (hbegin.trans hinner.same).trans ⟨rfl, rfl, rfl, rfl, rfl, rfl, rfl⟩
    have hcalls : (Nested.expert inner rest).calls = .expertBegin :: (inner.calls ++ .expertEnd :: rest.calls) := rfl
    apply Spec.pair (k := 0) hcalls
    · rw [Nested.menus, Nat.zero_add]
    · rfl
    · exact fun t => ⟨rfl, rfl⟩
    · rfl
    · exact fun t => rfl
    · exact hinner
    · exact hclosed
    · exact ihrest (hs.same hclosed) (hclosed.menuThis.trans hm)
  | menu id title inner rest ihinner ihrest =>
    obtain ⟨hcounter, hthis, hstack⟩ := opened_spec s id title
    have hopened := pushable_opened hs id title
    have hinner := ihinner (m := s.menuCounter + 1) (pushable_blockBegin hopened 3)
      ((menuThis_blockBegin _ 3).trans hthis)
    have hblank : ' ' ∉ s.menuThis := by
      rw [hm]
      exact decimal_blank _
    have hclosed : Same s (menuEnd (applyAll (menuBegin s id title) inner.calls)) :=
      menuPop_same hblank (blockEnd_same hopened hinner.same)
    have hcalls : (Nested.menu id title inner rest).calls =
        .menuBegin id title :: (inner.calls ++ .menuEnd :: rest.calls) := rfl
    apply Spec.pair (k := 1) hcalls
    · rfl
    · rfl
    · exact fun t => ⟨rfl, rfl⟩
    · exact (counter_blockBegin _ 3).trans hcounter
    · exact fun t => counter_blockEnd t
    · exact hinner
    · exact hclosed
    · exact ihrest (hs.same hclosed) (hclosed.menuThis.trans hm)

/-! ## Expert sections -/

/-- A call that is no `expert_begin` or `expert_end`. -/
def Call.Plain (c : Call) : Prop := c ≠ .expertBegin ∧ c ≠ .expertEnd

theorem expert_blockBegin (s : MenuState) (n : Int) :
    (blockBegin s n).expert = s.expert ∧ (blockBegin s n).exprt = s.exprt := by
  unfold blockBegin
  split <;> exact ⟨rfl, rfl⟩

theorem expert_blockEnd (s : MenuState) : (blockEnd s).expert = s.expert ∧ (blockEnd s).exprt = s.exprt := by
  unfold blockEnd
  split <;> exact ⟨rfl, rfl⟩

theorem expert_opened (s : MenuState) (id title : Text) :
    (opened s id title).expert = s.expert ∧ (opened s id title).exprt = s.exprt := by
  unfold opened menuPush menuLinks
  dsimp only
  split <;> split <;> split <;> exact ⟨rfl, rfl⟩

theorem expert_apply (s : MenuState) (c : Call) :
    (c.Plain → (c.apply s).expert = s.expert) ∧ (c.apply s).exprt = s.exprt := by
  cases c with
  | option text =>
    unfold Call.apply comment
    dsimp only
    split <;> exact ⟨fun _ => rfl, rfl⟩
  | blockBegin n => exact ⟨fun _ => (expert_blockBegin s n).1, (expert_blockBegin s n).2⟩
  | blockEnd => exact ⟨fun _ => (expert_blockEnd s).1, (expert_blockEnd s).2⟩
  | expertBegin => exact ⟨fun hc => absurd rfl hc.1, rfl⟩
  | expertEnd => exact ⟨fun hc => absurd rfl hc.2, rfl⟩
  | menuBegin id title =>
    obtain ⟨hexpert, hexprt⟩ := expert_opened s id title
    obtain ⟨hexpert', hexprt'⟩ := expert_blockBegin (opened s id title) 3
    exact ⟨fun _ => hexpert'.trans hexpert, hexprt'.trans hexprt⟩
  | menuEnd => exact ⟨fun _ => (expert_blockEnd s).1, (expert_blockEnd s).2⟩

theorem exprt_applyAll (s : MenuState) (cs : List Call) : (applyAll s cs).exprt = s.exprt := by
  induction cs generalizing s with
  | nil => rfl
  | cons c cs ih => exact (ih (c.apply s)).trans (expert_apply s c).2

/-- A pair of other calls, as in `Spec.pair`. -/
theorem expert_pair {inner rest : Nested} {first last : Call} (hfirst : first.Plain) (hlast : last.Plain)
    (hinner : (applyAll (first.apply s) inner.calls).expert =
      if .expertBegin ∈ inner.calls then -1 else (first.apply s).expert)
    (hrest : (applyAll s (first :: (inner.calls ++ last :: rest.calls))).expert =
      if .expertBegin ∈ rest.calls then -1 else (last.apply (applyAll (first.apply s) inner.calls)).expert) :
    (applyAll s (first :: (inner.calls ++ last :: rest.calls))).expert =
      if .expertBegin ∈ first :: (inner.calls ++ last :: rest.calls) then -1 else s.expert := by
  rw [hrest, (expert_apply _ last).1 hlast, hinner, (expert_apply s first).1 hfirst]
  have hfirst := hfirst.1.symm
  have hlast := hlast.1.symm
  by_cases hr : .expertBegin ∈ rest.calls
  · simp [hr]
  · simp [hr, hfirst, hlast]

/-- **An expert section** leaves -1, if there is one. -/
theorem expert_calls (b : Nested) (hs : s.exprt = none) :
    (applyAll s b.calls).expert = if .expertBegin ∈ b.calls then -1 else s.expert := by
  have hexprt : ∀ (t : MenuState) (c d : Call) (cs : List Call), t.exprt = none →
      (c.apply t).exprt = none ∧ (d.apply (applyAll (c.apply t) cs)).exprt = none := by
    intro t c d cs ht
    have hfirst := (expert_apply t c).2.trans ht
    refine ⟨hfirst, ?_⟩
    rw [(expert_apply _ d).2, exprt_applyAll, hfirst]
  induction b generalizing s with
  | nil => rfl
  | option text rest ih =>
    obtain ⟨hexpert, hkeep⟩ := expert_apply s (.option text)
    have hplain : (Call.option text).Plain := ⟨by simp, by simp⟩
    refine (ih (hkeep.trans hs)).trans ?_
    rw [hexpert hplain]
    simp [Nested.calls]
  | block n inner rest ihinner ihrest =>
    obtain ⟨hfirst, hlast⟩ := hexprt s (.blockBegin n) .blockEnd inner.calls hs
    refine expert_pair ⟨by simp, by simp⟩ ⟨by simp, by simp⟩ (ihinner hfirst) ?_
    rw [applyAll_pair]
    exact ihrest hlast
  | expert inner rest ihinner ihrest =>
    obtain ⟨_, hlast⟩ := hexprt s .expertBegin .expertEnd inner.calls hs
    have hend : (expertEnd (applyAll (expertBegin s) inner.calls)).expert = -1 := by
      have hkept : (applyAll (expertBegin s) inner.calls).exprt = none := (exprt_applyAll _ _).trans hs
      unfold expertEnd
      rw [hkept]
      rfl
    have hmem : .expertBegin ∈ (Nested.expert inner rest).calls := List.mem_cons_self
    rw [if_pos hmem]
    unfold Nested.calls
    rw [applyAll_pair, ihrest hlast]
    exact (congrArg _ hend).trans (ite_self _)
  | menu id title inner rest ihinner ihrest =>
    obtain ⟨hfirst, hlast⟩ := hexprt s (.menuBegin id title) .menuEnd inner.calls hs
    refine expert_pair ⟨by simp, by simp⟩ ⟨by simp, by simp⟩ (ihinner hfirst) ?_
    rw [applyAll_pair]
    exact ihrest hlast

end

/-- **Nesting**: behind the last end everything is as it was, and each option is in the innermost menu, if and only if
there was no expert section. -/
theorem nesting_iff (menuCurrent : Text) (sdecfgExpert : Bool) (b : Nested) :
    (Restored (start menuCurrent sdecfgExpert) (applyAll (start menuCurrent sdecfgExpert) b.calls) ∧
      attributions (start menuCurrent sdecfgExpert) b.calls = (b.owners 0 0).map fun k : Nat => decimal k) ↔
      Call.expertBegin ∉ b.calls := by
  have hpush : Pushable (start menuCurrent sdecfgExpert) := ⟨by simp [start], by simp [start]⟩
  have hspec := calls_spec b (m := 0) hpush (show "0".toList = decimal 0 by decide)
  obtain ⟨hspacer, htabspace, hlist, hthis, hstack, -, -⟩ := hspec.same
  have hexpert := expert_calls b (s := start menuCurrent sdecfgExpert) rfl
  constructor
  · rintro ⟨⟨_, _, _, _, _, hzero⟩, _⟩ hmem
    rw [hexpert, if_pos hmem] at hzero
    cases hzero
  · intro hnot
    refine ⟨⟨hspacer, htabspace, hlist, hthis, hstack, ?_⟩, hspec.attributed⟩
    rw [hexpert, if_neg hnot]

/-- An expert section with nothing in it, and an option behind it: the option is not shown. -/
theorem expert_stays :
    ¬ Restored (start "0".toList false) (applyAll (start "0".toList false) (Nested.expert .nil .nil).calls) ∧
      (applyAll (start "0".toList false) (Nested.expert .nil (.option "shown".toList .nil)).calls).dialog = [] := by
  decide

end T2Sde.Config.Menus
