import T2Sde.Lib.Run
import T2Sde.Lib.Stdio
/-!
# The selection of a menu box (`misc/confdialog/menubox.c`)

Of the items, a window of `max_choice` is shown, from the item `scroll` on; the item `choice` of the window is chosen.
Each key that moves one of the two saturates in its own way.

| here | there |
| --- | --- |
| `strchr`         | what it finds in a string, its NUL included |
| `firstAlpha`     | `misc/confdialog/util.c`:352-368 |
| `Menu`           | the arguments :176-177, the saved file :250 |
| `maxChoice`      | :184 |
| `chosen`         | :239-244 |
| `init`           | :249-269; `first_item` is `scroll` |
| `hotKey`         | :290-306 |
| `pageUp`, `pageDown` | one turn :350-361, :366-381 |
| `move`           | :308-387 |
| `keyPress`       | :286-416, `none` where the dialog ends |

* `init_inRange`, `move_inRange` — where the window starts and how a key moves it.
* `selection_inRange` — **the window stays in the list and the choice in the window**.
-/
namespace T2Sde.Menubox
open Shell (Text)

/-! ## Characters -/

/-- `char` is signed. -/
def charOf (c : Char) : Int := if c.toNat < 128 then c.toNat else c.toNat - 256

def strchr (s : Text) (c : Int) : Bool := c % 256 == 0 || s.any fun x => (x.toNat : Int) == c % 256

/-- What `setlocale` decides. -/
structure Locale where
  tolower : Int → Int
  isalpha : Int → Bool

/-- `tolower` of the character at `i`; behind the last one there is a NUL. -/
def lowerAt (l : Locale) (s : Text) (i : Nat) : Int := l.tolower ((s[i]?.map charOf).getD 0)

/-- The loop of `first_alpha`, from `i` on. -/
def alphaLoop (l : Locale) (exempt : Text) : Text → Nat → Int → Nat
  | [], _, _ => 0
  | x :: s, i, in_paren =>
    let c := l.tolower (charOf x)
    let opened := if strchr "<[(".toList c then in_paren + 1 else in_paren
    let in_paren := if strchr ">])".toList c then opened - 1 else opened
    if in_paren = 0 && l.isalpha c && !strchr exempt c then i else alphaLoop l exempt s (i + 1) in_paren

def firstAlpha (l : Locale) (s exempt : Text) : Nat := alphaLoop l exempt s 0 0

/-! ## The dialog -/

def keyDown : Int := 0o402
def keyUp : Int := 0o403
def keyLeft : Int := 0o404
def keyRight : Int := 0o405
def keyNpage : Int := 0o522
def keyPpage : Int := 0o523
def esc : Int := 27
def tab : Int := 9

/-- The tags and texts of the items, at least one, and the text of the saved file. -/
structure Menu where
  items : List (Text × Text)
  menuHeight : Int
  current : Text
  scrltmp : Option Text
  nonempty : items ≠ []
  height_pos : 1 ≤ menuHeight

def Menu.itemNo (m : Menu) : Int := m.items.length

def Menu.maxChoice (m : Menu) : Int := if m.menuHeight < m.itemNo then m.menuHeight else m.itemNo

/-- The last item whose tag is the current one, or the first. -/
def Menu.chosen (m : Menu) : Int :=
  m.items.zipIdx.foldl (fun choice x => if m.current = x.1.1 then (x.2 : Int) else choice) 0

/-- `fscanf` stores a number in an `int`. -/
def toInt (n : Int) : Int := (max (-2 ^ 63) (min (2 ^ 63 - 1) n)).bmod (2 ^ 32)

/-- The number that the saved file begins with. -/
def Menu.savedScroll (m : Menu) : Option Int :=
  match m.scrltmp.map (Stdio.scan [.num, .blank]) with
  | some [.num n] => some (toInt n)
  | _ => none

structure State where
  scroll : Int
  choice : Int
  button : Int
  deriving DecidableEq, Repr

/-- A saved number that fits. -/
def Menu.Fits (m : Menu) (scroll : Int) : Prop :=
  scroll ≤ m.chosen ∧ m.chosen < scroll + m.maxChoice ∧ 0 ≤ scroll ∧ scroll + m.maxChoice ≤ m.itemNo

instance (m : Menu) (scroll : Int) : Decidable (m.Fits scroll) := by
  unfold Menu.Fits
  infer_instance

/-- What is read: `scroll`, what is left of `choice`, and whether the file is still there. -/
def Menu.restored (m : Menu) : Int × Int × Bool :=
  match m.savedScroll with
  | some scroll => if m.Fits scroll then (scroll, m.chosen - scroll, true) else (0, m.chosen, false)
  | none => (0, m.chosen, false)

def Menu.init (m : Menu) : State :=
  let (scroll, choice, f) := m.restored
  if m.maxChoice ≤ choice ∨ (f = false ∧ m.maxChoice.tdiv 2 ≤ choice) then
    let scroll :=
      if m.itemNo - m.maxChoice.tdiv 2 ≤ choice then m.itemNo - m.maxChoice else choice - m.maxChoice.tdiv 2
    ⟨scroll, choice - scroll, 0⟩
  else ⟨scroll, choice, 0⟩

/-- The first number from `i` on, of at most `n`, with `p`, or the number behind them. -/
def search (p : Int → Bool) : Nat → Int → Int
  | 0, i => i
  | n + 1, i => if p i then i else search p n (i + 1)

/-- Whether a key is the letter of the item `i` of the window. -/
def hot (l : Locale) (m : Menu) (s : State) (key i : Int) : Bool :=
  match m.items[(s.scroll + i).toNat]? with
  | some item => key == lowerAt l item.2 (firstAlpha l item.2 "YyNnMm".toList)
  | none => false

def hotKey (l : Locale) (m : Menu) (s : State) (key : Int) : Int :=
  if strchr "? \n".toList key then m.maxChoice
  else
    let i := search (hot l m s key) (m.maxChoice - (s.choice + 1)).toNat (s.choice + 1)
    if i = m.maxChoice then search (hot l m s key) m.maxChoice.toNat 0 else i

def pageUp (s : State) : State :=
  if 0 < s.scroll then { s with scroll := s.scroll - 1 }
  else if 0 < s.choice then { s with choice := s.choice - 1 } else s

def pageDown (m : Menu) (s : State) : State :=
  if s.scroll + m.maxChoice < m.itemNo then { s with scroll := s.scroll + 1 }
  else if s.choice + 1 < m.maxChoice then { s with choice := s.choice + 1 } else s

def isUp (key : Int) : Prop := key = keyUp ∨ key = '-'.toNat
def isDown (key : Int) : Prop := key = keyDown ∨ key = '+'.toNat

instance (key : Int) : Decidable (isUp key) := inferInstanceAs (Decidable (_ ∨ _))
instance (key : Int) : Decidable (isDown key) := inferInstanceAs (Decidable (_ ∨ _))

/-- A key that moves the choice, or the window; `i` is the item whose letter it is. -/
def move (m : Menu) (s : State) (key i : Int) : State :=
  if isUp key then
    if s.choice < 2 ∧ s.scroll ≠ 0 then { s with scroll := s.scroll - 1 }
    else { s with choice := max (s.choice - 1) 0 }
  else if isDown key then
    if m.maxChoice - 3 < s.choice ∧ s.scroll + m.maxChoice < m.itemNo then { s with scroll := s.scroll + 1 }
    else { s with choice := min (s.choice + 1) (m.maxChoice - 1) }
  else if key = keyPpage then pageUp^[m.maxChoice.toNat] s
  else if key = keyNpage then (pageDown m)^[m.maxChoice.toNat] s
  else { s with choice := i }

/-- The other buttons below the menu. -/
def nextButton (s : State) (key : Int) : State :=
  let button := if key = keyLeft then s.button - 1 else s.button + 1
  { s with button := if button < 0 then 2 else if 2 < button then 0 else button }

def lowered (l : Locale) (key : Int) : Int := if key < 256 ∧ l.isalpha key then l.tolower key else key

/-- What a key in lower case does. `Escape` ends the dialog, whatever else it does. -/
def turn (l : Locale) (m : Menu) (s : State) (key : Int) : Option State :=
  let i := hotKey l m s key
  if key = esc then none
  else if i < m.maxChoice ∨ isUp key ∨ isDown key ∨ key = keyPpage ∨ key = keyNpage then some (move m s key i)
  else if key = keyLeft ∨ key = tab ∨ key = keyRight then some (nextButton s key)
  else if key = '?'.toNat ∨ key = ' '.toNat ∨ key = '\n'.toNat then none
  else some s

/-- One turn of the loop. -/
def keyPress (l : Locale) (m : Menu) (s : State) (key : Int) : Option State := turn l m s (lowered l key)

/-! ## The invariant -/

structure InRange (m : Menu) (s : State) : Prop where
  scroll_nonneg : 0 ≤ s.scroll
  window : s.scroll + m.maxChoice ≤ m.itemNo
  choice_nonneg : 0 ≤ s.choice
  choice_lt : s.choice < m.maxChoice

section
variable {m : Menu} {s : State}

theorem Menu.itemNo_pos (m : Menu) : 0 < m.itemNo := by
  have hlen := List.length_pos_of_ne_nil m.nonempty
  unfold Menu.itemNo
  omega

theorem Menu.maxChoice_spec (m : Menu) : 1 ≤ m.maxChoice ∧ m.maxChoice ≤ m.itemNo := by
  have hpos := m.itemNo_pos
  have hheight := m.height_pos
  unfold Menu.maxChoice
  split <;> omega

theorem Menu.chosen_spec (m : Menu) : 0 ≤ m.chosen ∧ m.chosen < m.itemNo := by
  have hloop : ∀ (l : List ((Text × Text) × Nat)) (c : Int), (0 ≤ c ∧ c < m.itemNo) →
      (∀ x ∈ l, (x.2 : Int) < m.itemNo) →
      0 ≤ l.foldl (fun choice x => if m.current = x.1.1 then (x.2 : Int) else choice) c ∧
        l.foldl (fun choice x => if m.current = x.1.1 then (x.2 : Int) else choice) c < m.itemNo := by
    intro l
    induction l with
    | nil => exact fun c hc _ => hc
    | cons x l ih =>
      intro c hc hl
      apply ih
      · have hx := hl x List.mem_cons_self
        dsimp only
        by_cases htag : m.current = x.1.1
        · rw [if_pos htag]
          omega
        · rw [if_neg htag]
          exact hc
      · exact fun y hy => hl y (List.mem_cons_of_mem _ hy)
  apply hloop
  · exact ⟨by omega, m.itemNo_pos⟩
  · intro x hx
    have hlt := (List.mem_zipIdx hx).2.1
    unfold Menu.itemNo
    omega

/-- The window at the start. -/
theorem init_inRange (m : Menu) : InRange m m.init := by
  obtain ⟨hmax, hle⟩ := m.maxChoice_spec
  obtain ⟨hnonneg, hlt⟩ := m.chosen_spec
  have hhalf : m.maxChoice.tdiv 2 = m.maxChoice / 2 := Int.tdiv_eq_ediv_of_nonneg (by omega)
  have hrestored : (m.restored = (0, m.chosen, false)) ∨
      ∃ scroll, m.Fits scroll ∧ m.restored = (scroll, m.chosen - scroll, true) := by
    unfold Menu.restored
    split
    next scroll _ =>
      split
      next hfits => exact .inr ⟨scroll, hfits, rfl⟩
      next => exact .inl rfl
    next => exact .inl rfl
  unfold Menu.init
  rcases hrestored with h | ⟨scroll, ⟨_, _, _, _⟩, h⟩
  · rw [h, hhalf]
    dsimp only
    split
    next => split <;> constructor <;> dsimp only <;> omega
    next => constructor <;> dsimp only <;> omega
  · -- the number that was read leaves the choice in the window
    rw [h]
    dsimp only
    rw [if_neg (by simp; omega)]
    constructor <;> dsimp only <;> omega

theorem search_spec (p : Int → Bool) (n : Nat) (i : Int) : i ≤ search p n i ∧ search p n i ≤ i + n := by
  induction n generalizing i with
  | zero => simp [search]
  | succ n ih =>
    unfold search
    split
    · omega
    · have hrest := ih (i + 1)
      omega

theorem hotKey_nonneg (l : Locale) (hs : InRange m s) (key : Int) : 0 ≤ hotKey l m s key := by
  have hmax := m.maxChoice_spec.1
  have hchoice := hs.choice_nonneg
  have hrest := (search_spec (hot l m s key) (m.maxChoice - (s.choice + 1)).toNat (s.choice + 1)).1
  have hall := (search_spec (hot l m s key) m.maxChoice.toNat 0).1
  unfold hotKey
  dsimp only
  split
  · omega
  · split <;> omega

theorem pageUp_inRange (s : State) (hs : InRange m s) : InRange m (pageUp s) := by
  obtain ⟨h1, h2, h3, h4⟩ := id hs
  unfold pageUp
  split
  · constructor <;> dsimp only <;> omega
  · split
    · constructor <;> dsimp only <;> omega
    · exact hs

theorem pageDown_inRange (s : State) (hs : InRange m s) : InRange m (pageDown m s) := by
  obtain ⟨h1, h2, h3, h4⟩ := id hs
  unfold pageDown
  split
  · constructor <;> dsimp only <;> omega
  · split
    · constructor <;> dsimp only <;> omega
    · exact hs

/-- A key that moves something: each branch has a bound of its own. -/
theorem move_inRange {key i : Int} (hs : InRange m s)
    (hi : 0 ≤ i ∧ (i < m.maxChoice ∨ isUp key ∨ isDown key ∨ key = keyPpage ∨ key = keyNpage)) :
    InRange m (move m s key i) := by
  have hmax := m.maxChoice_spec.1
  obtain ⟨h1, h2, h3, h4⟩ := id hs
  unfold move
  split
  next => split <;> constructor <;> dsimp only <;> omega
  next hup =>
    split
    next => split <;> constructor <;> dsimp only <;> omega
    next hdown =>
      split
      next => exact Function.Iterate.rec (InRange m) hs pageUp_inRange _
      next hppage =>
        split
        next => exact Function.Iterate.rec (InRange m) hs pageDown_inRange _
        next hnpage =>
          have hlt : i < m.maxChoice := by simpa [hup, hdown, hppage, hnpage] using hi.2
          constructor <;> dsimp only <;> omega

theorem nextButton_inRange {key : Int} (hs : InRange m s) : InRange m (nextButton s key) :=
  ⟨hs.scroll_nonneg, hs.window, hs.choice_nonneg, hs.choice_lt⟩

/-- One turn. -/
theorem keyPress_inRange {l : Locale} {key : Int} {s' : State} (hs : InRange m s) (h : keyPress l m s key = some s') :
    InRange m s' := by
  unfold keyPress turn at h
  dsimp only at h
  split at h
  · cases h
  · split at h
    next hmoves =>
      cases h
      exact move_inRange hs ⟨hotKey_nonneg l hs _, hmoves⟩
    next =>
      split at h
      · cases h
        exact nextButton_inRange hs
      · split at h
        · cases h
        · cases h
          exact hs

end

/-- **The selection stays in the list**: at the start and after each key, the window is within the items and the choice
within the window, so that the chosen item is one of them. -/
theorem selection_inRange (l : Locale) (m : Menu) (keys : List Int) {s : State}
    (h : Lts.run (keyPress l m) m.init keys = some s) :
    (0 ≤ s.scroll ∧ s.scroll + m.maxChoice ≤ m.itemNo ∧ 0 ≤ s.choice ∧ s.choice < m.maxChoice) ∧
      ∃ item, m.items[(s.scroll + s.choice).toNat]? = some item := by
  have hs : InRange m s := Lts.run_inv (fun _ _ _ hs h => keyPress_inRange hs h) (init_inRange m) h
  obtain ⟨h1, h2, h3, h4⟩ := hs
  refine ⟨⟨h1, h2, h3, h4⟩, _, List.getElem?_eq_getElem ?_⟩
  unfold Menu.itemNo at h2
  omega

/-- ASCII. -/
def asciiLocale : Locale where
  tolower c := if 65 ≤ c ∧ c ≤ 90 then c + 32 else c
  isalpha c := decide ((65 ≤ c ∧ c ≤ 90) ∨ (97 ≤ c ∧ c ≤ 122))

def smallMenu : Menu where
  items := [("a".toList, "Architecture".toList), ("b".toList, "Build".toList), ("c".toList, "Compiler".toList)]
  menuHeight := 2
  current := "b".toList
  scrltmp := some "0\n".toList
  nonempty := by simp
  height_pos := by decide

/-- One item down, where the window is at its end, and then to a letter. -/
theorem selection_smallMenu :
    Lts.run (keyPress asciiLocale smallMenu) smallMenu.init [keyDown, 'B'.toNat] = some ⟨1, 0, 0⟩ ∧
      ∃ item, smallMenu.items[((1 : Int) + 0).toNat]? = some item :=
  have h : Lts.run (keyPress asciiLocale smallMenu) smallMenu.init [keyDown, 'B'.toNat] = some ⟨1, 0, 0⟩ := by
    decide +kernel
  ⟨h, (selection_inRange asciiLocale smallMenu _ h).2⟩

end T2Sde.Menubox
