import T2Sde.Lib.Read
import T2Sde.Lib.Glob
import T2Sde.Download.Model
import Mathlib.Data.List.MinMax
/-!
# The mirror list and the mirror cache

| here | `scripts/Download` |
| --- | --- |
| `readCache`    | `read mirror mirrorver < download/Mirror-Cache` :264, :448 |
| `cachedMirror` | `cached_mirror` :261, on a cache that nobody writes |
| `look`         | its tests before the one of the age |
| `detect`       | `bestval=0` and the loop over `src/Download-Mirror-List` :298-321 |
| `testMirror`   | the test of one mirror :309-318 |
| `cacheLine`    | `echo "$mirror $sdever"` :323 |
| `mirrorOf`     | `-n "$mirror" -a "$mirror" != "none"` :450 |

The variable `mirror` is not emptied before the loop: `detect` is given what the cache left in it. The loop takes the
fastest mirror that answers (`detect_eq`), and where none does it leaves the variable as it was.
-/
namespace T2Sde.Download
open Shell

/-! ## The cache -/

/-- What `read` has found when it gets to the end of the input. -/
def unended : Text → List ReadChar
  | [] => []
  | ['\\'] => []
  | '\\' :: c :: s => if c = '\n' then unended s else (c, true) :: unended s
  | c :: s => (c, false) :: unended s

/-- One `read`, its status aside: the characters, and the text behind them. -/
def readAny (s : Text) : List ReadChar × Text := (readLine s).getD (unended s, [])

/-- The variables `mirror` and `mirrorver`. -/
def readCache (c : Text) : Text × Text :=
  let fs := readFields 1 (readAny c).1
  (fs.headD [], fs.getD 1 [])

inductive Look
  | refused | accepted | byAge
  deriving DecidableEq, Repr

def look (sdever mirror mirrorver : Text) : Look :=
  if mirror = [] then .refused
  else if mirror = "none".toList then .accepted
  else if mirrorver ≠ sdever ∧ mirrorver ≠ "any".toList then .refused
  else .byAge

/-- The mirror with which it succeeds; `old` is `find download/Mirror-Cache -mtime +30`. -/
def cachedMirror (sdever : Text) (cache : Option Text) (old : Bool) : Option Text :=
  match cache with
  | none => none
  | some [] => none
  | some c =>
    match look sdever (readCache c).1 (readCache c).2 with
    | .refused => none
    | .accepted => some (readCache c).1
    | .byAge => if old then none else some (readCache c).1

/-- The mirror that is asked; without one only the original location is. -/
def mirrorOf (mirror : Text) : Option Text :=
  if mirror = [] ∨ mirror = "none".toList then none else some mirror

def cacheLine (mirror sdever : Text) : Text := mirror ++ ' ' :: sdever ++ ['\n']

/-- `$sdever`, which `scripts/parse-config` sets to a word. -/
structure Version where
  text : Text
  word : IsWord text
  noEscape : '\\' ∉ text

/-- An address that is one field of the cache, and not the word for no mirror. -/
structure Usable (mirror : Text) : Prop where
  word : IsWord mirror
  noEscape : '\\' ∉ mirror
  notNone : mirror ≠ "none".toList

instance (mirror : Text) : Decidable (Usable mirror) :=
  decidable_of_iff (IsWord mirror ∧ '\\' ∉ mirror ∧ mirror ≠ "none".toList)
    ⟨fun ⟨h₁, h₂, h₃⟩ => ⟨h₁, h₂, h₃⟩, fun ⟨h₁, h₂, h₃⟩ => ⟨h₁, h₂, h₃⟩⟩

section
variable {m : Text} (hm : Usable m) (V : Version)
include hm

theorem Usable.mirrorOf : mirrorOf m = some m := if_neg (not_or.2 ⟨hm.word.1, hm.notNone⟩)

/-- **What is written is read back.** -/
theorem readCache_cacheLine : readCache (cacheLine m V.text) = (m, V.text) := by
  have hline : cacheLine m V.text = (m ++ ' ' :: V.text) ++ '\n' :: [] := by simp [cacheLine]
  have hnl : ∀ {u : Text}, IsWord u → '\n' ∉ u := fun hu hin => by simpa [isBlank] using hu.2 _ hin
  have hread : readLine (cacheLine m V.text) = some (plain (m ++ ' ' :: V.text), []) := by
    rw [hline]
    apply readLine_plain
    · simp [hm.noEscape, V.noEscape]
    · simp [hnl hm.word, hnl V.word]
  rw [readCache, readAny, hread, Option.getD_some, readFields_trimmed hm.word V.word.trimmed]
  rfl

theorem look_version : look V.text m V.text = .byAge := by
  rw [look, if_neg hm.word.1, if_neg hm.notNone, if_neg (by simp)]

theorem cachedMirror_cacheLine : cachedMirror V.text (some (cacheLine m V.text)) false = some m := by
  obtain ⟨c, rest, hline⟩ : ∃ c rest, cacheLine m V.text = c :: rest :=
    List.exists_cons_of_ne_nil (by simp [cacheLine])
  have hread := readCache_cacheLine hm V
  rw [hline] at hread ⊢
  unfold cachedMirror
  simp [hread, look_version hm V]

end

/-- Without a mirror in front of it, the version is read as the mirror. -/
theorem readCache_mirrorless (V : Version) : readCache (cacheLine [] V.text) = (V.text, []) := by
  have hnl : '\n' ∉ V.text := fun hin => by simpa [isBlank] using V.word.2 _ hin
  have hread : readLine (cacheLine [] V.text) = some (plain (' ' :: V.text), []) := by
    have hline : cacheLine [] V.text = (' ' :: V.text) ++ '\n' :: [] := by simp [cacheLine]
    rw [hline]
    apply readLine_plain
    · simp [V.noEscape]
    · simp [hnl]
  have hskip : skip (plain (' ' :: V.text)) = plain V.text := by
    rw [plain_cons, skip_blank rfl]
    simpa using skip_word V.word []
  have htake : (plain V.text).takeWhile (!separates ·) = plain V.text :=
    List.takeWhile_eq_self_iff.2 (noSep_plain V.word.2)
  have hdrop : (plain V.text).dropWhile (!separates ·) = [] :=
    List.dropWhile_eq_nil_iff.2 (noSep_plain V.word.2)
  rw [readCache, readAny, hread, Option.getD_some, readFields, hskip, htake, hdrop, text_plain]
  rfl

/-- The line is refused, and the version is asked as a mirror. -/
theorem mirrorless_cacheLine (V : Version) (hV : V.text ≠ "none".toList) (old : Bool) :
    cachedMirror V.text (some (cacheLine [] V.text)) old = none ∧
      mirrorOf (readCache (cacheLine [] V.text)).1 = some V.text := by
  have hread := readCache_mirrorless V
  constructor
  · have hlook : look V.text V.text [] = .refused := by
      rw [look, if_neg V.word.1, if_neg hV, if_pos ⟨V.word.1.symm, by simp⟩]
    have hline : cacheLine [] V.text = ' ' :: (V.text ++ ['\n']) := rfl
    rw [hline] at hread ⊢
    unfold cachedMirror
    simp [hread, hlook]
  · rw [hread]
    exact if_neg (not_or.2 ⟨V.word.1, hV⟩)

/-! ## The mirror list -/

/-- What the outside has for one detection. -/
structure Probe where
  /-- `src/Download-Mirror-List`, empty if there is none. -/
  list : Text
  /-- `$me` -/
  me : Text
  /-- What curl prints of the mirrors, in the order of the tests. -/
  speeds : Nat → Text

structure Best where
  bestval : Nat
  mirror : Text
  /-- The mirror that is saved; without one it is `No Mirror Found!`. -/
  result : Option Text
  deriving DecidableEq

/-- `echo ${val#ok } | tr -d .,` -/
def xval (val : Text) : Text :=
  ([' '].intercalate (words (dropPrefix "ok ".toList val))).filter fun c => c ≠ '.' ∧ c ≠ ','

/-- The number of a text, for `-gt`; curl prints no sign. -/
def number (t : Text) : Option Nat :=
  if t ≠ [] ∧ t.all Char.isDigit ∧ Nat.ofDigitChars 10 t 0 < 2 ^ 63 then some (Nat.ofDigitChars 10 t 0) else none

/-- The speed that curl has printed; `none` prints " error" or is an error of `[`. -/
def speed (val : Text) : Option Nat :=
  if val = dropPrefix "ok ".toList val ∨ val = "ok 0.000".toList then none else number (xval val)

def address (mirror_url : Text) : Text := dropSuffix "/".toList mirror_url

def testMirror (val mirror_url : Text) (b : Best) : Best :=
  match speed val with
  | none => b
  | some n => if b.bestval < n then ⟨n, address mirror_url, some (address mirror_url)⟩ else b

def mirrorName (line : Text) : Text := dropSuffix " =".toList (dropPrefix "= ".toList line)

/-- The loop, when `k` mirrors have been tested; it ends after `n` lines at the latest. -/
def testMirrors (o : Probe) : Nat → Nat → Text → Best → Best
  | 0, _, _, b => b
  | n + 1, k, stdin, b =>
    match readLine stdin with
    | none => b
    | some (m, stdin) =>
      if dropPrefix "=".toList (lastField m) ≠ lastField m then
        if fits o.me (mirrorName (lastField m)) then testMirrors o n k (readAny stdin).2 b
        else
          testMirrors o n (k + 1) (readAny stdin).2 (testMirror (o.speeds k) (lastField (readAny stdin).1) b)
      else testMirrors o n k stdin b

/-- The loop with what is in `mirror` before it. -/
def detect (o : Probe) (mirror : Text) : Best := testMirrors o o.list.length 0 o.list ⟨0, mirror, none⟩

/-! ## The loop ends by itself -/

theorem length_readLine {s r : Text} {m : List ReadChar} (h : readLine s = some (m, r)) : r.length < s.length := by
  fun_induction readLine s generalizing m with
  | case1 => cases h
  | case2 => cases h
  | case3 s ih =>
    have hrest := ih h
    simp only [List.length_cons]
    omega
  | case4 c s hc ih =>
    obtain ⟨x, hx, hr⟩ := Option.map_eq_some_iff.1 h
    obtain ⟨-, rfl⟩ := Prod.mk.inj hr
    have hrest := ih hx
    simp only [List.length_cons]
    omega
  | case5 s h =>
    cases h
    simp
  | case6 c s h1 h2 hc ih =>
    obtain ⟨x, hx, hr⟩ := Option.map_eq_some_iff.1 h
    obtain ⟨-, rfl⟩ := Prod.mk.inj hr
    have hrest := ih hx
    simp only [List.length_cons]
    omega

theorem length_readAny (s : Text) : (readAny s).2.length ≤ s.length := by
  unfold readAny
  cases h : readLine s with
  | none => simp
  | some x => exact (length_readLine h).le

/-- More lines than there are characters make no difference. -/
theorem testMirrors_enough (o : Probe) {n n' k : Nat} {stdin : Text} {b : Best} (hn : stdin.length ≤ n)
    (hn' : stdin.length ≤ n') : testMirrors o n k stdin b = testMirrors o n' k stdin b := by
  have hend : ∀ n, testMirrors o n k [] b = b := fun n => by cases n <;> rfl
  induction n generalizing n' k stdin b with
  | zero =>
    obtain rfl : stdin = [] := List.length_eq_zero_iff.1 (by omega)
    cases n' <;> rfl
  | succ n ih =>
    cases n' with
    | zero =>
      obtain rfl : stdin = [] := List.length_eq_zero_iff.1 (by omega)
      exact hend _
    | succ n' =>
      unfold testMirrors
      cases hread : readLine stdin with
      | none => rfl
      | some x =>
        have hlt := length_readLine hread
        have hle := length_readAny x.2
        have hstep : ∀ k b r, r.length ≤ x.2.length → testMirrors o n k r b = testMirrors o n' k r b := by
          intro k b r hr
          apply ih
          · omega
          · omega
          · intro n
            cases n <;> rfl
        simp only
        split
        · split
          · exact hstep _ _ _ hle
          · exact hstep _ _ _ hle
        · exact hstep _ _ _ le_rfl

/-! ## The fastest mirror -/

/-- The addresses that are tested, of the first `n` lines. -/
def tested (me : Text) : Nat → Text → List Text
  | 0, _ => []
  | n + 1, stdin =>
    match readLine stdin with
    | none => []
    | some (m, stdin) =>
      if dropPrefix "=".toList (lastField m) ≠ lastField m then
        if fits me (mirrorName (lastField m)) then tested me n (readAny stdin).2
        else lastField (readAny stdin).1 :: tested me n (readAny stdin).2
      else tested me n stdin

/-- The `k`-th mirror answers: its address and speed. -/
def Probe.answer (o : Probe) (x : Text × Nat) : Option (Text × Nat) :=
  match speed (o.speeds x.2) with
  | some n => if 0 < n then some (address x.1, n) else none
  | none => none

/-- The mirrors that can be reached. -/
def Probe.reached (o : Probe) : List (Text × Nat) :=
  (tested o.me o.list.length o.list).zipIdx.filterMap o.answer

/-- The first of the fastest ones. -/
def Probe.fastest (o : Probe) : Option (Text × Nat) := o.reached.argmax Prod.snd

theorem testMirrors_eq_foldl (o : Probe) (n k : Nat) (stdin : Text) (b : Best) :
    testMirrors o n k stdin b =
      ((tested o.me n stdin).zipIdx k).foldl (fun b x => testMirror (o.speeds x.2) x.1 b) b := by
  induction n generalizing k stdin b with
  | zero => rfl
  | succ n ih =>
    unfold testMirrors tested
    cases readLine stdin with
    | none => rfl
    | some x =>
      simp only
      split
      · split
        · exact ih _ _ _
        · rw [ih, List.zipIdx_cons, List.foldl_cons]
      · exact ih _ _ _

def Best.of (mirror : Text) : Option (Text × Nat) → Best
  | some (u, n) => ⟨n, u, some u⟩
  | none => ⟨0, mirror, none⟩

/-- A test keeps the faster one. -/
theorem testMirror_answer (o : Probe) (mirror : Text) (x : Text × Nat) (a : Option (Text × Nat)) :
    testMirror (o.speeds x.2) x.1 (.of mirror a) =
      .of mirror (match o.answer x, a with
        | none, a => a
        | some y, none => some y
        | some y, some c => if c.2 < y.2 then some y else some c) := by
  unfold testMirror Probe.answer
  cases speed (o.speeds x.2) with
  | none => rfl
  | some n =>
    by_cases hn : 0 < n
    · simp only [if_pos hn]
      cases a with
      | none => exact if_pos hn
      | some c =>
        by_cases hc : c.2 < n
        · simp [Best.of, hc]
        · simp [Best.of, hc]
    · simp only [if_neg hn]
      apply if_neg
      omega

theorem foldl_testMirror (o : Probe) (mirror : Text) (l : List (Text × Nat)) :
    l.foldl (fun b x => testMirror (o.speeds x.2) x.1 b) ⟨0, mirror, none⟩ =
      .of mirror ((l.filterMap o.answer).argmax Prod.snd) := by
  induction l using List.reverseRecOn with
  | nil => rfl
  | append_singleton l x ih =>
    rw [List.foldl_append, List.foldl_cons, List.foldl_nil, ih, List.filterMap_append, testMirror_answer]
    cases hans : o.answer x with
    | none => simp [hans]
    | some y =>
      have hone : [x].filterMap o.answer = [y] := by simp [hans]
      rw [hone, List.argmax_concat]
      cases (l.filterMap o.answer).argmax Prod.snd <;> rfl

/-- **The loop saves the fastest of the mirrors that answer.** Without one the variable is left as it was. -/
theorem detect_eq (o : Probe) (mirror : Text) : detect o mirror = .of mirror o.fastest := by
  rw [detect, testMirrors_eq_foldl, foldl_testMirror]
  rfl

end T2Sde.Download
