import T2Sde.Lib.Sed
import T2Sde.Lib.Cut
import Mathlib.Data.List.Dedup
/-!
# Dependency finalisation (`scripts/Build-Pkg`)

The detected names are lines `: name`. The alternatives are put in by `sed`, whose expressions are made of the names as
they stand and match anywhere in a line; the names to be deleted are taken out by `egrep`, to which `.` and `+` in a
name mean something else; the names to be marked as optional are found by `sed` again. Names begin with a letter or a
digit and have no other characters than these and `+ - . _`.

| here | there |
| --- | --- |
| `replaceAlternatives` | `sed "$alt_pattern"` :814-819 |
| `tagged`, `addOrOpt`  | the words behind `del`, `opt`, and `add` or `opt` in `$desc_E` |
| `patterns`, `egrepV`  | `eval egrep -v $del_pattern` :823-833 |
| `mark`                | `sed -i "s/^: $x$/opt&/"` :847-850 |
| `finalise`            | `var/adm/dependencies/$xpkg` :808-853 |
| `cacheLine`           | `sed 's,^opt:,[OPT],; s,^:,[DEP],'` :344-346 |

* `substitute_name`, `egrepLine_pattern` — which names `sed` and `egrep` take for a name (`replaceFit`, `Fits`).
* `mem_finalise` — the lines that are written.
* `finalisation_exact_iff` — **when they are the ones that are meant**.
* `apart_of_plain` — names that are no expressions.
-/
namespace T2Sde.Build
open Shell

/-- What the build of a package gives, and the file of the alternatives, a base name and the name that stands for it. -/
structure Deps where
  detected : List Text
  alternatives : List (Text × Text)
  SDECFG_LIBC : Text
  SDECFG_DEFAULT_CC : Text
  compressor : Text
  desc_E : List Text

/-- `s/$alt/$basepkg/;…` -/
def replaceAlternatives (alternatives : List (Text × Text)) (line : Text) : Option Text :=
  alternatives.foldlM (fun l x => substitute x.2 x.1 l) line

/-- `sed -n 's/^KEY //p'`, in words -/
def tagged (key : Text) (desc_E : List Text) : List Text :=
  desc_E.flatMap fun l => if key ++ [' '] <+: l then words (l.drop (key.length + 1)) else []

/-- `egrep '^(add|opt) ' | sed 's/^[^ ]* //'`, in words -/
def addOrOpt (desc_E : List Text) : List Text :=
  desc_E.flatMap fun l => if "add ".toList <+: l ∨ "opt ".toList <+: l then words (l.drop 4) else []

/-- The names to be deleted. -/
def Deps.removed (d : Deps) : List Text :=
  ["t2-src".toList] ++ words d.SDECFG_LIBC ++ words d.SDECFG_DEFAULT_CC ++
    words (d.compressor.takeWhile (· ≠ ' ')) ++ tagged "del".toList d.desc_E

def pattern (x : Text) : Text := ".*: ".toList ++ x ++ ['$']

/-- `egrep -v -e PATTERN …` -/
def egrepV (patterns lines : List Text) : Option (List Text) :=
  if patterns.all fun p => (extended p).isSome then
    some (lines.filter fun l => !patterns.any fun p => egrepLine p l == some true)
  else none

/-- `sort -u` -/
def sortUnique (lines : List Text) : List Text := (sort lines).dedup

def mark (lines : List Text) (x : Text) : Option (List Text) :=
  lines.mapM (substitute ("^: ".toList ++ x ++ ['$']) "opt&".toList)

/-- `dependencies.txt` at the end. -/
def finalise (d : Deps) : Option (List Text) := do
  let dependencies := d.detected.map (": ".toList ++ ·)
  let dependencies ← dependencies.mapM (replaceAlternatives d.alternatives)
  let dependencies ← egrepV (d.removed.map pattern) dependencies
  let dependencies := dependencies ++ (addOrOpt d.desc_E).map (": ".toList ++ ·)
  (tagged "opt".toList d.desc_E).foldlM mark (sortUnique dependencies)

def cacheLine (line : Text) : Option Text :=
  (substitute "^opt:".toList "[OPT]".toList line).bind (substitute "^:".toList "[DEP]".toList)

/-! ## What is meant -/

/-- The base name of an alternative. -/
def baseOf (alternatives : List (Text × Text)) (q : Text) : Text :=
  ((alternatives.find? fun x => x.2 = q).map Prod.fst).getD q

def Wanted (d : Deps) (y : Text) : Prop :=
  (∃ q ∈ d.detected, baseOf d.alternatives q = y ∧ y ∉ d.removed) ∨ y ∈ addOrOpt d.desc_E

/-- The line of a name. -/
def depLine (d : Deps) (y : Text) : Text :=
  (if y ∈ tagged "opt".toList d.desc_E then "opt: ".toList else ": ".toList) ++ y

/-! ## Names -/

def pkgChar (c : Char) : Bool := c.isAlphanum || "+-._".toList.contains c

/-- The name of a package. -/
def IsPkg (x : Text) : Prop := (∃ c ∈ x.head?, c.isAlphanum = true) ∧ ∀ c ∈ x, pkgChar c = true

instance (x : Text) : Decidable (IsPkg x) := inferInstanceAs (Decidable (_ ∧ _))

structure Deps.Ok (d : Deps) : Prop where
  detected : ∀ q ∈ d.detected, IsPkg q
  alternatives : ∀ x ∈ d.alternatives, IsPkg x.1 ∧ IsPkg x.2
  removed : ∀ x ∈ d.removed, IsPkg x
  addOrOpt : ∀ x ∈ addOrOpt d.desc_E, IsPkg x

/-! ## A name in an expression -/

open Pattern (Item run search)

/-- What a character of a name stands for; `.` for any. -/
def charFits (c : Char) : Char → Bool := if c = '.' then fun _ => true else (· == c)

def nameItem (c : Char) : Item := .chr (charFits c) .one

/-- The text fits the name with `.` for any character. -/
def nameFits : Text → Text → Bool
  | [], [] => true
  | c :: x, d :: y => (c == '.' || d == c) && nameFits x y
  | _, _ => false

/-- What is left of a text fits what is left of a name in an extended expression, in which `+` stands for more
characters like the last one, which are of `p`. -/
def extendedFits (p : Char → Bool) : Text → Text → Prop
  | [], y => y = []
  | c :: x, y =>
    if c = '+' then ∃ w t, y = w ++ t ∧ (∀ d ∈ w, p d = true) ∧ extendedFits p x t
    else ∃ d t, y = d :: t ∧ charFits c d = true ∧ extendedFits (charFits c) x t

/-- `egrep` takes `y` for the name `x`. -/
def Fits (x y : Text) : Prop := extendedFits (fun _ => false) x y

/-- The first place that fits the alternative, with `.` for any character, is replaced. -/
def replaceFit (alt base : Text) : Text → Text
  | [] => []
  | c :: q =>
    if nameFits alt ((c :: q).take alt.length) then base ++ (c :: q).drop alt.length else c :: replaceFit alt base q

/-- What the alternatives make of a name. -/
def renamed (alternatives : List (Text × Text)) (q : Text) : Text :=
  alternatives.foldl (fun q x => replaceFit x.2 x.1 q) q

/-- A character of a line. -/
def lineChar (c : Char) : Bool := pkgChar c || c == ':' || c == ' '

theorem lineChar_ne {c d : Char} (hc : lineChar c = true) (hd : lineChar d = false) : c ≠ d := by
  rintro rfl
  exact absurd (hc.symm.trans hd) (by decide)

theorem atom_lineChar {c : Char} (hc : lineChar c = true) (t : Text) :
    atom (c :: t) = some (charFits c, t) := by
  have h₁ : c ≠ '[' := lineChar_ne hc (by decide)
  have h₂ : c ≠ '\\' := lineChar_ne hc (by decide)
  unfold atom
  split <;> simp_all [charFits]

theorem regexUpTo_line {u e : Text} (hu : ∀ c ∈ u, lineChar c = true) (he : e = [] ∨ e = ['$']) {n : Nat}
    (hn : (u ++ e).length ≤ n) :
    regexUpTo n (u ++ e) = some (u.map nameItem ++ if e = [] then [] else [.atEnd]) := by
  induction n generalizing u with
  | zero =>
    obtain ⟨rfl, rfl⟩ := List.append_eq_nil_iff.1 (List.eq_nil_of_length_eq_zero (Nat.le_zero.1 hn))
    rfl
  | succ n ih =>
    cases u with
    | nil => rcases he with rfl | rfl <;> rfl
    | cons c u =>
      obtain ⟨hc, hu⟩ := List.forall_mem_cons.1 hu
      have hdollar : c ≠ '$' := lineChar_ne hc (by decide)
      have hstar : (u ++ e).head? ≠ some '*' ∧ (u ++ e).dropWhile (· == '*') = u ++ e := by
        cases u with
        | nil => rcases he with rfl | rfl <;> simp
        | cons d u => simp [lineChar_ne (hu d List.mem_cons_self) (show lineChar '*' = false by decide)]
      rw [List.cons_append, regexUpTo, if_neg (by simp), if_neg (by simp [hdollar]), atom_lineChar hc]
      simp only [if_neg hstar.1, hstar.2, ih hu (by simpa using hn), Option.map_some, List.map_cons, List.cons_append,
        nameItem]

theorem IsPkg.lineChar {x : Text} (h : IsPkg x) : ∀ c ∈ x, lineChar c = true := by
  intro c hc
  simp [Build.lineChar, h.2 c hc]

/-- A name begins with a character that stands for itself, not with what is in front of a name in a line. -/
theorem IsPkg.cons {x : Text} (h : IsPkg x) : ∃ c t, x = c :: t ∧ c.isAlphanum = true := by
  obtain ⟨⟨c, hc, halnum⟩, -⟩ := h
  cases x with
  | nil => simp at hc
  | cons d t => exact ⟨d, t, rfl, by simpa [Option.mem_some_iff.1 hc] using halnum⟩

theorem regex_name {x : Text} (h : IsPkg x) : regex x = some ⟨false, x.map nameItem⟩ := by
  obtain ⟨c, t, rfl, -⟩ := h.cons
  have hfront : c ≠ '^' := lineChar_ne (h.lineChar c List.mem_cons_self) (by decide)
  have hup := regexUpTo_line h.lineChar (.inl rfl) (n := (c :: t).length) (by simp)
  rw [List.append_nil, if_pos rfl, List.append_nil] at hup
  rw [regex, if_neg (by simpa using hfront), hup, Option.map_some]

theorem run_name (src : Text) (is : List Item) (x s : Text) :
    run src (x.map nameItem ++ is) [] s =
      if nameFits x (s.take x.length) then run src is [] (s.drop x.length) else .fail := by
  induction x generalizing s with
  | nil => simp [nameFits]
  | cons c x ih =>
    rw [List.map_cons, List.cons_append, nameItem]
    cases s with
    | nil => simp [nameFits]
    | cons d s =>
      rw [Pattern.run_one, ih, List.length_cons, List.take_succ_cons, List.drop_succ_cons, nameFits]
      by_cases hc : c = '.'
      · simp [charFits, hc]
      · by_cases hd : d = c <;> simp [charFits, hc, hd]

theorem nameFits_length {x y : Text} (h : nameFits x y = true) : x.length = y.length := by
  fun_induction nameFits x y with
  | case1 => rfl
  | case2 c x d y ih => simpa using ih (Bool.and_eq_true_iff.1 h).2
  | case3 => cases h

theorem nameFits_self (x : Text) : nameFits x x = true := by
  induction x with
  | nil => rfl
  | cons c x ih => simp [nameFits, ih]

/-- `s/^: NAME$/opt&/` -/
theorem substitute_mark {x : Text} (h : IsPkg x) (l : Text) :
    substitute ("^: ".toList ++ x ++ ['$']) "opt&".toList l =
      some (if nameFits (": ".toList ++ x) l then "opt".toList ++ l else l) := by
  have hline : ∀ c ∈ ": ".toList ++ x, lineChar c = true := by
    intro c hc
    rcases List.mem_append.1 hc with hc | hc
    · exact List.all_eq_true.1 (show ": ".toList.all lineChar = true by decide) c hc
    · exact h.lineChar c hc
  have hregex : regex ("^: ".toList ++ x ++ ['$']) = some ⟨true, (": ".toList ++ x).map nameItem ++ [.atEnd]⟩ := by
    have hup := regexUpTo_line hline (.inr rfl) (n := ("^: ".toList ++ x ++ ['$']).length) (by simp)
    rw [if_neg (List.cons_ne_nil _ _)] at hup
    have hcons : "^: ".toList ++ x ++ ['$'] = '^' :: (": ".toList ++ x ++ ['$']) := by simp
    rw [regex, hcons, List.head?_cons, if_pos rfl, List.drop_one, List.tail_cons, ← hcons, hup, Option.map_some]
  have hrun : run l ((": ".toList ++ x).map nameItem ++ [.atEnd]) [] l =
      if nameFits (": ".toList ++ x) l then .ok ([], []) else .fail := by
    rw [run_name]
    by_cases hd : l.drop (": ".toList ++ x).length = []
    · have htake : l.take (": ".toList ++ x).length = l := List.take_of_length_le (List.drop_eq_nil_iff.1 hd)
      rw [hd, htake]
      rfl
    · have hno : nameFits (": ".toList ++ x) l = false := by
        rw [Bool.eq_false_iff]
        intro hf
        exact hd (List.drop_eq_nil_iff.2 (nameFits_length hf).ge)
      have hrest : run l [.atEnd] [] (l.drop (": ".toList ++ x).length) = .fail := by
        rw [run, if_neg hd]
      rw [hrest, hno, ite_self]
      rfl
  rw [substitute, hregex, Option.bind_some, Regex.find, if_pos rfl]
  simp only [hrun]
  have hrep : replaced l "opt&".toList = some ("opt".toList ++ l) := by simp [replaced]
  cases nameFits (": ".toList ++ x) l with
  | true =>
    simp only [if_true, List.length_nil, Nat.sub_zero, List.take_length, hrep, Option.map_some, List.nil_append,
      List.append_nil]
  | false => rfl

/-- A hit in a name is at the first place that fits. -/
theorem search_name (src : Text) {alt : Text} (hne : alt ≠ []) (base q : Text) :
    (∃ hit, search src (alt.map nameItem) q = .ok hit ∧ hit.start.length ≤ q.length ∧
      replaceFit alt base q = q.take (q.length - hit.start.length) ++ base ++ hit.rest) ∨
    (∀ hit, search src (alt.map nameItem) q ≠ .ok hit) ∧ replaceFit alt base q = q := by
  obtain ⟨c, t, rfl⟩ := List.exists_cons_of_ne_nil hne
  induction q with
  | nil => exact .inr ⟨by rintro hit ⟨⟩, rfl⟩
  | cons d q ih =>
    have hrun := run_name src [] (c :: t) (d :: q)
    rw [List.append_nil] at hrun
    rw [search, hrun, replaceFit]
    by_cases hfits : nameFits (c :: t) ((d :: q).take (c :: t).length) = true
    · rw [if_pos hfits, if_pos hfits]
      exact .inl ⟨_, rfl, le_rfl, by simp⟩
    · rw [if_neg hfits, if_neg hfits]
      rcases ih with ⟨hit, hhit, hle, heq⟩ | ⟨hmiss, heq⟩
      · have hlen : (d :: q).length - hit.start.length = (q.length - hit.start.length) + 1 := by
          rw [List.length_cons]
          omega
        exact .inl ⟨hit, hhit, hle.trans (Nat.le_succ _), by rw [heq, hlen, List.take_succ_cons]; rfl⟩
      · exact .inr ⟨hmiss, congrArg (d :: ·) heq⟩

/-- **`sed`** replaces the first place in a name. -/
theorem substitute_name {alt base : Text} (halt : IsPkg alt) (hbase : IsPkg base) (q : Text) :
    substitute alt base (": ".toList ++ q) = some (": ".toList ++ replaceFit alt base q) := by
  have hrep : ∀ hit, replaced hit base = some base := fun hit =>
    replaced_plain (fun h => lineChar_ne (hbase.lineChar _ h) (by decide) rfl)
      (fun h => lineChar_ne (hbase.lineChar _ h) (by decide) rfl) hit
  rw [substitute, regex_name halt, Option.bind_some, Regex.find, if_neg (by simp)]
  obtain ⟨c, t, rfl, hc⟩ := halt.cons
  have hdot : c ≠ '.' := by
    rintro rfl
    exact absurd hc (by decide)
  have hskip : ∀ d s, d ≠ c → search (": ".toList ++ q) ((c :: t).map nameItem) (d :: s) =
      search (": ".toList ++ q) ((c :: t).map nameItem) s := by
    intro d s hd
    rw [search, List.map_cons, nameItem, Pattern.run_one, charFits, if_neg hdot, if_neg (by simpa using hd)]
  have hsearch : search (": ".toList ++ q) ((c :: t).map nameItem) (": ".toList ++ q) =
      search (": ".toList ++ q) ((c :: t).map nameItem) q := by
    have h₁ : ':' ≠ c := fun h => absurd (h ▸ hc) (by decide)
    have h₂ : ' ' ≠ c := fun h => absurd (h ▸ hc) (by decide)
    exact (hskip ':' (' ' :: q) h₁).trans (hskip ' ' q h₂)
  rw [hsearch]
  rcases search_name (": ".toList ++ q) (List.cons_ne_nil c t) base q with ⟨hit, hhit, hle, heq⟩ | ⟨hmiss, heq⟩
  · have hlen : (": ".toList ++ q).length - hit.start.length = 2 + (q.length - hit.start.length) := by
      rw [List.length_append]
      simp only [String.reduceToList, List.length_cons, List.length_nil]
      omega
    simp only [hhit, hrep, Option.map_some, hlen, heq]
    simp [List.take_add]
  · rw [heq]
    cases hs : search (": ".toList ++ q) ((c :: t).map nameItem) q with
    | fail => rfl
    | error => rfl
    | ok hit => exact absurd hs (hmiss hit)

theorem replaceAlternatives_name {alternatives : List (Text × Text)}
    (h : ∀ x ∈ alternatives, IsPkg x.1 ∧ IsPkg x.2) (q : Text) :
    replaceAlternatives alternatives (": ".toList ++ q) = some (": ".toList ++ renamed alternatives q) := by
  induction alternatives generalizing q with
  | nil => rfl
  | cons x alternatives ih =>
    obtain ⟨hx, h⟩ := List.forall_mem_cons.1 h
    rw [replaceAlternatives, List.foldlM_cons, substitute_name hx.2 hx.1]
    exact ih h _

/-- A renamed name has no colon. -/
theorem renamed_chars {alternatives : List (Text × Text)} (h : ∀ x ∈ alternatives, IsPkg x.1 ∧ IsPkg x.2) {q : Text}
    (hq : ∀ c ∈ q, pkgChar c = true) : ∀ c ∈ renamed alternatives q, pkgChar c = true := by
  have hone : ∀ (alt base q : Text), ∀ c ∈ replaceFit alt base q, c ∈ base ∨ c ∈ q := by
    intro alt base q
    induction q with
    | nil => exact fun c hc => absurd hc List.not_mem_nil
    | cons d q ih =>
      intro c hc
      rw [replaceFit] at hc
      split at hc
      · exact (List.mem_append.1 hc).imp_right List.mem_of_mem_drop
      · rcases List.mem_cons.1 hc with rfl | hc
        · exact .inr List.mem_cons_self
        · exact (ih c hc).imp_right (List.mem_cons_of_mem _)
  induction alternatives generalizing q with
  | nil => exact hq
  | cons x alternatives ih =>
    obtain ⟨hx, h⟩ := List.forall_mem_cons.1 h
    exact ih h fun c hc => (hone x.2 x.1 q c hc).elim (hx.1.2 c) (hq c)

theorem extendedAtom_line {c : Char} (hc : lineChar c = true) (hq : isQuantifier c = false) (t : Text) :
    extendedAtom (c :: t) = some (charFits c, t) := by
  by_cases hdot : c = '.'
  · subst hdot
    rfl
  · have hspecial : extendedSpecial.contains c = false := by
      have hall : ∀ d ∈ extendedSpecial, lineChar d = true → d = '.' ∨ isQuantifier d = true := by decide
      rw [Bool.eq_false_iff]
      intro h
      rcases hall c (List.contains_iff_mem.1 h) hc with h | h
      · exact hdot h
      · rw [hq] at h
        cases h
    have h₁ : c ≠ '[' := lineChar_ne hc (by decide)
    have h₂ : c ≠ '\\' := lineChar_ne hc (by decide)
    unfold extendedAtom
    split <;> simp_all [charFits]

/-- Several `+` behind one another are one. -/
theorem extendedFits_plus {p : Char → Bool} {qs v y : Text} (hqs : ∀ c ∈ qs, c = '+') :
    extendedFits p ('+' :: qs ++ v) y ↔ ∃ w t, y = w ++ t ∧ (∀ d ∈ w, p d = true) ∧ extendedFits p v t := by
  induction qs generalizing y with
  | nil =>
    rw [List.singleton_append, extendedFits, if_pos rfl]
  | cons c qs ih =>
    obtain ⟨rfl, hrest⟩ := List.forall_mem_cons.1 hqs
    rw [List.cons_append, extendedFits, if_pos rfl]
    constructor
    · rintro ⟨w, t, rfl, hw, h⟩
      obtain ⟨w', t', rfl, hw', h⟩ := (ih hrest).1 h
      exact ⟨w ++ w', t', by simp, fun d hd => (List.mem_append.1 hd).elim (hw d) (hw' d), h⟩
    · rintro ⟨w, t, rfl, hw, h⟩
      exact ⟨w, t, rfl, hw, (ih hrest).2 ⟨[], t, rfl, by simp, h⟩⟩

theorem expand_ne_error {α : Type} {p : Char → Bool} {k : Text → Pattern.Res α} (hk : ∀ t, k t ≠ .error) (s : Text) :
    Pattern.expand p k s ≠ .error := by
  induction s with
  | nil => exact hk []
  | cons c s ih =>
    rw [Pattern.expand]
    split
    · split
      · exact hk _
      · exact ih
    · exact hk _

/-- One character of a class in front of items that match what `P` says. -/
theorem run_one_iff {items : List Pattern.Item} {p : Char → Bool} {P : Text → Prop}
    (hrun : ∀ src s, run src items [] s ≠ .error ∧ (run src items [] s ≠ .fail ↔ P s)) (src s : Text) :
    run src (.chr p .one :: items) [] s ≠ .error ∧
      (run src (.chr p .one :: items) [] s ≠ .fail ↔ ∃ d t, s = d :: t ∧ p d = true ∧ P t) := by
  cases s with
  | nil => simp
  | cons d s =>
    rw [Pattern.run_one]
    by_cases hd : p d = true
    · simpa [hd] using hrun src s
    · simp [hd]

/-- A run of characters of a class in front of such items. -/
theorem run_plus_iff {items : List Pattern.Item} {p : Char → Bool} {P : Text → Prop}
    (hrun : ∀ src s, run src items [] s ≠ .error ∧ (run src items [] s ≠ .fail ↔ P s)) (src s : Text) :
    run src (.chr p .plus :: items) [] s ≠ .error ∧
      (run src (.chr p .plus :: items) [] s ≠ .fail ↔
        ∃ d w t, s = d :: (w ++ t) ∧ p d = true ∧ (∀ c ∈ w, p c = true) ∧ P t) := by
  cases s with
  | nil => simp
  | cons d s =>
    rw [Pattern.run_plus]
    by_cases hd : p d = true
    · rw [if_pos hd]
      have herr := expand_ne_error (p := p) (fun t => (hrun src t).1) s
      refine ⟨herr, fun h => ?_, ?_⟩
      · cases he : Pattern.expand p (run src items []) s with
        | fail => exact absurd he h
        | error => exact absurd he herr
        | ok a =>
          obtain ⟨w, t, rfl, hw, ht, -⟩ := Pattern.expand_sound he
          exact ⟨d, w, t, rfl, hd, hw, (hrun src t).2.1 (by simp [ht])⟩
      · rintro ⟨_, w, t, heq, -, hw, hP⟩
        obtain ⟨rfl, rfl⟩ := List.cons.inj heq
        exact Pattern.expand_ne_fail hw ((hrun src t).2.2 hP)
    · simp [hd]

theorem takeWhile_dollar (u : Text) : (u ++ ['$']).takeWhile isQuantifier = u.takeWhile isQuantifier := by
  rw [List.takeWhile_append]
  split
  next h => simp [isQuantifier, (List.takeWhile_prefix isQuantifier).eq_of_length h]
  · rfl

theorem dropWhile_dollar (u : Text) : (u ++ ['$']).dropWhile isQuantifier = u.dropWhile isQuantifier ++ ['$'] := by
  rw [List.dropWhile_append]
  split
  next h => simp [List.isEmpty_iff.1 h, isQuantifier]
  · rfl

/-- A line has no other sign of repetition than `+`. -/
theorem quantifiers_plus {u : Text} (hu : ∀ c ∈ u, lineChar c = true) : ∀ d ∈ u.takeWhile isQuantifier, d = '+' := by
  intro d hd
  have hquant := List.mem_takeWhile_imp hd
  have hline := hu d ((List.takeWhile_sublist _).subset hd)
  by_contra hno
  have hcase : d = '*' ∨ d = '?' := by simpa [isQuantifier, hno] using hquant
  rcases hcase with rfl | rfl <;> cases hline

/-- The items of a name match a text to its end exactly if it fits. -/
theorem run_extended {n : Nat} {u : Text} (hu : ∀ c ∈ u, lineChar c = true)
    (hhead : ∀ c ∈ u.head?, isQuantifier c = false) (hn : u.length < n) (p : Char → Bool) :
    ∃ items, extendedUpTo n (u ++ ['$']) = some items ∧ ∀ src s,
      run src items [] s ≠ .error ∧ (run src items [] s ≠ .fail ↔ extendedFits p u s) := by
  induction n generalizing u p with
  | zero => exact absurd hn (Nat.not_lt_zero _)
  | succ n ih =>
    cases u with
    | nil =>
      refine ⟨[.atEnd], rfl, fun src s => ?_⟩
      rw [run, extendedFits]
      by_cases hs : s = [] <;> simp [hs]
    | cons c u =>
      obtain ⟨hc, hu⟩ := List.forall_mem_cons.1 hu
      have hquant : isQuantifier c = false := hhead c (by simp)
      have hdollar : c ≠ '$' := lineChar_ne hc (by decide)
      have hplus : c ≠ '+' := by
        rintro rfl
        cases hquant
      have hsplit := @List.takeWhile_append_dropWhile _ isQuantifier u
      have hqs := quantifiers_plus hu
      have hlen : (u.dropWhile isQuantifier).length < n := by
        have hle := (List.dropWhile_sublist (l := u) isQuantifier).length_le
        rw [List.length_cons] at hn
        omega
      obtain ⟨items, hitems, hrun⟩ := ih (fun c hc => hu c ((List.dropWhile_suffix _).subset hc)) (fun d hd => by
        have hnot := List.head?_dropWhile_not isQuantifier u
        rw [Option.mem_def.1 hd] at hnot
        exact hnot) hlen (charFits c)
      refine ⟨.chr (charFits c) (repetition (u.takeWhile isQuantifier)) :: items, ?_, fun src s => ?_⟩
      · rw [List.cons_append, extendedUpTo, if_neg (by simp), if_neg (by simp [hdollar]), extendedAtom_line hc hquant]
        simp only [takeWhile_dollar, dropWhile_dollar, hitems, Option.map_some]
      rw [extendedFits, if_neg hplus]
      cases hqs' : u.takeWhile isQuantifier with
      | nil =>
        rw [hqs', List.nil_append] at hsplit
        rw [hsplit] at hrun
        exact run_one_iff hrun src s
      | cons q qs =>
        rw [hqs'] at hqs hsplit
        obtain ⟨rfl, hrest⟩ := List.forall_mem_cons.1 hqs
        have hrep : repetition ('+' :: qs) = .plus := by
          rw [repetition, if_neg (by simp), if_pos (by simpa using hrest)]
        obtain ⟨herr, hiff⟩ := run_plus_iff hrun src s
        rw [hrep]
        refine ⟨herr, hiff.trans ⟨?_, ?_⟩⟩
        · rintro ⟨d, w, t, rfl, hd, hw, hfits⟩
          exact ⟨d, w ++ t, rfl, hd, hsplit ▸ (extendedFits_plus hrest).2 ⟨w, t, rfl, hw, hfits⟩⟩
        · rintro ⟨d, t, rfl, hd, hfits⟩
          rw [← hsplit] at hfits
          obtain ⟨w, t, rfl, hw, hfits⟩ := (extendedFits_plus hrest).1 hfits
          exact ⟨d, w, t, rfl, hd, hw, hfits⟩

/-- The class of the last character is nothing to a name that does not go on with `+`. -/
theorem extendedFits_head {x y : Text} (hx : x.head? ≠ some '+') (p p' : Char → Bool) :
    extendedFits p x y ↔ extendedFits p' x y := by
  cases x with
  | nil => rfl
  | cons c x =>
    have hc : c ≠ '+' := by simpa using hx
    rw [extendedFits, extendedFits, if_neg hc, if_neg hc]

/-- The expression for a name: `.*`, then the characters in front of the name and those of the name. -/
theorem extended_pattern {x : Text} (hx : IsPkg x) : ∃ items,
    extended (pattern x) = some (.chr (fun _ => true) .star :: items) ∧ ∀ src s,
      run src items [] s ≠ .error ∧ (run src items [] s ≠ .fail ↔ ∃ y, s = ": ".toList ++ y ∧ Fits x y) := by
  have hline : ∀ c ∈ ": ".toList ++ x, lineChar c = true := by
    intro c hc
    rcases List.mem_append.1 hc with hc | hc
    · exact List.all_eq_true.1 (show ": ".toList.all lineChar = true by decide) c hc
    · exact hx.lineChar c hc
  have hstart : x.head? ≠ some '+' := by
    obtain ⟨c, t, rfl, hc⟩ := hx.cons
    intro h
    obtain rfl : c = '+' := by simpa using h
    exact absurd hc (by decide)
  have hpattern : pattern x = '.' :: '*' :: (": ".toList ++ x ++ ['$']) := by simp [pattern]
  obtain ⟨items, hitems, hrun⟩ := run_extended hline (n := (": ".toList ++ x ++ ['$']).length + 1) (fun c hc => by
    obtain rfl : c = ':' := by simpa [eq_comm] using hc
    rfl) (by simp) fun _ => false
  refine ⟨items, ?_, fun src s => ⟨(hrun src s).1, ((hrun src s).2).trans ?_⟩⟩
  · have hatom : extendedAtom ('.' :: '*' :: (": ".toList ++ x ++ ['$'])) =
        some (fun _ => true, '*' :: (": ".toList ++ x ++ ['$'])) := rfl
    have htake : ('*' :: (": ".toList ++ x ++ ['$'])).takeWhile isQuantifier = ['*'] := rfl
    have hdrop : ('*' :: (": ".toList ++ x ++ ['$'])).dropWhile isQuantifier = ": ".toList ++ x ++ ['$'] := rfl
    rw [extended, hpattern, List.length_cons, List.length_cons, extendedUpTo, if_neg (by simp), if_neg (by simp), hatom]
    simp only [htake, hdrop, hitems, Option.map_some]
    rfl
  · have hliteral : ∀ c, c ≠ '+' → c ≠ '.' → ∀ p x s,
        extendedFits p (c :: x) s ↔ ∃ t, s = c :: t ∧ extendedFits (charFits c) x t := by
      intro c hplus hdot p x s
      rw [extendedFits, if_neg hplus]
      constructor
      · rintro ⟨d, t, rfl, hd, h⟩
        obtain rfl : d = c := by simpa [charFits, hdot] using hd
        exact ⟨t, rfl, h⟩
      · rintro ⟨t, rfl, h⟩
        exact ⟨c, t, rfl, by simp [charFits, hdot], h⟩
    change extendedFits _ (':' :: ' ' :: x) s ↔ _
    rw [hliteral ':' (by decide) (by decide)]
    simp only [hliteral ' ' (by decide) (by decide), extendedFits_head hstart (charFits ' ') fun _ => false]
    constructor
    · rintro ⟨_, rfl, y, rfl, h⟩
      exact ⟨y, rfl, h⟩
    · rintro ⟨y, rfl, h⟩
      exact ⟨_, rfl, y, rfl, h⟩

/-- **`egrep`** takes a line out if the name in it fits. -/
theorem egrepLine_pattern {x y : Text} (hx : IsPkg x) (hy : ':' ∉ y) :
    egrepLine (pattern x) (": ".toList ++ y) = some true ↔ Fits x y := by
  obtain ⟨items, hitems, hrun⟩ := extended_pattern hx
  have hsearch : (∃ hit, search (": ".toList ++ y) (.chr (fun _ => true) .star :: items) (": ".toList ++ y) = .ok hit) ↔
      Fits x y := by
    constructor
    · rintro ⟨hit, hhit⟩
      obtain ⟨a, hsuf, hok, -⟩ := Pattern.search_sound hhit
      rw [Pattern.run_star] at hok
      obtain ⟨w, t, ht, -, hok, -⟩ := Pattern.expand_sound hok
      obtain ⟨y', rfl, hfits⟩ := (hrun (": ".toList ++ y) t).2.1 (by rw [hok]; exact nofun)
      have hin : ": ".toList ++ y' <:+ ": ".toList ++ y := (List.suffix_append w _).trans (ht ▸ hsuf)
      rcases List.suffix_cons_iff.1 hin with heq | hin
      · obtain rfl : y' = y := List.append_cancel_left heq
        exact hfits
      · rcases List.suffix_cons_iff.1 hin with heq | hin
        · exact absurd (List.cons.inj heq).1 (by decide)
        · exact absurd (hin.subset (by simp)) hy
    · intro hfits
      have hne := (hrun (": ".toList ++ y) (": ".toList ++ y)).2.2 ⟨y, rfl, hfits⟩
      have hexpand := Pattern.expand_ne_fail (w := []) (p := fun _ => true) (by simp) hne
      cases he : run (": ".toList ++ y) (.chr (fun _ => true) .star :: items) [] (": ".toList ++ y) with
      | fail => exact absurd he hexpand
      | error => exact absurd he (expand_ne_error (fun t => (hrun _ t).1) _)
      | ok a => exact ⟨_, Pattern.search_of_run he⟩
  rw [egrepLine, hitems, Option.map_some, Option.some.injEq, ← hsearch]
  cases search (": ".toList ++ y) (.chr (fun _ => true) .star :: items) (": ".toList ++ y) <;> simp

/-! ## The lines that are written -/

/-- `egrep` takes the line out. -/
def deleted (d : Deps) (l : Text) : Bool := (d.removed.map pattern).any fun p => egrepLine p l == some true

/-- What the marks make of a line. -/
def markLine (opts : List Text) (l : Text) : Text :=
  if opts.any fun x => nameFits (": ".toList ++ x) l then "opt".toList ++ l else l

/-- The name is there before the marks. -/
def Kept (d : Deps) (y : Text) : Prop :=
  (∃ q ∈ d.detected, renamed d.alternatives q = y ∧ ∀ x ∈ d.removed, ¬ Fits x y) ∨ y ∈ addOrOpt d.desc_E

theorem deleted_iff {d : Deps} (hd : d.Ok) {y : Text} (hy : ':' ∉ y) :
    deleted d (": ".toList ++ y) = false ↔ ∀ x ∈ d.removed, ¬ Fits x y := by
  rw [deleted, List.any_map, List.any_eq_false]
  refine forall_congr' fun x => forall_congr' fun hx => not_congr ?_
  rw [Function.comp_apply, beq_iff_eq, egrepLine_pattern (hd.removed x hx) hy]

theorem foldlM_mark {opts : List Text} (h : ∀ x ∈ opts, IsPkg x) (lines : List Text) :
    opts.foldlM mark lines = some (lines.map (markLine opts)) := by
  induction opts generalizing lines with
  | nil =>
    have hmark : markLine [] = id := rfl
    rw [hmark, List.map_id]
    rfl
  | cons x opts ih =>
    obtain ⟨hx, h⟩ := List.forall_mem_cons.1 h
    have hone : mark lines x =
        some (lines.map fun l => if nameFits (": ".toList ++ x) l then "opt".toList ++ l else l) :=
      mapM_some fun l _ => substitute_mark hx l
    have hmarked : ∀ l, markLine opts ("opt".toList ++ l) = "opt".toList ++ l := by
      intro l
      have hno : ∀ x : Text, nameFits (": ".toList ++ x) ("opt".toList ++ l) = false := fun x => rfl
      rw [markLine, List.any_eq_false.2 fun x _ => by rw [hno]; decide]
      rfl
    rw [List.foldlM_cons, hone]
    change opts.foldlM mark _ = _
    rw [ih h, List.map_map]
    refine congrArg some (List.map_congr_left fun l _ => ?_)
    rw [Function.comp_apply]
    cases hf : nameFits (": ".toList ++ x) l with
    | true => rw [if_pos rfl, hmarked, markLine, List.any_cons, hf, Bool.true_or, if_pos rfl]
    | false => rw [if_neg (by decide), markLine, markLine, List.any_cons, hf, Bool.false_or]

theorem opt_mem {desc_E : List Text} {x : Text} (h : x ∈ tagged "opt".toList desc_E) : x ∈ addOrOpt desc_E := by
  obtain ⟨l, hl, hx⟩ := List.mem_flatMap.1 h
  refine List.mem_flatMap.2 ⟨l, hl, ?_⟩
  by_cases hp : "opt".toList ++ [' '] <+: l
  · rw [if_pos hp] at hx
    rw [if_pos (.inr hp)]
    exact hx
  · rw [if_neg hp] at hx
    cases hx

theorem mem_sortUnique {lines : List Text} {l : Text} : l ∈ sortUnique lines ↔ l ∈ lines := by
  rw [sortUnique, List.mem_dedup, (perm_sort lines).mem_iff]

/-- **The lines that are written**: each name that is kept, with the mark that its line gets. -/
theorem mem_finalise {d : Deps} (hd : d.Ok) :
    ∃ lines, finalise d = some lines ∧
      ∀ l, l ∈ lines ↔ ∃ y, Kept d y ∧ l = markLine (tagged "opt".toList d.desc_E) (": ".toList ++ y) := by
  have hsed : (d.detected.map (": ".toList ++ ·)).mapM (replaceAlternatives d.alternatives) =
      some (d.detected.map fun q => ": ".toList ++ renamed d.alternatives q) := by
    rw [List.mapM_map]
    exact mapM_some fun q _ => replaceAlternatives_name hd.alternatives q
  have hegrep : ∀ lines, egrepV (d.removed.map pattern) lines = some (lines.filter fun l => !deleted d l) := by
    intro lines
    refine if_pos (List.all_eq_true.2 fun p hp => ?_)
    obtain ⟨x, hx, rfl⟩ := List.mem_map.1 hp
    obtain ⟨items, hitems, -⟩ := extended_pattern (hd.removed x hx)
    rw [hitems]
    rfl
  have hfinal : finalise d = some ((sortUnique (((d.detected.map fun q =>
      ": ".toList ++ renamed d.alternatives q).filter fun l => !deleted d l) ++
        (addOrOpt d.desc_E).map (": ".toList ++ ·))).map (markLine (tagged "opt".toList d.desc_E))) := by
    rw [finalise, hsed]
    change (egrepV _ _).bind _ = _
    rw [hegrep]
    exact foldlM_mark (fun x hx => hd.addOrOpt x (opt_mem hx)) _
  have hdeleted : ∀ q ∈ d.detected, deleted d (": ".toList ++ renamed d.alternatives q) = false ↔
      ∀ x ∈ d.removed, ¬ Fits x (renamed d.alternatives q) := fun q hq =>
    deleted_iff hd fun h => absurd (renamed_chars hd.alternatives (hd.detected q hq).2 _ h) (by decide)
  refine ⟨_, hfinal, fun l => ?_⟩
  simp only [List.mem_map, mem_sortUnique, List.mem_append, List.mem_filter, Bool.not_eq_true']
  constructor
  · rintro ⟨l, ⟨⟨q, hq, rfl⟩, hdel⟩ | ⟨y, hy, rfl⟩, rfl⟩
    · exact ⟨renamed d.alternatives q, .inl ⟨q, hq, rfl, (hdeleted q hq).1 hdel⟩, rfl⟩
    · exact ⟨y, .inr hy, rfl⟩
  · rintro ⟨y, ⟨q, hq, rfl, hdel⟩ | hy, rfl⟩
    · exact ⟨_, .inl ⟨⟨q, hq, rfl⟩, (hdeleted q hq).2 hdel⟩, rfl⟩
    · exact ⟨_, .inr ⟨y, hy, rfl⟩, rfl⟩

/-! ## When they are the ones that are meant -/

/-- **No name is taken for another one.** -/
structure NamesApart (d : Deps) : Prop where
  /-- What the alternatives make of a detected name is wanted, unless a name to be deleted fits it. -/
  sound : ∀ q ∈ d.detected, (∀ x ∈ d.removed, ¬ Fits x (renamed d.alternatives q)) →
    Wanted d (renamed d.alternatives q)
  /-- The base name of a detected name, if it is not to be deleted, is added, or the alternatives make it of a detected
  name, and no name to be deleted fits it. -/
  complete : ∀ q ∈ d.detected, baseOf d.alternatives q ∉ d.removed →
    baseOf d.alternatives q ∈ addOrOpt d.desc_E ∨
      (∃ q' ∈ d.detected, renamed d.alternatives q' = baseOf d.alternatives q) ∧
        ∀ x ∈ d.removed, ¬ Fits x (baseOf d.alternatives q)
  /-- An optional name with `.` for any character fits no other name. -/
  optional : ∀ y, Wanted d y → ∀ x ∈ tagged "opt".toList d.desc_E, nameFits x y = true →
    y ∈ tagged "opt".toList d.desc_E

theorem markLine_eq {opts : List Text} {y : Text} :
    markLine opts (": ".toList ++ y) = (if opts.any (nameFits · y) then "opt: ".toList else ": ".toList) ++ y := by
  have hfits : ∀ x, nameFits (": ".toList ++ x) (": ".toList ++ y) = nameFits x y := fun x => rfl
  simp only [markLine, hfits]
  split <;> rfl

theorem depLine_eq (d : Deps) (y : Text) : depLine d y =
    (if decide (y ∈ tagged "opt".toList d.desc_E) then "opt: ".toList else ": ".toList) ++ y := by
  simp only [depLine, decide_eq_true_iff]

/-- A line has one name and one mark. -/
theorem depLine_inj {p q : Bool} {x y : Text}
    (h : (if p then "opt: ".toList else ": ".toList) ++ x = (if q then "opt: ".toList else ": ".toList) ++ y) :
    p = q ∧ x = y := by
  cases p <;> cases q <;> simp at h ⊢ <;> exact h

theorem cacheLine_opt (y : Text) : cacheLine ("opt: ".toList ++ y) = some ("[OPT] ".toList ++ y) := by
  have h₁ := @substitute_front "opt:".toList "[OPT]".toList (by decide) (by decide) (by decide) ("opt: ".toList ++ y)
  have h₂ := @substitute_front ":".toList "[DEP]".toList (by decide) (by decide) (by decide) ("[OPT] ".toList ++ y)
  rw [if_pos ⟨' ' :: y, rfl⟩] at h₁
  have hno : ¬ ":".toList <+: "[OPT] ".toList ++ y := fun h => absurd (List.cons_prefix_cons.1 h).1 (by decide)
  rw [if_neg hno] at h₂
  exact (congrArg (Option.bind · _) h₁).trans h₂

theorem cacheLine_dep (y : Text) : cacheLine (": ".toList ++ y) = some ("[DEP] ".toList ++ y) := by
  have h₁ := @substitute_front "opt:".toList "[OPT]".toList (by decide) (by decide) (by decide) (": ".toList ++ y)
  have h₂ := @substitute_front ":".toList "[DEP]".toList (by decide) (by decide) (by decide) (": ".toList ++ y)
  have hno : ¬ "opt:".toList <+: ": ".toList ++ y := fun h => absurd (List.cons_prefix_cons.1 h).1 (by decide)
  rw [if_neg hno] at h₁
  rw [if_pos ⟨' ' :: y, rfl⟩] at h₂
  exact (congrArg (Option.bind · _) h₁).trans h₂

/-- The cache has the names of the list. -/
theorem cache_names {lines : List Text}
    (h : ∀ l ∈ lines, ∃ y, l = ": ".toList ++ y ∨ l = "opt: ".toList ++ y) :
    ∃ cache, lines.mapM cacheLine = some cache ∧ ∀ y,
      ("[DEP] ".toList ++ y ∈ cache ↔ ": ".toList ++ y ∈ lines) ∧
      ("[OPT] ".toList ++ y ∈ cache ↔ "opt: ".toList ++ y ∈ lines) := by
  have hline : ∀ l ∈ lines, cacheLine l = some ((cacheLine l).getD []) := by
    intro l hl
    obtain ⟨y, rfl | rfl⟩ := h l hl
    · rw [cacheLine_dep, Option.getD_some]
    · rw [cacheLine_opt, Option.getD_some]
  refine ⟨_, mapM_some hline, fun y => ⟨?_, ?_⟩⟩
  · rw [List.mem_map]
    constructor
    · rintro ⟨l, hl, heq⟩
      obtain ⟨z, rfl | rfl⟩ := h l hl
      · rw [cacheLine_dep, Option.getD_some] at heq
        rwa [← List.append_cancel_left heq]
      · rw [cacheLine_opt, Option.getD_some] at heq
        simp at heq
    · exact fun hl => ⟨_, hl, by rw [cacheLine_dep, Option.getD_some]⟩
  · rw [List.mem_map]
    constructor
    · rintro ⟨l, hl, heq⟩
      obtain ⟨z, rfl | rfl⟩ := h l hl
      · rw [cacheLine_dep, Option.getD_some] at heq
        simp at heq
      · rw [cacheLine_opt, Option.getD_some] at heq
        rwa [← List.append_cancel_left heq]
    · exact fun hl => ⟨_, hl, by rw [cacheLine_opt, Option.getD_some]⟩

section
variable {d : Deps} {lines : List Text}
  (hmem : ∀ l, l ∈ lines ↔ ∃ y, Kept d y ∧ l = markLine (tagged "opt".toList d.desc_E) (": ".toList ++ y))
include hmem

theorem apart_of_exact (h : ∀ l, l ∈ lines ↔ ∃ y, Wanted d y ∧ l = depLine d y) : NamesApart d := by
  -- A wanted name is kept, with the same mark, and the other way round.
  have hkept : ∀ y, Kept d y → Wanted d y := by
    intro y hy
    obtain ⟨z, hz, heq⟩ := (h _).1 ((hmem _).2 ⟨y, hy, rfl⟩)
    rw [markLine_eq, depLine_eq] at heq
    exact (depLine_inj heq).2 ▸ hz
  have hwanted : ∀ y, Wanted d y → Kept d y ∧
      decide (y ∈ tagged "opt".toList d.desc_E) = (tagged "opt".toList d.desc_E).any (nameFits · y) := by
    intro y hy
    obtain ⟨z, hz, heq⟩ := (hmem _).1 ((h _).2 ⟨y, hy, rfl⟩)
    rw [markLine_eq, depLine_eq] at heq
    obtain ⟨hmark, rfl⟩ := depLine_inj heq
    exact ⟨hz, hmark⟩
  refine ⟨fun q hq hdel => hkept _ (.inl ⟨q, hq, rfl, hdel⟩), fun q hq hdel => ?_, fun y hy x hx hfits => ?_⟩
  · rcases (hwanted _ (.inl ⟨q, hq, rfl, hdel⟩)).1 with ⟨q', hq', heq, hfits⟩ | hadd
    · exact .inr ⟨⟨q', hq', heq⟩, hfits⟩
    · exact .inl hadd
  · exact decide_eq_true_iff.1 ((hwanted y hy).2.trans (List.any_eq_true.2 ⟨x, hx, hfits⟩))

theorem exact_of_apart (h : NamesApart d) (l : Text) : l ∈ lines ↔ ∃ y, Wanted d y ∧ l = depLine d y := by
  have hkept : ∀ y, Kept d y ↔ Wanted d y := by
    intro y
    constructor
    · rintro (⟨q, hq, rfl, hdel⟩ | hy)
      · exact h.sound q hq hdel
      · exact .inr hy
    · rintro (⟨q, hq, rfl, hdel⟩ | hy)
      · rcases h.complete q hq hdel with hadd | ⟨⟨q', hq', heq⟩, hfits⟩
        · exact .inr hadd
        · exact .inl ⟨q', hq', heq, hfits⟩
      · exact .inr hy
  have hmark : ∀ y, Wanted d y → markLine (tagged "opt".toList d.desc_E) (": ".toList ++ y) = depLine d y := by
    intro y hy
    have hany : (tagged "opt".toList d.desc_E).any (nameFits · y) = decide (y ∈ tagged "opt".toList d.desc_E) := by
      rw [Bool.eq_iff_iff, List.any_eq_true, decide_eq_true_iff]
      exact ⟨fun ⟨x, hx, hfits⟩ => h.optional y hy x hx hfits, fun hy => ⟨y, hy, nameFits_self y⟩⟩
    rw [markLine_eq, hany, depLine_eq]
  rw [hmem]
  constructor
  · rintro ⟨y, hy, rfl⟩
    exact ⟨y, (hkept y).1 hy, hmark y ((hkept y).1 hy)⟩
  · rintro ⟨y, hy, rfl⟩
    exact ⟨y, (hkept y).2 hy, (hmark y hy).symm⟩

end

/-- **When the list is the one that is meant**; the cache has the same names in any case. -/
theorem finalisation_exact_iff {d : Deps} (hd : d.Ok) :
    ∃ lines, finalise d = some lines ∧
      ((∀ l, l ∈ lines ↔ ∃ y, Wanted d y ∧ l = depLine d y) ↔ NamesApart d) ∧
      ∃ cache, lines.mapM cacheLine = some cache ∧ ∀ y,
        ("[DEP] ".toList ++ y ∈ cache ↔ ": ".toList ++ y ∈ lines) ∧
        ("[OPT] ".toList ++ y ∈ cache ↔ "opt: ".toList ++ y ∈ lines) := by
  obtain ⟨lines, hfinal, hmem⟩ := mem_finalise hd
  refine ⟨lines, hfinal, ⟨apart_of_exact hmem, exact_of_apart hmem⟩, cache_names fun l hl => ?_⟩
  obtain ⟨y, -, rfl⟩ := (hmem l).1 hl
  refine ⟨y, ?_⟩
  rw [markLine_eq]
  split
  · exact .inr rfl
  · exact .inl rfl

theorem finalisation_exact_bash :
    let d : Deps := ⟨["glibc".toList, "eudev".toList], [("udev".toList, "eudev".toList)], "glibc".toList, "gcc".toList,
      "zstd -19".toList, ["opt doxygen".toList]⟩
    ∃ lines, finalise d = some lines ∧
      ((∀ l, l ∈ lines ↔ ∃ y, Wanted d y ∧ l = depLine d y) ↔ NamesApart d) ∧
      ∃ cache, lines.mapM cacheLine = some cache ∧ ∀ y,
        ("[DEP] ".toList ++ y ∈ cache ↔ ": ".toList ++ y ∈ lines) ∧
        ("[OPT] ".toList ++ y ∈ cache ↔ "opt: ".toList ++ y ∈ lines) :=
  finalisation_exact_iff ⟨by decide, by decide, by decide +kernel, by decide +kernel⟩

/-- A name with `+` is not deleted. -/
theorem plus_not_deleted :
    let d : Deps := ⟨["gtk+".toList], [], "glibc".toList, "gcc".toList, "zstd -19".toList, ["del gtk+".toList]⟩
    ∃ lines, finalise d = some lines ∧ ¬ ∀ l, l ∈ lines ↔ ∃ y, Wanted d y ∧ l = depLine d y := by
  intro d
  have hfinal : finalise d = some [": gtk+".toList] := by decide +kernel
  have hadd : addOrOpt d.desc_E = [] := by decide +kernel
  have hdel : "gtk+".toList ∈ d.removed := by decide +kernel
  refine ⟨_, hfinal, fun h => ?_⟩
  obtain ⟨y, hy, heq⟩ := (h _).1 (List.mem_singleton.2 rfl)
  have hname : y = "gtk+".toList := by
    have hline : ": ".toList ++ "gtk+".toList = depLine d y := heq
    rw [depLine_eq] at hline
    exact (depLine_inj (p := false) hline).2.symm
  rcases hy with ⟨q, hq, hbase, hno⟩ | hy
  · exact hno (hname ▸ hdel)
  · rw [hadd] at hy
    cases hy

/-! ## Plain names -/

/-- A name without `+` is no other expression for `egrep` than for `sed`. -/
theorem fits_iff {x y : Text} (hx : '+' ∉ x) : Fits x y ↔ nameFits x y = true := by
  rw [Fits]
  generalize (fun _ : Char => false) = p
  induction x generalizing p y with
  | nil => cases y <;> simp [extendedFits, nameFits]
  | cons c x ih =>
    rw [List.mem_cons, not_or] at hx
    rw [extendedFits, if_neg (Ne.symm hx.1)]
    cases y with
    | nil => simp [nameFits]
    | cons d y =>
      have hchar : charFits c d = (c == '.' || d == c) := by
        unfold charFits
        split <;> simp [*]
      rw [nameFits, Bool.and_eq_true, ← hchar, ← ih hx.2 (charFits c)]
      constructor
      · rintro ⟨_, _, heq, hd, h⟩
        obtain ⟨rfl, rfl⟩ := List.cons.inj heq
        exact ⟨hd, h⟩
      · exact fun h => ⟨d, y, rfl, h⟩

theorem eq_of_nameFits {x y : Text} (hx : '.' ∉ x) (h : nameFits x y = true) : y = x := by
  fun_induction nameFits x y with
  | case1 => rfl
  | case2 c x d y ih =>
    rw [List.mem_cons, not_or] at hx
    obtain ⟨hd, hrest⟩ := Bool.and_eq_true_iff.1 h
    obtain rfl : d = c := by simpa [Ne.symm hx.1] using hd
    rw [ih hx.2 hrest]
  | case3 => cases h

/-- Names to be deleted without `+` and `.`, optional ones without `.`, and alternatives that make of each detected name
its base name: none is taken for another one. -/
theorem apart_of_plain {d : Deps} (hrenamed : ∀ q ∈ d.detected, renamed d.alternatives q = baseOf d.alternatives q)
    (hremoved : ∀ x ∈ d.removed, '+' ∉ x ∧ '.' ∉ x) (hopt : ∀ x ∈ tagged "opt".toList d.desc_E, '.' ∉ x) :
    NamesApart d where
  sound q hq hfits := by
    rw [hrenamed q hq] at hfits ⊢
    refine .inl ⟨q, hq, rfl, fun hmem => hfits _ hmem ?_⟩
    exact (fits_iff (hremoved _ hmem).1).2 (nameFits_self _)
  complete q hq hdel := by
    refine .inr ⟨⟨q, hq, hrenamed q hq⟩, fun x hx hfits => hdel ?_⟩
    rw [eq_of_nameFits (hremoved x hx).2 ((fits_iff (hremoved x hx).1).1 hfits)]
    exact hx
  optional y _ x hx hfits := by
    rw [eq_of_nameFits (hopt x hx) hfits]
    exact hx

end T2Sde.Build
