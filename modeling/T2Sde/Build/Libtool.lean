import T2Sde.Build.Vars
import T2Sde.Lib.Cut
import T2Sde.Lib.Sed
/-!
# Dependencies of libtool files (`postflist_static_lib` of `scripts/functions.in`)

The words of `dependency_libs` go into the list `dlibsnew`, each one that is not there yet: it is there if `var_remove`
makes a difference to a copy of the list. The list is then put into a `sed` command with a comma for its delimiter, so
that a comma in a word ends the new text, and an ampersand in it stands for the old line.

| here | there |
| --- | --- |
| `rewriteLib` | the directory of a word :318-324 |
| `unwanted`   | the `case` :326-327 |
| `depTurn`    | :317-333 |
| `evalValue`  | `eval` of the line :315 |
| `sedFile`    | `sed -i` :335 |
| `laTurn`     | :314-336 |
| `cleanUp`    | :308-337 |

* `foldDeps_spec` — what is in the list behind the words.
* `cleanUp_iff` — **when a file gets its words**, in one run over any files.
-/
namespace T2Sde.Build
open Shell

/-! ## The program -/

def deplibsName : Text := "dependency_libs".toList
def newName : Text := "dlibsnew".toList
def tmpName : Text := "dlibtmp".toList
def deplibName : Text := "deplib".toList

/-- The text in front of the value, in the line of a file. -/
def front : Text := "dependency_libs=".toList

/-- The directory `lib`, at the end and inside; both patterns are plain texts. -/
def rewriteLib (libsub deplib : Text) : Text :=
  if libsub ≠ "lib".toList ∧ ("/lib".toList <:+ deplib ∨ "/lib/".toList <:+: deplib) then
    replaceAll "/lib/".toList ('/' :: libsub ++ ['/'])
      (if "/lib".toList <:+ deplib then deplib.take (deplib.length - 4) ++ '/' :: libsub else deplib)
  else deplib

def unwanted (id deplib : Text) : Bool :=
  fits "*TOOLCHAIN*".toList deplib || fits "*BACKUP*".toList deplib || fits ('*' :: id ++ ['*']) deplib

/-- One word of the list. -/
def depTurn (libsub id : Text) (vars : Vars) (word : Text) : Option Vars :=
  let vars := upd vars deplibName (rewriteLib libsub word)
  if unwanted id (vars deplibName) then some vars
  else
    let value := (words (vars deplibName)).headD []
    let vars := varRemove (upd vars tmpName (vars newName)) tmpName [' '] value
    if vars tmpName = vars newName then varAppend vars newName [' '] value else some vars

/-- The value of an assignment in single quotes; none where there is something else. -/
def evalValue (text : Text) : Option Text :=
  let value := text.drop (front.length + 1)
  if front ++ ['\''] <+: text ∧ value.dropWhile (· ≠ '\'') = ['\''] then some (value.takeWhile (· ≠ '\'')) else none

/-- Behind its delimiter `sed` goes on with a flag, or with a further command. -/
def sedFlag (c : Char) : Bool := "gpiImMew0123456789;# \x7d\t\r".toList.contains c

/-- `sed -i "s,^dependency_libs=.*,$rep,"`: what a script with a flag or a further command does is given by `more`; with
anything else behind the delimiter it is an error, and the file stays. -/
def sedFile (more : Text → List Text → List Text) (rep : Text) (file : List Text) : List Text :=
  match untilDelimiter ',' (rep ++ [',']) with
  | none => file
  | some (new, []) => (file.mapM (substitute ('^' :: front ++ ".*".toList) new)).getD (more rep file)
  | some (_, c :: _) => if sedFlag c then more rep file else file

structure Cleaning where
  vars : Vars
  files : Text → List Text

section
variable (more : Text → List Text → List Text) (libsub id : Text)

/-- One file. -/
def laTurn (s : Cleaning) (la : Text) : Option Cleaning :=
  let found := [' '].intercalate (words (unlines ((s.files la).filter (front.isPrefixOf ·))))
  (if found = [] then some s.vars else (evalValue found).map (upd s.vars deplibsName)).bind fun vars =>
    ((words (vars deplibsName)).foldlM (depTurn libsub id) vars).map fun vars =>
      ⟨upd vars newName [],
        upd s.files la (sedFile more (front ++ '\'' :: vars newName ++ ['\'']) (s.files la))⟩

def cleanUp (las : List Text) (s : Cleaning) : Option Cleaning :=
  las.foldlM (laTurn more libsub id) { s with vars := upd (upd s.vars deplibsName []) newName [] }

end

/-! ## What it is to do -/

/-- The last part of `$libdir`. -/
structure LibSub where
  text : Text
  plain : ∀ c ∈ text, c.isAlphanum = true

def Unwanted (id w : Text) : Prop := "TOOLCHAIN".toList <:+: w ∨ "BACKUP".toList <:+: w ∨ id <:+: w

instance (id w : Text) : Decidable (Unwanted id w) := inferInstanceAs (Decidable (_ ∨ _))

/-- A file with one line for its dependencies. -/
structure LaFile where
  before : List Text
  value : Text
  after : List Text
  others : ∀ l ∈ before ++ after, ¬ front <+: l
  quote : '\'' ∉ value
  plain : ∀ w ∈ words value, Verbatim w

def LaFile.withLine (f : LaFile) (line : Text) : List Text := f.before ++ line :: f.after

def LaFile.lines (f : LaFile) : List Text := f.withLine (front ++ '\'' :: f.value ++ ['\''])

/-- The words with their directories. -/
def LaFile.deps (f : LaFile) (libsub : Text) : List Text := (words f.value).map (rewriteLib libsub)

/-- The words that are to stay. -/
def LaFile.kept (f : LaFile) (libsub id : Text) : List Text :=
  ((f.deps libsub).filter fun w => ¬ Unwanted id w).eraseDups

def LaFile.corrected (f : LaFile) (libsub id : Text) : List Text :=
  f.withLine (front ++ '\'' :: [' '].intercalate (f.kept libsub id) ++ ['\''])

/-- The words that are in the list behind the loop. -/
def LaFile.listed (f : LaFile) (libsub id : Text) : List Text :=
  ((f.deps libsub).filter fun w => !unwanted id w).eraseDups

/-- The id is a pattern that finds the same words as its text, and no word that stays has a comma or an ampersand; or,
behind the first comma, `sed` finds a further command that does it, or an error and the line is right as it is. -/
def LaFile.Corrects (more : Text → List Text → List Text) (libsub id : Text) (f : LaFile) : Prop :=
  ((∀ w ∈ f.deps libsub, unwanted id w = true ↔ Unwanted id w) ∧ ∀ w ∈ f.kept libsub id, ',' ∉ w ∧ '&' ∉ w) ∨
  ∃ u c v, [' '].intercalate (f.listed libsub id) ++ "',".toList = u ++ ',' :: c :: v ∧ ',' ∉ u ∧
    (if sedFlag c then more (front ++ '\'' :: [' '].intercalate (f.listed libsub id) ++ ['\'']) f.lines else f.lines) =
      f.corrected libsub id

/-! ## The words -/

theorem unwanted_iff {id : Text} (hid : Verbatim id) (w : Text) : unwanted id w = true ↔ Unwanted id w := by
  have htool := @fits_around "TOOLCHAIN".toList (List.all_eq_true.1 (by decide)) w
  have hback := @fits_around "BACKUP".toList (List.all_eq_true.1 (by decide)) w
  rw [unwanted, Bool.or_eq_true, Bool.or_eq_true, fits_around hid, or_assoc]
  exact or_congr htool (or_congr hback Iff.rfl)

section
variable {libsub : LibSub} {w : Text}

theorem alphanum_plain {c : Char} (h : c.isAlphanum = true) : isBlank c = false ∧ verbatimChar c = true := by
  have hne : ∀ d : Char, d.isAlphanum = false → c ≠ d := by
    rintro d hd rfl
    exact absurd (h.symm.trans hd) (by decide)
  have h₁ := hne ' ' (by decide)
  have h₂ := hne '\t' (by decide)
  have h₃ := hne '\n' (by decide)
  have h₄ := hne '*' (by decide)
  have h₅ := hne '?' (by decide)
  have h₆ := hne '[' (by decide)
  have h₇ := hne '\\' (by decide)
  simp [isBlank, verbatimChar, h₁, h₂, h₃, h₄, h₅, h₆, h₇]

/-- No character comes in but those of the directory. -/
theorem mem_rewriteLib {c : Char} (h : c ∈ rewriteLib libsub.text w) : c ∈ w ∨ c = '/' ∨ c.isAlphanum = true := by
  have hsub : ∀ c ∈ libsub.text, c.isAlphanum = true := libsub.plain
  rw [rewriteLib] at h
  split at h
  · rcases mem_replaceAll h with h | h
    · split at h
      · rcases List.mem_append.1 h with h | h
        · exact .inl (List.mem_of_mem_take h)
        · exact .inr ((List.mem_cons.1 h).imp_right (hsub c))
      · exact .inl h
    · rcases List.mem_append.1 h with h | h
      · exact .inr ((List.mem_cons.1 h).imp_right (hsub c))
      · exact .inr (.inl (List.mem_singleton.1 h))
  · exact .inl h

theorem rewriteLib_ne_nil (hw : w ≠ []) : rewriteLib libsub.text w ≠ [] := by
  rw [rewriteLib]
  split
  · refine replaceAll_ne_nil ?_ (by simp)
    split
    · simp
    · exact hw
  · exact hw

/-- The rewritten word is an element of a list with spaces. -/
theorem element_rewriteLib (libsub : LibSub) (hw : IsWord w) (hv : Verbatim w) :
    IsWord (rewriteLib libsub.text w) ∧ Element [' '] (rewriteLib libsub.text w) := by
  have hblank : ∀ c ∈ rewriteLib libsub.text w, isBlank c = false := by
    intro c hc
    rcases mem_rewriteLib hc with h | rfl | h
    · exact hw.2 c h
    · rfl
    · exact (alphanum_plain h).1
  have hverb : Verbatim (rewriteLib libsub.text w) := by
    intro c hc
    rcases mem_rewriteLib hc with h | rfl | h
    · exact hv c h
    · rfl
    · exact (alphanum_plain h).2
  refine ⟨⟨rewriteLib_ne_nil hw.1, hblank⟩, rewriteLib_ne_nil hw.1, fun hin => ?_, hverb⟩
  have hspace := hblank ' ' (hin.subset (by simp))
  cases hspace

end

/-! ## The list -/

theorem apart_of_nodup {x : Text} {l : List Text} (h : l.Nodup) : Apart x l := by
  rintro u v rfl
  have hx := (List.nodup_append.1 h).2.1
  simp at hx

/-- A word behind a list, if it is not there yet. -/
def addNew (l : List Text) (x : Text) : List Text := if x ∈ l then l else l ++ [x]

theorem foldl_addNew (xs l : List Text) : xs.foldl addNew l = l ++ (xs.filter (· ∉ l)).eraseDups := by
  induction xs generalizing l with
  | nil => simp
  | cons x xs ih =>
    rw [List.foldl_cons, ih, addNew]
    by_cases hx : x ∈ l
    · rw [if_pos hx, List.filter_cons_of_neg (by simpa using hx)]
    · rw [if_neg hx, List.filter_cons_of_pos (by simpa using hx), List.eraseDups_cons, List.filter_filter,
        List.append_assoc, List.singleton_append]
      congr 3
      refine List.filter_congr fun y _ => ?_
      by_cases hy : y = x <;> simp [hy, hx]

theorem nodup_foldl_addNew (xs : List Text) {l : List Text} (h : l.Nodup) : (xs.foldl addNew l).Nodup := by
  induction xs generalizing l with
  | nil => exact h
  | cons x xs ih =>
    refine ih ?_
    rw [addNew]
    split
    · exact h
    next hx => exact List.nodup_append.2 ⟨h, by simp, by rintro a ha b hb rfl; simp_all⟩

def space : Delimiter := ⟨[' '], by simp, by simp [delimiterChar, verbatimChar]⟩

section
variable (libsub : LibSub) (id : Text)

/-- **One word**: it comes into the list, if it is wanted and not there yet. -/
theorem depTurn_spec {vars : Vars} {l : List Text} {w : Text} (hl : ∀ e ∈ l, Element [' '] e) (hnd : l.Nodup)
    (hv : vars newName = [' '].intercalate l) (hw : IsWord w) (hverb : Verbatim w) :
    ∃ vars', depTurn libsub.text id vars w = some vars' ∧ vars' newName = [' '].intercalate
      (if unwanted id (rewriteLib libsub.text w) then l else addNew l (rewriteLib libsub.text w)) := by
  obtain ⟨hword, helem⟩ := element_rewriteLib libsub hw hverb
  rw [depTurn]
  generalize rewriteLib libsub.text w = x at hword helem ⊢
  have hnew : newName ≠ deplibName ∧ newName ≠ tmpName ∧ tmpName ≠ ['a'] ∧ tmpName ≠ ['b'] := by decide
  simp only [upd_same]
  by_cases hu : unwanted id x = true
  · rw [if_pos hu, if_pos hu]
    exact ⟨_, rfl, by rw [upd_ne _ _ _ _ hnew.1, hv]⟩
  rw [if_neg hu, if_neg hu, words_of_isWord hword, List.headD_cons]
  -- the copy, and the copy without the word
  have hcopy : upd (upd vars deplibName x) tmpName (upd vars deplibName x newName) tmpName = [' '].intercalate l := by
    rw [upd_same, upd_ne _ _ _ _ hnew.1, hv]
  have hremove := varRemove_value _ space helem hl (aligned_singleton (element_elements hl)) hnew.2.2 hcopy
  have hlist : varRemove (upd (upd vars deplibName x) tmpName (upd vars deplibName x newName)) tmpName [' '] x newName =
      [' '].intercalate l := by
    refine (congrFun hremove newName).trans ?_
    rw [upd_ne _ _ _ _ hnew.2.1, upd_ne _ _ _ _ hnew.2.1, upd_ne _ _ _ _ hnew.1, hv]
  have htmp : varRemove (upd (upd vars deplibName x) tmpName (upd vars deplibName x newName)) tmpName [' '] x tmpName =
      [' '].intercalate (l.filter (· ≠ x)) := by
    refine (congrFun hremove tmpName).trans ?_
    rw [upd_same, removed_of_apart (apart_of_nodup hnd)]
    rfl
  rw [htmp, hlist, addNew]
  by_cases hx : x ∈ l
  · have hdiff : ¬ [' '].intercalate (l.filter (· ≠ x)) = [' '].intercalate l := fun heq => by
      simpa using intercalate_filter (fun e he => (hl e he).1) heq.symm x hx
    rw [if_neg hdiff, if_pos hx]
    exact ⟨_, rfl, hlist⟩
  · have hsame : l.filter (· ≠ x) = l := List.filter_eq_self.2 fun e he => by
      simpa using fun h : e = x => hx (h ▸ he)
    rw [if_pos (by rw [hsame]), if_neg hx]
    exact ⟨_, varAppend_eq _ space hl hlist, upd_same _ _ _⟩

/-- **The list behind the words.** -/
theorem foldDeps_spec {ws : List Text} (hws : ∀ w ∈ ws, IsWord w ∧ Verbatim w) {vars : Vars} {l : List Text}
    (hl : ∀ e ∈ l, Element [' '] e) (hnd : l.Nodup) (hv : vars newName = [' '].intercalate l) :
    ∃ vars', ws.foldlM (depTurn libsub.text id) vars = some vars' ∧ vars' newName =
      [' '].intercalate (((ws.map (rewriteLib libsub.text)).filter fun w => !unwanted id w).foldl addNew l) := by
  induction ws generalizing vars l with
  | nil => exact ⟨vars, rfl, hv⟩
  | cons w ws ih =>
    obtain ⟨⟨hw, hverb⟩, hws⟩ := List.forall_mem_cons.1 hws
    obtain ⟨vars', hstep, hv'⟩ := depTurn_spec libsub id hl hnd hv hw hverb
    have helem := (element_rewriteLib libsub hw hverb).2
    rw [List.foldlM_cons, hstep, List.map_cons]
    by_cases hu : unwanted id (rewriteLib libsub.text w) = true
    · rw [if_pos hu] at hv'
      rw [List.filter_cons_of_neg (by simp [hu])]
      exact ih hws hl hnd hv'
    · rw [if_neg hu] at hv'
      rw [List.filter_cons_of_pos (by simp [hu]), List.foldl_cons]
      refine ih hws ?_ ?_ hv'
      · intro e he
        rw [addNew] at he
        split at he
        · exact hl e he
        · rcases List.mem_append.1 he with he | he
          · exact hl e he
          · exact List.mem_singleton.1 he ▸ helem
      · exact nodup_foldl_addNew [rewriteLib libsub.text w] hnd

end

/-! ## The line -/

/-- A text that ends with a character that is no blank, with single spaces between its words. -/
theorem squeezed_end {q : Char} (hq : isBlank q = false) (s : Text) :
    ∃ s', [' '].intercalate (words (s ++ [q])) = s' ++ [q] ∧ words s' = words s ∧ ∀ c ∈ s', c ∈ s ∨ c = ' ' := by
  have hword : IsWord [q] := ⟨by simp, by simpa using hq⟩
  induction s using text_induction with
  | nil => exact ⟨[], by rw [List.nil_append, words_of_isWord hword]; rfl, rfl, by simp⟩
  | blank c s hc ih =>
    obtain ⟨s', hs', hwords, hmem⟩ := ih
    refine ⟨s', by rw [List.cons_append, words_blank_cons hc, hs'], by rw [words_blank_cons hc, hwords], ?_⟩
    exact fun d hd => (hmem d hd).imp_left (List.mem_cons_of_mem _)
  | word w rest hw hr ih =>
    cases rest with
    | nil =>
      have hwq : IsWord (w ++ [q]) := isWord_append hw hword.2
      refine ⟨w, by rw [List.append_nil, words_of_isWord hwq, List.intercalate_singleton], by rw [List.append_nil], ?_⟩
      exact fun d hd => .inl (List.mem_append_left _ hd)
    | cons c r =>
      obtain ⟨s', hs', hwords, hmem⟩ := ih
      have hne : words (c :: r ++ [q]) ≠ [] := by
        intro h
        rw [h] at hs'
        simp at hs'
      refine ⟨w ++ ' ' :: s', ?_, ?_, ?_⟩
      · rw [List.append_assoc, words_word_append hw (show AtBlank (c :: r ++ [q]) from hr), intercalate_cons hne, hs']
        simp
      · rw [words_append_blank rfl, words_of_isWord hw, words_word_append hw hr, hwords]
        rfl
      · intro d hd
        rw [List.mem_append, List.mem_cons] at hd
        rcases hd with hd | rfl | hd
        · exact .inl (List.mem_append_left _ hd)
        · exact .inr rfl
        · exact (hmem d hd).imp_left (List.mem_append_right _)

/-- A word in front of such a text stays in front of it. -/
theorem squeezed_between {p : Text} (hp : IsWord p) {q : Char} (hq : isBlank q = false) (v : Text) :
    ∃ v', [' '].intercalate (words (p ++ v ++ [q])) = p ++ v' ++ [q] ∧ words v' = words v ∧
      ∀ c ∈ v', c ∈ v ∨ c = ' ' := by
  have hword : IsWord [q] := ⟨by simp, by simpa using hq⟩
  have hgo : ∀ {w : Text}, IsWord w → ∀ (c : Char) (r : Text), isBlank c = true → ∃ s',
      [' '].intercalate (words (w ++ c :: r ++ [q])) = w ++ ' ' :: s' ++ [q] ∧ words s' = words r ∧
        ∀ c ∈ s', c ∈ r ∨ c = ' ' := by
    intro w hw c r hc
    obtain ⟨s', hs', hwords, hmem⟩ := squeezed_end hq r
    have hne : words (r ++ [q]) ≠ [] := by
      intro h
      rw [h] at hs'
      simp at hs'
    refine ⟨s', ?_, hwords, hmem⟩
    rw [List.append_assoc, List.cons_append, words_append_blank hc, words_of_isWord hw, List.singleton_append,
      intercalate_cons hne, hs']
    simp
  cases v using text_induction with
  | nil =>
    refine ⟨[], ?_, rfl, by simp⟩
    rw [List.append_nil, words_of_isWord (isWord_append hp hword.2), List.intercalate_singleton]
  | blank c s hc _ =>
    obtain ⟨s', hs', hwords, hmem⟩ := hgo hp c s hc
    refine ⟨' ' :: s', hs', by rw [words_space_cons, words_blank_cons hc, hwords], fun d hd => ?_⟩
    rcases List.mem_cons.1 hd with rfl | hd
    · exact .inr rfl
    · exact (hmem d hd).imp_left (List.mem_cons_of_mem _)
  | word w rest hw hr _ =>
    have hpw : IsWord (p ++ w) := isWord_append hp hw.2
    cases rest with
    | nil =>
      refine ⟨w, ?_, by rw [List.append_nil], fun d hd => .inl (List.mem_append_left _ hd)⟩
      rw [List.append_nil, words_of_isWord (isWord_append hpw hword.2), List.intercalate_singleton]
    | cons c r =>
      obtain ⟨s', hs', hwords, hmem⟩ := hgo hpw c r hr
      refine ⟨w ++ ' ' :: s', ?_, ?_, fun d hd => ?_⟩
      · rw [← List.append_assoc p w, hs']
        simp
      · rw [words_append_blank rfl, words_of_isWord hw, words_word_append hw hr, words_blank_cons hr, hwords]
        rfl
      · rw [List.mem_append, List.mem_cons] at hd
        rcases hd with hd | rfl | hd
        · exact .inl (List.mem_append_left _ hd)
        · exact .inr rfl
        · exact (hmem d hd).imp (fun h => List.mem_append_right _ (List.mem_cons_of_mem _ h)) id

/-- `eval` gets the words of the value. -/
theorem evalValue_line {v : Text} (hq : '\'' ∉ v) : ∃ v',
    evalValue ([' '].intercalate (words (front ++ '\'' :: v ++ ['\'']))) = some v' ∧ words v' = words v := by
  have hfront : IsWord (front ++ ['\'']) := by decide
  obtain ⟨v', hv', hwords, hmem⟩ := squeezed_between hfront (q := '\'') rfl v
  have hline : front ++ '\'' :: v ++ ['\''] = front ++ ['\''] ++ v ++ ['\''] := by simp
  have hq' : ∀ c ∈ v', (c != '\'') = true := by
    intro c hc
    rw [bne_iff_ne]
    rintro rfl
    rcases hmem _ hc with h | h
    · exact hq h
    · cases h
  refine ⟨v', ?_, hwords⟩
  rw [hline, hv', evalValue]
  have hdrop : (front ++ ['\''] ++ v' ++ ['\'']).drop (front.length + 1) = v' ++ ['\''] := by
    rw [List.append_assoc, List.drop_left' (by simp)]
  rw [hdrop]
  have htake : (v' ++ ['\'']).takeWhile (· ≠ '\'') = v' := by
    rw [List.takeWhile_append_of_pos (by simpa using hq')]
    simp
  have hend : (v' ++ ['\'']).dropWhile (· ≠ '\'') = ['\''] := by
    rw [List.dropWhile_append_of_pos (by simpa using hq')]
    rfl
  simp only [htake, hend]
  exact if_pos ⟨⟨v' ++ ['\''], by simp⟩, trivial⟩

/-! ## One file -/

section
variable (f : LaFile) (libsub : LibSub) (id : Text)

theorem deps_spec {w : Text} (hw : w ∈ f.deps libsub.text) : IsWord w ∧ Element [' '] w ∧ '\'' ∉ w := by
  obtain ⟨v, hv, rfl⟩ := List.mem_map.1 hw
  have hword := isWord_of_mem_words hv
  have h := element_rewriteLib libsub hword (f.plain v hv)
  refine ⟨h.1, h.2, fun hq => ?_⟩
  rcases mem_rewriteLib hq with hq | hq | hq
  · exact f.quote (mem_of_mem_words hv hq)
  · revert hq
    decide
  · revert hq
    decide

theorem listed_deps {w : Text} (hw : w ∈ f.listed libsub.text id) : w ∈ f.deps libsub.text :=
  (List.mem_filter.1 (List.mem_eraseDups.1 hw)).1

theorem kept_deps {w : Text} (hw : w ∈ f.kept libsub.text id) : w ∈ f.deps libsub.text :=
  (List.mem_filter.1 (List.mem_eraseDups.1 hw)).1

/-- The list is right where the pattern of the id finds the same words as its text. -/
theorem listed_eq_kept_iff : f.listed libsub.text id = f.kept libsub.text id ↔
    ∀ w ∈ f.deps libsub.text, unwanted id w = true ↔ Unwanted id w := by
  constructor
  · intro h w hw
    have hmem : w ∈ f.listed libsub.text id ↔ w ∈ f.kept libsub.text id := by rw [h]
    simp only [LaFile.listed, LaFile.kept, List.mem_eraseDups, List.mem_filter, hw, true_and, Bool.not_eq_true',
      decide_eq_true_eq] at hmem
    rw [← not_iff_not, ← hmem, Bool.not_eq_true]
  · intro h
    rw [LaFile.listed, LaFile.kept]
    congr 1
    refine List.filter_congr fun w hw => ?_
    rw [Bool.eq_iff_iff, Bool.not_eq_true', decide_eq_true_eq, ← h w hw, Bool.not_eq_true]

theorem joined_inj {ls ks : List Text} (hl : ∀ w ∈ ls, IsWord w) (hk : ∀ w ∈ ks, IsWord w)
    (h : [' '].intercalate ls = [' '].intercalate ks) : ls = ks := by
  rw [← words_intercalate (b := ' ') rfl hl, h, words_intercalate rfl hk]

/-- The words of one file, and the rest of the variables. -/
theorem laTurn_spec (more : Text → List Text → List Text) {s : Cleaning} {la : Text} (hfile : s.files la = f.lines)
    (hnew : s.vars newName = []) : ∃ s', laTurn more libsub.text id s la = some s' ∧ s'.vars newName = [] ∧
      s'.files = upd s.files la
        (sedFile more (front ++ '\'' :: [' '].intercalate (f.listed libsub.text id) ++ ['\'']) f.lines) := by
  have hgrep : f.lines.filter (front.isPrefixOf ·) = [front ++ '\'' :: f.value ++ ['\'']] := by
    have hother : ∀ ls : List Text, (∀ l ∈ ls, ¬ front <+: l) → ls.filter (front.isPrefixOf ·) = [] := by
      intro ls h
      rw [List.filter_eq_nil_iff]
      intro l hl hp
      exact h l hl (List.isPrefixOf_iff_prefix.1 hp)
    rw [LaFile.lines, LaFile.withLine, List.filter_append, List.filter_cons_of_pos,
      hother _ fun l hl => f.others l (List.mem_append_left _ hl),
      hother _ fun l hl => f.others l (List.mem_append_right _ hl), List.nil_append]
    rw [List.isPrefixOf_iff_prefix, List.append_assoc]
    exact List.prefix_append _ _
  have hfound : words (unlines (f.lines.filter (front.isPrefixOf ·))) = words (front ++ '\'' :: f.value ++ ['\'']) := by
    rw [hgrep, unlines, List.flatMap_singleton, words_append_blank rfl, words_nil, List.append_nil]
  obtain ⟨v, hv, hwords⟩ := evalValue_line f.quote
  have hne : [' '].intercalate (words (front ++ '\'' :: f.value ++ ['\''])) ≠ [] := by
    intro h
    rw [h] at hv
    cases hv
  have hws : ∀ w ∈ words v, IsWord w ∧ Verbatim w := by
    intro w hw
    rw [hwords] at hw
    exact ⟨isWord_of_mem_words hw, f.plain w hw⟩
  have hlist : upd s.vars deplibsName v newName = [' '].intercalate [] := by
    rw [upd_ne _ _ _ _ (by decide), hnew]
    rfl
  obtain ⟨vars', hfold, hvars'⟩ :=
    foldDeps_spec libsub id hws (l := []) (by simp) List.nodup_nil hlist
  rw [foldl_addNew, List.nil_append, hwords] at hvars'
  have hlisted : vars' newName = [' '].intercalate (f.listed libsub.text id) := by
    rw [hvars', LaFile.listed, LaFile.deps]
    simp
  refine ⟨⟨upd vars' newName [], upd s.files la
    (sedFile more (front ++ '\'' :: [' '].intercalate (f.listed libsub.text id) ++ ['\'']) f.lines)⟩, ?_,
    upd_same vars' newName [], rfl⟩
  rw [laTurn, hfile, hfound]
  simp only [if_neg hne, hv, Option.map_some, Option.bind_some, upd_same, hfold, hlisted]

/-! ## `sed` -/

theorem plain_front : PlainPattern front := by decide

/-- A new line of the file, from a text without commas. -/
theorem sedFile_line (more : Text → List Text → List Text) {rep : Text} (hb : '\\' ∉ rep) (hn : '\n' ∉ rep)
    (hcomma : ',' ∉ rep) :
    sedFile more rep f.lines = f.withLine (rep.flatMap fun c =>
      if c = '&' then front ++ '\'' :: f.value ++ ['\''] else [c]) := by
  have hstep : ∀ l : Text, substitute ('^' :: front ++ ".*".toList) rep l =
      some (if front <+: l then rep.flatMap (fun c => if c = '&' then l else [c]) else l) := by
    intro l
    rw [substitute_line plain_front]
    split
    · exact replaced_amp hb l
    · rfl
  have hother : ∀ ls : List Text, (∀ l ∈ ls, ¬ front <+: l) →
      ls.map (fun l => if front <+: l then rep.flatMap (fun c => if c = '&' then l else [c]) else l) = ls := by
    intro ls h
    rw [List.map_congr_left fun l hl => if_neg (h l hl), List.map_id']
  rw [sedFile, untilDelimiter_plain (by decide) hcomma hn hb]
  simp only
  rw [mapM_some fun l _ => hstep l, Option.getD_some, LaFile.lines, LaFile.withLine, List.map_append, List.map_cons,
    hother _ fun l hl => f.others l (List.mem_append_left _ hl),
    hother _ fun l hl => f.others l (List.mem_append_right _ hl), List.append_assoc,
    if_pos (List.prefix_append _ _)]
  rfl

theorem withLine_inj {l l' : Text} : f.withLine l = f.withLine l' ↔ l = l' := by
  simp [LaFile.withLine]

/-- The whole text of the list has only the characters of its words. -/
theorem listed_chars {c : Char} (hc : c ≠ ' ') (hblank : isBlank c = true ∨ verbatimChar c = false ∨ c = '\'') :
    c ∉ [' '].intercalate (f.listed libsub.text id) ∧ c ∉ [' '].intercalate (f.kept libsub.text id) := by
  have hdeps : ∀ w ∈ f.deps libsub.text, c ∉ w := by
    intro w hw hmem
    obtain ⟨hword, helem, hquote⟩ := deps_spec f libsub hw
    rcases hblank with h | h | rfl
    · exact absurd (hword.2 c hmem) (by simp [h])
    · exact absurd (helem.2.2 c hmem) (by simp [h])
    · exact hquote hmem
  rw [mem_intercalate (by simpa using hc), mem_intercalate (by simpa using hc)]
  constructor
  · rintro ⟨w, hw, hmem⟩
    exact hdeps w (listed_deps f libsub id hw) hmem
  · rintro ⟨w, hw, hmem⟩
    exact hdeps w (kept_deps f libsub id hw) hmem

/-- An ampersand brings the quotes of the old line in. -/
theorem count_flatMap_amp {q : Char} (hq : q ≠ '&') {hit : Text} (hhit : q ∈ hit) (t : Text) :
    t.count q ≤ (t.flatMap fun c => if c = '&' then hit else [c]).count q ∧
      ('&' ∈ t → t.count q < (t.flatMap fun c => if c = '&' then hit else [c]).count q) := by
  induction t with
  | nil => simp
  | cons c t ih =>
    rw [List.flatMap_cons, List.count_append]
    by_cases hc : c = '&'
    · have hpos := List.count_pos_iff.2 hhit
      rw [if_pos hc, List.count_cons_of_ne (by simpa [hc] using hq.symm)]
      omega
    · have hcount : (c :: t).count q = [c].count q + t.count q := by rw [← List.count_append]; rfl
      rw [if_neg hc, hcount]
      refine ⟨by omega, fun hmem => ?_⟩
      have hlt := ih.2 ((List.mem_cons.1 hmem).resolve_left (Ne.symm hc))
      omega

theorem flatMap_no_amp {t hit : Text} (h : '&' ∉ t) : (t.flatMap fun c => if c = '&' then hit else [c]) = t := by
  induction t with
  | nil => rfl
  | cons c t ih =>
    rw [List.mem_cons, not_or] at h
    rw [List.flatMap_cons, if_neg (Ne.symm h.1), ih h.2, List.singleton_append]

/-- **What `sed` makes of the file is right exactly where the file's condition holds.** -/
theorem sedFile_iff (more : Text → List Text → List Text) :
    sedFile more (front ++ '\'' :: [' '].intercalate (f.listed libsub.text id) ++ ['\'']) f.lines =
      f.corrected libsub.text id ↔ f.Corrects more libsub.text id := by
  obtain ⟨hquote, hquote'⟩ := listed_chars f libsub id (c := '\'') (by decide) (.inr (.inr rfl))
  have hback := (listed_chars f libsub id (c := '\\') (by decide) (.inr (.inl rfl))).1
  have hnl := (listed_chars f libsub id (c := '\n') (by decide) (.inl rfl)).1
  have hkept : ∀ c : Char, c ≠ ' ' → (c ∉ [' '].intercalate (f.kept libsub.text id) ↔
      ∀ w ∈ f.kept libsub.text id, c ∉ w) := by
    intro c hc
    rw [mem_intercalate (by simpa using hc), not_exists]
    exact forall_congr' fun w => not_and
  have hinj : [' '].intercalate (f.listed libsub.text id) = [' '].intercalate (f.kept libsub.text id) ↔
      f.listed libsub.text id = f.kept libsub.text id :=
    ⟨joined_inj (fun w hw => (deps_spec f libsub (listed_deps f libsub id hw)).1)
      (fun w hw => (deps_spec f libsub (kept_deps f libsub id hw)).1), congrArg _⟩
  rw [LaFile.Corrects, ← listed_eq_kept_iff]
  have hcomma := hkept ',' (by decide)
  have hamp := hkept '&' (by decide)
  generalize [' '].intercalate (f.listed libsub.text id) = j at hquote hback hnl hinj ⊢
  rw [LaFile.corrected]
  by_cases hj : ',' ∈ j
  · -- the new text ends at the first comma
    obtain ⟨u, v, rfl, hu⟩ := List.eq_append_cons_of_mem hj
    obtain ⟨c, rest, hrest⟩ := List.exists_cons_of_ne_nil (show v ++ "',".toList ≠ [] by simp)
    have hfront : ',' ∉ front ++ '\'' :: u ∧ '\n' ∉ front ++ '\'' :: u ∧ '\\' ∉ front ++ '\'' :: u := by
      simp only [List.mem_append, not_or] at hback hnl
      simp only [List.mem_append, List.mem_cons, not_or, hu, hback.1, hnl.1, not_false_eq_true, and_true]
      decide
    have htext : front ++ '\'' :: (u ++ ',' :: v) ++ ['\''] ++ [','] = front ++ '\'' :: u ++ ',' :: c :: rest := by
      rw [← hrest]
      simp
    have hends : u ++ ',' :: v ++ "',".toList = u ++ ',' :: c :: rest := by
      rw [← hrest]
      simp
    have hno : ¬ (f.listed libsub.text id = f.kept libsub.text id ∧
        ∀ w ∈ f.kept libsub.text id, ',' ∉ w ∧ '&' ∉ w) := by
      rintro ⟨h, hw⟩
      rw [hinj.2 h] at hj
      exact hcomma.2 (fun w h => (hw w h).1) hj
    have huniq : (∃ u' c' v', u ++ ',' :: v ++ "',".toList = u' ++ ',' :: c' :: v' ∧ ',' ∉ u' ∧
        (if sedFlag c' then more (front ++ '\'' :: (u ++ ',' :: v) ++ ['\'']) f.lines else f.lines) =
          f.withLine (front ++ '\'' :: [' '].intercalate (f.kept libsub.text id) ++ ['\''])) ↔
        (if sedFlag c then more (front ++ '\'' :: (u ++ ',' :: v) ++ ['\'']) f.lines else f.lines) =
          f.withLine (front ++ '\'' :: [' '].intercalate (f.kept libsub.text id) ++ ['\'']) := by
      constructor
      · rintro ⟨u', c', v', heq, hu', h⟩
        obtain ⟨-, htail⟩ := delim_inj hu hu' (hends.symm.trans heq)
        obtain ⟨rfl, -⟩ := List.cons.inj htail
        exact h
      · exact fun h => ⟨u, c, rest, hends, hu, h⟩
    rw [sedFile, htext, untilDelimiter_plain (by decide) hfront.1 hfront.2.1 hfront.2.2, huniq, or_iff_right hno]
  · have hrep : ',' ∉ front ++ '\'' :: j ++ ['\''] ∧ '\n' ∉ front ++ '\'' :: j ++ ['\''] ∧
        '\\' ∉ front ++ '\'' :: j ++ ['\''] := by
      simp only [List.mem_append, List.mem_cons, not_or, hj, hback, hnl, not_false_eq_true, and_true]
      decide
    have hno : ¬ ∃ u c v, j ++ "',".toList = u ++ ',' :: c :: v ∧ ',' ∉ u ∧
        (if sedFlag c then more (front ++ '\'' :: j ++ ['\'']) f.lines else f.lines) =
          f.withLine (front ++ '\'' :: [' '].intercalate (f.kept libsub.text id) ++ ['\'']) := by
      rintro ⟨u, c, v, heq, hu, -⟩
      have hends : j ++ ['\''] ++ ',' :: [] = u ++ ',' :: c :: v := by
        rw [← heq]
        simp
      obtain ⟨-, htail⟩ := delim_inj (by simp [hj]) hu hends
      cases htail
    rw [or_iff_left hno, sedFile_line f more hrep.2.2 hrep.2.1 hrep.1, withLine_inj]
    by_cases hj' : '&' ∈ j
    · -- the quotes are too many
      have hquotes : ∀ t : Text, '\'' ∉ t → (front ++ '\'' :: t ++ ['\'']).count '\'' = 2 := by
        intro t ht
        rw [List.count_append, List.count_append, List.count_cons_self, List.count_eq_zero_of_not_mem ht]
        decide
      have hmany := (count_flatMap_amp (q := '\'') (by decide)
        (show '\'' ∈ front ++ '\'' :: f.value ++ ['\''] by simp) (front ++ '\'' :: j ++ ['\''])).2 (by simp [hj'])
      constructor
      · intro h
        rw [h, hquotes _ hquote, hquotes _ hquote'] at hmany
        omega
      · rintro ⟨h, hw⟩
        rw [hinj.2 h] at hj'
        exact absurd hj' (hamp.2 fun w h => (hw w h).2)
    · have hclean : '&' ∉ front ++ '\'' :: j ++ ['\''] := by
        simp only [List.mem_append, List.mem_cons, not_or, hj', not_false_eq_true, and_true]
        decide
      rw [flatMap_no_amp hclean, List.append_left_inj, List.append_right_inj, List.cons_inj_right, hinj]
      refine ⟨fun h => ⟨h, fun w hw => ?_⟩, And.left⟩
      rw [hinj.2 h] at hj hj'
      exact ⟨hcomma.1 hj w hw, hamp.1 hj' w hw⟩

end

/-! ## The run -/

section
variable (more : Text → List Text → List Text) (libsub : LibSub) (id : Text) (f : Text → LaFile)

/-- What `sed` makes of a file with the words that are listed from it. -/
def LaFile.edited (libsub id : Text) (f : LaFile) : List Text :=
  sedFile more (front ++ '\'' :: [' '].intercalate (f.listed libsub id) ++ ['\'']) f.lines

/-- **Each file is edited for itself**: the list is empty again behind it. -/
theorem foldFiles_spec {las : List Text} (hnd : las.Nodup) {s : Cleaning} (hnew : s.vars newName = [])
    (hfiles : ∀ la ∈ las, s.files la = (f la).lines) :
    ∃ s', las.foldlM (laTurn more libsub.text id) s = some s' ∧
      (∀ la ∈ las, s'.files la = (f la).edited more libsub.text id) ∧ ∀ la ∉ las, s'.files la = s.files la := by
  induction las generalizing s with
  | nil => exact ⟨s, rfl, by simp, fun _ _ => rfl⟩
  | cons la las ih =>
    obtain ⟨hla, hnd⟩ := List.nodup_cons.1 hnd
    obtain ⟨s₁, hstep, hnew₁, hfiles₁⟩ := laTurn_spec (f la) libsub id more (hfiles la List.mem_cons_self) hnew
    have hkeep : ∀ x, x ≠ la → s₁.files x = s.files x := fun x hx => by rw [hfiles₁, upd_ne _ _ _ _ hx]
    have hrest : ∀ x ∈ las, s₁.files x = (f x).lines := by
      intro x hx
      rw [hkeep x fun h => hla (h ▸ hx)]
      exact hfiles x (List.mem_cons_of_mem _ hx)
    obtain ⟨s', hrun, hin, hout⟩ := ih hnd hnew₁ hrest
    refine ⟨s', by rw [List.foldlM_cons, hstep]; exact hrun, ?_, ?_⟩
    · intro x hx
      rcases List.mem_cons.1 hx with rfl | hx
      · rw [hout x hla, hfiles₁, upd_same]
        rfl
      · exact hin x hx
    · intro x hx
      rw [List.mem_cons, not_or] at hx
      rw [hout x hx.2, hkeep x hx.1]

/-- **When a file gets its words**: each file of a run is told by its own condition. -/
theorem cleanUp_iff {las : List Text} (hnd : las.Nodup) (s : Cleaning)
    (hfiles : ∀ la ∈ las, s.files la = (f la).lines) :
    ∃ s', cleanUp more libsub.text id las s = some s' ∧ ∀ la ∈ las,
      s'.files la = (f la).corrected libsub.text id ↔ (f la).Corrects more libsub.text id := by
  obtain ⟨s', hrun, hin, -⟩ := foldFiles_spec more libsub id f hnd
    (s := { s with vars := upd (upd s.vars deplibsName []) newName [] })
    (upd_same (upd s.vars deplibsName []) newName []) hfiles
  refine ⟨s', hrun, fun la hla => ?_⟩
  rw [hin la hla]
  exact sedFile_iff (f la) libsub id more

end

def lib64 : LibSub := ⟨"lib64".toList, by decide⟩

def libfoo : LaFile where
  before := ["dlname='libfoo.so.1'".toList]
  value := " -L/TOOLCHAIN/lib -L/usr/lib -lbar /usr/lib/libbar.la -lbar".toList
  after := ["libdir='/usr/lib64'".toList]
  others := by decide
  quote := by decide
  plain := show ∀ w ∈ words _, ∀ c ∈ w, verbatimChar c = true by decide +kernel

def libwl : LaFile where
  before := []
  value := " -L/TOOLCHAIN/lib -Wl,-O1".toList
  after := []
  others := by decide
  quote := by decide
  plain := show ∀ w ∈ words _, ∀ c ∈ w, verbatimChar c = true by decide +kernel

theorem cleanUp_libfoo : ∃ s', cleanUp (fun _ file => file) lib64.text "generic-24".toList ["libfoo.la".toList]
      ⟨fun _ => [], fun _ => libfoo.lines⟩ = some s' ∧ ∀ la ∈ ["libfoo.la".toList],
        s'.files la = libfoo.corrected lib64.text "generic-24".toList ↔
          libfoo.Corrects (fun _ file => file) lib64.text "generic-24".toList :=
  cleanUp_iff (fun _ file => file) lib64 "generic-24".toList (fun _ => libfoo) (by simp) _ fun _ _ => rfl

example : libfoo.corrected lib64.text "generic-24".toList =
    ["dlname='libfoo.so.1'", "dependency_libs='-L/usr/lib64 -lbar /usr/lib64/libbar.la'", "libdir='/usr/lib64'"].map
      String.toList := by
  decide +kernel

/-- A comma in a word: `sed` gives up, and the file keeps its line. -/
theorem libwl_stays : (cleanUp (fun _ file => file) lib64.text "generic-24".toList ["libwl.la".toList]
      ⟨fun _ => [], fun _ => libwl.lines⟩).map (fun s' => s'.files "libwl.la".toList) = some libwl.lines ∧
    libwl.lines ≠ libwl.corrected lib64.text "generic-24".toList := by
  decide +kernel

end T2Sde.Build
