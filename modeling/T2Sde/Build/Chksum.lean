import T2Sde.Lib.Cut
/-!
# The checksum of a package (`scripts/functions.in`)

What is hashed is one text: the names that `find` comes by, in the order in which it does, each with the content of
the file behind it, then without the lines that `sed` deletes and without blanks. A line ends at a newline, not at the
end of a file. The names of the tags are looked for before the blanks are taken out. There are files and directories
only, and all can be read.

| here | there |
| --- | --- |
| `Dir.found`  | `find .` in the order of the directory |
| `visible`    | `! -path '*/.*' ! -name '*.cache'` :775 |
| `hashedText` | `-print -exec cat \{\} \;` :775 |
| `keep`       | the six rules of `sed`, for a line :778-784 |
| `stream`     | what `md5sum` reads |

* `not_vitalOnly` — a `[CV-…]` line in front of each file is in the stream.
* `keep_eq_vital` — the six rules, for a regular line.
* `stream_eq_of_settled` — lines that the rules and the documentation agree on.
* `checksum_vital` — **the checksum is not one of what is vital**, and where it does not change.
-/
namespace T2Sde.Build
open Shell

/-- A directory, its entries in the order in which `find` comes by. -/
inductive Dir
  | empty
  | file (name content : Text) (rest : Dir)
  | dir (name : Text) (children rest : Dir)
  deriving Repr

/-- A path, and the content of a file. -/
structure Found where
  path : Text
  content : Option Text
  deriving DecidableEq, Repr

def Dir.found (path : Text) : Dir → List Found
  | .empty => []
  | .file name content rest => ⟨path ++ '/' :: name, some content⟩ :: rest.found path
  | .dir name children rest =>
    ⟨path ++ '/' :: name, none⟩ :: children.found (path ++ '/' :: name) ++ rest.found path

/-- `*.cache` has no `/`, so it is the end of the path. -/
def Found.visible (f : Found) : Bool := !decide ("/.".toList <:+: f.path) && !(".cache".toList.isSuffixOf f.path)

def visible (d : Dir) : List Found := (⟨['.'], none⟩ :: d.found ['.']).filter Found.visible

/-- The path, and what `cat` gives: nothing for a directory. -/
def Found.text (f : Found) : Text := f.path ++ '\n' :: f.content.getD []

def hashedText (d : Dir) : Text := (visible d).flatMap Found.text

/-- A blank in `[\t ]`. -/
def isSpace (c : Char) : Bool := c == '\t' || c == ' '

def unblank (l : Text) : Text := l.filter (!isSpace ·)

/-- `/^[ ]*#.*/` -/
def commented (l : Text) : Bool := (l.dropWhile (· == ' ')).head? == some '#'

/-- `/^\[CV-*\]/`: a repetition of `-`. -/
def cvTag (l : Text) : Bool := "[CV".toList.isPrefixOf l && ((l.drop 3).dropWhile (· == '-')).head? == some ']'

/-- `/^\[[T,I,U,A,M,L,S,C]\]/` -/
def lightTag : Text → Bool
  | '[' :: c :: ']' :: _ => "T,I,U,A,M,L,S,C".toList.contains c
  | _ => false

/-- What `sed` makes of a line. -/
def keep (l : Text) : Option Text :=
  if commented l then none
  else if "[COPY]".toList.isPrefixOf l then none
  else if cvTag l then none
  else if lightTag l then none
  else if unblank l = [] then none
  else some (unblank l)

/-- A line that is kept is printed with its newline; the last one may lack it. -/
def printed (l : Text) : Text := ((keep l).map (· ++ ['\n'])).getD []

def sedText (t : Text) : Text :=
  (t.splitOn '\n').dropLast.flatMap printed ++ (((t.splitOn '\n').getLast?.bind keep).getD [])

def stream (d : Dir) : Text := sedText (hashedText d)

/-! ## What is meant -/

/-- A line without blanks, if it is vital: no comment, no line of a tag that does not count. -/
def vital (l : Text) : Option Text :=
  let l := unblank l
  if l = [] ∨ l.head? = some '#' ∨ "[COPY]".toList <+: l ∨ "[CV-".toList <+: l ∧ ']' ∈ l ∨
    ∃ c ∈ "TIUAMLSC".toList, ['[', c, ']'] <+: l then none
  else some l

/-- The vital lines of a file. -/
def vitalLines (t : Text) : List Text := (t.splitOn '\n').filterMap vital

def Found.vital (f : Found) : Text × Option (List Text) := (f.path, f.content.map vitalLines)

/-- Nothing but the order and what is not vital differs. -/
def SameVital (d d' : Dir) : Prop := ((visible d).map Found.vital).Perm ((visible d').map Found.vital)

instance (d d' : Dir) : Decidable (SameVital d d') := inferInstanceAs (Decidable (List.Perm _ _))

/-- The checksum of the directory depends on what is vital only. -/
def VitalOnly (d : Dir) : Prop := ∀ d', SameVital d d' → stream d' = stream d

/-! ## Lines -/

theorem splitOn_newline (s t : Text) : (s ++ '\n' :: t).splitOn '\n' = s.splitOn '\n' ++ t.splitOn '\n' := by
  rw [List.splitOn, List.splitOnP_append_cons _ _ (by simp)]
  rfl

/-- What is behind a newline is printed for itself. -/
theorem sedText_newline (s t : Text) : sedText (s ++ '\n' :: t) = (s.splitOn '\n').flatMap printed ++ sedText t := by
  have hne := List.splitOn_ne_nil '\n' t
  rw [sedText, splitOn_newline, List.dropLast_append_of_ne_nil hne, List.getLast?_append_of_ne_nil _ hne,
    List.flatMap_append, List.append_assoc]
  rfl

theorem sedText_line {l : Text} (hl : '\n' ∉ l) (t : Text) : sedText (l ++ '\n' :: t) = printed l ++ sedText t := by
  rw [sedText_newline, splitOn_single hl]
  simp

/-! ## A tag that counts though it should not -/

/-- Not matched by `CV-*`. -/
def cvLine : Text := "[CV-URL] x".toList

/-- The line in front of each file. -/
def Dir.mark : Dir → Dir
  | .empty => .empty
  | .file name content rest => .file name (cvLine ++ '\n' :: content) rest.mark
  | .dir name children rest => .dir name children.mark rest.mark

def Found.mark (f : Found) : Found := { f with content := f.content.map (cvLine ++ '\n' :: ·) }

theorem found_mark (path : Text) (d : Dir) : d.mark.found path = (d.found path).map Found.mark := by
  induction d generalizing path with
  | empty => rfl
  | file name content rest ih => rw [Dir.mark, Dir.found, Dir.found, ih, List.map_cons]; rfl
  | dir name children rest ihc ih =>
    rw [Dir.mark, Dir.found, Dir.found, ihc, ih, List.cons_append, List.cons_append, List.map_cons, List.map_append]
    rfl

theorem visible_mark (d : Dir) : visible d.mark = (visible d).map Found.mark := by
  have hall : (⟨['.'], none⟩ :: d.mark.found ['.']) = (⟨['.'], none⟩ :: d.found ['.']).map Found.mark := by
    rw [found_mark, List.map_cons]
    rfl
  rw [visible, hall, List.filter_map]
  rfl

/-- The line is one of a tag that does not count. -/
theorem vital_mark (f : Found) : f.mark.vital = f.vital := by
  have hline : vital cvLine = none := by decide
  obtain ⟨path, _ | c⟩ := f
  · rfl
  · have hlines : vitalLines (cvLine ++ '\n' :: c) = vitalLines c := by
      rw [vitalLines, splitOn_newline, splitOn_single (by decide), List.singleton_append, List.filterMap_cons, hline]
      rfl
    exact Prod.ext rfl (congrArg some hlines)

theorem sameVital_mark (d : Dir) : SameVital d d.mark := by
  have hsame : (visible d.mark).map Found.vital = (visible d).map Found.vital := by
    rw [visible_mark, List.map_map]
    exact List.map_congr_left fun f _ => vital_mark f
  rw [SameVital, hsame]

/-- One line more for each file, behind any text. -/
theorem length_sedText_mark (es : List Found) (s : Text) :
    (sedText (s ++ (es.map Found.mark).flatMap Found.text)).length =
      (sedText (s ++ es.flatMap Found.text)).length + 10 * es.countP fun f => f.content.isSome := by
  induction es generalizing s with
  | nil => simp
  | cons f es ih =>
    obtain ⟨path, content⟩ := f
    have hsplit : ∀ (c : Text) (es : List Found), s ++ (Found.text ⟨path, some c⟩ ++ es.flatMap Found.text) =
        (s ++ path) ++ '\n' :: (c ++ es.flatMap Found.text) := by
      intro c es
      simp [Found.text]
    cases content with
    | none =>
      have hnone : ∀ es : List Found, s ++ (Found.text ⟨path, none⟩ ++ es.flatMap Found.text) =
          (s ++ path) ++ '\n' :: ([] ++ es.flatMap Found.text) := by
        intro es
        simp [Found.text]
      have hmark : Found.mark ⟨path, none⟩ = ⟨path, none⟩ := rfl
      rw [List.map_cons, hmark, List.flatMap_cons, List.flatMap_cons, hnone, hnone, sedText_newline, sedText_newline,
        List.length_append, List.length_append, ih, List.countP_cons_of_neg (by simp)]
      omega
    | some c =>
      have hmark : Found.mark ⟨path, some c⟩ = ⟨path, some (cvLine ++ '\n' :: c)⟩ := rfl
      have hprinted : (printed cvLine).length = 10 := by decide
      rw [List.map_cons, hmark, List.flatMap_cons, List.flatMap_cons, hsplit, hsplit, sedText_newline,
        sedText_newline, List.append_assoc, List.cons_append, sedText_line (by decide), List.length_append,
        List.length_append, List.length_append, hprinted, ih, List.countP_cons_of_pos (by simp)]
      omega

/-- **No directory with a file** has a checksum of what is vital only. -/
theorem not_vitalOnly {d : Dir} (h : ∃ f ∈ visible d, f.content.isSome = true) : ¬ VitalOnly d := by
  intro hv
  have hlen := length_sedText_mark (visible d) []
  rw [← visible_mark] at hlen
  have hcount : 0 < (visible d).countP fun f => f.content.isSome := List.countP_pos_iff.2 h
  have heq : (stream d.mark).length = (stream d).length := congrArg List.length (hv d.mark (sameVital_mark d))
  rw [stream, stream, hashedText, hashedText] at heq
  simp only [List.nil_append] at hlen
  omega

/-! ## Lines on which the rules and the documentation agree -/

/-- No tab in front of a comment, no blank in front of a tag or in it, and neither `[CV…` nor `[,]`. -/
structure Regular (l : Text) : Prop where
  comment : (unblank l).head? = some '#' → ∀ c ∈ l.takeWhile isSpace, c = ' '
  tag : (unblank l).head? = some '[' → ∀ c ∈ l.takeWhile (· ≠ ']'), isSpace c = false
  cv : ¬ "[CV".toList <+: unblank l
  comma : ¬ "[,]".toList <+: unblank l

theorem head?_unblank (l : Text) : (unblank l).head? = (l.dropWhile isSpace).head? := by
  induction l with
  | nil => rfl
  | cons c l ih => cases hc : isSpace c <;> simp_all [unblank]

/-- What stands first is no blank, if only the blanks of the rules are taken off. -/
theorem head?_dropWhile_space {l : Text} {c : Char} (h : (l.dropWhile (· == ' ')).head? = some c)
    (hc : isSpace c = false) : (unblank l).head? = some c := by
  induction l with
  | nil => cases h
  | cons d l ih =>
    by_cases hd : d = ' '
    · rw [List.dropWhile_cons_of_pos (by simpa using hd)] at h
      have hl : unblank (d :: l) = unblank l := by simp [unblank, hd, isSpace]
      rw [hl]
      exact ih h
    · rw [List.dropWhile_cons_of_neg (by simpa using hd)] at h
      obtain rfl : d = c := by simpa using h
      simp [unblank, hc]

theorem unblank_of_head {l : Text} {c : Char} (h : l.head? = some c) (hc : isSpace c = false) :
    (unblank l).head? = some c := by
  cases l with
  | nil => cases h
  | cons d l =>
    obtain rfl : d = c := by simpa using h
    simp [unblank, hc]

theorem dropWhile_space {l : Text} (h : ∀ c ∈ l.takeWhile isSpace, c = ' ') :
    l.dropWhile (· == ' ') = l.dropWhile isSpace := by
  induction l with
  | nil => rfl
  | cons c l ih =>
    by_cases hc : isSpace c = true
    · rw [List.takeWhile_cons_of_pos hc] at h
      obtain ⟨rfl, htail⟩ := List.forall_mem_cons.1 h
      rw [List.dropWhile_cons_of_pos rfl, List.dropWhile_cons_of_pos rfl]
      exact ih htail
    · have hne : ¬ c = ' ' := by
        rintro rfl
        exact hc rfl
      rw [List.dropWhile_cons_of_neg hc, List.dropWhile_cons_of_neg (by simpa using hne)]

/-- What has no blanks is not changed at the front. -/
theorem prefix_unblank {w l : Text} (hw : ∀ c ∈ w, isSpace c = false) (h : w <+: l) : w <+: unblank l := by
  obtain ⟨t, rfl⟩ := h
  have hwu : unblank w = w := List.filter_eq_self.2 fun c hc => by rw [hw c hc]; rfl
  refine ⟨unblank t, ?_⟩
  calc w ++ unblank t = unblank w ++ unblank t := by rw [hwu]
    _ = unblank (w ++ t) := (List.filter_append _ _).symm

theorem head?_of_front {w l : Text} {c : Char} (hw : w.head? = some c) (h : w <+: l) : l.head? = some c := by
  obtain ⟨t, rfl⟩ := h
  cases w with
  | nil => cases hw
  | cons d w => exact hw

/-- Up to the first `]`. -/
theorem closed_prefix {w p x : Text} (hw : ']' ∉ w) (hp : ']' ∉ p) (hx : x = [] ∨ x.head? = some ']') :
    w ++ [']'] <+: p ++ x ↔ x ≠ [] ∧ w = p := by
  have hfront : ∀ {u : Text} (t : Text), ']' ∉ u → (u ++ ']' :: t).takeWhile (· ≠ ']') = u := by
    intro u t hu
    rw [List.takeWhile_append_of_pos fun c hc => by simpa using fun h : c = ']' => hu (h ▸ hc)]
    simp
  constructor
  · rintro ⟨t, ht⟩
    have hne : x ≠ [] := by
      rintro rfl
      rw [List.append_nil] at ht
      exact hp (ht ▸ by simp)
    obtain ⟨c, y, rfl⟩ := List.exists_cons_of_ne_nil hne
    obtain rfl : c = ']' := by simpa using hx
    refine ⟨hne, ?_⟩
    rw [List.append_assoc, List.singleton_append] at ht
    rw [← hfront t hw, ht, hfront y hp]
  · rintro ⟨hne, rfl⟩
    obtain ⟨c, y, rfl⟩ := List.exists_cons_of_ne_nil hne
    obtain rfl : c = ']' := by simpa using hx
    exact ⟨y, by simp⟩

/-- A tag without blanks at the front stays there, and no other gets there. -/
theorem tag_front {l w : Text} (htag : ∀ c ∈ l.takeWhile (· ≠ ']'), isSpace c = false) (hw : ']' ∉ w) :
    w ++ [']'] <+: l ↔ w ++ [']'] <+: unblank l := by
  have hsplit := List.takeWhile_append_dropWhile (p := fun c => decide (c ≠ ']')) (l := l)
  have hp : ']' ∉ l.takeWhile (· ≠ ']') := fun h => by simpa using List.mem_takeWhile_imp h
  have hx : l.dropWhile (· ≠ ']') = [] ∨ (l.dropWhile (· ≠ ']')).head? = some ']' := by
    have hnot := List.head?_dropWhile_not (fun c => decide (c ≠ ']')) l
    cases hd : l.dropWhile (· ≠ ']') with
    | nil => exact .inl rfl
    | cons c x =>
      rw [hd] at hnot
      exact .inr (by simpa using hnot)
  generalize l.takeWhile (· ≠ ']') = p at htag hsplit hp
  generalize l.dropWhile (· ≠ ']') = x at hsplit hx
  have hun : unblank l = p ++ unblank x := by
    have hpu : unblank p = p := List.filter_eq_self.2 fun c hc => by rw [htag c hc]; rfl
    calc unblank l = unblank p ++ unblank x := by rw [← hsplit]; exact List.filter_append _ _
      _ = p ++ unblank x := by rw [hpu]
  have hxu : unblank x = [] ∨ (unblank x).head? = some ']' := by
    rcases hx with rfl | hx
    · exact .inl rfl
    · exact .inr (unblank_of_head hx rfl)
  have hne : x ≠ [] ↔ unblank x ≠ [] := by
    rcases hx with rfl | hx
    · simp [unblank]
    · have hu := unblank_of_head hx rfl
      constructor <;> intro _ h
      · rw [h] at hu
        cases hu
      · rw [h] at hx
        cases hx
  rw [← hsplit, closed_prefix hw hp hx, hsplit, hun, closed_prefix hw hp hxu, hne]

theorem lightTag_iff {l : Text} (h : Regular l) (htag : ∀ c ∈ l.takeWhile (· ≠ ']'), isSpace c = false) :
    lightTag l = true ↔ ∃ c ∈ "TIUAMLSC".toList, ['[', c, ']'] <+: unblank l := by
  have hlight : lightTag l = true ↔ ∃ c ∈ "T,I,U,A,M,L,S,C".toList, ['[', c, ']'] <+: l := by
    constructor
    · intro hl
      unfold lightTag at hl
      split at hl
      next c t => exact ⟨c, by simpa using hl, t, rfl⟩
      · cases hl
    · rintro ⟨c, hc, t, rfl⟩
      simpa [lightTag] using hc
  have hclose : ∀ c, ']' ∉ ['[', c] → (['[', c, ']'] <+: l ↔ ['[', c, ']'] <+: unblank l) := fun c hc =>
    tag_front (w := ['[', c]) htag hc
  have hset : ∀ c ∈ "T,I,U,A,M,L,S,C".toList, c = ',' ∨ c ∈ "TIUAMLSC".toList := by decide
  have hsub : ∀ c ∈ "TIUAMLSC".toList, c ∈ "T,I,U,A,M,L,S,C".toList := by decide
  have hne : ∀ c ∈ "T,I,U,A,M,L,S,C".toList, ']' ∉ ['[', c] := by decide
  rw [hlight]
  constructor
  · rintro ⟨c, hc, hp⟩
    have hp := (hclose c (hne c hc)).1 hp
    rcases hset c hc with rfl | hc
    · exact absurd hp h.comma
    · exact ⟨c, hc, hp⟩
  · rintro ⟨c, hc, hp⟩
    exact ⟨c, hsub c hc, (hclose c (hne c (hsub c hc))).2 hp⟩

/-- What the rule of `[CV-` looks at. -/
theorem cvTag_front {l : Text} (h : cvTag l = true) : "[CV".toList <+: l := by
  rw [cvTag, Bool.and_eq_true] at h
  exact List.isPrefixOf_iff_prefix.1 h.1

theorem lightTag_head {l : Text} (h : lightTag l = true) : l.head? = some '[' := by
  unfold lightTag at h
  split at h
  · rfl
  · cases h

/-- The tags of a regular line, with its blanks and without. -/
theorem tags_iff {l : Text} (h : Regular l) :
    ("[COPY]".toList.isPrefixOf l = true ↔ "[COPY]".toList <+: unblank l) ∧
      (lightTag l = true ↔ ∃ c ∈ "TIUAMLSC".toList, ['[', c, ']'] <+: unblank l) := by
  by_cases hb : (unblank l).head? = some '['
  · have htag := h.tag hb
    rw [List.isPrefixOf_iff_prefix]
    exact ⟨tag_front (w := "[COPY".toList) htag (by decide), lightTag_iff h htag⟩
  · have hl : ¬ l.head? = some '[' := fun hl => hb (unblank_of_head hl rfl)
    refine ⟨⟨fun hp => ?_, fun hp => ?_⟩, ⟨fun ht => ?_, ?_⟩⟩
    · exact absurd (head?_of_front rfl (List.isPrefixOf_iff_prefix.1 hp)) hl
    · exact absurd (head?_of_front rfl hp) hb
    · exact absurd (lightTag_head ht) hl
    · rintro ⟨c, -, hp⟩
      exact absurd (head?_of_front rfl hp) hb

/-- **The rules take what is vital** of a regular line. -/
theorem keep_eq_vital {l : Text} (h : Regular l) : keep l = vital l := by
  cases hu : unblank l with
  | nil => simp [keep, vital, hu]
  | cons c r =>
    have hhead : (unblank l).head? = some c := by rw [hu]; rfl
    have hne : unblank l ≠ [] := by rw [hu]; exact List.cons_ne_nil c r
    by_cases hc : c = '#'
    · subst hc
      have hcomment : commented l = true := by
        rw [commented, dropWhile_space (h.comment hhead), ← head?_unblank, hhead]
        rfl
      rw [keep, if_pos hcomment, vital, if_pos (.inr (.inl hhead))]
    · have hcomment : ¬ commented l = true := by
        rw [commented]
        intro hl
        have hfirst := head?_dropWhile_space (by simpa using hl) (show isSpace '#' = false from rfl)
        rw [hhead] at hfirst
        exact hc (Option.some.inj hfirst)
      have hcv : ¬ cvTag l = true := fun hl => h.cv (prefix_unblank (by decide) (cvTag_front hl))
      have hcvn : ¬ ("[CV-".toList <+: unblank l ∧ ']' ∈ unblank l) := fun hp =>
        h.cv ((List.prefix_append "[CV".toList ['-']).trans hp.1)
      have hsharp : ¬ (unblank l).head? = some '#' := by rw [hhead]; simpa using hc
      obtain ⟨hcopy, hlight⟩ := tags_iff h
      by_cases hp : "[COPY]".toList <+: unblank l
      · rw [keep, if_neg hcomment, if_pos (hcopy.2 hp), vital, if_pos (.inr (.inr (.inl hp)))]
      · by_cases ht : ∃ c ∈ "TIUAMLSC".toList, ['[', c, ']'] <+: unblank l
        · rw [keep, if_neg hcomment, if_neg (mt hcopy.1 hp), if_neg hcv, if_pos (hlight.2 ht), vital,
            if_pos (.inr (.inr (.inr (.inr ht))))]
        · have hvital : ¬ (unblank l = [] ∨ (unblank l).head? = some '#' ∨ "[COPY]".toList <+: unblank l ∨
              "[CV-".toList <+: unblank l ∧ ']' ∈ unblank l ∨
              ∃ c ∈ "TIUAMLSC".toList, ['[', c, ']'] <+: unblank l) := by
            rintro (h | h | h | h | h)
            · exact hne h
            · exact hsharp h
            · exact hp h
            · exact hcvn h
            · exact ht h
          rw [keep, if_neg hcomment, if_neg (mt hcopy.1 hp), if_neg hcv, if_neg (mt hlight.1 ht), if_neg hne, vital,
            if_neg hvital]

/-! ## Edits that do not count -/

/-- The content ends its last line, and all lines are regular. -/
def Found.Settled (f : Found) : Prop :=
  ∀ c ∈ f.content, (c = [] ∨ ∃ t, c = t ++ ['\n']) ∧ ∀ l ∈ c.splitOn '\n', Regular l

/-- What is printed of the vital lines. -/
def printedLines (ls : List Text) : Text := ls.flatMap (· ++ ['\n'])

theorem flatMap_printed {ls : List Text} (h : ∀ l ∈ ls, Regular l) :
    ls.flatMap printed = printedLines (ls.filterMap vital) := by
  induction ls with
  | nil => rfl
  | cons l ls ih =>
    obtain ⟨hl, h⟩ := List.forall_mem_cons.1 h
    rw [List.flatMap_cons, ih h, printed, keep_eq_vital hl, List.filterMap_cons]
    cases vital l <;> rfl

theorem sedText_settled {f : Found} (h : f.Settled) {c : Text} (hc : f.content = some c) (t : Text) :
    sedText (c ++ t) = printedLines (vitalLines c) ++ sedText t := by
  obtain ⟨rfl | ⟨u, rfl⟩, hlines⟩ := h c hc
  · rfl
  · rw [splitOn_newline] at hlines
    have hu : ∀ l ∈ u.splitOn '\n', Regular l := fun l hl => hlines l (List.mem_append_left _ hl)
    have hempty : (([] : Text).splitOn '\n').filterMap vital = [] := rfl
    rw [List.append_assoc, List.singleton_append, sedText_newline, flatMap_printed hu, vitalLines, splitOn_newline,
      List.filterMap_append, hempty, List.append_nil]

theorem sedText_settled_eq : ∀ {es es' : List Found}, es.map Found.vital = es'.map Found.vital →
    (∀ f ∈ es, f.Settled) → (∀ f ∈ es', f.Settled) →
      sedText (es.flatMap Found.text) = sedText (es'.flatMap Found.text)
  | [], [], _, _, _ => rfl
  | [], _ :: _, h, _, _ => by cases h
  | _ :: _, [], h, _, _ => by cases h
  | f :: es, f' :: es', h, hs, hs' => by
    rw [List.map_cons, List.map_cons, List.cons.injEq] at h
    obtain ⟨hf, hs⟩ := List.forall_mem_cons.1 hs
    obtain ⟨hf', hs'⟩ := List.forall_mem_cons.1 hs'
    have ih := sedText_settled_eq h.2 hs hs'
    have htext : ∀ (f : Found) t, f.text ++ t = f.path ++ '\n' :: (f.content.getD [] ++ t) := fun f t => by
      simp [Found.text]
    have hpath : f.path = f'.path := congrArg Prod.fst h.1
    have hvital : f.content.map vitalLines = f'.content.map vitalLines := congrArg Prod.snd h.1
    rw [List.flatMap_cons, List.flatMap_cons, htext, htext, sedText_newline, sedText_newline, hpath]
    congr 1
    cases hc : f.content with
    | none =>
      have hc' : f'.content = none := by simpa [hc] using hvital.symm
      rw [hc']
      exact ih
    | some c =>
      obtain ⟨c', hc', hlines⟩ := Option.map_eq_some_iff.1 (hvital.symm.trans (congrArg _ hc))
      rw [hc', Option.getD_some, Option.getD_some, sedText_settled hf hc, sedText_settled hf' hc', hlines, ih]

/-- **The same paths in the same order**, with lines that the rules and the documentation agree on. -/
theorem stream_eq_of_settled {d d' : Dir} (h : (visible d).map Found.vital = (visible d').map Found.vital)
    (hd : ∀ f ∈ visible d, f.Settled) (hd' : ∀ f ∈ visible d', f.Settled) : stream d = stream d' :=
  sedText_settled_eq h hd hd'

/-- **The checksum is not one of what is vital**, for no directory with a file. It does not change where the same paths
come in the same order and the lines are regular. -/
theorem checksum_vital {d : Dir} (h : ∃ f ∈ visible d, f.content.isSome = true) :
    ¬ VitalOnly d ∧ ∀ d', (visible d).map Found.vital = (visible d').map Found.vital →
      (∀ f ∈ visible d, f.Settled) → (∀ f ∈ visible d', f.Settled) → stream d = stream d' :=
  ⟨not_vitalOnly h, fun _ => stream_eq_of_settled⟩

theorem checksum_vital_desc :
    (∃ f ∈ visible (.file "x.desc".toList "[V] 1\n".toList .empty), f.content.isSome = true) ∧
      ¬ VitalOnly (.file "x.desc".toList "[V] 1\n".toList .empty) :=
  ⟨by decide, (checksum_vital (d := .file "x.desc".toList "[V] 1\n".toList .empty) (by decide)).1⟩

/-- A line of a `[CV-…]` tag more, two files the other way round, a tab more, a blank more. -/
theorem checksum_other :
    (let d := Dir.file "x.desc".toList "[V] 1\n".toList .empty
     let d' := Dir.file "x.desc".toList "[V] 1\n[CV-URL] x\n".toList .empty
     SameVital d d' ∧ stream d = ".\n./x.desc\n[V]1\n".toList ∧ stream d' = ".\n./x.desc\n[V]1\n[CV-URL]x\n".toList) ∧
    (let d := Dir.file "a".toList "1\n".toList (.file "b".toList "2\n".toList .empty)
     let d' := Dir.file "b".toList "2\n".toList (.file "a".toList "1\n".toList .empty)
     SameVital d d' ∧ stream d = ".\n./a\n1\n./b\n2\n".toList ∧ stream d' = ".\n./b\n2\n./a\n1\n".toList) ∧
    (let d := Dir.file "x.conf".toList "# x\n".toList .empty
     let d' := Dir.file "x.conf".toList "\t# x\n".toList .empty
     SameVital d d' ∧ stream d = ".\n./x.conf\n".toList ∧ stream d' = ".\n./x.conf\n#x\n".toList) ∧
    (let d := Dir.file "x.desc".toList "[T] x\n".toList .empty
     let d' := Dir.file "x.desc".toList " [T] x\n".toList .empty
     SameVital d d' ∧ stream d = ".\n./x.desc\n".toList ∧ stream d' = ".\n./x.desc\n[T]x\n".toList) := by
  decide +kernel

end T2Sde.Build
