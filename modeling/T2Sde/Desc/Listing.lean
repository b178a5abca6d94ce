import T2Sde.Lib.Grep
import T2Sde.Lib.Cut
import T2Sde.Desc.Sources
/-!
# The list of the downloaded files

`scripts/Download -list` makes the path of a source out of its line with two `sed` expressions, and what is not in that
list is unknown to `-list-unknown`, and removed by `scripts/Cleanup -download`.

| here | there |
| --- | --- |
| `columnClean`     | `column_clean` (`scripts/functions.in`) :143-145 |
| `listCksums`      | `list_cksums` (`scripts/Download`) :750-759 |
| `listFiles`       | `list_dtags`, `list` for one line :743-765 |
| `unknown`         | the loop of `list_unknown` :767-779 |
| `removed`         | `scripts/Cleanup` :41-46 |

* `columnClean_eq` — the words of a line, with one space between them.
* `listCksums_iff` — when the list has the path of a line.
* `one_path_iff` — **when the four paths are one**.
-/
namespace T2Sde.Desc
open Shell Pattern

/-! ## The list -/

/-- `s,  *, ,g` -/
def squeeze : Text → Text
  | [] => []
  | c :: s => if c = ' ' then ' ' :: (squeeze s).dropWhile (· == ' ') else c :: squeeze s

def columnClean (s : Text) : Text :=
  ((squeeze (s.map fun c => if c = '\t' then ' ' else c)).dropWhile (· == ' ')).rdropWhile (· == ' ')

/-- `[X0-9a-z]` -/
def cksumChar (c : Char) : Bool := c == 'X' || '0' ≤ c && c ≤ '9' || 'a' ≤ c && c ≤ 'z'

/-- `[^ ]* \([X0-9a-z]*\) \(.\)\([^ ]*\) `, a character, `.*` -/
def sedItems (mark : Char → Bool) : List Item :=
  [.chr (· != ' ') .star, .chr (· == ' ') .one, .opening, .chr cksumChar .star, .closing, .chr (· == ' ') .one,
    .opening, .chr (fun _ => true) .one, .closing, .opening, .chr (· != ' ') .star, .closing, .chr (· == ' ') .one,
    .chr mark .one, .chr (fun _ => true) .star]

/-- The pattern space after `s,…,\1 download/$dir/\2/\2\3,`, if the expression matches. -/
def sedPath (mark : Char → Bool) (dir s : Text) : Option Text :=
  match Pattern.search s (sedItems mark) s with
  | .ok hit =>
    match hit.texts with
    | .ok [cksum, first, rest] =>
      some (s.take (s.length - hit.start.length) ++ cksum ++ " download/".toList ++ dir ++ '/' :: first ++
        '/' :: first ++ rest ++ hit.rest)
    | _ => none
  | _ => none

def isDash (c : Char) : Bool := c == '-'

/-- The second expression works on what the first one has left. -/
def listCksums (line : Text) : List Text :=
  let marked := sedPath isDash "local".toList line
  marked.toList ++ (sedPath (!isDash ·) "mirror".toList (marked.getD line)).toList

/-- What `-list` prints for a line of the file `desc`. -/
def listFiles (desc line : Text) : List Text :=
  (listCksums (columnClean (desc ++ ':' :: line))).map (cutRest ' ')

/-- What `-list-unknown` takes a found file for, if it does not know it. -/
def unknown (list : List Text) (found : Text) : Option Text :=
  let fn := lastField (unescape found).1
  if grepLine fn list then none else some fn

/-- The file that `Cleanup` removes for a found one; it reads what is behind `Unknown file: `. -/
def removed (list : List Text) (found : Text) : Option Text :=
  (unknown list found).bind fun fn =>
    let fn := lastField (unescape (cutRest ' ' (cutRest ' ' ("Unknown file: ".toList ++ fn)))).1
    if fn = [] then none else some fn

/-! ## Columns -/

/-- Words with one space between them. -/
abbrev columns (ws : List Text) : Text := [' '].intercalate ws

theorem columns_cons (w : Text) {ws : List Text} (hws : ws ≠ []) : columns (w :: ws) = w ++ ' ' :: columns ws := by
  rw [columns, List.intercalate_cons_of_ne_nil hws]
  simp

/-- What is behind the first word. -/
def next : List Text → Text
  | [] => []
  | w :: ws => ' ' :: columns (w :: ws)

theorem columns_eq (w : Text) (ws : List Text) : columns (w :: ws) = w ++ next ws := by
  cases ws with
  | nil => simp [columns, next]
  | cons v ws => exact columns_cons w (List.cons_ne_nil v ws)

theorem columns_ne_nil {ws : List Text} (hws : ∀ w ∈ ws, IsWord w) (hne : ws ≠ []) : columns ws ≠ [] := by
  obtain ⟨w, ws, rfl⟩ := List.exists_cons_of_ne_nil hne
  have hw := (hws w List.mem_cons_self).1
  by_cases hnil : ws = []
  · simpa [hnil] using hw
  · rw [columns_cons w hnil]
    simp

theorem isWord_noSpace {w : Text} (hw : ∀ c ∈ w, isBlank c = false) : ∀ c ∈ w, (c != ' ') = true := by
  intro c hc
  have hblank := hw c hc
  rw [bne_iff_ne]
  rintro rfl
  simp [isBlank] at hblank

theorem squeeze_append {w : Text} (hw : ∀ c ∈ w, c ≠ ' ') (s : Text) : squeeze (w ++ s) = w ++ squeeze s := by
  induction w with
  | nil => rfl
  | cons c w ih =>
    obtain ⟨hc, hw⟩ := List.forall_mem_cons.1 hw
    rw [List.cons_append, squeeze, if_neg hc, ih hw, List.cons_append]

theorem rdropWhile_append {p : Char → Bool} (s u : Text) :
    (s ++ u).rdropWhile p = if u.rdropWhile p = [] then s.rdropWhile p else s ++ u.rdropWhile p := by
  simp only [List.rdropWhile, List.reverse_append, List.dropWhile_append, List.reverse_eq_nil_iff, List.isEmpty_iff]
  split
  · rfl
  · simp

theorem rdropWhile_word {w : Text} (hw : IsWord w) : w.rdropWhile (· == ' ') = w := by
  refine List.rdropWhile_eq_self_iff.2 fun hne => ?_
  simpa using isWord_noSpace hw.2 _ (List.getLast_mem hne)

theorem untab {c : Char} (hc : isBlank c = true) (hnl : c ≠ '\n') : (if c = '\t' then ' ' else c) = ' ' := by
  simp only [isBlank, Bool.or_eq_true, beq_iff_eq] at hc
  rcases hc with (rfl | rfl) | rfl
  · rfl
  · rfl
  · exact absurd rfl hnl

/-- **Clean columns** are the words with one space between them. -/
theorem columnClean_eq {s : Text} (hs : '\n' ∉ s) : columnClean s = columns (words s) := by
  rw [columnClean]
  induction s using text_induction with
  | nil => rfl
  | blank c s hc ih =>
    have hspace := untab hc fun h => hs (h ▸ List.mem_cons_self)
    have htail : '\n' ∉ s := fun h => hs (List.mem_cons_of_mem c h)
    rw [List.map_cons, hspace, squeeze, if_pos rfl, List.dropWhile_cons_of_pos rfl, List.dropWhile_idempotent,
      ih htail, words_blank_cons hc]
  | word w rest hw hrest ih =>
    have hplain : w.map (fun c => if c = '\t' then ' ' else c) = w := by
      refine (List.map_congr_left fun c hc => ?_).trans (List.map_id w)
      refine if_neg ?_
      rintro rfl
      exact Bool.noConfusion (hw.2 '\t' hc)
    have hstart : ∀ u : Text, (w ++ u).dropWhile (· == ' ') = w ++ u := by
      obtain ⟨c, cs, rfl⟩ := List.exists_cons_of_ne_nil hw.1
      have hc : ¬ (c == ' ') = true := by simpa using isWord_noSpace hw.2 c List.mem_cons_self
      exact fun u => List.dropWhile_cons_of_neg hc
    rw [List.map_append, hplain, squeeze_append fun c hc => bne_iff_ne.1 (isWord_noSpace hw.2 c hc), hstart]
    cases rest with
    | nil => simp [squeeze, rdropWhile_word hw, words_of_isWord hw, columns]
    | cons b r =>
      have htail : '\n' ∉ b :: r := fun h => hs (List.mem_append_right w h)
      have hspace := untab hrest fun h => htail (h ▸ List.mem_cons_self)
      have hih := ih htail
      rw [List.map_cons, hspace, squeeze, if_pos rfl, List.dropWhile_cons_of_pos rfl, List.dropWhile_idempotent] at hih
      rw [List.map_cons, hspace, squeeze, if_pos rfl, words_word_append hw hrest, rdropWhile_append]
      have hcons : ∀ u : Text, (' ' :: u).rdropWhile (· == ' ') =
          if u.rdropWhile (· == ' ') = [] then [] else ' ' :: u.rdropWhile (· == ' ') :=
        fun u => rdropWhile_append [' '] u
      rw [hcons, hih]
      by_cases hnil : words (b :: r) = []
      · simp [hnil, rdropWhile_word hw, columns]
      · have hne := columns_ne_nil (fun w hw => isWord_of_mem_words hw) hnil
        rw [if_neg hne, if_neg (List.cons_ne_nil _ _), columns_cons w hnil]

/-! ## The expressions -/

/-- The expression matches with these as its fields behind the first blank. -/
def front (mark : Char → Bool) : List Text → Bool
  | a :: _ :: ws => a.all cksumChar && ws.head?.any (·.head?.any mark)
  | _ => false

/-- It matches somewhere. -/
def somewhere (mark : Char → Bool) : List Text → Bool
  | [] => false
  | w :: ws => front mark (w :: ws) || somewhere mark ws

def captured : List Text → List Text
  | a :: b :: _ => [a, b.take 1, b.drop 1]
  | _ => []

section
variable {mark : Char → Bool} {src : Text}

theorem run_space (is : List Item) (caps : List Cap) {c : Char} (hc : (c != ' ') = true) (s : Text) :
    run src (.chr (· == ' ') .one :: is) caps (c :: s) = .fail := by
  rw [run_one, if_neg (by simpa using hc)]

/-- The pattern behind the sum. -/
theorem run_file (cap : Cap) (s : Text) :
    run src ((sedItems mark).drop 6) [cap] s =
      match s with
      | [] => .fail
      | c :: s =>
        if ((s.dropWhile (· != ' ')).drop 1).head?.any mark then
          .ok ([.text (s.takeWhile (· != ' ')), .text [c], cap], [])
        else .fail := by
  cases s with
  | nil => rfl
  | cons c s =>
    have hfirst : run src ((sedItems mark).drop 6) [cap] (c :: s) =
        run src ((sedItems mark).drop 9) [.text [c], cap] s := by
      show run src (.opening :: .chr (fun _ => true) .one :: .closing :: (sedItems mark).drop 9) [cap] (c :: s) = _
      rw [run_opening _ (by simp [maxCaptures]), run_one, if_pos rfl]
      exact run_closing [c] s
    have hrest : run src ((sedItems mark).drop 9) [.text [c], cap] s =
        run src ((sedItems mark).drop 12) [.text (s.takeWhile (· != ' ')), .text [c], cap] (s.dropWhile (· != ' ')) :=
      run_capture_star_dropWhile (by simp [maxCaptures]) (fun _ d t hd => run_space _ _ hd t) s
    rw [hfirst, hrest]
    show run src [.chr (· == ' ') .one, .chr mark .one, .chr (fun _ => true) .star] _ _ =
      if ((s.dropWhile (· != ' ')).drop 1).head?.any mark then _ else _
    cases hs : s.dropWhile (· != ' ') with
    | nil => rfl
    | cons d r =>
      have hd : (d == ' ') = true := by
        have hstop := stops_dropWhile (· != ' ') s
        rw [hs, stops_cons] at hstop
        simpa using hstop
      rw [run_one, if_pos hd]
      cases r with
      | nil => rfl
      | cons m r =>
        have hall : r.dropWhile (fun _ => true) = [] := List.dropWhile_eq_nil_iff.2 fun _ _ => rfl
        rw [run_one, run_last, hall]
        rfl

theorem run_sed (s : Text) :
    run src (sedItems mark) [] s =
      match s.dropWhile (· != ' ') with
      | [] => .fail
      | _ :: t =>
        match t.dropWhile cksumChar with
        | [] => .fail
        | c :: r => if c = ' ' then run src ((sedItems mark).drop 6) [.text (t.takeWhile cksumChar)] r else .fail := by
  have hword : run src (sedItems mark) [] s = run src ((sedItems mark).drop 1) [] (s.dropWhile (· != ' ')) :=
    expand_dropWhile (fun c t hc => run_space _ _ hc t) s
  rw [hword]
  show run src (.chr (· == ' ') .one :: (sedItems mark).drop 2) _ _ = _
  cases hs : s.dropWhile (· != ' ') with
  | nil => rfl
  | cons d t =>
    have hd : (d == ' ') = true := by
      have hstop := stops_dropWhile (· != ' ') s
      rw [hs, stops_cons] at hstop
      simpa using hstop
    have hsum : run src ((sedItems mark).drop 2) [] t =
        run src ((sedItems mark).drop 5) [.text (t.takeWhile cksumChar)] (t.dropWhile cksumChar) := by
      refine run_capture_star_dropWhile (by decide) (fun _ c r hc => run_space _ _ ?_ r) t
      rw [bne_iff_ne]
      rintro rfl
      exact Bool.noConfusion hc
    rw [run_one, if_pos hd, hsum]
    show run src (.chr (· == ' ') .one :: (sedItems mark).drop 6) _ _ = _
    simp only
    cases t.dropWhile cksumChar with
    | nil => rfl
    | cons c r =>
      rw [run_one]
      by_cases hc : c = ' ' <;> simp [hc]

theorem takeWhile_stops {p : Char → Bool} {w s : Text} (hw : ∀ c ∈ w, p c = true) (hs : Stops p s) :
    (w ++ s).takeWhile p = w ∧ (w ++ s).dropWhile p = s := by
  rw [List.takeWhile_append_of_pos hw, List.dropWhile_append_of_pos hw]
  cases s with
  | nil => simp
  | cons c s =>
    have hc : ¬ p c = true := by simpa using hs
    simp [hc]

theorem run_front {u : Text} (hu : ∀ c ∈ u, isBlank c = false) {ws : List Text} (hws : ∀ w ∈ ws, IsWord w) :
    run src (sedItems mark) [] (columns (u :: ws)) =
      if front mark ws then .ok (((captured ws).map Cap.text).reverse, []) else .fail := by
  have hnext : ∀ ws : List Text, Stops (· != ' ') (next ws) := by
    intro ws
    cases ws <;> simp [next]
  rw [run_sed, columns_eq, (takeWhile_stops (isWord_noSpace hu) (hnext ws)).2]
  rcases ws with _ | ⟨a, ws⟩
  · rfl
  obtain ⟨ha, hws⟩ := List.forall_mem_cons.1 hws
  simp only [next]
  rw [columns_eq]
  by_cases hsum : a.all cksumChar = true
  · have hstop : Stops cksumChar (next ws) := by
      cases ws <;> simp [next]
      rfl
    obtain ⟨htake, hdrop⟩ := takeWhile_stops (List.all_eq_true.1 hsum) hstop
    rw [htake, hdrop]
    rcases ws with _ | ⟨b, ws⟩
    · rfl
    obtain ⟨hb, hlast⟩ := List.forall_mem_cons.1 hws
    obtain ⟨c, b, rfl⟩ := List.exists_cons_of_ne_nil hb.1
    have hrest := takeWhile_stops (w := b) (fun d hd => isWord_noSpace hb.2 d (List.mem_cons_of_mem c hd)) (hnext ws)
    simp only [next, if_true]
    rw [columns_eq, List.cons_append, run_file]
    have hmark : ((next ws).drop 1).head? = ws.head?.bind List.head? := by
      cases ws with
      | nil => rfl
      | cons w ws =>
        obtain ⟨d, w, rfl⟩ := List.exists_cons_of_ne_nil (hlast w List.mem_cons_self).1
        simp only [next]
        rw [columns_eq]
        rfl
    simp only [hrest.1, hrest.2, front, hsum, Bool.true_and, captured, hmark]
    cases ws <;> rfl
  · have hfront : front mark (a :: ws) = false := by
      rcases ws with _ | ⟨b, ws⟩
      · rfl
      · simp [front, hsum]
    have hne : a.dropWhile cksumChar ≠ [] := fun h =>
      hsum (List.all_eq_true.2 (List.dropWhile_eq_nil_iff.1 h))
    obtain ⟨c, r, hcr⟩ := List.exists_cons_of_ne_nil hne
    have hc : c ≠ ' ' := by
      have hmem : c ∈ a := (List.dropWhile_suffix cksumChar).subset (hcr ▸ List.mem_cons_self)
      exact bne_iff_ne.1 (isWord_noSpace ha.2 c hmem)
    have hdrop : (a ++ next ws).dropWhile cksumChar = c :: (r ++ next ws) := by
      rw [List.dropWhile_append, if_neg (by simpa using hne), hcr, List.cons_append]
    rw [hdrop, hfront]
    simp [hc]

/-- The expression is looked for from word to word. -/
theorem search_columns {u : Text} (hu : ∀ c ∈ u, isBlank c = false) {ws : List Text} (hws : ∀ w ∈ ws, IsWord w) :
    Pattern.search src (sedItems mark) (columns (u :: ws)) =
      if front mark ws then .ok ⟨columns (u :: ws), (captured ws).map Cap.text, []⟩
      else Pattern.search src (sedItems mark) (columns ws) := by
  have hrun := @run_front mark src _ hu _ hws
  by_cases hfront : front mark ws = true
  · rw [if_pos hfront] at hrun
    rw [if_pos hfront, search_of_run hrun, List.reverse_reverse]
  rw [if_neg hfront] at hrun ⊢
  induction u with
  | nil =>
    rw [columns_eq, List.nil_append] at hrun ⊢
    cases ws with
    | nil =>
      rw [next] at hrun ⊢
      rw [Pattern.search, hrun]
      rfl
    | cons w ws =>
      rw [next] at hrun ⊢
      rw [Pattern.search, hrun]
  | cons c u ih =>
    have hu' : ∀ c ∈ u, isBlank c = false := fun d hd => hu d (List.mem_cons_of_mem c hd)
    have hrun' := @run_front mark src _ hu' _ hws
    rw [if_neg hfront] at hrun'
    rw [columns_eq, List.cons_append] at hrun ⊢
    rw [Pattern.search, hrun, ← columns_eq]
    exact ih hu' hrun'

/-- Where it is found. -/
theorem search_somewhere {u : Text} (hu : ∀ c ∈ u, isBlank c = false) {ws : List Text} (hws : ∀ w ∈ ws, IsWord w) :
    (somewhere mark ws = false → Pattern.search src (sedItems mark) (columns (u :: ws)) = .fail) ∧
      (somewhere mark ws = true → front mark ws = false → ∃ p start a b : Text,
        ' ' ∈ p ∧ columns (u :: ws) = p ++ start ∧
        Pattern.search src (sedItems mark) (columns (u :: ws)) =
          .ok ⟨start, [a, b.take 1, b.drop 1].map Cap.text, []⟩) := by
  induction ws generalizing u with
  | nil =>
    rw [search_columns hu hws, if_neg (by simp [front])]
    exact ⟨fun _ => rfl, fun h => absurd h (by simp [somewhere])⟩
  | cons w ws ih =>
    obtain ⟨hw, hws'⟩ := List.forall_mem_cons.1 hws
    obtain ⟨hnone, hsome⟩ := ih hw.2 hws'
    rw [search_columns hu hws, somewhere, Bool.or_eq_false_iff, Bool.or_eq_true]
    constructor
    · rintro ⟨hfront, hrest⟩
      rw [if_neg (by simp [hfront])]
      exact hnone hrest
    · rintro hwhere hfront
      have hrest := hwhere.resolve_left (by simp [hfront])
      have hsplit : columns (u :: w :: ws) = (u ++ [' ']) ++ columns (w :: ws) := by
        rw [columns_eq, next, List.append_assoc]
        rfl
      rw [if_neg (by simp [hfront])]
      by_cases hhere : front mark ws = true
      · obtain ⟨a, b, vs, rfl⟩ : ∃ a b vs, ws = a :: b :: vs := by
          rcases ws with _ | ⟨a, _ | ⟨b, vs⟩⟩
          · simp [front] at hhere
          · simp [front] at hhere
          · exact ⟨a, b, vs, rfl⟩
        refine ⟨u ++ [' '], _, a, b, by simp, hsplit, ?_⟩
        rw [search_columns hw.2 hws', if_pos hhere]
        rfl
      · obtain ⟨p, start, a, b, hp, hcolumns, hfound⟩ := hsome hrest (by simpa using hhere)
        exact ⟨u ++ [' '] ++ p, start, a, b, by simp, by simp [hsplit, hcolumns], hfound⟩

end

/-! ## The paths in the list -/

section
variable {mark : Char → Bool} (dir : Text)

theorem sedPath_front {w a b : Text} {ws : List Text} (hw : ∀ c ∈ w, isBlank c = false)
    (hws : ∀ w ∈ a :: b :: ws, IsWord w) (h : front mark (a :: b :: ws) = true) :
    sedPath mark dir (columns (w :: a :: b :: ws)) =
      some (a ++ ' ' :: ("download/".toList ++ dir ++ '/' :: (b.take 1 ++ '/' :: b))) := by
  rw [sedPath, search_columns hw hws, if_pos h]
  have htexts : ∀ start, (Hit.mk start ((captured (a :: b :: ws)).map Cap.text) []).texts =
      .ok [a, b.take 1, b.drop 1] := fun start => texts_of_text (by simp [captured])
  simp only [htexts, Nat.sub_self, List.take_zero, List.nil_append, List.append_nil]
  have hb : b.take 1 ++ b.drop 1 = b := List.take_append_drop 1 b
  simp only [List.append_assoc, List.cons_append, hb]
  rfl

theorem sedPath_none {w : Text} {ws : List Text} (hw : ∀ c ∈ w, isBlank c = false) (hws : ∀ w ∈ ws, IsWord w)
    (h : somewhere mark ws = false) : sedPath mark dir (columns (w :: ws)) = none := by
  rw [sedPath, (search_somewhere hw hws).1 h]

/-- Behind the checksum of another word: the first words of the line are still there. -/
theorem sedPath_later {w : Text} {ws : List Text} (hw : ∀ c ∈ w, isBlank c = false) (hws : ∀ w ∈ ws, IsWord w)
    (h : somewhere mark ws = true) (hfront : front mark ws = false) :
    ∃ t, sedPath mark dir (columns (w :: ws)) = some t ∧ 2 ≤ t.count ' ' := by
  obtain ⟨p, start, a, b, hp, hsplit, hsearch⟩ := (search_somewhere hw hws).2 h hfront
  have htexts : (Hit.mk start ([a, b.take 1, b.drop 1].map Cap.text) []).texts = .ok [a, b.take 1, b.drop 1] :=
    texts_of_text (by simp)
  have htake : (columns (w :: ws)).take ((columns (w :: ws)).length - start.length) = p := by
    rw [hsplit, List.length_append, Nat.add_sub_cancel, List.take_left]
  rw [sedPath, hsearch]
  simp only [htexts, htake]
  refine ⟨_, rfl, ?_⟩
  have hcount : 0 < p.count ' ' := List.count_pos_iff.2 hp
  have hspace : " download/".toList.count ' ' = 1 := by decide
  simp only [List.count_append, hspace]
  omega

end

/-- More than one space, and one is left. -/
theorem mem_cutRest {t : Text} (h : 2 ≤ t.count ' ') : ' ' ∈ cutRest ' ' t := by
  have hbehind : ∃ s, behindFirst (· == ' ') t = some s ∧ t.count ' ' = s.count ' ' + 1 := by
    have hmem : ' ' ∈ t := List.count_pos_iff.1 (by omega)
    clear h
    induction t with
    | nil => cases hmem
    | cons c t ih =>
      by_cases hc : c = ' '
      · subst hc
        exact ⟨t, rfl, by simp⟩
      · obtain ⟨s, hs, hcount⟩ := ih ((List.mem_cons.1 hmem).resolve_left (Ne.symm hc))
        refine ⟨s, ?_, ?_⟩
        · rw [behindFirst, if_neg (by simpa using hc)]
          exact hs
        · rw [List.count_cons_of_ne hc, hcount]
  obtain ⟨s, hs, hcount⟩ := hbehind
  rw [cutRest, hs, Option.getD_some]
  exact List.count_pos_iff.1 (by omega)

/-- The words of a line that lists its file: the checksum is of one kind, and no other words are taken for the file of
another source. -/
def InColumns (cksum file url : Text) (more : List Text) : Prop :=
  cksum.all cksumChar = true ∧ (url.head? = some '-' ∨ somewhere isDash (cksum :: file :: url :: more) = false)

instance (cksum file url : Text) (more : List Text) : Decidable (InColumns cksum file url more) :=
  inferInstanceAs (Decidable (_ ∧ _))

section
variable {w cksum file url : Text} {more : List Text}

theorem front_eq (mark : Char → Bool) (cksum file url : Text) (more : List Text) :
    front mark (cksum :: file :: url :: more) = (cksum.all cksumChar && url.head?.any mark) := by
  rw [front]
  rfl

theorem any_isDash (url : Text) : url.head?.any isDash = true ↔ url.head? = some '-' := by
  cases url <;> simp [isDash]

/-- **What is listed for the words of a line.** -/
theorem listCksums_iff (hw : ∀ c ∈ w, isBlank c = false) (hws : ∀ w ∈ cksum :: file :: url :: more, IsWord w) :
    (listCksums (columns (w :: cksum :: file :: url :: more))).map (cutRest ' ') = [sourcePath [] url file] ↔
      InColumns cksum file url more := by
  obtain ⟨hcksum, hfile, hurl, -⟩ : IsWord cksum ∧ IsWord file ∧ IsWord url ∧ True :=
    ⟨hws _ (by simp), hws _ (by simp), hws _ (by simp), trivial⟩
  have hpath : IsWord (sourcePath [] url file) := sourcePath_word (by simp) url hfile.2
  have hspace : ' ' ∉ sourcePath [] url file := fun h => absurd (hpath.2 ' ' h) (by decide)
  have hcut : cutRest ' ' (cksum ++ ' ' :: sourcePath [] url file) = sourcePath [] url file :=
    cutRest_append (fun h => absurd (hcksum.2 ' ' h) (by decide)) _
  -- what is found behind the first words keeps a space
  have hlater : ∀ {t : Text} (ts : List Text), 2 ≤ t.count ' ' →
      ((t :: ts).map (cutRest ' ')) ≠ [sourcePath [] url file] := by
    intro t ts ht heq
    have hmem := mem_cutRest ht
    rw [(List.cons.inj heq).1] at hmem
    exact hspace hmem
  rw [InColumns]
  by_cases hdash : front isDash (cksum :: file :: url :: more) = true
  · have hline := sedPath_front "local".toList hw hws hdash
    rw [front_eq, Bool.and_eq_true, any_isDash] at hdash
    have hlocal : sourcePath [] url file =
        "download/".toList ++ "local".toList ++ '/' :: (file.take 1 ++ '/' :: file) := by
      rw [sourcePath, if_pos hdash.2]
      rfl
    rw [← hlocal] at hline
    have hagain : sedPath (!isDash ·) "mirror".toList (columns [cksum, sourcePath [] url file]) = none :=
      sedPath_none _ hcksum.2 (by simpa using hpath) (by simp [somewhere, front])
    rw [columns_cons _ (by simp), columns, List.intercalate_singleton] at hagain
    simp only [listCksums, hline, Option.getD_some, hagain, Option.toList_some, Option.toList_none, List.append_nil,
      List.map_singleton, hcut]
    exact iff_of_true trivial ⟨hdash.1, .inl hdash.2⟩
  by_cases hsome : somewhere isDash (cksum :: file :: url :: more) = true
  · obtain ⟨t, ht, hcount⟩ := sedPath_later "local".toList hw hws hsome (by simpa using hdash)
    rw [listCksums, ht]
    refine iff_of_false (hlater _ hcount) ?_
    rw [front_eq, Bool.and_eq_true, any_isDash] at hdash
    simp only [hsome]
    tauto
  have hnone : sedPath isDash "local".toList (columns (w :: cksum :: file :: url :: more)) = none :=
    sedPath_none _ hw hws (by simpa using hsome)
  simp only [listCksums, hnone, Option.toList_none, List.nil_append, Option.getD_none]
  rw [front_eq, Bool.and_eq_true, any_isDash] at hdash
  by_cases hmirror : front (!isDash ·) (cksum :: file :: url :: more) = true
  · have hline := sedPath_front "mirror".toList hw hws hmirror
    rw [front_eq, Bool.and_eq_true] at hmirror
    have hurl : url.head? ≠ some '-' := fun h => hdash ⟨hmirror.1, h⟩
    have hpath' : sourcePath [] url file =
        "download/".toList ++ "mirror".toList ++ '/' :: (file.take 1 ++ '/' :: file) := by
      rw [sourcePath, if_neg hurl]
      rfl
    rw [← hpath'] at hline
    rw [hline, Option.toList_some, List.map_singleton, hcut]
    exact iff_of_true rfl ⟨hmirror.1, .inr (by simpa using hsome)⟩
  have hnot : ¬ (cksum.all cksumChar = true ∧
      (url.head? = some '-' ∨ somewhere isDash (cksum :: file :: url :: more) = false)) := by
    rintro ⟨hall, -⟩
    refine hmirror ?_
    rw [front_eq, hall, Bool.true_and]
    obtain ⟨c, u, rfl⟩ := List.exists_cons_of_ne_nil hurl.1
    have hc : c ≠ '-' := fun h => hdash ⟨hall, by rw [h]; rfl⟩
    simpa [isDash] using hc
  refine iff_of_false ?_ hnot
  by_cases hother : somewhere (!isDash ·) (cksum :: file :: url :: more) = true
  · obtain ⟨t, ht, hcount⟩ := sedPath_later "mirror".toList hw hws hother (by simpa using hmirror)
    rw [ht]
    exact hlater [] hcount
  · rw [sedPath_none _ hw hws (by simpa using hother)]
    exact fun h => List.cons_ne_nil _ _ h.symm

end

/-! ## One path -/

/-- What `match_source_file -p .` prints for a line. -/
def buildPaths (base l : Text) : List Text := (logical ([l].filter needs)).map (matchPath base)

/-- The file of a line has one path, and is known by it. -/
structure OnePath (desc base l path : Text) : Prop where
  download : downloadPath (unescape (readValue l)).1 = path
  build : buildPaths base l = [base ++ '/' :: path]
  list : listFiles desc l = [path]
  known : ∀ list, (∀ x ∈ listFiles desc l, x ∈ list) → unknown list path = none ∧ removed list path = none

section
variable {desc base l v cksum file url : Text} {more : List Text}

theorem tagLine_D (hl : l = "[D] ".toList ++ v) : tagLine l = some (['D'], v) := by
  have h := tagLine_bracketed (t := ['D']) (by decide) (' ' :: v)
  rw [hl]
  exact h.trans (if_pos rfl)

theorem words_D (hl : l = "[D] ".toList ++ v) (hdesc : ∀ c ∈ desc, isBlank c = false) :
    words (desc ++ ':' :: l) = (desc ++ ":[D]".toList) :: words v := by
  have hw : IsWord (desc ++ ":[D]".toList) := by
    refine ⟨by simp, fun c hc => ?_⟩
    rcases List.mem_append.1 hc with hc | hc
    · exact hdesc c hc
    · have htag : ∀ c ∈ ":[D]".toList, isBlank c = false := by decide
      exact htag c hc
  have hsplit : desc ++ ':' :: l = (desc ++ ":[D]".toList) ++ ' ' :: v := by
    rw [hl, List.append_assoc]
    rfl
  have hblank : AtBlank (' ' :: v) := rfl
  rw [hsplit, words_word_append hw hblank, words_space_cons]

/-- The backslashes that are dropped do no harm in the checksum, and behind the first character of the address. -/
theorem lineFile_D (hl : l = "[D] ".toList ++ v) (hwords : words v = cksum :: file :: url :: more)
    (hsettled : Settled (unescape l).1) (hruns : runsOn l = false) (hfile : '\\' ∉ file)
    (hurl : url.head? ≠ some '\\') : lineFile l = sourcePath [] url file := by
  have hline : words l = "[D]".toList :: cksum :: file :: url :: more := by
    have hblank : AtBlank (' ' :: v) := rfl
    have htag : IsWord "[D]".toList := by decide
    rw [← hwords, ← words_space_cons v, ← words_word_append htag hblank, hl]
    rfl
  have hhead : (text (unescape url).1).head? = url.head? := by
    cases url with
    | nil => rfl
    | cons c s => rw [unescape_cons fun hc => hurl (congrArg some hc)]; rfl
  have hname : text (unescape file).1 = file := by rw [unescape_plain hfile, text_plain]
  rw [lineFile]
  simp only [wordAt_words, hsettled.words hruns, hline, List.map_cons, List.getD_cons_succ, List.getD_cons_zero, hname]
  exact sourcePath_congr [] hhead file

theorem not_mem_sourcePath {c : Char} (hc : c ∉ "download/localmirror/".toList) (url : Text) {file : Text}
    (hfile : c ∉ file) : c ∉ sourcePath [] url file := by
  have htake : c ∉ file.take 1 := fun h => hfile (List.mem_of_mem_take h)
  rw [sourcePath]
  split <;> simp_all

theorem unknown_path {path : Text} (hpath : IsWord path) (hback : '\\' ∉ path) (list : List Text) :
    unknown list path = if grepLine path list then none else some path := by
  rw [unknown, unescape_plain hback]
  simp only [lastField_trimmed hpath.trimmed]

/-- **The four paths of a line are one**, and its file is known, if the line is found by a space behind its checksum, is
listed, and the name stands for itself. Backslashes are left out where they change the path. -/
theorem one_path_iff (hl : l = "[D] ".toList ++ v) (hwords : words v = cksum :: file :: url :: more)
    (hsettled : Settled (unescape l).1) (hruns : runsOn l = false) (hname : '\\' ∉ file) (hurl : url.head? ≠ some '\\')
    (hline : '\n' ∉ l) (hdesc : ∀ c ∈ desc, isBlank c = false) (hbase : IsWord base) :
    (∃ path, OnePath desc base l path) ↔
      needs l = true ∧ InColumns cksum file url more ∧ wholeLine (lineFile l) (lineFile l) = true := by
  have hpath : IsWord (lineFile l) := sourcePath_word (by simp) _ (wordAt_noBlank _ _)
  have hfile := lineFile_D hl hwords hsettled hruns hname hurl
  have hpathback : '\\' ∉ lineFile l := by
    rw [hfile]
    exact not_mem_sourcePath (by decide) url hname
  have hdownload : downloadPath (unescape (readValue l)).1 = lineFile l := downloadPath_tagged (tagLine_D hl) hsettled
  have hbuild : buildPaths base l = if needs l then [base ++ '/' :: lineFile l] else [] := by
    rw [buildPaths]
    cases hneeds : needs l with
    | false =>
      rw [List.filter_cons_of_neg (by simp [hneeds])]
      rfl
    | true =>
      have halone : ∀ k ∈ [l], runsOn k = false := by simpa using hruns
      rw [List.filter_cons_of_pos hneeds, List.filter_nil, if_pos rfl, logical_alone halone, List.map_singleton,
        List.map_singleton, (matchPath_eq hbase hsettled).2]
      rfl
  have hlist : listFiles desc l = [lineFile l] ↔ InColumns cksum file url more := by
    have hnewline : '\n' ∉ desc ++ ':' :: l := by
      intro hmem
      rcases List.mem_append.1 hmem with hmem | hmem
      · exact absurd (hdesc _ hmem) (by decide)
      · exact hline ((List.mem_cons.1 hmem).resolve_left (by decide))
    have hwords' : ∀ w ∈ words v, IsWord w := fun w hw => isWord_of_mem_words hw
    have htag : ∀ c ∈ desc ++ ":[D]".toList, isBlank c = false := by
      intro c hc
      rcases List.mem_append.1 hc with hc | hc
      · exact hdesc c hc
      · have hplain : ∀ c ∈ ":[D]".toList, isBlank c = false := by decide
        exact hplain c hc
    rw [hwords] at hwords'
    rw [listFiles, columnClean_eq hnewline, words_D hl hdesc, hwords, hfile]
    exact listCksums_iff htag hwords'
  constructor
  · rintro ⟨path, h⟩
    obtain rfl : lineFile l = path := hdownload.symm.trans h.download
    have hneeds : needs l = true := by
      by_contra hnot
      have hprinted := h.build
      rw [hbuild, if_neg hnot] at hprinted
      cases hprinted
    refine ⟨hneeds, hlist.1 h.list, ?_⟩
    have hknown := (h.known [lineFile l] (by simp [h.list])).1
    rw [unknown_path hpath hpathback] at hknown
    split at hknown
    next hgrep => simpa [grepLine] using hgrep
    next => cases hknown
  · rintro ⟨hneeds, hin, hself⟩
    have hlisted := hlist.2 hin
    refine ⟨lineFile l, hdownload, by rw [hbuild, if_pos hneeds], hlisted, fun list hall => ?_⟩
    have hmem : lineFile l ∈ list := hall _ (by simp [hlisted])
    have hgrep : grepLine (lineFile l) list = true := List.any_eq_true.2 ⟨_, hmem, hself⟩
    have hnone : unknown list (lineFile l) = none := by rw [unknown_path hpath hpathback, if_pos hgrep]
    exact ⟨hnone, by rw [removed, hnone, Option.bind_none]⟩

end

/-- A source that is not mirrored, with a backslash in its address and words behind it. -/
def localLine : Text := "[D] 0 foo.tar.gz -http://foo.org/\\~foo/ -p 1".toList

theorem one_path_local : ∃ path, OnePath "package/base/foo/foo.desc".toList "/t2".toList localLine path := by
  have hwords : words "0 foo.tar.gz -http://foo.org/\\~foo/ -p 1".toList =
      "0".toList :: "foo.tar.gz".toList :: "-http://foo.org/\\~foo/".toList :: ["-p".toList, "1".toList] := by
    decide +kernel
  exact (@one_path_iff "package/base/foo/foo.desc".toList "/t2".toList localLine _ _ _ _ _ rfl hwords
    (by decide +kernel) (by decide +kernel) (by decide +kernel) (by decide +kernel) (by decide +kernel)
    (by decide +kernel) (by decide +kernel)).2 (by decide +kernel)

/-- The line of a source with an explicit algorithm. -/
def explicitLine : Text := "[D] {sha256}00ab zlib.tar.gz http://zlib.net/".toList

/-- It is downloaded, it is not listed, and `Cleanup` removes it. -/
theorem explicit_removed :
    downloadPath (unescape (readValue explicitLine)).1 = "download/mirror/z/zlib.tar.gz".toList ∧
      listFiles "package/base/zlib/zlib.desc".toList explicitLine = [] ∧
      removed (listFiles "package/base/zlib/zlib.desc".toList explicitLine) "download/mirror/z/zlib.tar.gz".toList =
        some "download/mirror/z/zlib.tar.gz".toList ∧
      ¬ ∃ path, OnePath "package/base/zlib/zlib.desc".toList "/t2".toList explicitLine path := by
  have hlist : listFiles "package/base/zlib/zlib.desc".toList explicitLine = [] := by decide +kernel
  refine ⟨by decide +kernel, hlist, by decide +kernel, ?_⟩
  rintro ⟨path, h⟩
  have hone := h.list
  rw [hlist] at hone
  cases hone

end T2Sde.Desc
