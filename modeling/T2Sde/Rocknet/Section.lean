import Mathlib.Data.List.Nodup
import T2Sde.Rocknet.Line
/-!
# The editor of the configuration (`package/network/rocknet/stone_mod_network.sh`)

`read_section` takes the statements of one section from the file, without the comments. `write_section` goes through the
file with the comments, passes the other sections through, and writes the statements in the place of the section. It
compares the name with all that stands behind `interface`: where a comment stands there, too, the section is not found,
and its statements are written again behind all others.

| here | there |
| --- | --- |
| `readSection`  | :21-48 |
| `writeTags`    | :50-57 |
| `writeStep`    | one line of the loop :71-98 |
| `finish`       | :100-105 |
| `writeSection` | :59-108 |
| `statements`, `parsed` | what rocknet reads, rocknet.sh:92-111 |

* `Wrote` — what is read of the new file once the statements are in it.
* `section_iff` — **when the file stays what it is for rocknet**.
-/
namespace T2Sde.Rocknet
open Shell

/-! ## The programs -/

/-- What the loops of rocknet and of `read_section` get, line by line. -/
def statements (file : List Text) : List Statement := (logical (file.map stripComment)).filterMap statement

/-- One statement; whether it is read, and the tags. -/
def readStep (p : Text) (r : Bool × List Text) (s : Statement) : Bool × List Text :=
  let readit := if s.cmd = interface then decide (profOf s.para = p) else r.1
  (readit, if readit then r.2 ++ [s.text] else r.2)

def readSection (p : Text) (file : List Text) : List Text :=
  ((statements file).foldl (readStep p) (decide (p = []), [])).2

def writeTags (globals : Bool) (tags : List Text) : List Text :=
  (tags.filter (· ≠ [])).map fun tag => indented (globals || interface.isPrefixOf tag) tag

structure Writing where
  globals : Bool
  passit : Bool
  dumped : Bool
  out : List Text

def dump (tags : List Text) (w : Writing) : Writing :=
  if !w.passit && !w.dumped then { w with out := w.out ++ writeTags w.globals tags, dumped := true } else w

def enter (p : Text) (s : Statement) (w : Writing) : Writing :=
  if s.cmd = interface then
    { w with passit := !decide (profOf s.para = p), out := w.out ++ [[]], globals := false }
  else w

def pass (s : Statement) (w : Writing) : Writing :=
  if w.passit then { w with out := w.out ++ [indented (w.globals || decide (s.cmd = interface)) s.text] } else w

def writeStep (p : Text) (tags : List Text) (w : Writing) (m : List ReadChar) : Writing :=
  match statement m with
  | none => w
  | some s => pass s (enter p s (dump tags w))

/-- Behind the last line. -/
def finish (p : Text) (tags : List Text) (w : Writing) : List Text :=
  let out := if w.globals then w.out else w.out ++ [[]]
  if w.dumped then out else out ++ writeTags (decide (p = []) && w.globals) tags

def writeSection (p : Text) (tags : List Text) (file : List Text) : List Text :=
  finish p tags ((logical file).foldl (writeStep p tags) ⟨true, decide (p ≠ []), false, []⟩)

/-! ## What rocknet reads -/

/-- Each statement with the interface it is in, and its arguments. -/
def withInterface (iface : Option Text) : List Statement → List (Option Text × Text × List Text)
  | [] => []
  | s :: ss =>
    let iface := if s.cmd = interface then some s.para else iface
    (iface, s.cmd, words s.para) :: withInterface iface ss

def parsed (file : List Text) : List (Option Text × Text × List Text) := withInterface none (statements file)

/-- The name of the section that starts with the line. -/
def profLine (line : Text) : Option Text := (clean line).bind prof

/-- Interfaces have names, each its own. -/
structure Named (file : List Text) : Prop where
  ne : ∀ p ∈ file.filterMap profLine, p ≠ []
  once : (file.filterMap profLine).Nodup

theorem length_withInterface (i : Option Text) (ss : List Statement) : (withInterface i ss).length = ss.length := by
  induction ss generalizing i with
  | nil => rfl
  | cons s ss ih => rw [withInterface, List.length_cons, List.length_cons, ih]

theorem statements_eq {file : List Text} (h : ∀ l ∈ file, runsOn (stripComment l) = false) :
    statements file = file.filterMap clean := by
  rw [statements, logical_alone (by simpa using h), List.map_map, List.filterMap_map]
  rfl

/-! ## What is read of a section -/

section
variable {p : Text} {ss : List Statement}

theorem readStep_eq (p : Text) (r : Bool × List Text) (s : Statement) :
    readStep p r s =
      (((prof s).map fun q => decide (q = p)).getD r.1,
        if ((prof s).map fun q => decide (q = p)).getD r.1 then r.2 ++ [s.text] else r.2) := by
  rw [readStep, prof]
  by_cases hcmd : s.cmd = interface <;> simp [hcmd]

/-- Behind the section, or in front of it. -/
theorem read_off (h : ∀ s ∈ ss, prof s ≠ some p) (tags : List Text) :
    ss.foldl (readStep p) (false, tags) = (false, tags) := by
  induction ss with
  | nil => rfl
  | cons s ss ih =>
    obtain ⟨hs, hss⟩ := List.forall_mem_cons.1 h
    have hstep : readStep p (false, tags) s = (false, tags) := by
      rw [readStep_eq]
      cases hq : prof s with
      | none => simp
      | some q => simp [show q ≠ p from fun heq => hs (heq ▸ hq)]
    rw [List.foldl_cons, hstep]
    exact ih hss

theorem read_on (h : ∀ s ∈ ss, prof s = none) (tags : List Text) :
    ss.foldl (readStep p) (true, tags) = (true, tags ++ ss.map Statement.text) := by
  induction ss generalizing tags with
  | nil => simp
  | cons s ss ih =>
    obtain ⟨hs, hss⟩ := List.forall_mem_cons.1 h
    rw [List.foldl_cons, readStep_eq, hs, Option.map_none, Option.getD_none, if_pos rfl, ih hss, List.map_cons,
      List.append_assoc]
    rfl

theorem readStep_own {s : Statement} (h : prof s = some p) (r : Bool × List Text) :
    readStep p r s = (true, r.2 ++ [s.text]) := by
  simp [readStep_eq, h]

/-- The section ends with the next interface. -/
theorem read_rest (h : ∀ s ∈ ss, prof s ≠ some p) (hhead : ∀ s, ss.head? = some s → prof s ≠ none) (tags : List Text) :
    (ss.foldl (readStep p) (true, tags)).2 = tags := by
  cases ss with
  | nil => rfl
  | cons s ss =>
    obtain ⟨hs, hss⟩ := List.forall_mem_cons.1 h
    have hstep : readStep p (true, tags) s = (false, tags) := by
      rw [readStep_eq]
      cases hq : prof s with
      | none => exact absurd hq (hhead s rfl)
      | some q => simp [show q ≠ p from fun heq => hs (heq ▸ hq)]
    rw [List.foldl_cons, hstep, read_off hss]

end

/-! ## What is written -/

/-- What rocknet reads of the lines. -/
def Holds (out : List Text) (ss : List Statement) : Prop :=
  (∀ t ∈ out, runsOn (stripComment t) = false) ∧ out.filterMap clean = ss

section
variable {out : List Text} {ss ts : List Statement} {l p : Text} {w : Writing} {s : Statement}

theorem Holds.statements (h : Holds out ss) : statements out = ss := (statements_eq h.1).trans h.2

theorem Holds.append {out' : List Text} {ss' : List Statement} (h : Holds out ss) (h' : Holds out' ss') :
    Holds (out ++ out') (ss ++ ss') :=
  ⟨fun t ht => (List.mem_append.1 ht).elim (h.1 t) (h'.1 t), by rw [List.filterMap_append, h.2, h'.2]⟩

theorem holds_line {t : Text} {o : Option Statement} (h : Reads t o) : Holds [t] o.toList := by
  refine ⟨by simpa using h.1, ?_⟩
  rw [List.filterMap_cons, h.2]
  cases o <;> rfl

theorem Holds.blank (h : Holds out ss) : Holds (out ++ [[]]) ss := by
  have hblank : Holds [[]] [] := holds_line (o := none) ⟨rfl, rfl⟩
  simpa using h.append hblank

theorem holds_tags (h : ∀ s ∈ ts, ∃ l, Sane l ∧ clean l = some s) (g : Bool) :
    Holds (writeTags g (ts.map Statement.text)) ts := by
  induction ts with
  | nil => exact ⟨by simp [writeTags], rfl⟩
  | cons s ts ih =>
    obtain ⟨⟨l, hl, hs⟩, hts⟩ := List.forall_mem_cons.1 h
    have hcons : writeTags g ((s :: ts).map Statement.text) =
        [indented (g || interface.isPrefixOf s.text) s.text] ++ writeTags g (ts.map Statement.text) := by
      simp [writeTags, Statement.text]
    rw [hcons]
    exact (holds_line (tag_reads hl hs _)).append (ih hts)

/-- What is read of the new file once the statements are in it. -/
def Wrote (ts : List Statement) (w : Writing) (ss : List Statement) : Prop :=
  (w.dumped = true → Holds w.out ss) ∧ (w.dumped = false → ∃ as, Holds w.out as ∧ ss = as ++ ts)

theorem holds_dump (hts : ∀ g, Holds (writeTags g (ts.map Statement.text)) ts) (hw : w.passit = false)
    (h : Wrote ts w ss) :
    Holds (dump (ts.map Statement.text) w).out ss ∧ (dump (ts.map Statement.text) w).dumped = true ∧
      (dump (ts.map Statement.text) w).passit = false := by
  rw [dump]
  cases hd : w.dumped with
  | true => simpa [hw, hd] using h.1 hd
  | false =>
    obtain ⟨as, has, rfl⟩ := h.2 hd
    simpa [hw] using has.append (hts w.globals)

theorem dump_passing (hw : w.passit = true) (tags : List Text) : dump tags w = w := by
  rw [dump, hw]
  rfl

theorem enter_eq (p : Text) (s : Statement) (w : Writing) :
    enter p s w = match prof s with
      | none => w
      | some q => { w with passit := !decide (q = p), out := w.out ++ [[]], globals := false } := by
  rw [enter, prof]
  by_cases hcmd : s.cmd = interface <;> simp [hcmd]

/-- A line that is passed through: of another section. -/
theorem holds_pass (hl : Sane l) (hr : raw l = some s) (h : Holds w.out ss) (hother : prof s ≠ some p)
    (hin : w.passit = true ∨ prof s ≠ none) :
    (pass s (enter p s w)).passit = true ∧ (pass s (enter p s w)).dumped = w.dumped ∧
      Holds (pass s (enter p s w)).out (ss ++ (clean l).toList) := by
  have hline : ∀ g, Holds [indented g s.text] (clean l).toList := fun g => holds_line (pass_reads hl hr g)
  rw [enter_eq]
  cases hq : prof s with
  | none =>
    have hpass : w.passit = true := hin.resolve_right (by simp [hq])
    change (pass s w).passit = true ∧ (pass s w).dumped = w.dumped ∧ Holds (pass s w).out (ss ++ (clean l).toList)
    rw [pass, if_pos hpass]
    exact ⟨hpass, rfl, h.append (hline _)⟩
  | some q =>
    have hne : q ≠ p := fun heq => hother (heq ▸ hq)
    simp only [pass, hne, decide_false, Bool.not_false, if_true]
    exact ⟨trivial, trivial, h.blank.append (hline _)⟩

/-- A line of the loop. -/
def writeLine (p : Text) (tags : List Text) (w : Writing) (l : Text) : Writing :=
  writeStep p tags w (unescape l).1

theorem writeLine_eq (p : Text) (tags : List Text) (w : Writing) (l : Text) :
    writeLine p tags w l = match raw l with
      | none => w
      | some s => pass s (enter p s (dump tags w)) := rfl

/-- Outside of the section. -/
theorem line_pass (hl : Sane l) (hother : (raw l).bind prof ≠ some p) (hw : w.passit = true) (h : Holds w.out ss)
    (tags : List Text) :
    (writeLine p tags w l).passit = true ∧ (writeLine p tags w l).dumped = w.dumped ∧
      Holds (writeLine p tags w l).out (ss ++ (clean l).toList) := by
  rw [writeLine_eq]
  cases hr : raw l with
  | none =>
    rw [clean_none hl hr]
    exact ⟨hw, rfl, by simpa using h⟩
  | some s =>
    rw [hr, Option.bind_some] at hother
    simp only [dump_passing hw]
    exact holds_pass hl hr h hother (.inl hw)

/-- The section starts. -/
theorem line_enter (hown : (raw l).bind prof = some p) (hw : w.passit = true) (h : Holds w.out ss) (tags : List Text) :
    (writeLine p tags w l).passit = false ∧ (writeLine p tags w l).dumped = w.dumped ∧
      Holds (writeLine p tags w l).out ss := by
  obtain ⟨s, hr, hs⟩ := Option.bind_eq_some_iff.1 hown
  simp only [writeLine_eq, hr, dump_passing hw, enter_eq, hs, pass, decide_true, Bool.not_true]
  exact ⟨rfl, rfl, h.blank⟩

/-- In the section nothing is passed through. -/
theorem line_within (hts : ∀ g, Holds (writeTags g (ts.map Statement.text)) ts) (hnone : (raw l).bind prof = none)
    (hw : w.passit = false) (h : Wrote ts w ss) :
    (writeLine p (ts.map Statement.text) w l).passit = false ∧
      Wrote ts (writeLine p (ts.map Statement.text) w l) ss := by
  rw [writeLine_eq]
  cases hr : raw l with
  | none => exact ⟨hw, h⟩
  | some s =>
    rw [hr, Option.bind_some] at hnone
    obtain ⟨hout, hdumped, hpassit⟩ := holds_dump hts hw h
    simp only [enter_eq, hnone, pass, hpassit]
    exact ⟨hpassit, fun _ => hout, fun hd => absurd (hd.symm.trans hdumped) (by simp)⟩

/-- Another section starts behind it. -/
theorem line_leave (hts : ∀ g, Holds (writeTags g (ts.map Statement.text)) ts) (hl : Sane l) {q : Text}
    (hr : (raw l).bind prof = some q) (hq : q ≠ p) (hw : w.passit = false) (h : Wrote ts w ss) :
    (writeLine p (ts.map Statement.text) w l).passit = true ∧ (writeLine p (ts.map Statement.text) w l).dumped = true ∧
      Holds (writeLine p (ts.map Statement.text) w l).out (ss ++ (clean l).toList) := by
  obtain ⟨s, hs, hprof⟩ := Option.bind_eq_some_iff.1 hr
  obtain ⟨hout, hdumped, -⟩ := holds_dump hts hw h
  have hother : prof s ≠ some p := fun heq => hq (Option.some.inj (hprof.symm.trans heq))
  obtain ⟨hpass, hsame, hholds⟩ := holds_pass hl hs hout hother (.inr (by simp [hprof]))
  rw [writeLine_eq, hs]
  exact ⟨hpass, hsame.trans hdumped, hholds⟩

theorem run_pass {ls : List Text} (hls : ∀ l ∈ ls, Sane l ∧ (raw l).bind prof ≠ some p) (hw : w.passit = true)
    (h : Holds w.out ss) (tags : List Text) :
    (ls.foldl (writeLine p tags) w).passit = true ∧ (ls.foldl (writeLine p tags) w).dumped = w.dumped ∧
      Holds (ls.foldl (writeLine p tags) w).out (ss ++ ls.filterMap clean) := by
  induction ls generalizing w ss with
  | nil => exact ⟨hw, rfl, by simpa using h⟩
  | cons l ls ih =>
    obtain ⟨⟨hl, hother⟩, hrest⟩ := List.forall_mem_cons.1 hls
    obtain ⟨hpass, hdumped, hholds⟩ := line_pass hl hother hw h tags
    obtain ⟨hpass', hdumped', hholds'⟩ := ih hrest hpass hholds
    refine ⟨hpass', hdumped'.trans hdumped, ?_⟩
    rw [List.filterMap_cons]
    cases hc : clean l <;> simpa [hc] using hholds'

theorem run_within (hts : ∀ g, Holds (writeTags g (ts.map Statement.text)) ts) {ls : List Text}
    (hls : ∀ l ∈ ls, (raw l).bind prof = none) (hw : w.passit = false) (h : Wrote ts w ss) :
    (ls.foldl (writeLine p (ts.map Statement.text)) w).passit = false ∧
      Wrote ts (ls.foldl (writeLine p (ts.map Statement.text)) w) ss := by
  induction ls generalizing w with
  | nil => exact ⟨hw, h⟩
  | cons l ls ih =>
    obtain ⟨hl, hrest⟩ := List.forall_mem_cons.1 hls
    obtain ⟨hpass, hwrote⟩ := line_within hts hl hw h
    exact ih hrest hpass hwrote

theorem finish_holds (hts : ∀ g, Holds (writeTags g (ts.map Statement.text)) ts) (h : Wrote ts w ss) (p : Text) :
    Holds (finish p (ts.map Statement.text) w) ss := by
  have hout : ∀ {as}, Holds w.out as → Holds (if w.globals then w.out else w.out ++ [[]]) as := by
    intro as has
    split
    · exact has
    · exact has.blank
  simp only [finish]
  cases hd : w.dumped with
  | true => exact hout (h.1 hd)
  | false =>
    obtain ⟨as, has, rfl⟩ := h.2 hd
    exact (hout has).append (hts _)

/-- **From the section on**: its lines, and the other sections behind it. -/
theorem section_run (hts : ∀ g, Holds (writeTags g (ts.map Statement.text)) ts) {ls ks : List Text}
    (hls : ∀ l ∈ ls, (raw l).bind prof = none) (hks : ∀ l ∈ ks, Sane l ∧ (raw l).bind prof ≠ some p)
    (hhead : ∀ l, ks.head? = some l → (raw l).bind prof ≠ none) (hw : w.passit = false) (h : Wrote ts w ss) :
    Holds (finish p (ts.map Statement.text) ((ls ++ ks).foldl (writeLine p (ts.map Statement.text)) w))
      (ss ++ ks.filterMap clean) := by
  obtain ⟨hpass, hwrote⟩ := run_within hts hls hw h
  rw [List.foldl_append]
  cases ks with
  | nil => simpa using finish_holds hts hwrote p
  | cons l ks =>
    obtain ⟨⟨hl, hother⟩, hrest⟩ := List.forall_mem_cons.1 hks
    obtain ⟨q, hq⟩ := Option.ne_none_iff_exists'.1 (hhead l rfl)
    have hne : q ≠ p := fun heq => hother (heq ▸ hq)
    obtain ⟨hpass', hdumped, hholds⟩ := line_leave hts hl hq hne hpass hwrote
    obtain ⟨-, hdumped', hholds'⟩ := run_pass hrest hpass' hholds (ts.map Statement.text)
    refine finish_holds hts ⟨fun _ => ?_, fun hd => absurd (hd.symm.trans (hdumped'.trans hdumped)) (by simp)⟩ p
    rw [List.filterMap_cons]
    cases hc : clean l <;> simpa [hc] using hholds'

end

/-! ## A section of the file -/

section
variable {file as bs ks : List Text} {p l : Text} {s : Statement}

theorem writeSection_eq (h : ∀ l ∈ file, Sane l) (p : Text) (tags : List Text) :
    writeSection p tags file =
      finish p tags (file.foldl (writeLine p tags) ⟨true, decide (p ≠ []), false, []⟩) := by
  rw [writeSection, logical_alone fun l hl => (h l hl).ends, List.foldl_map]
  rfl

theorem mem_clean (h : s ∈ file.filterMap clean) : ∃ l ∈ file, clean l = some s ∧ profLine l = prof s := by
  obtain ⟨l, hl, hs⟩ := List.mem_filterMap.1 h
  exact ⟨l, hl, hs, by rw [profLine, hs, Option.bind_some]⟩

theorem clean_other (h : ∀ l ∈ file, profLine l ≠ some p) : ∀ s ∈ file.filterMap clean, prof s ≠ some p := by
  intro s hs
  obtain ⟨l, hl, -, hprof⟩ := mem_clean hs
  exact hprof ▸ h l hl

theorem clean_global (h : ∀ l ∈ file, profLine l = none) : ∀ s ∈ file.filterMap clean, prof s = none := by
  intro s hs
  obtain ⟨l, hl, -, hprof⟩ := mem_clean hs
  exact hprof ▸ h l hl

theorem clean_head (h : ∀ l, ks.head? = some l → profLine l ≠ none) :
    ∀ s, (ks.filterMap clean).head? = some s → prof s ≠ none := by
  intro s hs
  cases ks with
  | nil => cases hs
  | cons l ks =>
    have hprof := h l rfl
    rw [profLine] at hprof
    cases hc : clean l with
    | none => exact absurd (by rw [hc]; rfl) hprof
    | some s' =>
      rw [List.filterMap_cons, hc] at hs
      obtain rfl : s' = s := by simpa using hs
      rwa [hc, Option.bind_some] at hprof

/-- The statements of the global section. -/
theorem readSection_global (h : ∀ l ∈ bs ++ ks, Sane l) (hbs : ∀ l ∈ bs, profLine l = none)
    (hks : ∀ l ∈ ks, profLine l ≠ some []) (hhead : ∀ l, ks.head? = some l → profLine l ≠ none) :
    readSection [] (bs ++ ks) = (bs.filterMap clean).map Statement.text := by
  rw [readSection, statements_eq fun l hl => (h l hl).ends', List.filterMap_append, List.foldl_append,
    decide_eq_true rfl, read_on (clean_global hbs), read_rest (clean_other hks) (clean_head hhead), List.nil_append]

/-- The statements of an interface. -/
theorem readSection_own (h : ∀ a ∈ as ++ l :: (bs ++ ks), Sane a) (hp : p ≠ []) (has : ∀ l ∈ as, profLine l ≠ some p)
    (hs : clean l = some s) (hprof : prof s = some p) (hbs : ∀ l ∈ bs, profLine l = none)
    (hks : ∀ l ∈ ks, profLine l ≠ some p) (hhead : ∀ l, ks.head? = some l → profLine l ≠ none) :
    readSection p (as ++ l :: (bs ++ ks)) = (s :: bs.filterMap clean).map Statement.text := by
  have hends : ∀ a ∈ as ++ l :: (bs ++ ks), runsOn (stripComment a) = false := fun a ha => (h a ha).ends'
  rw [readSection, statements_eq hends, List.filterMap_append, List.filterMap_cons, hs,
    List.filterMap_append, List.foldl_append, decide_eq_false hp, read_off (clean_other has), List.foldl_cons,
    readStep_own hprof, List.foldl_append, read_on (clean_global hbs), read_rest (clean_other hks) (clean_head hhead)]
  rfl

/-- The lines from the first interface on. -/
theorem split_global (file : List Text) : ∃ bs ks, file = bs ++ ks ∧ (∀ l ∈ bs, profLine l = none) ∧
    ∀ l, ks.head? = some l → profLine l ≠ none := by
  refine ⟨file.takeWhile (fun l => (profLine l).isNone), file.dropWhile (fun l => (profLine l).isNone),
    List.takeWhile_append_dropWhile.symm, fun l hl => by simpa using List.mem_takeWhile_imp hl, fun l hl hnone => ?_⟩
  have hhead := List.head?_dropWhile_not (fun l => (profLine l).isNone) file
  rw [hl] at hhead
  simp [hnone] at hhead

theorem Named.split {rest : List Text} (h : Named (as ++ l :: rest)) (hl : profLine l = some p) :
    (∀ a ∈ as, profLine a ≠ some p) ∧ ∀ a ∈ rest, profLine a ≠ some p := by
  have honce := h.once
  rw [List.filterMap_append, List.filterMap_cons, hl] at honce
  have hnot := List.nodup_middle.1 honce
  rw [List.nodup_cons, List.mem_append, not_or] at hnot
  exact ⟨fun a ha heq => hnot.1.1 (List.mem_filterMap.2 ⟨a, ha, heq⟩),
    fun a ha heq => hnot.1.2 (List.mem_filterMap.2 ⟨a, ha, heq⟩)⟩

/-- What the loop that writes takes for the names is what they are, or has a comment. -/
theorem raw_other (hl : Sane l) (hp : Clear true p) (h : profLine l ≠ some p) : (raw l).bind prof ≠ some p :=
  fun heq => h (((raw_prof hl).2 p hp).1 heq).1

theorem raw_none (hl : Sane l) : (raw l).bind prof = none ↔ profLine l = none := (raw_prof hl).1

theorem holds_section (h : ∀ l ∈ file, Sane l) (ts : List Statement) (hts : ∀ s ∈ ts, s ∈ file.filterMap clean)
    (g : Bool) : Holds (writeTags g (ts.map Statement.text)) ts := by
  refine holds_tags (fun s hs => ?_) g
  obtain ⟨l, hl, hc⟩ := List.mem_filterMap.1 (hts s hs)
  exact ⟨l, h l hl, hc⟩

/-- The global section is written in front of the others. -/
theorem holds_global (h : ∀ l ∈ file, Sane l) (hn : Named file) :
    Holds (writeSection [] (readSection [] file) file) (file.filterMap clean) := by
  obtain ⟨bs, ks, rfl, hbs, hhead⟩ := split_global file
  have hks : ∀ l ∈ ks, profLine l ≠ some [] := by
    intro l hl hnil
    exact hn.ne [] (List.mem_filterMap.2 ⟨l, List.mem_append_right _ hl, hnil⟩) rfl
  have hsane : ∀ l ∈ ks, Sane l := fun l hl => h l (List.mem_append_right _ hl)
  have hts := holds_section h (bs.filterMap clean) fun s hs => by
    rw [List.filterMap_append]
    exact List.mem_append_left _ hs
  rw [readSection_global h hbs hks hhead, writeSection_eq h, List.filterMap_append]
  refine section_run hts (fun l hl => (raw_none (h l (List.mem_append_left _ hl))).2 (hbs l hl))
    (fun l hl => ⟨hsane l hl, raw_other (hsane l hl) trivial (hks l hl)⟩)
    (fun l hl hnone => hhead l hl ((raw_none (hsane l (List.mem_of_head? hl))).1 hnone)) rfl
    ⟨fun hd => absurd hd (by simp), fun _ => ⟨[], ⟨by simp, rfl⟩, rfl⟩⟩

/-- The statements of an interface are written in its place; with a comment at its name, behind all others. -/
theorem holds_own (h : ∀ l ∈ file, Sane l) (hn : Named file) (hl : l ∈ file) (hp : profLine l = some p) :
    (stripComment l = l → Holds (writeSection p (readSection p file) file) (file.filterMap clean)) ∧
      (stripComment l ≠ l → ∃ s ts,
        Holds (writeSection p (readSection p file) file) (file.filterMap clean ++ s :: ts)) := by
  obtain ⟨as, rest, rfl⟩ := List.append_of_mem hl
  obtain ⟨has, hrest⟩ := hn.split hp
  obtain ⟨bs, ks, rfl, hbs, hhead⟩ := split_global rest
  obtain ⟨s, hs, hprof⟩ := Option.bind_eq_some_iff.1 hp
  have hne : p ≠ [] := hn.ne p (List.mem_filterMap.2 ⟨l, hl, hp⟩)
  have hclear : Clear true p := clear_prof (h l hl) hp
  have hks : ∀ l ∈ ks, profLine l ≠ some p := fun a ha => hrest a (List.mem_append_right _ ha)
  have hread := readSection_own h hne has hs hprof hbs hks hhead
  have hwhole : (as ++ l :: (bs ++ ks)).filterMap clean =
      as.filterMap clean ++ s :: bs.filterMap clean ++ ks.filterMap clean := by
    simp [List.filterMap_append, hs]
  have hts := holds_section h (s :: bs.filterMap clean) fun t ht => by
    rw [hwhole]
    exact List.mem_append_left _ (List.mem_append_right _ ht)
  have hstart : Holds [] [] := ⟨by simp, rfl⟩
  rw [hread, writeSection_eq h, decide_eq_true hne]
  refine ⟨fun hplain => ?_, fun hcomment => ?_⟩
  · obtain ⟨hpass, hdumped, hout⟩ := run_pass (p := p) (w := ⟨true, true, false, []⟩)
      (fun a ha => ⟨h a (List.mem_append_left _ ha), raw_other (h a (List.mem_append_left _ ha)) hclear (has a ha)⟩)
      rfl hstart ((s :: bs.filterMap clean).map Statement.text)
    have hown : (raw l).bind prof = some p := ((raw_prof (h l hl)).2 p hclear).2 ⟨hp, hplain⟩
    obtain ⟨hpass', hdumped', hout'⟩ := line_enter hown hpass hout ((s :: bs.filterMap clean).map Statement.text)
    have hsane : ∀ a ∈ bs ++ ks, Sane a := fun a ha => h a (List.mem_append_right _ (List.mem_cons_of_mem _ ha))
    have hksane : ∀ a ∈ ks, Sane a := fun a ha => hsane a (List.mem_append_right _ ha)
    rw [List.foldl_append, List.foldl_cons, hwhole]
    refine section_run hts (fun a ha => (raw_none (hsane a (List.mem_append_left _ ha))).2 (hbs a ha))
      (fun a ha => ⟨hksane a ha, raw_other (hksane a ha) hclear (hks a ha)⟩)
      (fun a ha hnone => hhead a ha ((raw_none (hksane a (List.mem_of_head? ha))).1 hnone)) hpass'
      ⟨fun hd => absurd (hd.symm.trans (hdumped'.trans hdumped)) (by simp), fun _ => ⟨_, hout', rfl⟩⟩
  · have hother : ∀ a ∈ as ++ l :: (bs ++ ks), Sane a ∧ (raw a).bind prof ≠ some p := by
      intro a ha
      refine ⟨h a ha, ?_⟩
      rcases List.mem_append.1 ha with hmem | hmem
      · exact raw_other (h a ha) hclear (has a hmem)
      rcases List.mem_cons.1 hmem with rfl | hmem
      · exact fun hown => hcomment (((raw_prof (h a ha)).2 p hclear).1 hown).2
      · exact raw_other (h a ha) hclear (hrest a hmem)
    obtain ⟨-, hdumped, hout⟩ := run_pass (w := ⟨true, true, false, []⟩) hother rfl hstart
      ((s :: bs.filterMap clean).map Statement.text)
    exact ⟨s, bs.filterMap clean,
      finish_holds hts ⟨fun hd => absurd (hd.symm.trans hdumped) (by simp), fun _ => ⟨_, hout, rfl⟩⟩ p⟩

end

/-- **The editor leaves the file what it is if no comment stands behind the name of the section.** -/
theorem section_iff {file : List Text} {p : Text} (h : ∀ l ∈ file, Sane l) (hn : Named file)
    (hp : p = [] ∨ p ∈ file.filterMap profLine) :
    parsed (writeSection p (readSection p file) file) = parsed file ↔
      ∀ l ∈ file, profLine l = some p → stripComment l = l := by
  have hfile : statements file = file.filterMap clean := statements_eq fun a ha => (h a ha).ends'
  rcases hp with rfl | hmem
  · refine iff_of_true ?_ fun l hl hprof => absurd rfl (hn.ne [] (List.mem_filterMap.2 ⟨l, hl, hprof⟩))
    rw [parsed, parsed, (holds_global h hn).statements, hfile]
  constructor
  · intro heq l hl hprof
    by_contra hcomment
    obtain ⟨s, ts, hholds⟩ := (holds_own h hn hl hprof).2 hcomment
    have hlength := congrArg List.length heq
    rw [parsed, parsed, length_withInterface, length_withInterface, hholds.statements, hfile,
      List.length_append] at hlength
    simp at hlength
  · intro hall
    obtain ⟨l, hl, hprof⟩ := List.mem_filterMap.1 hmem
    rw [parsed, parsed, ((holds_own h hn hl hprof).1 (hall l hl hprof)).statements, hfile]

/-- A comment in front of a section, and one behind its statement. -/
def lanFile : List Text :=
  ["hostname t2", "# lan", "interface eth0", "\tip 10.0.0.1/24 # router", "", "interface wlan0(home)", "\tessid *"].map
    String.toList

theorem section_lan :
    parsed (writeSection "eth0".toList (readSection "eth0".toList lanFile) lanFile) = parsed lanFile :=
  (section_iff (by decide +kernel) ⟨by decide +kernel, by decide +kernel⟩ (.inr (by decide +kernel))).2
    (by decide +kernel)

/-- A comment behind the name. -/
def commentFile : List Text := ["interface eth0 # lan", "\tip 10.0.0.1/24"].map String.toList

/-- The section is there a second time. -/
theorem section_twice :
    Named commentFile ∧ "eth0".toList ∈ commentFile.filterMap profLine ∧
      writeSection "eth0".toList (readSection "eth0".toList commentFile) commentFile =
        ["", "interface eth0 # lan", "\tip 10.0.0.1/24", "", "interface eth0", "\tip 10.0.0.1/24"].map String.toList ∧
      parsed (writeSection "eth0".toList (readSection "eth0".toList commentFile) commentFile) ≠ parsed commentFile :=
  ⟨⟨by decide +kernel, by decide +kernel⟩, by decide +kernel, by decide +kernel, by decide +kernel⟩

end T2Sde.Rocknet
