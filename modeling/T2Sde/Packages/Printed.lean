import T2Sde.Packages.Switch
import T2Sde.Desc.PkgList
/-!
# What `Create-PkgList` prints is read as well-formed entries

A printed line has an empty field only for the status and the version, so nowhere in it two blanks follow a slash
(`printed_no_gap`), and what is read for the categories does not start with a blank.
-/
namespace T2Sde.Packages
open Shell Pattern Lua
open Desc (Awk record printPackage spaced)

/-- The record of some `.desc` file. -/
def Printed (s : Awk) : Prop := ∃ arch kernel f, record arch kernel f = some s

theorem wordChar_eq (c : Char) : wordChar c = !isSpace c := rfl

theorem field_of_word {w : Text} (h : Desc.Word w) : Field wordChar w :=
  ⟨h.1, fun c hc => by simp [wordChar_eq, h.2 c hc]⟩

theorem word_of_field {w : Text} (h : Field wordChar w) : Desc.Word w :=
  ⟨h.ne, fun c hc => by simpa [wordChar_eq] using h.chars c hc⟩

theorem spaced_append (us vs : List Text) : spaced (us ++ vs) = spaced us ++ spaced vs := by
  simp [spaced]

/-! ## No gap behind a slash -/

/-- Somewhere two blanks follow a slash. -/
def Gap (t : Text) : Prop := ∃ u v, t = u ++ '/' :: ' ' :: ' ' :: v

theorem gap_field {a t : Text} (ha : ' ' ∉ a) (h : Gap (a ++ ' ' :: t)) :
    Gap t ∨ ('/' ∈ a ∧ ∃ t', t = ' ' :: t') := by
  obtain ⟨u, v, h⟩ := h
  induction a generalizing u with
  | nil =>
    cases u with
    | nil => simp at h
    | cons c u => exact .inl ⟨u, v, (List.cons.inj h).2⟩
  | cons c a ih =>
    have ha' : ' ' ∉ a := fun hmem => ha (List.mem_cons_of_mem _ hmem)
    cases u with
    | nil =>
      simp only [List.nil_append, List.cons_append, List.cons.injEq] at h
      obtain ⟨rfl, h⟩ := h
      cases a with
      | nil => exact .inr ⟨by simp, v, by simpa using h⟩
      | cons d a =>
        simp only [List.cons_append, List.cons.injEq] at h
        simp [h.1] at ha'
    | cons d u =>
      rcases ih ha' u (List.cons.inj h).2 with h | ⟨hs, ht⟩
      · exact .inl h
      · exact .inr ⟨List.mem_cons_of_mem _ hs, ht⟩

/-- A field without blanks before a text that does not start with one. -/
theorem no_gap_field {a w s : Text} (ha : ' ' ∉ a) (hw : w ≠ [] ∧ ' ' ∉ w) (h : ¬ Gap (w ++ s)) :
    ¬ Gap (a ++ ' ' :: (w ++ s)) := by
  intro hg
  rcases gap_field ha hg with hg | ⟨-, t', ht⟩
  · exact h hg
  · obtain ⟨c, w, rfl⟩ := List.exists_cons_of_ne_nil hw.1
    obtain ⟨rfl, -⟩ := List.cons.inj ht
    exact hw.2 (by simp)

theorem no_gap_words {ws : List Text} (hws : ∀ w ∈ ws, w ≠ [] ∧ ' ' ∉ w) {w : Text} (hw : ' ' ∉ w) :
    ¬ Gap (w ++ spaced ws) := by
  induction ws generalizing w with
  | nil =>
    rintro ⟨u, v, h⟩
    have : ' ' ∈ w ++ spaced [] := by rw [h]; simp
    simp [spaced] at this
    exact hw this
  | cons w' ws ih =>
    obtain ⟨hw', hws⟩ := List.forall_mem_cons.1 hws
    exact no_gap_field hw hw' (ih hws hw'.2)

theorem noBlank_of_noSep {w : Text} (h : ∀ c ∈ w, Desc.isSep c = false) : ' ' ∉ w := by
  intro hmem
  have := h ' ' hmem
  simp [Desc.isSep] at this

theorem noBlank_of_word {w : Text} (h : Desc.Word w) : ' ' ∉ w := by
  intro hmem
  have := h.2 ' ' hmem
  simp [isSpace] at this

/-- **A printed line** has no gap. -/
theorem printed_no_gap {s : Awk} (h : Printed s) : ¬ Gap (printPackage s) := by
  obtain ⟨arch, kernel, f, hf⟩ := h
  obtain ⟨htree, hname⟩ := Desc.record_names hf
  have hs := Desc.record_fields hf
  have htree' : s.pkgtree ≠ [] ∧ ' ' ∉ s.pkgtree := by
    rw [htree]
    exact ⟨f.repositoryWord.1, noBlank_of_word f.repositoryWord⟩
  have hname' : s.package ≠ [] ∧ ' ' ∉ s.package := by
    rw [hname]
    exact ⟨f.nameWord.1, noBlank_of_word f.nameWord⟩
  have hwords : ∀ w ∈ s.categories ++ s.flags ++ [['0']], w ≠ [] ∧ ' ' ∉ w := by
    intro w hw
    simp only [List.mem_append, List.mem_singleton] at hw
    rcases hw with (hw | hw) | rfl
    · exact ⟨(hs.categories w hw).1, noBlank_of_noSep (hs.categories w hw).2⟩
    · exact ⟨(hs.flags w hw).1, noBlank_of_noSep (hs.flags w hw).2⟩
    · decide
  have htail : ¬ Gap (['/'] ++ spaced (s.categories ++ s.flags ++ [['0']])) := no_gap_words hwords (by decide)
  have hver : ¬ Gap (s.ver ++ ' ' :: (['/'] ++ spaced (s.categories ++ s.flags ++ [['0']]))) :=
    no_gap_field (noBlank_of_noSep hs.ver) (by decide) htail
  -- the version may be empty, but no slash is in the name before it
  have hpkg : ¬ Gap (s.package ++ ' ' :: (s.ver ++ ' ' :: (['/'] ++ spaced (s.categories ++ s.flags ++ [['0']])))) := by
    intro hg
    rcases gap_field hname'.2 hg with hg | ⟨hslash, -⟩
    · exact hver hg
    · rw [hname] at hslash
      exact f.nameNoSlash hslash
  have hline : printPackage s = s.defset ++ ' ' :: (s.stages ++ ' ' :: (s.pri ++ ' ' :: (s.pkgtree ++ ' ' ::
      (s.package ++ ' ' :: (s.ver ++ ' ' :: (['/'] ++ spaced (s.categories ++ s.flags ++ [['0']]))))))) := by
    simp [printPackage, spaced]
  rw [hline]
  refine no_gap_field (noBlank_of_noSep hs.defset) ⟨hs.stages.1, noBlank_of_noSep hs.stages.2⟩ ?_
  refine no_gap_field (noBlank_of_noSep hs.stages.2) ⟨hs.pri.1, noBlank_of_noSep hs.pri.2⟩ ?_
  refine no_gap_field (noBlank_of_noSep hs.pri.2) htree' ?_
  exact no_gap_field htree'.2 hname' hpkg

/-- **What is read** from a printed line is well formed. -/
theorem printed_wf {s : Awk} (h : Printed s) {e : Pkg} (he : readLine (printPackage s) = some e) : e.WF := by
  obtain ⟨q, hq, rfl, v, u, huv⟩ := readLine_sound he
  refine hq.wf ?_
  obtain ⟨c, cs, hc⟩ := List.exists_cons_of_ne_nil hq.categoriesNe
  refine ⟨c, by simp [hc], word_of_category (hq.categories c (by simp [hc])) ?_⟩
  rintro rfl
  refine printed_no_gap h ⟨u, cs ++ v, ?_⟩
  rw [← huv, hc]
  rfl

theorem printed_table_wf {rs : List Awk} (h : ∀ s ∈ rs, Printed s) : ∀ e ∈ pkglistread (rs.map printPackage), e.WF := by
  intro e he
  obtain ⟨line, hline, hread⟩ := List.mem_filterMap.1 he
  obtain ⟨s, hs, rfl⟩ := List.mem_map.1 hline
  exact printed_wf (h s hs) hread

end T2Sde.Packages
