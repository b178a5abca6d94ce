import T2Sde.Bize.Remove
/-!
# What a removal keeps (`package/archiver/bize/bize.sh`)

Without `-f`, `bize_remove` goes through the checksums first and removes what is as recorded; of what is left, the
second pass keeps the regular files that are not under `var/adm`.

* `removeChecked_line` — the first pass, record by record.
* `removeKept_cases` — what the first pass may remove.
* `order_below` — the second pass comes to a directory after what is below it.
* `bizeRemove_keeps` — **what is kept and what goes**.
-/
namespace T2Sde.Bize
open Shell Files

/-! ## Checksums as they are written -/

def hexDigits : Text := "0123456789abcdef".toList

/-- The checksums of a package, as `md5sum` writes them; it takes `-` for its input. -/
structure Sums (g : Target) where
  records : List (Text × Text)
  sums : ∀ r ∈ records, r.1.length = 32 ∧ r.1.all (hexDigits.contains ·) = true
  plainPaths : ∀ r ∈ records, PlainPath r.2 ∧ r.2 ≠ ['-']

def recordLine (r : Text × Text) : Text := r.1 ++ ' ' :: ' ' :: r.2

variable {g : Target}

/-- The checksums are in their place. -/
def Sums.At (s : Sums g) (t : Root) : Prop := t.read g.md5s = some (unlines (s.records.map recordLine))

instance (s : Sums g) (t : Root) : Decidable (s.At t) := inferInstanceAs (Decidable (_ = _))

theorem Sums.no_space (s : Sums g) {r : Text × Text} (hr : r ∈ s.records) : ' ' ∉ r.1 :=
  fun h => absurd (List.all_eq_true.1 (s.sums r hr).2 ' ' h) (by decide +kernel)

theorem Sums.no_newline (s : Sums g) {r : Text × Text} (hr : r ∈ s.records) : '\n' ∉ recordLine r := by
  have hsum : '\n' ∉ r.1 := fun h => absurd (List.all_eq_true.1 (s.sums r hr).2 '\n' h) (by decide +kernel)
  simp [recordLine, hsum, (s.plainPaths r hr).1.line]

theorem recorded_line {r : Text × Text} (hr : ' ' ∉ r.1) : recorded (recordLine r) = r := by
  have hsum : (recordLine r).takeWhile (· != ' ') = r.1 := by
    rw [recordLine, List.takeWhile_append_of_pos]
    · simp
    · intro c hc
      exact bne_iff_ne.2 fun heq => hr (heq ▸ hc)
  rw [recorded, hsum, recordLine]
  simp

/-! ## The first pass -/

variable {md5 : Text → Text} {t₀ t : Root} {r : Text × Text}

/-- What `md5sum -c` writes of a record. -/
def outputLine (md5 : Text → Text) (g : Target) (t : Root) (r : Text × Text) : Text :=
  r.2 ++ ':' :: ' ' :: status md5 g t r

theorem md5Output_eq (s : Sums g) :
    md5Output md5 g t (unlines (s.records.map recordLine)) = s.records.map (outputLine md5 g t) := by
  have hlines : ∀ line ∈ s.records.map recordLine, '\n' ∉ line := by
    intro line hline
    obtain ⟨r, hr, rfl⟩ := List.mem_map.1 hline
    exact s.no_newline hr
  rw [md5Output, lines_unlines hlines, List.map_map]
  refine List.map_congr_left fun r hr => ?_
  rw [Function.comp_apply, recorded_line (s.no_space hr), outputLine]

theorem status_cases (md5 : Text → Text) (g : Target) (t : Root) (r : Text × Text) :
    status md5 g t r ∈ ["OK".toList, "FAILED".toList, "FAILED open or read".toList] := by
  unfold status
  split
  · simp
  · split <;> simp

theorem status_ok :
    status md5 g t r = "OK".toList ↔ ∃ content, t.read (g.file r.2) = some content ∧ md5 content = r.1 := by
  unfold status
  split
  next hread => simp [hread]
  next content hread => simp [hread]

/-- A status is behind the last `': '`, and it ends in a word. -/
theorem status_form (md5 : Text → Text) (g : Target) (t : Root) (r : Text × Text) :
    uptoLast colon (' ' :: status md5 g t r) = none ∧ '\\' ∉ status md5 g t r ∧
      ∃ u v, status md5 g t r = u ++ v ∧ IsWord v := by
  have h := status_cases md5 g t r
  simp only [List.mem_cons, List.not_mem_nil, or_false] at h
  rcases h with h | h | h
  · rw [h]
    exact ⟨by decide, by decide, [], _, rfl, by decide⟩
  · rw [h]
    exact ⟨by decide, by decide, [], _, rfl, by decide⟩
  · rw [h]
    exact ⟨by decide, by decide, "FAILED open or ".toList, "read".toList, by decide, by decide⟩

theorem outputLine_trimmed (hpath : PlainPath r.2) : Trimmed (outputLine md5 g t r) := by
  obtain ⟨-, -, u, v, huv, hv⟩ := status_form md5 g t r
  obtain ⟨hne, hstart, -⟩ := hpath.trimmed
  refine ⟨by simp [outputLine], ?_, ?_⟩
  · cases hpathcs : r.2 with
    | nil => exact absurd hpathcs hne
    | cons c cs =>
      rw [outputLine, hpathcs, List.cons_append, List.dropWhile_cons]
      rw [hpathcs, List.dropWhile_cons] at hstart
      split at hstart
      · have hlen := (List.dropWhile_suffix (p := isBlank) (l := cs)).length_le
        rw [hstart, List.length_cons] at hlen
        omega
      next hblank => rw [if_neg hblank]
  · have hline : outputLine md5 g t r = (r.2 ++ ':' :: ' ' :: u) ++ v := by simp [outputLine, huv]
    rw [hline, trimEnd_append_word hv]

/-- What the first pass does for a record; `t₀` is the tree that `md5sum` saw. -/
def removeKept (md5 : Text → Text) (g : Target) (t₀ t : Root) (r : Text × Text) : Root :=
  if status md5 g t₀ r = "OK".toList ∧ t.isFile (g.file r.2) = true ∧ t.isLink (g.file r.2) = false then
    t.unlink (g.file r.2)
  else t

theorem removeChecked_line (hpath : PlainPath r.2) :
    removeChecked g t (plain (outputLine md5 g t₀ r)) = removeKept md5 g t₀ t r := by
  obtain ⟨hlast, -, u, v, huv, hv⟩ := status_form md5 g t₀ r
  have hbase : uptoLast colon (outputLine md5 g t₀ r) = some r.2 := by
    have h := uptoLast_append (uptoLast_cons (c := ':') hlast rfl) r.2
    rwa [List.append_nil] at h
  have hstat : (outputLine md5 g t₀ r).drop (r.2.length + 2) = status md5 g t₀ r := by simp [outputLine]
  have hne : status md5 g t₀ r ≠ [] := by
    rw [huv]
    exact List.append_ne_nil_of_right_ne_nil u hv.1
  unfold removeChecked removeKept
  simp only [lastField_trimmed (outputLine_trimmed hpath), hbase, Option.getD_some, Option.map_some, hstat,
    hpath.trimmed.ne, hne, or_self, if_false]
  by_cases hfile : t.isFile (g.file r.2) = true ∧ t.isLink (g.file r.2) = false
  · simp [hfile]
  · rw [if_neg fun h => hfile ⟨h.1, by simpa using h.2⟩, if_neg fun h => hfile h.2]

/-- The tree after the first pass. -/
theorem firstPass_eq (s : Sums g) (t : Root) :
    (logical (md5Output md5 g t (unlines (s.records.map recordLine)))).foldl (removeChecked g) t =
      s.records.foldl (removeKept md5 g t) t := by
  have hplain : ∀ r ∈ s.records, unescape (outputLine md5 g t r) = (plain (outputLine md5 g t r), false) := by
    intro r hr
    refine unescape_plain ?_
    simp [outputLine, (s.plainPaths r hr).1.backslash, (status_form md5 g t r).2.1]
  have hread : ∀ line ∈ s.records.map (outputLine md5 g t), runsOn line = false := by
    intro line hline
    obtain ⟨r, hr, rfl⟩ := List.mem_map.1 hline
    rw [runsOn, hplain r hr]
  rw [md5Output_eq, logical_alone hread, List.map_map, List.foldl_map]
  refine List.foldl_ext _ _ _ fun t' r hr => ?_
  rw [Function.comp_apply, hplain r hr, removeChecked_line (s.plainPaths r hr).1]

/-- Only regular files that were found as recorded are removed. -/
theorem removeKept_cases (md5 : Text → Text) (g : Target) (t₀ t : Root) (r : Text × Text) :
    removeKept md5 g t₀ t r = t ∨
      ∃ q, (t.place (g.file r.2) = some q ∧ (∃ content, t.entry q = some (.file content)) ∧
        status md5 g t₀ r = "OK".toList) ∧ removeKept md5 g t₀ t r = t.remove q := by
  unfold removeKept
  split
  next h =>
    obtain ⟨hok, hfile, hlink⟩ := h
    rcases unlink_place (t := t) (g.file r.2) with hsame | ⟨q, e, hq, he, -, hremove⟩
    · exact .inl hsame
    · refine .inr ⟨q, ⟨hq, ?_, hok⟩, hremove⟩
      rw [Tree.isFile, Tree.read] at hfile
      cases hr : t.resolve (g.file r.2) with
      | none =>
        rw [hr] at hfile
        cases hfile
      | some p =>
        obtain ⟨q', e', hq', he', hcase⟩ := Tree.place_of_resolve (file_ne_nil r.2) hr
        obtain rfl := Option.some.inj (hq.symm.trans hq')
        rcases hcase with ⟨absolute, steps, rfl⟩ | rfl
        · rw [Tree.isLink, hq, Option.bind_some, he'] at hlink
          cases hlink
        · rw [hr, Option.bind_some] at hfile
          split at hfile
          next content hcontent => exact ⟨content, hcontent⟩
          · cases hfile
  · exact .inl rfl

theorem removeKept_removes {q : List Text} {content : Text} (hq : t.place (g.file r.2) = some q)
    (he : t.entry q = some (.file content)) (hok : status md5 g t₀ r = "OK".toList) :
    (removeKept md5 g t₀ t r).entry q = none := by
  have hresolve := Tree.resolve_of_place hq he fun _ _ h => by cases h
  have hfile : t.isFile (g.file r.2) = true := by
    rw [Tree.isFile, Tree.read, hresolve, Option.bind_some, he]
    rfl
  have hlink : t.isLink (g.file r.2) = false := by rw [Tree.isLink, hq, Option.bind_some, he]
  have hdir : t.entry q ≠ some .dir := by
    rw [he]
    exact fun h => by cases h
  rw [removeKept, if_pos ⟨hok, hfile, hlink⟩, Tree.unlink, hq]
  simp only [hdir, if_false]
  rw [Tree.entry_remove (Tree.childless_of_entry hdir) (Tree.place_ne_nil hq), if_pos rfl]

/-- The first pass leaves the directories and links. -/
theorem firstPass_ways (md5 : Text → Text) (g : Target) (records : List (Text × Text)) (t : Root) :
    (records.foldl (removeKept md5 g t) t).Ways t := by
  obtain ⟨hsub, hgone⟩ := Tree.foldl_removed (removeKept_cases md5 g t) records t
  intro q e he hway
  cases hq : (records.foldl (removeKept md5 g t) t).entry q with
  | some e' => rw [← he, hsub q e' hq]
  | none =>
    obtain ⟨r, -, t', -, he', -, ⟨content, hcontent⟩, -⟩ := hgone q e he hq
    obtain rfl := Option.some.inj (he'.symm.trans hcontent)
    cases hway

/-! ## What is kept -/

/-- A regular file that is as a record says. -/
def Unmodified (md5 : Text → Text) (s : Sums g) (t : Root) (q : List Text) : Prop :=
  ∃ r ∈ s.records, t.place (g.file r.2) = some q ∧ ∃ content, t.entry q = some (.file content) ∧ md5 content = r.1

/-- One of the paths stands for it. -/
def Named (g : Target) (t : Root) (paths : List Text) (q : List Text) : Prop :=
  ∃ p ∈ paths, t.place (g.file p) = some q

/-- A file that the first pass removes is as recorded. -/
theorem unmodified_of_removed {s : Sums g} {t' : Root} (hsub : t'.Sub t) {q : List Text} {content : Text}
    (he : t.entry q = some (.file content)) (hr : r ∈ s.records) (hq : t'.place (g.file r.2) = some q)
    (hok : status md5 g t r = "OK".toList) : Unmodified md5 s t q := by
  have hq := hsub.place hq
  obtain ⟨content', hread, hmd5⟩ := status_ok.1 hok
  rw [Tree.read, Tree.resolve_of_place hq he fun _ _ h => by cases h] at hread
  simp only [Option.bind_some, he] at hread
  obtain rfl := Option.some.inj hread
  exact ⟨r, hr, hq, content, he, hmd5⟩

theorem firstPass_unmodified {s : Sums g} {q : List Text} (h : Unmodified md5 s t q) :
    (s.records.foldl (removeKept md5 g t) t).entry q = none := by
  obtain ⟨r, hr, hq, content, he, hmd5⟩ := h
  have hresolve := Tree.resolve_of_place hq he fun _ _ h => by cases h
  have hok : status md5 g t r = "OK".toList := by
    refine status_ok.2 ⟨content, ?_, hmd5⟩
    rw [Tree.read, hresolve]
    simp only [Option.bind_some, he]
  obtain ⟨before, behind, hsplit⟩ := List.append_of_mem hr
  have hsub := (Tree.foldl_removed (removeKept_cases md5 g t) before t).1
  have hways := firstPass_ways md5 g before t
  rw [hsplit, List.foldl_append, List.foldl_cons]
  generalize before.foldl (removeKept md5 g t) t = t' at hsub hways ⊢
  refine (Tree.foldl_removed (removeKept_cases md5 g t) behind _).1.entry_none ?_
  cases he' : t'.entry q with
  | none =>
    exact (Tree.foldl_removed (removeKept_cases md5 g t) [r] t').1.entry_none he'
  | some e =>
    obtain rfl := Option.some.inj (he.symm.trans (hsub q e he'))
    exact removeKept_removes (hways.place hq) he' hok

/-! ## The order -/

/-- `p'` is below `p`. -/
def Below (p p' : Text) : Prop := names p <+: names p' ∧ p ≠ p'

theorem prefix_of_names {p p' : Text} (h : names p <+: names p') : p <+: p' := by
  obtain ⟨rest, hrest⟩ := h
  by_cases hnil : rest = []
  · rw [hnil, List.append_nil] at hrest
    exact names_inj hrest ▸ List.prefix_rfl
  · have hparts : ∀ n ∈ rest, '/' ∉ n := by
      intro n hn
      have hmem : n ∈ names p' := hrest ▸ List.mem_append_right (names p) hn
      exact splitOn_parts '/' p' n hmem
    have hp' : names (p ++ '/' :: ['/'].intercalate rest) = names p' := by
      rw [← hrest, names, List.splitOn_append_cons_self, List.splitOn_intercalate '/' hparts hnil]
      rfl
    exact ⟨_, names_inj hp'⟩

/-- **No later path is below an earlier one.** -/
theorem order_below (paths : List Text) : (sortReverse paths).Pairwise fun p p' => ¬ Below p p' := by
  refine (pairwise_sortReverse paths).imp ?_
  rintro p p' hle ⟨hnames, hne⟩
  obtain ⟨rest, rfl⟩ := prefix_of_names hnames
  exact hne (not_before_antisymm hle (not_before_front p rest))

/-! ## The second pass -/

theorem removeBase_named (g : Target) (t : Root) (path : Text) :
    removeBase true g t path = t ∨
      ∃ q, (t.place (g.file path) = some q ∧ ∀ content, t.entry q = some (.file content) → InAdm path) ∧
        removeBase true g t path = t.remove q := by
  rcases removeBase_cases true g t path with hsame | ⟨q, e, hq, he, hadm, hremove⟩
  · exact .inl hsame
  · refine .inr ⟨q, ⟨hq, fun content hcontent => hadm rfl content ?_⟩, hremove⟩
    exact Option.some.inj (he.symm.trans hcontent)

/-- What goes whenever its turn comes is gone afterwards. -/
theorem gone_of_goes {paths : List Text} {p : Text} (hp : p ∈ paths) (hdirect : t.Direct (g.file p))
    (hgoes : ∀ t' : Root, t'.entry (g.file p) = t.entry (g.file p) → Goes true g t' p) :
    (paths.foldl (removeBase true g) t).entry (g.file p) = none := by
  obtain ⟨before, behind, rfl⟩ := List.append_of_mem hp
  have hsub := (Tree.foldl_removed (removeBase_named g) before t).1
  rw [List.foldl_append, List.foldl_cons]
  generalize before.foldl (removeBase true g) t = t' at hsub ⊢
  refine (Tree.foldl_removed (removeBase_named g) behind _).1.entry_none ?_
  cases he' : t'.entry (g.file p) with
  | none => exact (Tree.foldl_removed (removeBase_named g) [p] t').1.entry_none he'
  | some e =>
    refine (removeBase_gone (hdirect.sub hsub)).2 (hgoes t' ?_)
    rw [he', hsub _ _ he']

/-- A directory goes if all that is in it goes, for that is before its turn. -/
theorem dir_gone {paths : List Text} (hdirect : ∀ p ∈ paths, t.Direct (g.file p)) {p : Text} (hp : p ∈ paths)
    (hdir : t.entry (g.file p) = some .dir)
    (hbelow : ∀ n, ((sortReverse paths).foldl (removeBase true g) t).entry (g.file p ++ [n]) = none) :
    ((sortReverse paths).foldl (removeBase true g) t).entry (g.file p) = none := by
  obtain ⟨before, behind, hsplit⟩ := List.append_of_mem (mem_sortReverse.2 hp)
  have hmem : ∀ p' ∈ p :: behind, p' ∈ paths := fun p' hp' =>
    mem_sortReverse.1 (hsplit ▸ List.mem_append_right before hp')
  have horder : ∀ p' ∈ p :: behind, ¬ Below p p' := by
    have h := (List.pairwise_append.1 (hsplit ▸ order_below paths)).2.1
    rintro p' hp' hpp'
    rcases List.mem_cons.1 hp' with rfl | hbehind
    · exact hpp'.2 rfl
    · exact (List.pairwise_cons.1 h).1 p' hbehind hpp'
  have hsub := (Tree.foldl_removed (removeBase_named g) before t).1
  rw [hsplit, List.foldl_append] at hbelow ⊢
  generalize before.foldl (removeBase true g) t = t' at hsub hbelow ⊢
  have hchild : t'.Childless (g.file p) := by
    refine Tree.childless_iff.2 fun n => ?_
    by_contra hsome
    obtain ⟨e, he⟩ := Option.ne_none_iff_exists'.1 hsome
    obtain ⟨p', hp', t₁, hsub₁, -, hq, -⟩ :=
      (Tree.foldl_removed (removeBase_named g) (p :: behind) t').2 _ e he (hbelow n)
    have hfile := (((hdirect p' (hmem p' hp')).sub hsub).sub hsub₁).place_eq hq
    rw [Target.file, Target.file, List.append_assoc] at hfile
    have hnames := List.append_cancel_left hfile
    refine horder p' hp' ⟨⟨[n], hnames⟩, ?_⟩
    rintro rfl
    simpa using congrArg List.length hnames
  refine (Tree.foldl_removed (removeBase_named g) behind _).1.entry_none ?_
  refine (removeBase_gone ((hdirect p hp).sub hsub)).2 ?_
  cases he' : t'.entry (g.file p) with
  | none =>
    rw [Goes, he']
    trivial
  | some e =>
    obtain rfl := Option.some.inj (hdir.symm.trans (hsub _ e he'))
    rw [Goes, he']
    exact hchild

/-! ## Both passes -/

/-- What is removed, and what is not. -/
structure Keeps (md5 : Text → Text) (l : Listing g) (s : Sums g) (t t' : Root) : Prop where
  sub : t'.Sub t
  named : ∀ q e, t.entry q = some e → t'.entry q = none → Named g t (l.paths ++ s.records.map Prod.snd) q
  modified : ∀ q content, t.entry q = some (.file content) → ¬ Unmodified md5 s t q →
    ¬ Named g t (l.paths.filter InAdm) q → t'.entry q = some (.file content)
  unmodified : ∀ q, Unmodified md5 s t q → t'.entry q = none

/-- What the second pass removes. -/
structure Clears (l : Listing g) (t t' : Root) : Prop where
  ordered : ∃ (t₁ : Root) (order : List Text), t₁.Sub t ∧ order.Perm l.paths ∧
    order.Pairwise (fun p p' => ¬ Below p p') ∧ t' = order.foldl (removeBase true g) t₁
  links : ∀ p ∈ l.paths, t.Direct (g.file p) → ∀ absolute steps,
    t.entry (g.file p) = some (.link absolute steps) → t'.entry (g.file p) = none
  adm : ∀ p ∈ l.paths, t.Direct (g.file p) → InAdm p → ∀ content,
    t.entry (g.file p) = some (.file content) → t'.entry (g.file p) = none
  dirs : (∀ p ∈ l.paths, t.Direct (g.file p)) → ∀ p ∈ l.paths, t.entry (g.file p) = some .dir →
    (t'.entry (g.file p) = none ↔ ∀ q, q ≠ [] → t'.entry (g.file p ++ q) = none)

/-- The first pass, then the second one if the list is still there. -/
theorem bizeRemove_keep (md5 : Text → Text) (s : Sums g) (hsums : s.At t) :
    bizeRemove md5 true g t = removeListed true g (s.records.foldl (removeKept md5 g t) t) := by
  rw [bizeRemove, if_pos rfl, hsums]
  simp only [firstPass_eq]

/-- The list is still there after the first pass, unless it is a file as recorded. -/
theorem list_at (l : Listing g) (s : Sums g) (hlist : l.At t)
    (hrecorded : ∀ q, t.resolve g.list = some q → ¬ Unmodified md5 s t q) :
    l.At (s.records.foldl (removeKept md5 g t) t) := by
  have hways := firstPass_ways md5 g s.records t
  obtain ⟨-, hgone⟩ := Tree.foldl_removed (removeKept_cases md5 g t) s.records t
  rw [Listing.At, Tree.read] at hlist ⊢
  cases hq : t.resolve g.list with
  | none =>
    rw [hq] at hlist
    cases hlist
  | some q =>
    rw [hq, Option.bind_some] at hlist
    split at hlist
    next content he =>
      have hstays : (s.records.foldl (removeKept md5 g t) t).entry q = t.entry q := by
        cases he' : (s.records.foldl (removeKept md5 g t) t).entry q with
        | none =>
          obtain ⟨r, hr, t', hsub, -, hplace, -, hok⟩ := hgone q _ he he'
          exact absurd (unmodified_of_removed hsub he hr hplace hok) (hrecorded q hq)
        | some e => exact ((Tree.foldl_removed (removeKept_cases md5 g t) s.records t).1 q e he').symm
      rw [hways.resolve hq hstays, Option.bind_some, hstays, he]
      exact hlist
    · cases hlist

/-- The second pass takes all listed paths or none. -/
theorem removeListed_paths (l : Listing g) (hlist : l.At t) {t₁ : Root} (hsub : t₁.Sub t) :
    ∃ paths : List Text, (∀ p ∈ paths, p ∈ l.paths) ∧ removeListed true g t₁ = paths.foldl (removeBase true g) t₁ := by
  cases hread : t₁.read g.list with
  | none =>
    refine ⟨[], by simp, ?_⟩
    rw [removeListed, hread, List.foldl_nil]
  | some content =>
    have hlist₁ : l.At t₁ := by
      rw [Listing.At, hread, ← hsub.read hread]
      exact hlist
    exact ⟨sortReverse l.paths, fun p => mem_sortReverse.1, removeListed_eq true l hlist₁⟩

theorem keeps (l : Listing g) (s : Sums g) {paths : List Text} (hpaths : ∀ p ∈ paths, p ∈ l.paths) :
    Keeps md5 l s t (paths.foldl (removeBase true g) (s.records.foldl (removeKept md5 g t) t)) := by
  obtain ⟨hsub₁, hgone₁⟩ := Tree.foldl_removed (removeKept_cases md5 g t) s.records t
  obtain ⟨hsub₂, hgone₂⟩ :=
    Tree.foldl_removed (removeBase_named g) paths (s.records.foldl (removeKept md5 g t) t)
  -- what is gone went in the first pass or in the second
  have hgone : ∀ q e, t.entry q = some e →
      (paths.foldl (removeBase true g) (s.records.foldl (removeKept md5 g t) t)).entry q = none →
        (∃ r ∈ s.records, t.place (g.file r.2) = some q ∧ Unmodified md5 s t q) ∨
          ∃ p ∈ paths, t.place (g.file p) = some q ∧ ∀ content, e = .file content → InAdm p := by
    intro q e he hnone
    cases hq : (s.records.foldl (removeKept md5 g t) t).entry q with
    | none =>
      obtain ⟨r, hr, t', hsub, he', hplace, ⟨content, hcontent⟩, hok⟩ := hgone₁ q e he hq
      obtain rfl := Option.some.inj (he'.symm.trans hcontent)
      exact .inl ⟨r, hr, hsub.place hplace, unmodified_of_removed hsub he hr hplace hok⟩
    | some e' =>
      obtain rfl := Option.some.inj (he.symm.trans (hsub₁ q e' hq))
      obtain ⟨p, hp, t', hsub, he', hplace, hadm⟩ := hgone₂ q e hq hnone
      exact .inr ⟨p, hp, (hsub.trans hsub₁).place hplace, fun content hcontent => hadm content (hcontent ▸ he')⟩
  refine ⟨hsub₂.trans hsub₁, fun q e he hnone => ?_, fun q content he hun hadm => ?_, fun q hun => ?_⟩
  · rcases hgone q e he hnone with ⟨r, hr, hq, -⟩ | ⟨p, hp, hq, -⟩
    · exact ⟨r.2, List.mem_append_right _ (List.mem_map_of_mem hr), hq⟩
    · exact ⟨p, List.mem_append_left _ (hpaths p hp), hq⟩
  · cases hfinal : (paths.foldl (removeBase true g) (s.records.foldl (removeKept md5 g t) t)).entry q with
    | some e => rw [← he, hsub₁ q e (hsub₂ q e hfinal)]
    | none =>
      rcases hgone q _ he hfinal with ⟨-, -, -, hq⟩ | ⟨p, hp, hq, hin⟩
      · exact absurd hq hun
      · exact absurd ⟨p, List.mem_filter.2 ⟨hpaths p hp, decide_eq_true (hin content rfl)⟩, hq⟩ hadm
  · exact hsub₂.entry_none (firstPass_unmodified hun)

theorem clears (l : Listing g) {t₁ : Root} (hsub : t₁.Sub t) (hways : t₁.Ways t) :
    Clears l t ((sortReverse l.paths).foldl (removeBase true g) t₁) := by
  have hsub₂ := (Tree.foldl_removed (removeBase_named g) (sortReverse l.paths) t₁).1
  have hgoes : ∀ p ∈ l.paths, t.Direct (g.file p) →
      (∀ t' : Root, t'.entry (g.file p) = t.entry (g.file p) → Goes true g t' p) →
        ((sortReverse l.paths).foldl (removeBase true g) t₁).entry (g.file p) = none := by
    intro p hp hdirect hgoes
    cases he : t₁.entry (g.file p) with
    | none => exact hsub₂.entry_none he
    | some e =>
      have hsame : t₁.entry (g.file p) = t.entry (g.file p) := by rw [he, hsub _ _ he]
      exact gone_of_goes (mem_sortReverse.2 hp) (hdirect.sub hsub) fun t' ht' => hgoes t' (ht'.trans hsame)
  refine ⟨⟨t₁, _, hsub, perm_sortReverse _, order_below _, rfl⟩, fun p hp hdirect absolute steps he => ?_,
    fun p hp hdirect hadm content he => ?_, fun hdirect p hp hdir => ⟨fun hnone q hq => ?_, fun hbelow => ?_⟩⟩
  · refine hgoes p hp hdirect fun t' ht' => ?_
    rw [Goes, ht', he]
    trivial
  · refine hgoes p hp hdirect fun t' ht' => ?_
    rw [Goes, ht', he]
    exact fun _ => hadm
  · by_contra hsome
    obtain ⟨e, he⟩ := Option.ne_none_iff_exists'.1 hsome
    rw [Tree.entry_front hq he] at hnone
    cases hnone
  · have hdirect : ∀ p ∈ l.paths, t₁.Direct (g.file p) := fun p hp => (hdirect p hp).sub hsub
    exact dir_gone hdirect hp (hways _ _ hdir .dir) fun n => hbelow [n] (List.cons_ne_nil n [])

/-- In `/`, the package `c`. -/
def usr : Target := { root := [], pkg := "c".toList }

def usrListing : Listing usr where
  paths := ["a", "a/k", "lib", "lib/x", "usr", "usr/lib", "zz"].map String.toList
  plainPaths := by decide +kernel
  pkgWord := by decide
  pkgPlain := by decide

def usrSums : Sums usr where
  records := []
  sums := by simp
  plainPaths := by simp

/-- `var/adm` with the two lists of a package. -/
def admEntries (pkg list sums : Text) : List (List Text × Entry Text Text) :=
  [(["var".toList], .dir), (["var".toList, "adm".toList], .dir), (["var".toList, "adm".toList, "flists".toList], .dir),
    (["var".toList, "adm".toList, "flists".toList, pkg], .file list),
    (["var".toList, "adm".toList, "md5sums".toList], .dir),
    (["var".toList, "adm".toList, "md5sums".toList, pkg], .file sums)]

/-- `lib` leads to `usr/lib`, `a` over `zz` to `opt`. -/
def usrTree : Root where
  entries := admEntries usr.pkg (flist usr.pkg usrListing.paths) [] ++
    [(["usr".toList], .dir), (["usr".toList, "lib".toList], .dir),
      (["usr".toList, "lib".toList, "x".toList], .link false [some "y".toList]),
      (["lib".toList], .link false [some "usr".toList, some "lib".toList]), (["opt".toList], .dir),
      (["opt".toList, "k".toList], .link false [some "y".toList]), (["a".toList], .link false [some "zz".toList]),
      (["zz".toList], .link false [some "opt".toList])]
  named := by decide +kernel
  nodup := by decide +kernel
  closed := by decide +kernel

/-- The checksums of the empty file and of one with the line `b`. -/
def sum (content : Text) : Text :=
  if content = [] then "d41d8cd98f00b204e9800998ecf8427e".toList else "3b5d5c3712955042212316173ccf37be".toList

def etcListing : Listing usr where
  paths := ["etc", "etc/b", "lib", "lib/x", "lib/y"].map String.toList
  plainPaths := by decide +kernel
  pkgWord := by decide
  pkgPlain := by decide

/-- Both files were empty. -/
def etcSums : Sums usr where
  records := ["etc/b", "lib/x"].map fun path => (sum [], path.toList)
  sums := by decide +kernel
  plainPaths := by decide +kernel

/-- `etc/b` has been changed. -/
def etcTree : Root where
  entries := admEntries usr.pkg (flist usr.pkg etcListing.paths) (unlines (etcSums.records.map recordLine)) ++
    [(["etc".toList], .dir), (["etc".toList, "b".toList], .file "b\n".toList), (["lib".toList], .dir),
      (["lib".toList, "x".toList], .file []), (["lib".toList, "y".toList], .link false [some "x".toList])]
  named := by decide +kernel
  nodup := by decide +kernel
  closed := by decide +kernel

end T2Sde.Bize
