import T2Sde.Download.Frame
/-!
# The exit status of `scripts/Download`

If the read loop over the `[D]` lines leaves `downloaderror=0`, each line has its file, with data in
it and, where it was fetched in the run and has a checksum, found equal to that checksum: unless the
line was left in one of the ways that set no error (`excuses`). A lock file found is one of these.
-/
namespace T2Sde.Download
open Shell

/-- The ways a line is left without an error: a message, an alternative file that brought no data, an
archive that was not written. -/
def excuses (gz : Text) : Event → Bool
  | ⟨.say _ q, _⟩ => q == gz
  | ⟨.copyAlt _ _ q, ok⟩ => q == gz && !ok
  | ⟨.pack q, ok⟩ => q == gz && !ok
  | _ => false

/-- The steps that bring a file to its final name. -/
def brings (gz : Text) : Event → Bool
  | ⟨.mv p q, _⟩ => p == incomplete gz && q == gz
  | ⟨.copyAlt _ _ q, _⟩ => q == gz
  | ⟨.pack q, _⟩ => q == gz
  | _ => false

def Excused (gz : Text) (w : World) : Prop := ∃ e ∈ w.trace, excuses gz e = true

def Fetched (gz : Text) (w : World) : Prop := ∃ e ∈ w.trace, brings gz e = true

/-- What the checksum of `gz` is computed of. -/
def dataOf (T : Tools) (gz : Text) (b : Bytes) : Bytes :=
  match getCompressor gz with
  | some cmd => T.decompress cmd b
  | none => b

/-- The content `b` of `gz` has been compared with the checksum and found equal. -/
def Compared (T : Tools) (gz cksum : Text) (b : Bytes) (w : World) : Prop :=
  ∃ own, (cksumCommand (cksumType cksum).1 own, dataOf T gz b, (cksumType cksum).2) ∈ w.digests

/-- What an exit status of 0 promises for a line. -/
structure Handled (T : Tools) (l : DLine) (w : World) : Prop where
  there : hasData (w.files l.gzfile) = true
  checked : Fetched l.gzfile w → noCksum l.cksum = false →
    ∃ b, w.files (checkedName l.gzfile) = some b ∧ Compared T (checkedName l.gzfile) l.cksum b w

/-- Weakest precondition of an uninterrupted run. -/
abbrev Run (T : Tools) {α : Type} (Q : α → World → Prop) (p : P α) (w : World) : Prop :=
  Prog.wp (eff T) (fun _ => True) Q p w

section
variable {T : Tools} {α : Type}

theorem run_of_forall {Q : α → World → Prop} (h : ∀ a w, Q a w) (p : P α) (w : World) : Run T Q p w := by
  induction p generalizing w with
  | ret a => exact h a w
  | op o k ih => exact ⟨trivial, fun a => ih _ _⟩

theorem Run.mono {Q R : α → World → Prop} {p : P α} {w : World} (h : Run T Q p w) (hQ : ∀ a w, Q a w → R a w) :
    Run T R p w := Prog.wp_mono (fun _ h => h) hQ h

/-- A state predicate that no step of the program loses. -/
theorem run_keeps {φ : Op → Prop} {I : World → Prop} (hI : ∀ o w a, φ o → I w → I (eff T o w a).1) {p : P α}
    (hp : Prog.All φ p) {w : World} (hw : I w) : Run T (fun _ => I) p w :=
  Prog.wp_mono (fun _ _ => trivial) (fun _ _ h => h) (Prog.wp_of_all hI hp hw)

theorem excused_eff {gz : Text} {o : Op} {w : World} {a : Ans} (h : Excused gz w) : Excused gz (eff T o w a).1 := by
  obtain ⟨e, he, hx⟩ := h
  exact ⟨e, by rw [trace_eff]; exact List.mem_append_left _ he, hx⟩

theorem excused_last {gz : Text} {o : Op} {w : World} {a : Ans} (h : excuses gz ⟨o, (eff T o w a).2⟩ = true) :
    Excused gz (eff T o w a).1 :=
  ⟨_, by rw [trace_eff]; exact List.mem_append_right _ List.mem_cons_self, h⟩

/-! ## Fetching -/

theorem hasData_mv {p q : Text} {w : World} {a : Ans} (h : hasData (w.files p) = true) :
    hasData ((eff T (.mv p q) w a).1.files q) = true := by
  cases hb : w.files p with
  | none => simp [hb, hasData] at h
  | some b =>
    rw [hb] at h
    simpa [eff, effect, hb] using h

/-- Data under the final name, or an excuse. -/
def Brought (gz : Text) (w : World) : Prop := hasData (w.files gz) = true ∨ Excused gz w

theorem fetch_run (url gz : Text) (w : World) :
    Run T (fun ok w => ok = true → Brought gz w) (fetch url gz) w := by
  unfold fetch
  simp only [Prog.wp_bind, Prog.wp_act, true_and]
  intro _ _
  refine run_of_forall (fun ret w => ?_) _ _
  split
  · simp
  · refine Prog.wp_op trivial fun a => ?_
    split
    · simp
    · rename_i hdata
      have hinc : hasData (w.files (incomplete gz)) = true := by simpa [eff, effect] using hdata
      refine Prog.wp_op trivial fun a' => ?_
      split
      · exact Prog.wp_op trivial fun a'' _ => .inl (hasData_mv hinc)
      · refine Prog.wp_op trivial fun a₁ => Prog.wp_op trivial fun a₂ _ => .inr ?_
        exact excused_eff (excused_last (by simp [excuses]))

theorem pack_run (gz : Text) (w : World) (a : Ans) : Brought gz (eff T (.pack gz) w a).1 := by
  by_cases h : hasData a.data = true
  · exact .inl (by simpa [eff, effect] using h)
  · exact .inr (excused_last (by simpa [excuses, eff, effect] using h))

theorem downloadFrom_run (location gz : Text) (w : World) :
    Run T (fun ok w => ok = true → Brought gz w) (downloadFrom location gz) w := by
  unfold downloadFrom checkout
  split
  · exact fetch_run _ gz w
  · split
    · simp
    · simp only [Prog.wp_bind, Prog.wp_act, true_and]
      intro a
      split
      · simp
      · simp only [Prog.wp_bind, Prog.wp_act, true_and, Prog.wp_pure]
        intro a' _
        exact pack_run gz _ a'

theorem downloadFileNow_run (o : Opts) (location gz : Text) (w : World) :
    Run T (fun ok w => ok = true → Brought gz w) (downloadFileNow o location gz) w := by
  unfold downloadFileNow
  split
  · refine Prog.wp_op trivial fun a => ?_
    by_cases hthere : a.yes = true
    · rw [if_pos (by exact hthere)]
      exact downloadFrom_run _ gz _
    · rw [if_neg (by exact hthere)]
      simp
  · exact downloadFrom_run _ gz w

theorem obtain_run (o : Opts) (location gz : Text) (w : World) :
    Run T (fun err w => err = true ∨ Brought gz w) (obtain o location gz) w := by
  have hurl : ∀ w, Run T (fun ok w => (!ok) = true ∨ Brought gz w) (downloadFileNow o location gz) w := by
    intro w
    refine (downloadFileNow_run o location gz w).mono fun ok w h => ?_
    cases ok with
    | true => exact .inr (h rfl)
    | false => exact .inl rfl
  unfold obtain
  refine Prog.wp_bind.2 (run_of_forall (fun alt w => ?_) _ _)
  cases alt with
  | some alt =>
    refine Prog.wp_op trivial fun a => .inr ?_
    by_cases h : hasData a.data = true
    · exact .inl (by simpa [eff, effect] using h)
    · exact .inr (excused_last (by simpa [excuses, eff, effect] using h))
  | none =>
    refine Prog.wp_op trivial fun a => ?_
    split
    · refine Prog.wp_bind.2 ((downloadFileNow_run o _ gz _).mono fun ok w h => ?_)
      split
      · rename_i hok
        exact .inr (h hok)
      · exact Prog.wp_bind.2 (hurl w)
    · exact Prog.wp_bind.2 (hurl _)

/-! ## Checking -/

/-- A passed check of `x` has compared its content, and left the files as they are. -/
theorem cksumChk_run {o : Opts} {x cksum gz : Text} {b : Bytes} {w : World} (hcheck : o.nocheck = false)
    (hx : w.files x = some b) :
    Run T (fun ok w' => ok = true → w'.files = w.files ∧ (noCksum cksum = false →
      ∃ own, (cksumCommand (cksumType cksum).1 own, b, (cksumType cksum).2) ∈ w'.digests))
      (cksumChk o x cksum gz) w := by
  unfold cksumChk
  by_cases hno : noCksum cksum = true
  · rw [if_pos (by simp [hno])]
    exact fun _ => ⟨rfl, fun h => absurd hno (by simp [h])⟩
  · rw [if_neg (by simp [hcheck, hno])]
    refine Prog.wp_op trivial fun a => Prog.wp_op trivial fun a' => ?_
    split
    · exact Prog.wp_op trivial fun _ h => absurd h (by decide)
    · rename_i hsum
      have hsum : T.digest (cksumCommand (cksumType cksum).1 a.yes) b = (cksumType cksum).2 := by
        simpa [eff, effect, hx] using hsum
      refine fun _ => ⟨by simp [eff, effect, hx], fun _ => ⟨a.yes, ?_⟩⟩
      rw [← hsum]
      simp [eff, effect, hx]

theorem testCksum_run {o : Opts} {cksum gz : Text} {b : Bytes} {w : World} (hcheck : o.nocheck = false)
    (hgz : w.files gz = some b) :
    Run T (fun ok w' => ok = true → (∀ p, p ≠ tempFile o.pid → w'.files p = w.files p) ∧
      (noCksum cksum = false → Compared T gz cksum b w')) (testCksum o cksum gz) w := by
  unfold testCksum Compared dataOf
  cases hc : getCompressor gz with
  | none =>
    refine (cksumChk_run hcheck hgz).mono fun ok w' h hok => ?_
    exact ⟨fun p _ => by rw [(h hok).1], (h hok).2⟩
  | some cmd =>
    refine Prog.wp_op trivial fun a => Prog.wp_bind.2 ?_
    have htemp : (eff T (.decompress cmd gz (tempFile o.pid)) w a).1.files (tempFile o.pid) =
        some (T.decompress cmd b) := by simp [eff, effect, hgz]
    refine (cksumChk_run hcheck htemp).mono fun ok w' h => Prog.wp_op trivial fun a' hok => ?_
    obtain ⟨hfiles, hcmp⟩ := h hok
    refine ⟨fun p hp => ?_, fun hno => ?_⟩
    · rw [files_eff (by simpa [Op.writes] using hp), hfiles, files_eff (by simpa [Op.writes] using hp)]
    · obtain ⟨own, hmem⟩ := hcmp hno
      exact ⟨own, digests_eff hmem⟩

/-- There, and compared if it can be. -/
structure Vetted (T : Tools) (gz cksum : Text) (w : World) : Prop where
  there : hasData (w.files gz) = true
  checked : noCksum cksum = false → ∃ b, w.files (checkedName gz) = some b ∧ Compared T (checkedName gz) cksum b w

def Settled (T : Tools) (l : DLine) (w : World) : Prop := Excused l.gzfile w ∨ Handled T l w

theorem Vetted.handled {l : DLine} {w : World} (h : Vetted T l.gzfile l.cksum w) : Handled T l w :=
  ⟨h.there, fun _ => h.checked⟩

theorem unlock_run {gz : Text} {err : Bool} {Q : Bool → World → Prop} {w : World}
    (h : ∀ a a', Q err (eff T (.trapInt false) (eff T (.rm (lockFile gz)) w a).1 a').1) : Run T Q (unlock gz err) w :=
  Prog.wp_op trivial fun a => Prog.wp_op trivial fun a' => h a a'

theorem unlock_excused {gz : Text} {err : Bool} {w : World} (h : err = true ∨ Excused gz w) (cksum : Text) :
    Run T (fun err w => err = true ∨ Excused gz w ∨ Vetted T gz cksum w) (unlock gz err) w :=
  unlock_run fun _ _ => h.imp_right fun h => .inl (excused_eff (excused_eff h))

theorem compare_run {o : Opts} {cksum gz : Text} {w : World} (hcheck : o.nocheck = false)
    (hgz : gz.head? = some 'd') (hname : (checkedName gz).head? = some 'd')
    (hthere : hasData (w.files gz) = true) (hmade : (w.files (checkedName gz)).isSome = true) :
    Run T (fun err w => err = true ∨ Excused gz w ∨ Vetted T gz cksum w) (compare o cksum gz (checkedName gz)) w := by
  obtain ⟨b, hb⟩ := Option.isSome_iff_exists.1 hmade
  refine Prog.wp_bind.2 ((testCksum_run hcheck hb).mono fun ok w' h => unlock_run fun a a' => ?_)
  cases ok with
  | false => exact .inl rfl
  | true =>
    obtain ⟨hfiles, hcmp⟩ := h rfl
    have hkeep : ∀ p : Text, p.head? = some 'd' →
        (eff T (.trapInt false) (eff T (.rm (lockFile gz)) w' a).1 a').1.files p = w.files p := by
      intro p hp
      rw [files_eff (by simp [Op.writes]),
        files_eff (by simpa [Op.writes] using ne_of_head hp (lockFile_head gz)),
        hfiles p (ne_of_head hp (tempFile_head _))]
    refine .inr (.inr ⟨by rw [hkeep gz hgz]; exact hthere, fun hno => ⟨b, by rw [hkeep _ hname]; exact hb, ?_⟩⟩)
    obtain ⟨own, hmem⟩ := hcmp hno
    exact ⟨own, digests_eff (digests_eff hmem)⟩

theorem verify_run {o : Opts} {cksum gz : Text} {w : World} (hcheck : o.nocheck = false)
    (hgz : gz.head? = some 'd') (hname : (checkedName gz).head? = some 'd') (hthere : hasData (w.files gz) = true) :
    Run T (fun err w => err = true ∨ Excused gz w ∨ Vetted T gz cksum w) (verify o cksum gz) w := by
  unfold verify
  by_cases hs : isSigned gz = true
  · rw [if_pos hs]
    have hunsign : Run T (fun _ w' => hasData (w'.files gz) = true) (unsign gz) w := by
      unfold unsign
      refine Prog.wp_op trivial fun a => ?_
      split
      · refine ⟨trivial, fun a' => ?_⟩
        show hasData ((eff T (.gpg gz (checkedName gz)) _ a').1.files gz) = true
        rw [files_eff (by simpa [Op.writes] using (checkedName_ne hs).symm)]
        exact hthere
      · exact hthere
    refine Prog.wp_bind.2 (hunsign.mono fun _ w' hthere' => Prog.wp_op trivial fun a => ?_)
    by_cases hmade : (w'.files (checkedName gz)).isSome = true
    · rw [if_neg (by simpa [eff, effect, Option.isSome_iff_ne_none] using hmade)]
      exact compare_run hcheck hgz hname hthere' hmade
    · rw [if_pos (by simpa [eff, effect] using hmade)]
      exact Prog.wp_op trivial fun a' => unlock_excused (.inr (excused_last (by simp [excuses]))) _
  · rw [if_neg hs]
    have hsame : checkedName gz = gz := if_neg hs
    have hmade : (w.files (checkedName gz)).isSome = true := by
      rw [hsame]
      cases hf : w.files gz with
      | none => simp [hf, hasData] at hthere
      | some b => rfl
    have hcompare : Run T (fun err w => err = true ∨ Excused gz w ∨ Vetted T gz cksum w)
        (compare o cksum gz (checkedName gz)) w := compare_run hcheck hgz hname hthere hmade
    rwa [hsame] at hcompare

/-! ## A line -/

theorem lockedPart_run {o : Opts} {cksum location gz : Text} {w : World} (hdo : o.checkonly = false)
    (hcheck : o.nocheck = false) (hgz : gz.head? = some 'd') (hname : (checkedName gz).head? = some 'd') :
    Run T (fun err w => err = true ∨ Excused gz w ∨ Vetted T gz cksum w) (lockedPart o cksum location gz) w := by
  unfold lockedPart
  rw [if_neg (by simp [hdo])]
  refine Prog.wp_op trivial fun a => ?_
  split
  · rename_i hthere
    exact verify_run hcheck hgz hname hthere
  · refine Prog.wp_op trivial fun a => ?_
    split
    · exact unlock_excused (.inl rfl) _
    · refine Prog.wp_op trivial fun a => ?_
      split
      · exact unlock_excused (.inl rfl) _
      · split
        · exact Prog.wp_op trivial fun a => unlock_excused (.inr (excused_last (by simp [excuses]))) _
        · refine Prog.wp_bind.2 ((obtain_run o _ gz _).mono fun err w hw => Prog.wp_op trivial fun a => ?_)
          split
          · rename_i hthere
            have hthere : hasData (w.files gz) = false := by simpa [eff, effect] using hthere
            refine unlock_excused (hw.imp_right fun h => excused_eff ?_) _
            exact h.resolve_left (by simp [hthere])
          · rename_i hthere
            have hthere : hasData ((eff T (.nonEmpty gz) w a).1.files gz) = true := by simpa [eff, effect] using hthere
            refine Prog.wp_bind.2 ((verify_run hcheck hgz hname hthere).mono fun err' w' h => ?_)
            exact h.imp_left fun h => by simp [h]

theorem fetched_eff {gz : Text} {o : Op} {w : World} {a : Ans} (h : gz ∉ o.writes)
    (hf : Fetched gz (eff T o w a).1) : Fetched gz w := by
  obtain ⟨e, he, hb⟩ := hf
  rw [trace_eff, List.mem_append, List.mem_singleton] at he
  rcases he with he | rfl
  · exact ⟨e, he, hb⟩
  · cases o <;> simp_all [brings, Op.writes]

/-- Either settled, or not fetched so far. -/
def Ready (T : Tools) (l : DLine) (w : World) : Prop := Fetched l.gzfile w → Settled T l w

theorem downloadFile_run {o : Opts} {l : DLine} {w : World} (hdo : o.checkonly = false) (hcheck : o.nocheck = false)
    (h : Ready T l w) : Run T (fun err w => err = true ∨ Settled T l w) (downloadFile o l) w := by
  unfold downloadFile
  refine Prog.wp_op trivial fun a => ?_
  split
  · rename_i hthere
    have hthere : hasData (w.files l.gzfile) = true := by simpa [eff, effect, hdo] using hthere
    refine .inr ?_
    by_cases hf : Fetched l.gzfile w
    · rcases h hf with hx | hx
      · exact .inl (excused_eff hx)
      · exact .inr ⟨hthere, fun _ => hx.checked hf⟩
    · exact .inr ⟨hthere, fun hf' => absurd (fetched_eff (by simp [Op.writes]) hf') hf⟩
  · refine Prog.wp_op trivial fun a => ?_
    split
    · exact Prog.wp_op trivial fun a => .inr (.inl (excused_last (by simp [excuses])))
    · refine Prog.wp_op trivial fun a => Prog.wp_op trivial fun a => Prog.wp_op trivial fun a => ?_
      refine (lockedPart_run hdo hcheck (gzfile_head l) (checkedName_head l)).mono fun err w h => ?_
      exact h.imp_right fun h => h.imp_right Vetted.handled

/-! ## All lines -/

/-- What the lines of a package may name: the same file only with the same checksum, and no file that
another line works with. -/
structure Apart (o : Opts) (ls : List DLine) : Prop where
  same : ∀ l ∈ ls, ∀ l' ∈ ls, l.gzfile = l'.gzfile → l.cksum = l'.cksum
  apart : ∀ l ∈ ls, ∀ l' ∈ ls, l.gzfile ≠ l'.gzfile →
    l.gzfile ∉ touches o l'.gzfile ∧ checkedName l.gzfile ∉ touches o l'.gzfile

theorem Own.not_writes {o : Opts} {gz p : Text} {op : Op} (h : Own o gz op) (hp : p ∉ touches o gz) : p ∉ op.writes :=
  fun hmem => hp (h.1 p hmem)

/-- The handling of another line. -/
theorem handled_eff {o : Opts} {l : DLine} {gz : Text} {op : Op} {w : World} {a : Ans} (hop : Own o gz op)
    (hgz : l.gzfile ∉ touches o gz) (hname : checkedName l.gzfile ∉ touches o gz) (h : Handled T l w) :
    Handled T l (eff T op w a).1 where
  there := by
    rw [files_eff (hop.not_writes hgz)]
    exact h.there
  checked hf hno := by
    obtain ⟨b, hb, own, hmem⟩ := h.checked (fetched_eff (hop.not_writes hgz) hf) hno
    exact ⟨b, by rw [files_eff (hop.not_writes hname)]; exact hb, own, digests_eff hmem⟩

theorem settled_eff {o : Opts} {l : DLine} {gz : Text} {op : Op} {w : World} {a : Ans} (hop : Own o gz op)
    (hgz : l.gzfile ∉ touches o gz) (hname : checkedName l.gzfile ∉ touches o gz) (h : Settled T l w) :
    Settled T l (eff T op w a).1 :=
  h.imp excused_eff (handled_eff hop hgz hname)

theorem ready_eff {o : Opts} {l : DLine} {gz : Text} {op : Op} {w : World} {a : Ans} (hop : Own o gz op)
    (hgz : l.gzfile ∉ touches o gz) (hname : checkedName l.gzfile ∉ touches o gz) (h : Ready T l w) :
    Ready T l (eff T op w a).1 :=
  fun hf => settled_eff hop hgz hname (h (fetched_eff (hop.not_writes hgz) hf))

theorem settled_congr {l l' : DLine} {w : World} (hgz : l.gzfile = l'.gzfile) (hck : l.cksum = l'.cksum) :
    Settled T l w → Settled T l' w := by
  rintro (h | h)
  · exact .inl (hgz ▸ h)
  · exact .inr ⟨hgz ▸ h.there, by have := h.checked; rwa [hgz, hck] at this⟩

/-- A line does not unsettle the others. -/
theorem others_run {o : Opts} {l : DLine} {ls : List DLine} {w : World} (hdo : o.checkonly = false)
    (hcheck : o.nocheck = false) (hap : Apart o ls) (hl : l ∈ ls) (h : Ready T l w) {l' : DLine} (hl' : l' ∈ ls) :
    Run T (fun err w' => err = true ∨ (Ready T l' w → Ready T l' w') ∧ (Settled T l' w → Settled T l' w'))
      (downloadFile o l) w := by
  by_cases hgz : l.gzfile = l'.gzfile
  · refine (downloadFile_run hdo hcheck h).mono fun err w' h => h.imp_right fun h => ?_
    have h' := settled_congr hgz (hap.same l hl l' hl' hgz) h
    exact ⟨fun _ _ => h', fun _ => h'⟩
  · obtain ⟨h₁, h₂⟩ := hap.apart l' hl' l hl (Ne.symm hgz)
    have hkeep : ∀ op v a, Own o l.gzfile op →
        (Ready T l' w → Ready T l' v) ∧ (Settled T l' w → Settled T l' v) →
        (Ready T l' w → Ready T l' (eff T op v a).1) ∧ (Settled T l' w → Settled T l' (eff T op v a).1) :=
      fun op v a hop hv => ⟨fun hr => ready_eff hop h₁ h₂ (hv.1 hr), fun hr => settled_eff hop h₁ h₂ (hv.2 hr)⟩
    exact (run_keeps hkeep (own_downloadFile o l) ⟨id, id⟩).mono fun _ _ h => .inr h

/-- Properties of a run, for all members at once. -/
theorem run_all {ι : Type} {C : World → Prop} {Q : ι → α → World → Prop} {s : ι → Prop} {p : P α} {w : World} 
    (h : ∀ i, s i → Prog.wp (eff T) C (Q i) p w) (hC : Prog.wp (eff T) C (fun _ _ => True) p w) :
    Prog.wp (eff T) C (fun a w => ∀ i, s i → Q i a w) p w := by
  induction p generalizing w with
  | ret a => exact h
  | op o k ih => exact ⟨hC.1, fun a => ih _ (fun i hi => (h i hi).2 a) (hC.2 a)⟩

theorem package_run {o : Opts} {all ls : List DLine} {w : World} (hdo : o.checkonly = false)
    (hcheck : o.nocheck = false) (hap : Apart o all) (hls : ∀ l ∈ ls, l ∈ all) (h : ∀ l ∈ all, Ready T l w) :
    Run T (fun err w' => err = true ∨ (∀ l ∈ all, Settled T l w → Settled T l w') ∧ ∀ l ∈ ls, Settled T l w')
      (package o ls) w := by
  induction ls generalizing w with
  | nil => exact .inr ⟨fun _ _ => id, by simp⟩
  | cons l ls ih =>
    have hl := hls l List.mem_cons_self
    have hhead := downloadFile_run hdo hcheck (h l hl)
    have hothers := run_all (s := (· ∈ all)) (fun l' hl' => others_run hdo hcheck hap hl (h l hl) hl')
      (run_of_forall (fun _ _ => trivial) _ _)
    unfold package
    refine Prog.wp_bind.2 (Run.mono (Prog.wp_mono (fun _ _ => trivial) (fun _ _ h => h) (Prog.wp_and hhead hothers))
      fun err w' hw => Prog.wp_bind.2 ?_)
    cases err with
    | true => exact run_of_forall (fun _ _ => .inl rfl) _ _
    | false =>
      obtain ⟨hset, hoth⟩ := hw
      have hset : Settled T l w' := hset.resolve_left (by decide)
      have hoth : ∀ l' ∈ all, (Ready T l' w → Ready T l' w') ∧ (Settled T l' w → Settled T l' w') :=
        fun l' hl' => (hoth l' hl').resolve_left (by decide)
      refine (ih (fun l' hl' => hls l' (List.mem_cons_of_mem _ hl')) fun l' hl' => (hoth l' hl').1 (h l' hl')).mono ?_
      rintro err' w'' (herr | ⟨hkeep, hrest⟩)
      · exact .inl (by simp [herr])
      · refine .inr ⟨fun l' hl' hs => hkeep l' hl' ((hoth l' hl').2 hs), ?_⟩
        rintro l' (_ | ⟨_, hl'⟩)
        · exact hkeep l hl hset
        · exact hrest l' hl'

end

/-! ## Runs that promise nothing -/

/-- An exit status of 0 promises all lines, whatever the outside answers. -/
def Promises (T : Tools) (o : Opts) (ls : List DLine) (files : Text → Option Bytes) : Prop :=
  ∀ as w, Lts.run (Prog.step (eff T)) (⟨files, [], []⟩, package o ls) as = some (w, .ret false) →
    ∀ l ∈ ls, Handled T l w

/-- Exit status 0, and a condition on the files. -/
def endsWith (c : World → Bool) : Option (World × P Bool) → Bool
  | some (w, .ret false) => c w
  | _ => false

theorem not_promises {T : Tools} {o : Opts} {ls : List DLine} {files : Text → Option Bytes} {c : World → Bool}
    {l : DLine} (hl : l ∈ ls) (hc : ∀ w, c w = true → ¬Handled T l w) (as : List Ans)
    (h : endsWith c (Lts.run (Prog.step (eff T)) (⟨files, [], []⟩, package o ls) as) = true) :
    ¬Promises T o ls files := by
  intro hp
  cases hrun : Lts.run (Prog.step (eff T)) (⟨files, [], []⟩, package o ls) as with
  | none => simp [hrun, endsWith] at h
  | some x =>
    rcases x with ⟨w, ⟨_ | _⟩ | _⟩
    · exact hc w (by simpa [hrun, endsWith] using h) (hp as w hrun l hl)
    · simp [hrun, endsWith] at h
    · simp [hrun, endsWith] at h

theorem not_handled_missing {T : Tools} {l : DLine} {w : World} (h : (!hasData (w.files l.gzfile)) = true) :
    ¬Handled T l w := by
  intro hh
  simp [hh.there] at h

/-- A line whose file is missing at the end. -/
theorem missing_unpromised {T : Tools} {o : Opts} {files : Text → Option Bytes} (l : DLine) (as : List Ans)
    (h : endsWith (fun w => !hasData (w.files l.gzfile))
      (Lts.run (Prog.step (eff T)) (⟨files, [], []⟩, package o [l]) as) = true) : ¬Promises T o [l] files :=
  not_promises List.mem_cons_self (fun _ => not_handled_missing) as h

theorem not_handled_unchecked {T : Tools} {l : DLine} (hck : noCksum l.cksum = false) {w : World}
    (h : (w.trace.any (brings l.gzfile) && w.digests.isEmpty) = true) : ¬Handled T l w := by
  intro hh
  rw [Bool.and_eq_true, List.any_eq_true] at h
  obtain ⟨b, -, own, hmem⟩ := hh.checked h.1 hck
  rw [List.isEmpty_iff.1 h.2] at hmem
  exact absurd hmem (by simp)

/-! ## The exit status -/

/-- **A run that leaves `downloaderror=0` has the file of each line it did not pass over, and has compared
what it fetched.** -/
theorem exit_status {o : Opts} {ls : List DLine} {files : Text → Option Bytes} {as : List Ans} {w : World}
    (hdo : o.checkonly = false) (hcheck : o.nocheck = false) (hap : Apart o ls)
    (hrun : Lts.run (Prog.step (eff T)) (⟨files, [], []⟩, package o ls) as = some (w, .ret false)) :
    ∀ l ∈ ls, Excused l.gzfile w ∨ Handled T l w := by
  have hstart : ∀ l ∈ ls, Ready T l ⟨files, [], []⟩ := by
    rintro l - ⟨e, he, -⟩
    exact absurd he (by simp)
  have hend := Prog.wp_end (package_run hdo hcheck hap (fun _ h => h) hstart) hrun
  exact (hend.resolve_left (by decide)).2

theorem exit_status_zlib :
    ∃ w, Lts.run (Prog.step (eff plainTools)) (⟨noFiles, [], []⟩, package defaultOpts [zlibPlain])
        (fetched ++ List.replicate 6 quiet) = some (w, .ret false) ∧
      ∀ l ∈ [zlibPlain], Excused l.gzfile w ∨ Handled plainTools l w := by
  have hrun : ∃ w, Lts.run (Prog.step (eff plainTools)) (⟨noFiles, [], []⟩, package defaultOpts [zlibPlain])
      (fetched ++ List.replicate 6 quiet) = some (w, .ret false) := ⟨_, rfl⟩
  obtain ⟨w, hw⟩ := hrun
  have hap : Apart defaultOpts [zlibPlain] := ⟨by simp, by simp⟩
  exact ⟨w, hw, exit_status rfl rfl hap hw⟩

theorem word_zero : IsWord "0".toList := by decide

def zlibUnchecked : DLine := zlib "0" "zlib" "http://zlib.net/" word_zero word_zlib
def zlibPart : DLine := zlib "0" "zlib.incomplete" "http://zlib.net/" word_zero (by decide)
def zlibQuestionable : DLine := zlib "a" "zlib" "?http://zlib.net/" word_a word_zlib
def zlibGz : DLine := zlib "a" "zlib.gz" "http://zlib.net/" word_a (by decide)
def zlibGit : DLine := zlib "a" "zlib" "git://zlib.net/zlib" word_a word_zlib
def zlibGpg : DLine := zlib "a" "zlib.gpg" "http://zlib.net/" word_a (by decide)

/-- A lock file found, the same file with two checksums, a file that is the `.incomplete` of another; then
the other ways a line is passed over. -/
theorem exit_unsound :
    ¬Promises plainTools defaultOpts [zlibPlain] (upd noFiles (lockFile zlibPlain.gzfile) (some [1])) ∧
    ¬Promises plainTools defaultOpts [zlibUnchecked, zlibPlain] noFiles ∧
    ¬Promises plainTools defaultOpts [zlibPart, zlibUnchecked] noFiles ∧
    ¬Promises plainTools defaultOpts [zlibQuestionable] noFiles ∧
    ¬Promises plainTools defaultOpts [zlibGz] noFiles ∧
    ¬Promises plainTools { defaultOpts with altdir := "/alt".toList } [zlibPlain] noFiles ∧
    ¬Promises plainTools defaultOpts [zlibGit] noFiles ∧
    ¬Promises plainTools defaultOpts [zlibGpg] noFiles := by
  refine ⟨?lock, ?twice, ?part, ?questionable, ?mismatch, ?alternative, ?archive, ?unsign⟩
  case lock => exact missing_unpromised zlibPlain (List.replicate 3 quiet) rfl
  case twice =>
    exact not_promises (l := zlibPlain) (by simp) (fun _ => not_handled_unchecked (by decide))
      (fetched ++ List.replicate 5 quiet) rfl
  case part =>
    exact not_promises (l := zlibPart) (by simp) (fun _ => not_handled_missing)
      (fetched ++ List.replicate 4 quiet ++ fetched ++ List.replicate 4 quiet) rfl
  case questionable => exact missing_unpromised zlibQuestionable (List.replicate 11 quiet) rfl
  case mismatch => exact missing_unpromised zlibGz (List.replicate 18 sends) rfl
  case alternative => exact missing_unpromised zlibPlain (List.replicate 13 (texts "/alt/zlib")) rfl
  case archive => exact missing_unpromised zlibGit (List.replicate 14 { quiet with yes := true }) rfl
  case unsign =>
    exact not_promises (l := zlibGpg) (by simp) (fun _ => not_handled_unchecked (by decide))
      (fetched ++ List.replicate 8 quiet) rfl

end T2Sde.Download
