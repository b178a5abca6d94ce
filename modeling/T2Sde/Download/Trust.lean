import T2Sde.Download.Status
/-!
# Files that are there are trusted

`download_file` takes a file that is under its final name as downloaded. `exposed` is the time from the
step that brings a file under its final name to the checksum found equal, or to the renaming to
`.cksum-err`. A run that is not killed in this time leaves a compared file or none.

| here | `scripts/Download` |
| --- | --- |
| `brings`  | `mv "$gzfile"{.incomplete,}` :618, `cp`, `mv` :424-430, `mv $tarname` :735 |
| `clears`  | `$cksum "$1"` printing the checksum :234, `mv "$3" "$3.cksum-err"` :238 |
-/
namespace T2Sde.Download
open Shell

def clears (gz sum : Text) : Event → Bool
  | ⟨.digest _ _, x⟩ => x == sum
  | ⟨.mv p _, _⟩ => p == gz
  | _ => false

def expose (gz sum : Text) (x : Bool) (e : Event) : Bool :=
  if brings gz e then true else if clears gz sum e then false else x

/-- The file has got its final name, and its checksum is still to be found equal. -/
def exposed (gz sum : Text) (t : List Event) : Bool := t.foldl (expose gz sum) false

/-- The content under the final name, if any, has been compared with the checksum and found equal. -/
def Trusted (T : Tools) (gz cksum : Text) (w : World) : Prop :=
  ∀ b, w.files gz = some b → b ≠ [] → Compared T gz cksum b w

/-- What holds wherever a run can be killed. -/
def Guarded (T : Tools) (gz cksum : Text) (w : World) : Prop :=
  exposed gz (cksumType cksum).2 w.trace = true ∨ Trusted T gz cksum w

section
variable {T : Tools} {gz cksum : Text} {o : Op} {w : World} {a : Ans}

theorem exposed_eff {sum : Text} :
    exposed gz sum (eff T o w a).1.trace = expose gz sum (exposed gz sum w.trace) ⟨o, (eff T o w a).2⟩ := by
  rw [trace_eff, exposed, List.foldl_append]
  rfl

theorem trusted_noData (h : hasData (w.files gz) = false) : Trusted T gz cksum w := by
  intro b hb hne
  cases b with
  | nil => exact absurd rfl hne
  | cons x b => simp [hb, hasData] at h

theorem trusted_eff (hw : gz ∉ o.writes) (h : Trusted T gz cksum w) : Trusted T gz cksum (eff T o w a).1 := by
  intro b hb hne
  rw [files_eff hw] at hb
  obtain ⟨own, hmem⟩ := h b hb hne
  exact ⟨own, digests_eff hmem⟩

/-- A step that is not about the final name, and computes no checksum equal to that of the line. -/
theorem guarded_eff (hw : gz ∉ o.writes) (hc : clears gz (cksumType cksum).2 ⟨o, (eff T o w a).2⟩ = false)
    (h : Guarded T gz cksum w) : Guarded T gz cksum (eff T o w a).1 := by
  rcases h with h | h
  · left
    rw [exposed_eff, h, expose, hc]
    simp
  · exact .inr (trusted_eff hw h)

theorem clears_eq_false {sum : Text} {r : Res o} (hw : gz ∉ o.writes) (hd : ∀ cmd p, o ≠ .digest cmd p) :
    clears gz sum ⟨o, r⟩ = false := by
  cases o with
  | digest cmd p => exact absurd rfl (hd cmd p)
  | mv p q =>
    simp only [Op.writes, List.mem_cons, not_or] at hw
    simpa [clears] using Ne.symm hw.1
  | _ => rfl

theorem guarded_brings (h : brings gz ⟨o, (eff T o w a).2⟩ = true) : Guarded T gz cksum (eff T o w a).1 := by
  left
  rw [exposed_eff, expose, if_pos h]

/-- The file is moved away. -/
theorem trusted_mv {q : Text} (hq : q ≠ gz) : Trusted T gz cksum (eff T (.mv gz q) w a).1 := by
  refine trusted_noData ?_
  cases hb : w.files gz with
  | none => simp [eff, effect, hb, hasData]
  | some b => simp [eff, effect, hb, hasData, Ne.symm hq]

theorem coversFetch_guarded (T : Tools) (gz cksum : Text) :
    CoversFetch (fun op => ∀ w a, Guarded T gz cksum w → Guarded T gz cksum (eff T op w a).1) gz := by
  have hkeep : ∀ op : Op, gz ∉ op.writes → (∀ cmd p, op ≠ .digest cmd p) → ∀ w a,
      Guarded T gz cksum w → Guarded T gz cksum (eff T op w a).1 :=
    fun op hw hd w a h => guarded_eff hw (clears_eq_false hw hd) h
  have hinc : gz ≠ incomplete gz := (suffix_ne (by decide)).symm
  have hext : gz ≠ extckErr gz := (suffix_ne (by decide)).symm
  constructor
  case read => exact fun op hw _ hd => hkeep op (by simp [hw]) hd
  case say => exact fun m => hkeep _ (by simp [Op.writes]) (by simp)
  case curl => exact fun b u => hkeep _ (by simpa [Op.writes] using hinc) (by simp)
  case rmIncomplete => exact hkeep _ (by simpa [Op.writes] using hinc) (by simp)
  case final => exact fun w a _ => guarded_brings (by simp [brings])
  case extck => exact hkeep _ (by simp [Op.writes, hinc, hext]) (by simp)
  case copyAlt => exact fun how alt w a _ => guarded_brings (by simp [brings])
  case pack => exact fun w a _ => guarded_brings (by simp [brings])

/-! ## The parts of a run -/

/-- Weakest precondition of a run that can be killed wherever the file is guarded. -/
abbrev Killable (T : Tools) (gz cksum : Text) {α : Type} (Q : α → World → Prop) (p : P α) (w : World) : Prop :=
  Prog.wp (eff T) (Guarded T gz cksum) Q p w

theorem killable_op {α : Type} {Q : α → World → Prop} {f : Res o → P α} (hw : gz ∉ o.writes)
    (h : Trusted T gz cksum w) (hf : ∀ r w, Trusted T gz cksum w → Killable T gz cksum Q (f r) w) :
    Killable T gz cksum Q (act o >>= f) w :=
  Prog.wp_op (.inr h) fun _ => hf _ _ (trusted_eff hw h)

theorem unlock_trusted {lk : Text} {err : Bool} (hlk : gz ≠ lockFile lk) (h : Trusted T gz cksum w) :
    Killable T gz cksum (fun _ => Trusted T gz cksum) (unlock lk err) w :=
  killable_op (by simpa [Op.writes] using hlk) h fun _ _ h =>
    killable_op (by simp [Op.writes]) h fun _ _ h => h

/-- Checking `x`, which has what is to be compared of `gz`. -/
theorem cksumChk_trusted {o : Opts} {x : Text} (hcheck : o.nocheck = false) (hno : noCksum cksum = false)
    (hx : ∀ b, w.files gz = some b → w.files x = some (dataOf T gz b)) (h : Guarded T gz cksum w) :
    Killable T gz cksum (fun _ => Trusted T gz cksum) (cksumChk o x cksum gz) w := by
  unfold cksumChk
  rw [if_neg (by simp [hcheck, hno])]
  refine Prog.wp_op h fun a => ?_
  have h₁ := guarded_eff (T := T) (o := .hasCommand ((cksumType cksum).1 ++ "sum".toList)) (a := a)
    (by simp [Op.writes]) rfl h
  refine Prog.wp_op h₁ fun a' => ?_
  split
  · rename_i hsum
    refine Prog.wp_op (guarded_eff (by simp [Op.writes]) (by simpa [clears] using hsum) h₁) fun a'' => ?_
    exact trusted_mv (suffix_ne (by decide))
  · rename_i hsum
    intro b hb _
    have hb : w.files gz = some b := by
      rw [files_eff (by simp [Op.writes]), files_eff (by simp [Op.writes])] at hb
      exact hb
    refine ⟨a.yes, ?_⟩
    have hsum : T.digest (cksumCommand (cksumType cksum).1 a.yes) (dataOf T gz b) = (cksumType cksum).2 := by
      simpa [eff, effect, hx b hb] using hsum
    rw [← hsum]
    simp [eff, effect, hx b hb]

theorem testCksum_trusted {o : Opts} (hcheck : o.nocheck = false) (hno : noCksum cksum = false)
    (hgz : gz.head? = some 'd') (h : Guarded T gz cksum w) :
    Killable T gz cksum (fun _ => Trusted T gz cksum) (testCksum o cksum gz) w := by
  have htemp : gz ≠ tempFile o.pid := ne_of_head hgz (tempFile_head _)
  unfold testCksum
  cases hc : getCompressor gz with
  | none => exact cksumChk_trusted hcheck hno (fun b hb => by simpa [dataOf, hc] using hb) h
  | some cmd =>
    have hw : gz ∉ (Op.decompress cmd gz (tempFile o.pid)).writes := by simpa [Op.writes] using htemp
    refine Prog.wp_op h fun a => Prog.wp_bind.2 ?_
    refine Prog.wp_mono (fun _ h => h) (fun _ w' h => ?_)
      (cksumChk_trusted hcheck hno (fun b hb => ?_) (guarded_eff hw rfl h))
    · exact killable_op (by simpa [Op.writes] using htemp) h fun _ _ h => h
    · rw [files_eff hw] at hb
      simp [eff, effect, hb, dataOf, hc]

theorem verify_trusted {o : Opts} (hcheck : o.nocheck = false) (hno : noCksum cksum = false)
    (hgz : gz.head? = some 'd') (hs : isSigned gz = false) (h : Guarded T gz cksum w) :
    Killable T gz cksum (fun _ => Trusted T gz cksum) (verify o cksum gz) w := by
  unfold verify compare
  rw [if_neg (by simp [hs])]
  refine Prog.wp_bind.2 (Prog.wp_mono (fun _ h => h) (fun _ w' h => ?_) (testCksum_trusted hcheck hno hgz h))
  exact unlock_trusted (ne_of_head hgz (lockFile_head _)) h

theorem lockedPart_trusted {o : Opts} {location : Text} (hcheck : o.nocheck = false)
    (hno : noCksum cksum = false) (hgz : gz.head? = some 'd') (hs : isSigned gz = false) (h : Trusted T gz cksum w) :
    Killable T gz cksum (fun _ => Trusted T gz cksum) (lockedPart o cksum location gz) w := by
  have hlk : gz ≠ lockFile gz := ne_of_head hgz (lockFile_head _)
  unfold lockedPart
  split
  · refine killable_op (by simp [Op.writes]) h fun _ _ h => ?_
    split
    · exact unlock_trusted hlk h
    · split
      · exact unlock_trusted hlk h
      · exact verify_trusted hcheck hno hgz hs (.inr h)
  · refine killable_op (by simp [Op.writes]) h fun _ _ h => ?_
    split
    · exact verify_trusted hcheck hno hgz hs (.inr h)
    · refine killable_op (by simp [Op.writes]) h fun _ _ h => ?_
      split
      · exact unlock_trusted hlk h
      · refine killable_op (by simp [Op.writes]) h fun _ _ h => ?_
        split
        · exact unlock_trusted hlk h
        · split
          · exact killable_op (by simp [Op.writes]) h fun _ _ h => unlock_trusted hlk h
          · have hobtain := Prog.wp_of_all (fun op w a hop hw => hop w a hw)
              (all_obtain (o := o) (coversFetch_guarded T gz cksum) (dropPrefix "?".toList location)) (.inr h)
            refine Prog.wp_bind.2 (Prog.wp_mono (fun _ h => h) (fun err w h => ?_) hobtain)
            refine Prog.wp_op h fun a => ?_
            split
            · rename_i hthere
              have hthere : hasData (w.files gz) = false := by simpa [eff, effect] using hthere
              exact unlock_trusted hlk (trusted_eff (by simp [Op.writes]) (trusted_noData hthere))
            · refine Prog.wp_bind.2 (Prog.wp_mono (fun _ h => h) (fun _ _ h => h) ?_)
              exact verify_trusted hcheck hno hgz hs (guarded_eff (by simp [Op.writes]) rfl h)

/-- A run that starts with a trusted file or none ends so, and is guarded on its way. -/
theorem downloadFile_trusted {o : Opts} {l : DLine} (hcheck : o.nocheck = false) (hno : noCksum l.cksum = false)
    (hs : isSigned l.gzfile = false) (h : Trusted T l.gzfile l.cksum w) :
    Killable T l.gzfile l.cksum (fun _ => Trusted T l.gzfile l.cksum) (downloadFile o l) w := by
  have hlk : l.gzfile ≠ lockFile l.gzfile := ne_of_head (gzfile_head l) (lockFile_head _)
  unfold downloadFile
  refine killable_op (by simp [Op.writes]) h fun _ _ h => ?_
  split
  · exact h
  · refine killable_op (by simp [Op.writes]) h fun _ _ h => ?_
    split
    · exact killable_op (by simp [Op.writes]) h fun _ _ h => h
    · refine killable_op (by simp [Op.writes]) h fun _ _ h => ?_
      refine killable_op (by simpa [Op.writes] using hlk) h fun _ _ h => ?_
      refine killable_op (by simpa [Op.writes] using hlk) h fun _ _ h => ?_
      exact lockedPart_trusted hcheck hno (gzfile_head l) hs h

end

/-! ## Sequences of runs -/

/-- What a sequence of runs for a line can lead to. A run with checksums ends, or is killed where
`mayStop`; between the runs anything else than the file can change. -/
inductive Reached (T : Tools) (l : DLine) (mayStop : World → Prop) : World → Prop
  | first {w : World} : w.files l.gzfile = none → w.digests = [] → Reached T l mayStop w
  | run {w w' : World} {o : Opts} {as : List Ans} {p : P Bool} : Reached T l mayStop w → o.nocheck = false →
      Lts.run (Prog.step (eff T)) ({ w with trace := [] }, downloadFile o l) as = some (w', p) →
      ((∃ err, p = .ret err) ∨ mayStop w') → Reached T l mayStop w'
  | outside {w : World} {p : Text} {b : Option Bytes} : Reached T l mayStop w → p ≠ l.gzfile →
      Reached T l mayStop { w with files := upd w.files p b }

/-- The file is not there before it has been compared. -/
def NotExposed (l : DLine) (w : World) : Prop :=
  hasData (w.files l.gzfile) = true → exposed l.gzfile (cksumType l.cksum).2 w.trace = false

/-- **If no run is killed while the file is exposed, what is under the final name at the start of a run has
been compared.** -/
theorem verified_before_trusted {T : Tools} {l : DLine} {w : World} (hno : noCksum l.cksum = false)
    (hs : isSigned l.gzfile = false) (h : Reached T l (NotExposed l) w) : Trusted T l.gzfile l.cksum w := by
  induction h with
  | first hnone _ => exact trusted_noData (by simp [hnone, hasData])
  | @run w w' o as p _ hcheck hrun hend ih =>
    have hstart : Trusted T l.gzfile l.cksum { w with trace := [] } := ih
    have hwp := Prog.wp_run (downloadFile_trusted (o := o) hcheck hno hs hstart) hrun
    cases p with
    | ret err => exact hwp
    | op _ _ =>
      have hstop : NotExposed l w' := hend.resolve_left (by simp)
      by_cases hthere : hasData (w'.files l.gzfile) = true
      · exact hwp.1.resolve_left (by simp [hstop hthere])
      · exact trusted_noData (by simpa using hthere)
  | outside _ hp ih =>
    intro b hb hne
    exact ih b (by simpa [Ne.symm hp] using hb) hne

theorem verified_before_trusted_zlib :
    ∃ w, Reached plainTools zlibPlain (NotExposed zlibPlain) w ∧ w.files zlibPlain.gzfile = some [97] ∧
      Trusted plainTools zlibPlain.gzfile zlibPlain.cksum w := by
  have hrun : ∃ w, Lts.run (Prog.step (eff plainTools)) (⟨noFiles, [], []⟩, downloadFile defaultOpts zlibPlain)
      (fetched ++ List.replicate 6 quiet) = some (w, .ret false) ∧ w.files zlibPlain.gzfile = some [97] :=
    ⟨_, rfl, rfl⟩
  obtain ⟨w, hw, hfile⟩ := hrun
  have hreach : Reached plainTools zlibPlain (NotExposed zlibPlain) w :=
    .run (.first (w := ⟨noFiles, [], []⟩) rfl rfl) rfl hw (.inl ⟨false, rfl⟩)
  exact ⟨w, hreach, hfile, verified_before_trusted (by decide) (by decide) hreach⟩

/-- A file that is there is taken as it is. -/
theorem downloadFile_there {T : Tools} {o : Opts} {l : DLine} {w : World} (hdo : o.checkonly = false)
    (h : hasData (w.files l.gzfile) = true) (a : Ans) :
    Lts.run (Prog.step (eff T)) (w, downloadFile o l) [a] =
      some (w.log ⟨.nonEmpty l.gzfile, true⟩, .ret false) := by
  have hif : (hasData (w.files l.gzfile) && !o.checkonly) = true := by simp [h, hdo]
  rw [← h]
  show some (_, ite ((hasData (w.files l.gzfile) && !o.checkonly) = true) _ _) = _
  rw [if_pos hif]
  rfl

/-- A run killed right after the renaming: the file is there, and the next run takes it as it is. -/
theorem trusted_unverified : ∃ w, Reached plainTools zlibPlain (fun _ => True) w ∧
    ¬Trusted plainTools zlibPlain.gzfile zlibPlain.cksum w ∧
    Lts.run (Prog.step (eff plainTools)) (w, downloadFile defaultOpts zlibPlain) [quiet] =
      some (w.log ⟨.nonEmpty zlibPlain.gzfile, true⟩, .ret false) := by
  have hrun : ∃ w p, Lts.run (Prog.step (eff plainTools)) (⟨noFiles, [], []⟩, downloadFile defaultOpts zlibPlain)
      (fetched ++ [quiet]) = some (w, p) ∧ w.files zlibPlain.gzfile = some [97] ∧ w.digests = [] :=
    ⟨_, _, rfl, rfl, rfl⟩
  obtain ⟨w, p, hw, hfile, hdig⟩ := hrun
  have hreach : Reached plainTools zlibPlain (fun _ => True) w :=
    .run (.first (w := ⟨noFiles, [], []⟩) rfl rfl) rfl hw (.inr trivial)
  refine ⟨w, hreach, fun h => ?_, downloadFile_there rfl (by rw [hfile]; rfl) quiet⟩
  obtain ⟨own, hmem⟩ := h _ hfile (by simp)
  rw [hdig] at hmem
  exact absurd hmem (by simp)

end T2Sde.Download
