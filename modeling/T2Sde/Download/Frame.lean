import T2Sde.Download.Model
/-!
# What the parts of `download_file` leave alone

`Op.writes` are the files a step can change. Each part of `download_file` writes files of its own
line only (`touches`) and reports on its own file only: `Own`.
-/
namespace T2Sde.Download
open Shell

def Op.writes : Op → List Text
  | .truncate p | .write p _ | .rm p | .curl _ _ p | .copyAlt _ _ p | .pack p | .gpg _ p | .decompress _ _ p => [p]
  | .mv p q => [p, q]
  | _ => []

@[simp] theorem log_files (w : World) (e : Event) : (w.log e).files = w.files := rfl

@[simp] theorem log_digests (w : World) (e : Event) : (w.log e).digests = w.digests := rfl

@[simp] theorem log_trace (w : World) (e : Event) : (w.log e).trace = w.trace ++ [e] := rfl

section
variable {T : Tools} {o : Op} {w : World} {a : Ans}

theorem files_eff {p : Text} (h : p ∉ o.writes) : (eff T o w a).1.files p = w.files p := by
  show (effect T o w a).1.files p = w.files p
  cases o with
  | mv q r =>
    simp only [Op.writes, List.mem_cons, List.not_mem_nil, or_false, not_or] at h
    simp only [effect]
    split
    · simp [h.1, h.2]
    · rfl
  | decompress cmd q r =>
    simp only [Op.writes, List.mem_cons, List.not_mem_nil, or_false] at h
    simp only [effect]
    split
    · simp [h]
    · rfl
  | digest cmd q =>
    simp only [effect]
    split <;> rfl
  | _ => simp_all [Op.writes, effect]

theorem digests_eff {d : Text × Bytes × Text} (h : d ∈ w.digests) : d ∈ (eff T o w a).1.digests := by
  show d ∈ (effect T o w a).1.digests
  cases o with
  | digest cmd q =>
    simp only [effect]
    split
    · exact List.mem_cons_of_mem _ h
    · exact h
  | mv q r => simp only [effect]; split <;> exact h
  | decompress cmd q r => simp only [effect]; split <;> exact h
  | _ => exact h

theorem trace_eff : (eff T o w a).1.trace = w.trace ++ [⟨o, (eff T o w a).2⟩] := by
  have : (effect T o w a).1.trace = w.trace := by
    cases o with
    | digest cmd q => simp only [effect]; split <;> rfl
    | mv q r => simp only [effect]; split <;> rfl
    | decompress cmd q r => simp only [effect]; split <;> rfl
    | _ => rfl
  show (effect T o w a).1.trace ++ _ = _
  rw [this]
  rfl

end

def touches (o : Opts) (gz : Text) : List Text :=
  [lockFile gz, gz, incomplete gz, cksumErr gz, extckErr gz, checkedName gz, cksumErr (checkedName gz), tempFile o.pid]

/-- A step of the handling of `gz`. -/
def Own (o : Opts) (gz : Text) (op : Op) : Prop :=
  (∀ p ∈ op.writes, p ∈ touches o gz) ∧ ∀ m q, op = .say m q → q = gz

/-- What a predicate must hold of to hold of the whole fetching of a file. -/
structure CoversFetch (φ : Op → Prop) (gz : Text) : Prop where
  read : ∀ op, op.writes = [] → (∀ m q, op ≠ .say m q) → (∀ cmd p, op ≠ .digest cmd p) → φ op
  say : ∀ m, φ (.say m gz)
  curl : ∀ b u, φ (.curl b u (incomplete gz))
  rmIncomplete : φ (.rm (incomplete gz))
  final : φ (.mv (incomplete gz) gz)
  extck : φ (.mv (incomplete gz) (extckErr gz))
  copyAlt : ∀ how alt, φ (.copyAlt how alt gz)
  pack : φ (.pack gz)

/-- The same for the whole handling of a file. -/
structure Covers (φ : Op → Prop) (o : Opts) (gz : Text) : Prop extends CoversFetch φ gz where
  digest : ∀ cmd p, φ (.digest cmd p)
  gpg : φ (.gpg gz (checkedName gz))
  decompress : ∀ cmd, φ (.decompress cmd (checkedName gz) (tempFile o.pid))
  rmTemp : φ (.rm (tempFile o.pid))
  cksum : φ (.mv (checkedName gz) (cksumErr (checkedName gz)))

section
variable {φ : Op → Prop} {o : Opts} {gz : Text} (h : CoversFetch φ gz)
include h

theorem CoversFetch.act_read {op : Op} (hw : op.writes = []) (hs : ∀ m q, op ≠ .say m q)
    (hd : ∀ cmd p, op ≠ .digest cmd p) : Prog.All φ (act op) := Prog.all_act.2 (h.read op hw hs hd)

theorem all_fetch (url : Text) : Prog.All φ (fetch url gz) := by
  unfold fetch curlAgain
  refine Prog.all_bind (h.act_read rfl (by simp) (by simp)) fun resume => ?_
  refine Prog.all_bind (Prog.all_act.2 (h.curl _ _)) fun ret => Prog.all_bind ?_ fun ret => ?_
  · split
    · exact Prog.all_bind (Prog.all_act.2 h.rmIncomplete) fun _ => Prog.all_act.2 (h.curl _ _)
    · exact Prog.all_pure
  · split
    · exact Prog.all_pure
    · refine Prog.all_bind (h.act_read rfl (by simp) (by simp)) fun data => ?_
      split
      · exact Prog.all_pure
      · refine Prog.all_bind (h.act_read rfl (by simp) (by simp)) fun typ => ?_
        split
        · exact Prog.all_bind (Prog.all_act.2 h.final) fun _ => Prog.all_pure
        · exact Prog.all_bind (Prog.all_act.2 (h.say _)) fun _ =>
            Prog.all_bind (Prog.all_act.2 h.extck) fun _ => Prog.all_pure

theorem all_downloadFrom (location : Text) : Prog.All φ (downloadFrom location gz) := by
  unfold downloadFrom checkout
  split
  · exact all_fetch h _
  · split
    · exact Prog.all_pure
    · refine Prog.all_bind (h.act_read rfl (by simp) (by simp)) fun done => ?_
      split
      · exact Prog.all_pure
      · exact Prog.all_bind (Prog.all_act.2 h.pack) fun _ => Prog.all_pure

theorem all_downloadFileNow (location : Text) : Prog.All φ (downloadFileNow o location gz) := by
  unfold downloadFileNow
  split
  · refine Prog.all_bind (h.act_read rfl (by simp) (by simp)) fun there => ?_
    split
    · exact all_downloadFrom h _
    · exact Prog.all_pure
  · exact all_downloadFrom h _

theorem all_obtain (location : Text) : Prog.All φ (obtain o location gz) := by
  unfold obtain findAltfile
  refine Prog.all_bind ?_ fun alt => ?_
  · split
    · exact h.act_read rfl (by simp) (by simp)
    · exact Prog.all_pure
  · cases alt with
    | some alt => exact Prog.all_bind (Prog.all_act.2 (h.copyAlt _ _)) fun _ => Prog.all_pure
    | none =>
      refine Prog.all_bind (h.act_read rfl (by simp) (by simp)) fun mirror => ?_
      split
      · refine Prog.all_bind (all_downloadFileNow h _) fun ok => ?_
        split
        · exact Prog.all_pure
        · exact Prog.all_bind (all_downloadFileNow h _) fun _ => Prog.all_pure
      · exact Prog.all_bind (all_downloadFileNow h _) fun _ => Prog.all_pure

end

section
variable {φ : Op → Prop} {o : Opts} {gz : Text} (h : Covers φ o gz)
include h

theorem all_cksumChk (x y : Text) : Prog.All φ (cksumChk o x y (checkedName gz)) := by
  unfold cksumChk
  split
  · exact Prog.all_pure
  · refine Prog.all_bind (h.act_read rfl (by simp) (by simp)) fun own => ?_
    refine Prog.all_bind (Prog.all_act.2 (h.digest _ _)) fun sum => ?_
    split
    · exact Prog.all_bind (Prog.all_act.2 h.cksum) fun _ => Prog.all_pure
    · exact Prog.all_pure

theorem all_testCksum (cksum : Text) : Prog.All φ (testCksum o cksum (checkedName gz)) := by
  unfold testCksum
  split
  · refine Prog.all_bind (Prog.all_act.2 (h.decompress _)) fun _ => Prog.all_bind (all_cksumChk h _ _) fun ok => ?_
    exact Prog.all_bind (Prog.all_act.2 h.rmTemp) fun _ => Prog.all_pure
  · exact all_cksumChk h _ _

theorem all_unsign : Prog.All φ (unsign gz) := by
  unfold unsign
  refine Prog.all_bind (h.act_read rfl (by simp) (by simp)) fun there => ?_
  split
  · exact Prog.all_act.2 h.gpg
  · exact Prog.all_pure

theorem all_unlock (hlk : φ (.rm (lockFile gz))) (err : Bool) : Prog.All φ (unlock gz err) := by
  unfold unlock
  refine Prog.all_bind (Prog.all_act.2 hlk) fun _ => ?_
  exact Prog.all_bind (h.act_read rfl (by simp) (by simp)) fun _ => Prog.all_pure

theorem all_compare (hlk : φ (.rm (lockFile gz))) (cksum : Text) :
    Prog.All φ (compare o cksum gz (checkedName gz)) := by
  unfold compare
  exact Prog.all_bind (all_testCksum h _) fun _ => all_unlock h hlk _

theorem all_verify (hlk : φ (.rm (lockFile gz))) (cksum : Text) : Prog.All φ (verify o cksum gz) := by
  unfold verify
  split
  · refine Prog.all_bind (all_unsign h) fun _ => Prog.all_bind (h.act_read rfl (by simp) (by simp)) fun made => ?_
    split
    · exact Prog.all_bind (Prog.all_act.2 (h.say _)) fun _ => all_unlock h hlk _
    · exact all_compare h hlk cksum
  · rename_i hs
    have hgz : checkedName gz = gz := if_neg hs
    have := all_compare h hlk cksum
    rwa [hgz] at this

theorem all_lockedPart (hlk : φ (.rm (lockFile gz))) (cksum location : Text) :
    Prog.All φ (lockedPart o cksum location gz) := by
  unfold lockedPart
  split
  · refine Prog.all_bind (h.act_read rfl (by simp) (by simp)) fun there => ?_
    split
    · exact all_unlock h hlk _
    · split
      · exact all_unlock h hlk _
      · exact all_verify h hlk _
  · refine Prog.all_bind (h.act_read rfl (by simp) (by simp)) fun there => ?_
    split
    · exact all_verify h hlk _
    · refine Prog.all_bind (h.act_read rfl (by simp) (by simp)) fun bad => ?_
      split
      · exact all_unlock h hlk _
      · refine Prog.all_bind (h.act_read rfl (by simp) (by simp)) fun bad => ?_
        split
        · exact all_unlock h hlk _
        · split
          · exact Prog.all_bind (Prog.all_act.2 (h.say _)) fun _ => all_unlock h hlk _
          · refine Prog.all_bind (all_obtain h.toCoversFetch _) fun err => ?_
            refine Prog.all_bind (h.act_read rfl (by simp) (by simp)) fun there => ?_
            split
            · exact all_unlock h hlk _
            · exact Prog.all_bind (all_verify h hlk _) fun _ => Prog.all_pure

end

theorem covers_own (o : Opts) (gz : Text) : Covers (Own o gz) o gz where
  read op hw hs _ := ⟨by simp [hw], fun m q h => absurd h (hs m q)⟩
  digest cmd p := by simp [Own, Op.writes]
  say m := ⟨by simp [Op.writes], fun _ _ h => by cases h; rfl⟩
  curl b u := by simp [Own, Op.writes, touches]
  rmIncomplete := by simp [Own, Op.writes, touches]
  final := by simp [Own, Op.writes, touches]
  extck := by simp [Own, Op.writes, touches]
  copyAlt how alt := by simp [Own, Op.writes, touches]
  pack := by simp [Own, Op.writes, touches]
  gpg := by simp [Own, Op.writes, touches]
  decompress cmd := by simp [Own, Op.writes, touches]
  rmTemp := by simp [Own, Op.writes, touches]
  cksum := by simp [Own, Op.writes, touches]

/-- All of `download_file` is about its own files. -/
theorem own_downloadFile (o : Opts) (l : DLine) : Prog.All (Own o l.gzfile) (downloadFile o l) := by
  have h := covers_own o l.gzfile
  have hlk : ∀ op : Op, op.writes = [lockFile l.gzfile] → (∀ m q, op ≠ .say m q) → Own o l.gzfile op :=
    fun op hw hs => ⟨by simp [hw, touches], fun m q h => absurd h (hs m q)⟩
  unfold downloadFile
  refine Prog.all_bind (h.act_read rfl (by simp) (by simp)) fun there => ?_
  split
  · exact Prog.all_pure
  · refine Prog.all_bind (h.act_read rfl (by simp) (by simp)) fun locked => ?_
    split
    · exact Prog.all_bind (Prog.all_act.2 (h.say _)) fun _ => Prog.all_pure
    · refine Prog.all_bind (h.act_read rfl (by simp) (by simp)) fun _ => ?_
      refine Prog.all_bind (Prog.all_act.2 (hlk _ rfl (by simp))) fun _ => ?_
      refine Prog.all_bind (Prog.all_act.2 (hlk _ rfl (by simp))) fun _ => ?_
      exact all_lockedPart h (hlk _ rfl (by simp)) _ _

/-! ## The names are different -/

theorem gzfile_head (l : DLine) : l.gzfile.head? = some 'd' := rfl

theorem lockFile_head (gz : Text) : (lockFile gz).head? = some 's' := rfl

theorem tempFile_head (pid : Text) : (tempFile pid).head? = some 's' := rfl

theorem lockFile_ne_tempFile (gz : Text) (o : Opts) : lockFile gz ≠ tempFile o.pid := by
  intro h
  have hl : ((lockFile gz).drop 9).head? = some 'l' := rfl
  rw [h] at hl
  obtain ⟨hne, hdigits⟩ := o.pidDigits
  cases hpid : o.pid with
  | nil => exact hne hpid
  | cons c t =>
    rw [hpid] at hl hdigits
    obtain rfl : c = 'l' := Option.some.inj hl
    exact absurd (List.all_eq_true.1 hdigits _ List.mem_cons_self) (by decide)

theorem suffix_ne {gz e : Text} (he : e ≠ []) : gz ++ e ≠ gz := by
  intro h
  exact he (by simpa using h)

theorem checkedName_ne {gz : Text} (h : isSigned gz = true) : checkedName gz ≠ gz := by
  unfold checkedName dropSuffix
  rw [if_pos h]
  have hs : ".gpg".toList.isSuffixOf gz = true := h
  rw [if_pos hs]
  intro heq
  have hlen := congrArg List.length heq
  have hle := (List.isSuffixOf_iff_suffix.1 hs).length_le
  simp only [List.length_take] at hlen
  have : ".gpg".toList.length = 4 := rfl
  omega

theorem checkedName_head (l : DLine) : (checkedName l.gzfile).head? = some 'd' := by
  have hcons : ∃ t, l.gzfile = 'd' :: 'o' :: 'w' :: 'n' :: 'l' :: t := ⟨_, rfl⟩
  obtain ⟨t, ht⟩ := hcons
  unfold checkedName dropSuffix
  split
  · split
    · have : l.gzfile.length - ".gpg".toList.length = t.length + 1 := by
        have : ".gpg".toList.length = 4 := rfl
        rw [ht]
        simp only [List.length_cons]
        omega
      rw [this, ht]
      rfl
    · rw [ht]
      rfl
  · rw [ht]
    rfl

theorem ne_of_head {p q : Text} (hp : p.head? = some 'd') (hq : q.head? = some 's') : p ≠ q := by
  rintro rfl
  rw [hp] at hq
  exact absurd hq (by decide)

end T2Sde.Download
