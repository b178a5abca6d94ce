import T2Sde.Packages.Default
/-!
# Removed stays removed

A package that `pkgremove` or a `-` rule has matched has the status `-`. No later call gives it another one
(`Later`), and it is not written, so what is read from a file written later has only the other packages.
`key` is what tells packages apart, and what a package keeps in the file.

| here | there |
| --- | --- |
| `Matched`  | a call of `pkgremove`, or of `pkgsel_parse` with a `-` rule, that matches an entry |
| `History`  | the table, and the files that were written since |
| `Call`     | the calls; `pkgfilter` writes `packages.tmp` and the list of the configuration |
| `Edits`    | a filter command that drops lines or switches X and O |
-/
namespace T2Sde.Packages
open Shell Pattern Lua

/-- A table as `pkglistread` builds it. -/
structure PkgTable where
  packages : Table
  wf : ∀ e ∈ packages, e.WF

def Pkg.key (e : Pkg) : Text × Text := (e.repository, e.pkgAlias)

/-- The call matches the entry at place `i`, and removes it. -/
def Matched (files : Files) (maxOpen : Nat) (t : Table) (i : Nat) : Op → Prop
  | .remove args => ∃ pre arg post, args = pre ++ arg :: post ∧ (pkgswitch .removed pre t).2 = true ∧
      Reached (target arg) t i
  | .sel file => ∃ pattern, Event.switch .removed pattern ∈ (pkgselParse files maxOpen file t).log ∧
      Reached (target pattern) t i
  | _ => False

/-! ## The mark -/

/-- The entry at place `i` is removed. -/
def RemovedAt (t : Table) (i : Nat) : Prop := ∃ e, t[i]? = some e ∧ e.live = false

theorem RemovedAt.kept {t t' : Table} {i : Nat} (h : RemovedAt t i) (hk : Kept t t') : RemovedAt t' i := by
  obtain ⟨e, he, hl⟩ := h
  obtain ⟨e', he', s, rfl, hs⟩ := hk.entry he
  exact ⟨_, he', live_eq_false.2 (hs hl)⟩

theorem switchArg_marks {g : Target} {t : Table} {i : Nat} {e : Pkg} (h : Reached g t i) (he : t[i]? = some e) :
    RemovedAt (switchArg .removed g t).1 i := by
  refine ⟨_, switchArg_reached h he, ?_⟩
  unfold Pkg.switch
  by_cases hl : e.live = true
  · rw [if_pos hl]
    rfl
  · rw [if_neg hl]
    simpa using hl

theorem pkgswitch_append {m : Mode} {pre post : List Text} {t : Table} (h : (pkgswitch m pre t).2 = true) :
    pkgswitch m (pre ++ post) t = pkgswitch m post (pkgswitch m pre t).1 := by
  induction pre generalizing t with
  | nil => rfl
  | cons a pre ih =>
    rw [pkgswitch] at h
    rw [List.cons_append, pkgswitch, pkgswitch]
    by_cases hok : (switchArg m (target a) t).2 = true
    · simp only [hok, if_true] at h ⊢
      exact ih h
    · simp [hok] at h

theorem pkgremove_marks {pre post : List Text} {arg : Text} {t : Table} {i : Nat} {e : Pkg}
    (hpre : (pkgswitch .removed pre t).2 = true) (h : Reached (target arg) t i) (he : t[i]? = some e) :
    RemovedAt (pkgswitch .removed (pre ++ arg :: post) t).1 i := by
  have hk := pkgswitch_kept .removed pre t
  obtain ⟨e', he', -⟩ := hk.entry he
  have hmark := switchArg_marks (h.kept hk) he'
  rw [pkgswitch_append hpre, pkgswitch]
  split
  · exact hmark.kept (pkgswitch_kept _ _ _)
  · exact hmark

/-- What a `-` rule among the lines of a file does, if included files do it. -/
theorem selLines_marks {sub : Text → Table → Out} {pattern : Text} {i : Nat}
    (hkept : ∀ f t, Kept t (sub f t).packages)
    (hsub : ∀ f t e, Event.switch .removed pattern ∈ (sub f t).log → Reached (target pattern) t i → t[i]? = some e →
      RemovedAt (sub f t).packages i)
    {lines : List Text} {t : Table} {e : Pkg} (hlog : Event.switch .removed pattern ∈ (selLines sub lines t).log)
    (h : Reached (target pattern) t i) (he : t[i]? = some e) : RemovedAt (selLines sub lines t).packages i := by
  induction lines generalizing t e with
  | nil => simp [selLines] at hlog
  | cons line lines ih =>
    have hline : Event.switch .removed pattern ∈ (selLine sub line t).log →
        RemovedAt (selLine sub line t).packages i := by
      intro hmem
      unfold selLine at hmem ⊢
      split at hmem
      · obtain ⟨rfl, rfl⟩ := Event.switch.inj (List.mem_singleton.1 hmem)
        exact @pkgremove_marks [] [] _ _ _ _ rfl h he
      · exact hsub _ t e ((List.mem_cons.1 hmem).resolve_left (by simp)) h he
      · split at hmem <;> simp at hmem
    have hk := selLine_kept hkept line t
    rw [selLines] at hlog ⊢
    by_cases hok : (selLine sub line t).ok = true
    · simp only [hok, if_true] at hlog ⊢
      rcases List.mem_append.1 hlog with hmem | hmem
      · exact (hline hmem).kept (selLines_kept hkept lines _)
      · obtain ⟨e', he', -⟩ := hk.entry he
        exact ih hmem (h.kept hk) he'
    · simp only [hok] at hlog ⊢
      exact hline hlog

/-- A rule file with a `-` rule that comes to the entry. -/
theorem pkgselParse_marks {files : Files} {n : Nat} {file pattern : Text} {t : Table} {i : Nat} {e : Pkg}
    (hlog : Event.switch .removed pattern ∈ (pkgselParse files n file t).log) (h : Reached (target pattern) t i)
    (he : t[i]? = some e) : RemovedAt (pkgselParse files n file t).packages i := by
  induction n generalizing file t e with
  | zero => simp [pkgselParse] at hlog
  | succ n ih =>
    rw [pkgselParse] at hlog ⊢
    split at hlog
    · simp at hlog
    · exact selLines_marks (pkgselParse_kept files n) (fun _ _ _ hl hr he => ih hl hr he) hlog h he

/-- **A match** of `pkgremove` or of a `-` rule leaves the mark. -/
theorem Matched.marks {files : Files} {n : Nat} {t : Table} {i : Nat} {op : Op} {e : Pkg}
    (h : Matched files n t i op) (he : t[i]? = some e) : RemovedAt (op.apply files n t) i := by
  cases op with
  | remove args =>
    obtain ⟨pre, arg, post, rfl, hpre, hr⟩ := h
    exact pkgremove_marks hpre hr he
  | sel file =>
    obtain ⟨pattern, hlog, hr⟩ := h
    exact pkgselParse_marks hlog hr he
  | enable => exact h.elim
  | disable => exact h.elim
  | filter => exact h.elim

/-! ## Histories -/

structure History where
  packages : Table
  /-- The lists written since the match. -/
  disk : Text → Option (List Text)

inductive Call
  | op (op : Op)
  | write (file : Text)
  | read (file : Text)

def tmpFile : Text := "packages.tmp".toList
def listFile : Text := "packages".toList

/-- A call; only a list written since can be read. -/
def History.step (files : Files) (maxOpen : Nat) (s : History) : Call → Option History
  | .op (.filter cmd) =>
    let lines := (pkglistwrite s.packages).1
    some ⟨pkgfilter cmd s.packages, upd (upd s.disk tmpFile (some lines)) listFile (some (cmd lines))⟩
  | .op op => some { s with packages := op.apply files maxOpen s.packages }
  | .write file => some { s with disk := upd s.disk file (some (pkglistwrite s.packages).1) }
  | .read file => (s.disk file).map fun lines => { s with packages := pkglistread lines }

/-- The line, or the line with another of X and O at its front. -/
def Switched (line line' : Text) : Prop :=
  line' = line ∨ ∃ a b r, line = a :: r ∧ line' = b :: r ∧ (a = 'X' ∨ a = 'O') ∧ (b = 'X' ∨ b = 'O')

/-- A command that drops lines or switches X and O. -/
def Edits (cmd : List Text → List Text) : Prop :=
  ∀ lines, List.SublistForall₂ (fun l' l => Switched l l') (cmd lines) lines

def Call.Allowed : Call → Prop
  | .op (.filter cmd) => Edits cmd
  | _ => True

/-! ## Keys -/

/-- The keys of what is not removed. -/
def keys (t : Table) : List (Text × Text) := (t.filter Pkg.live).map Pkg.key

theorem Later.key {e e' : Pkg} (h : Later e e') : e'.key = e.key := by
  obtain ⟨_, rfl, -⟩ := h
  rfl

theorem Kept.keys {t t' : Table} (h : Kept t t') : (T2Sde.Packages.keys t').Sublist (T2Sde.Packages.keys t) := by
  unfold T2Sde.Packages.keys
  induction h with
  | nil => exact List.Sublist.refl _
  | @cons e e' t t' he _ ih =>
    by_cases hl' : e'.live = true
    · have hl : e.live = true := by
        by_contra hl
        obtain ⟨s, rfl, hs⟩ := he
        exact live_eq_true.1 hl' (hs (by simpa using hl))
      rw [List.filter_cons_of_pos hl', List.filter_cons_of_pos hl, List.map_cons, List.map_cons, he.key]
      exact ih.cons_cons _
    · rw [List.filter_cons_of_neg hl']
      exact ih.trans (((List.sublist_cons_self e t).filter _).map _)

/-- Without the removed entry. -/
theorem Kept.keys_removed {t t' : Table} (h : Kept t t') {i : Nat} (hr : RemovedAt t' i) :
    (T2Sde.Packages.keys t').Sublist ((t.eraseIdx i).map Pkg.key) := by
  induction h generalizing i with
  | nil => exact List.Sublist.refl _
  | @cons e e' t t' he hk ih =>
    obtain ⟨x, hx, hl⟩ := hr
    cases i with
    | zero =>
      obtain rfl : e' = x := Option.some.inj hx
      have hneg : ¬ e'.live = true := by simp [hl]
      rw [T2Sde.Packages.keys, List.filter_cons_of_neg hneg, List.eraseIdx_zero, List.tail_cons]
      exact (Kept.keys hk).trans (List.filter_sublist.map _)
    | succ i =>
      have ih := ih ⟨x, by simpa using hx, hl⟩
      rw [T2Sde.Packages.keys, List.eraseIdx_cons_succ, List.map_cons]
      by_cases hl' : e'.live = true
      · rw [List.filter_cons_of_pos hl', List.map_cons, he.key]
        exact ih.cons_cons _
      · rw [List.filter_cons_of_neg hl']
        exact ih.cons _

/-- Lines of well-formed entries with these keys. -/
def LinesOf (ks : List (Text × Text)) (lines : List Text) : Prop :=
  ∃ us : Table, (∀ u ∈ us, u.WF ∧ u.live = true) ∧ lines = us.map Pkg.line ∧ (us.map Pkg.key).Sublist ks

theorem line_switched {u : Pkg} (hu : u.WF) (hl : u.live = true) {l : Text} (h : Switched u.line l) :
    ∃ v : Pkg, (v.WF ∧ v.live = true) ∧ l = v.line ∧ v.key = u.key := by
  rcases h with rfl | ⟨a, b, r, ha, rfl, -, hb⟩
  · exact ⟨u, ⟨hu, hl⟩, rfl, rfl⟩
  · have hrest : ∀ st : Status, st ≠ .removed → ∃ c, Pkg.line { u with status := st } = c :: r ∧ st.text = [c] := by
      intro st hst
      have hfront : ∀ st' : Status, Pkg.line { u with status := st' } = st'.text ++ (u.line.drop 1) := by
        intro st'
        cases st' <;> rcases Pkg.live_cases hl with hs | hs <;>
          simp [Pkg.line, writeLine, Pkg.head, Status.text, hs]
      rw [hfront, ha]
      cases st with
      | X => exact ⟨'X', rfl, rfl⟩
      | O => exact ⟨'O', rfl, rfl⟩
      | removed => exact absurd rfl hst
    have hwf : ∀ st : Status, (Pkg.WF { u with status := st }) := fun st =>
      ⟨hu.stages, hu.priority, hu.repository, hu.pkgAlias, hu.ver, hu.extraver, hu.categories, hu.flags, hu.flagsStop⟩
    rcases hb with rfl | rfl
    · obtain ⟨c, hc, ht⟩ := hrest .X (by decide)
      obtain rfl : 'X' = c := by simpa [Status.text] using ht
      exact ⟨_, ⟨hwf .X, rfl⟩, hc.symm, rfl⟩
    · obtain ⟨c, hc, ht⟩ := hrest .O (by decide)
      obtain rfl : 'O' = c := by simpa [Status.text] using ht
      exact ⟨_, ⟨hwf .O, rfl⟩, hc.symm, rfl⟩

theorem LinesOf.edit {ks : List (Text × Text)} {lines lines' : List Text} (h : LinesOf ks lines)
    (he : List.SublistForall₂ (fun l' l => Switched l l') lines' lines) : LinesOf ks lines' := by
  obtain ⟨us, hus, rfl, hks⟩ := h
  induction us generalizing lines' ks with
  | nil =>
    cases he
    exact ⟨[], by simp, rfl, by simp⟩
  | cons u us ih =>
    obtain ⟨⟨hu, hl⟩, hus⟩ := List.forall_mem_cons.1 hus
    cases he with
    | nil => exact ⟨[], by simp, rfl, by simp⟩
    | cons hsw he =>
      obtain ⟨v, hv, rfl, hkey⟩ := line_switched hu hl hsw
      obtain ⟨vs, hvs, rfl, hsub⟩ := ih hus (List.Sublist.refl _) he
      refine ⟨v :: vs, List.forall_mem_cons.2 ⟨hv, hvs⟩, rfl, List.Sublist.trans ?_ hks⟩
      rw [List.map_cons, List.map_cons, hkey]
      exact hsub.cons_cons _
    | cons_right he =>
      obtain ⟨vs, hvs, rfl, hsub⟩ := ih hus (List.Sublist.refl _) he
      exact ⟨vs, hvs, rfl, (hsub.cons _).trans hks⟩

theorem LinesOf.of_write {ks : List (Text × Text)} {t : Table} (ht : ∀ e ∈ t, e.WF) (hk : (keys t).Sublist ks) :
    LinesOf ks (pkglistwrite t).1 := by
  refine ⟨t.filter Pkg.live, fun u hu => ⟨ht u (List.mem_filter.1 hu).1, (List.mem_filter.1 hu).2⟩, ?_, hk⟩
  rw [pkglistwrite_eq ht]

theorem LinesOf.read {ks : List (Text × Text)} {lines : List Text} (h : LinesOf ks lines) :
    (∀ e ∈ pkglistread lines, e.WF) ∧ (keys (pkglistread lines)).Sublist ks := by
  obtain ⟨us, hus, rfl, hks⟩ := h
  rw [readLines_eq hus]
  constructor
  · intro e he
    obtain ⟨u, hu, rfl⟩ := List.mem_map.1 he
    exact again_wf (hus u hu).1 (hus u hu).2
  · have hkeys : (us.map Pkg.again).map Pkg.key = us.map Pkg.key := by
      rw [List.map_map]
      rfl
    exact ((List.filter_sublist.map Pkg.key).trans (by rw [hkeys])).trans hks

/-! ## The invariant -/

/-- The table and the files have packages with the keys `ks` only. -/
structure History.Inv (ks : List (Text × Text)) (s : History) : Prop where
  wf : ∀ e ∈ s.packages, e.WF
  keys : (keys s.packages).Sublist ks
  disk : ∀ file lines, s.disk file = some lines → LinesOf ks lines

theorem History.step_inv {files : Files} {n : Nat} {ks : List (Text × Text)} {s s' : History} {c : Call}
    (h : s.Inv ks) (hc : c.Allowed) (hstep : s.step files n c = some s') : s'.Inv ks := by
  have hwrite := LinesOf.of_write h.wf h.keys
  have hupd : ∀ {disk : Text → Option (List Text)} {file : Text} {lines : List Text},
      (∀ f ls, disk f = some ls → LinesOf ks ls) → LinesOf ks lines →
      ∀ f ls, upd disk file (some lines) f = some ls → LinesOf ks ls := by
    intro disk file lines hd hl f ls hf
    by_cases hff : f = file
    · subst hff
      rw [upd_same] at hf
      exact Option.some.inj hf ▸ hl
    · rw [upd_ne _ _ _ _ hff] at hf
      exact hd f ls hf
  cases c with
  | op op =>
    by_cases hf : ∃ cmd, op = .filter cmd
    · obtain ⟨cmd, rfl⟩ := hf
      cases hstep
      have hedit := hwrite.edit (hc _)
      exact ⟨hedit.read.1, hedit.read.2, hupd (hupd h.disk hwrite) hedit⟩
    · have hkept := @Op.apply_kept files n _ (fun cmd h => hf ⟨cmd, h⟩) s.packages
      have hs' : s' = { s with packages := op.apply files n s.packages } := by
        cases op with
        | filter cmd => exact absurd ⟨cmd, rfl⟩ hf
        | _ => exact (Option.some.inj hstep).symm
      subst hs'
      exact ⟨hkept.wf h.wf, hkept.keys.trans h.keys, h.disk⟩
  | write file =>
    cases hstep
    exact ⟨h.wf, h.keys, hupd h.disk hwrite⟩
  | read file =>
    obtain ⟨lines, hlines, rfl⟩ := Option.map_eq_some_iff.1 hstep
    have hread := (h.disk file lines hlines).read
    exact ⟨hread.1, hread.2, h.disk⟩

/-! ## `pkgcheck` -/

theorem pkgcheck_yes {pattern mode : Text} {t : Table} (hmode : mode = ['X'] ∨ mode = ['O'])
    (h : pkgcheck pattern mode t = .yes) : ∃ e ∈ t, e.live = true ∧ e.pkgAlias ∈ alternatives pattern := by
  unfold pkgcheck at h
  cases hf : t.findSome? fun p => (alternatives pattern).findSome? (checkOne mode p) with
  | none => simp [hf] at h
  | some r =>
    obtain ⟨_, e, _, rfl, he, -⟩ := List.findSome?_eq_some_iff.1 hf
    obtain ⟨_, x, _, halt, hx, -⟩ := List.findSome?_eq_some_iff.1 he
    refine ⟨e, by simp, ?_, ?_⟩
    · rw [live_eq_true]
      intro hrem
      unfold checkOne at hx
      rcases hmode with rfl | rfl <;> simp [hrem] at hx
    · unfold checkOne at hx
      split at hx
      next halias => rw [halias, halt]; simp
      · simp at hx

/-- **Removed stays removed.** After a call that matched the entry at place `i` and removed it, and any calls after
that: `pkgcheck` in mode X or O succeeds for other packages only, and what is listed and written are entries of
other packages. -/
theorem removed_stays {files : Files} {n : Nat} (t : PkgTable) {i : Nat} {e : Pkg} (he : t.packages[i]? = some e)
    {op : Op} (hmatch : Matched files n t.packages i op) {calls : List Call} (hcalls : ∀ c ∈ calls, c.Allowed)
    {s : History} (hrun : Lts.run (History.step files n) ⟨op.apply files n t.packages, fun _ => none⟩ calls = some s) :
    (∀ pattern mode, mode = ['X'] ∨ mode = ['O'] → pkgcheck pattern mode s.packages = .yes →
      ∃ y ∈ t.packages.eraseIdx i, y.pkgAlias ∈ alternatives pattern) ∧
    (pkglistwrite s.packages).1 = (s.packages.filter Pkg.live).map Pkg.line ∧
    ((s.packages.filter Pkg.live).map Pkg.key).Sublist ((t.packages.eraseIdx i).map Pkg.key) := by
  have hkept : Kept t.packages (op.apply files n t.packages) := by
    refine Op.apply_kept (fun cmd hop => ?_) _
    subst hop
    exact hmatch
  have hinit : History.Inv ((t.packages.eraseIdx i).map Pkg.key) ⟨op.apply files n t.packages, fun _ => none⟩ :=
    ⟨hkept.wf t.wf, hkept.keys_removed (hmatch.marks he), by simp⟩
  have hinv : s.Inv ((t.packages.eraseIdx i).map Pkg.key) :=
    Lts.run_inv_along (fun _ _ _ h hc hstep => History.step_inv h hc hstep) hinit
      (Lts.along_of_forall (D := Call.Allowed) hcalls) hrun
  refine ⟨fun pattern mode hmode hyes => ?_, by rw [pkglistwrite_eq hinv.wf], hinv.keys⟩
  obtain ⟨x, hx, hl, halt⟩ := pkgcheck_yes hmode hyes
  have hkey : x.key ∈ (t.packages.eraseIdx i).map Pkg.key :=
    hinv.keys.subset (List.mem_map.2 ⟨x, List.mem_filter.2 ⟨hx, hl⟩, rfl⟩)
  obtain ⟨y, hy, hyx⟩ := List.mem_map.1 hkey
  exact ⟨y, hy, by rw [(Prod.mk.inj hyx).2]; exact halt⟩

def xz (status : Status) : Pkg := { zlib status with name := "xz".toList, pkgAlias := "xz".toList }

theorem zlibTable_wf : ∀ e ∈ [zlib .X, xz .X], e.WF := by
  have hzlib : (zlib .X).WF := by
    have hprinted : ∀ s ∈ [flaggedRecord "DIETLIBC"], Printed s := by simpa using dietlibc_printed.1
    have hwf := printed_table_wf hprinted
    rw [zlib_read] at hwf
    exact hwf _ List.mem_cons_self
  intro e he
  rcases List.mem_pair.1 he with rfl | rfl
  · exact hzlib
  · exact { hzlib with pkgAlias := by decide }

def zlibTable : PkgTable := ⟨[zlib .X, xz .X], zlibTable_wf⟩

/-- A file that selects all packages. -/
def allRules : Files := fun f => if f = "all".toList then some ["X *".toList] else none

/-- The list is written while `zlib` is marked, and read again. -/
def zlibCalls : List Call :=
  [.op (.enable ["zlib".toList]), .write "saved".toList, .op (.sel "all".toList), .op (.disable ["xz".toList]),
    .op (.filter id), .op (.enable ["zlib".toList, "xz".toList]), .read "saved".toList, .op (.sel "all".toList)]

/-- Removed, then enabled, written, selected, filtered and read. -/
theorem removed_stays_zlib : ∃ s,
    Lts.run (History.step allRules 1) ⟨[zlib .removed, xz .X], fun _ => none⟩ zlibCalls = some s ∧
    s.packages = [xz .X] ∧
    (∀ pattern mode, mode = ['X'] ∨ mode = ['O'] → pkgcheck pattern mode s.packages = .yes →
      ∃ y ∈ [zlib .X, xz .X].eraseIdx 0, y.pkgAlias ∈ alternatives pattern) ∧
    (pkglistwrite s.packages).1 = (s.packages.filter Pkg.live).map Pkg.line ∧
    ((s.packages.filter Pkg.live).map Pkg.key).Sublist (([zlib .X, xz .X].eraseIdx 0).map Pkg.key) := by
  have hremove : Op.apply allRules 1 (.remove ["zlib".toList]) [zlib .X, xz .X] = [zlib .removed, xz .X] := by
    decide +kernel
  have hcalls : (Lts.run (History.step allRules 1) ⟨[zlib .removed, xz .X], fun _ => none⟩ zlibCalls).map
      History.packages = some [xz .X] := by decide +kernel
  have hreached : Reached (target "zlib".toList) [zlib .X, xz .X] 0 := by
    refine ⟨fun e he => ?_, fun j hj => absurd hj (by omega)⟩
    obtain rfl : zlib .X = e := Option.some.inj he
    decide +kernel
  obtain ⟨s, hs, hpackages⟩ := Option.map_eq_some_iff.1 hcalls
  have hid : Edits id := fun lines =>
    List.sublistForall₂_iff.2 ⟨lines, List.forall₂_same.2 fun _ _ => .inl rfl, List.Sublist.refl _⟩
  have hallowed : ∀ c ∈ zlibCalls, c.Allowed := by simp [zlibCalls, Call.Allowed, hid]
  exact ⟨s, hs, hpackages, @removed_stays allRules 1 zlibTable 0 (zlib .X) rfl
    (.remove ["zlib".toList]) ⟨[], "zlib".toList, [], rfl, rfl, hreached⟩ zlibCalls hallowed s
    (by rw [zlibTable, hremove]; exact hs)⟩

end T2Sde.Packages
