import T2Sde.Lib.Run
import T2Sde.Lib.Words
/-!
# Filling the disks (`scripts/Create-ISO`)

`add` looks for the first disk that has room for a chunk and accounts the chunk there, but writes it to the path file
of the disk that was opened last. So the two go together as long as no earlier disk has room.

| here | `scripts/Create-ISO` |
| --- | --- |
| `add`       | `add` :123-162 |
| `everyStep` | "parsing for EVERY disk" :190-202 |
| `disk1Step` | "parsing for DISK1 disk" :204-215 |
| `fill`      | the passes :188-232 |

* `add_cases` — what one call of `add` does.
* `Inv` — what holds between two calls: the accounts are the sums, and fit on the disks.
* `fill_right` — **when the disks are filled as accounted**.
-/
namespace T2Sde.Iso
open Shell Lts

/-- A file or directory, its place on the disk, and its size. -/
structure Chunk where
  src : Text
  dest : Text
  size : Nat
  deriving DecidableEq

def Chunk.spec (c : Chunk) : Text := c.dest ++ '=' :: c.src

def Chunk.isolinux (c : Chunk) : Bool := c.dest == "isolinux/".toList || c.src == "isolinux/".toList

/-- `${pathspec}_N`, and `${pathspec}_iso`. -/
inductive PathFile
  | disk (n : Nat)
  | iso
  deriving DecidableEq

/-- The disk on which the file is used: `_0` goes on every disk, and `_iso` on the first. -/
def PathFile.image : PathFile → Nat
  | .disk n => n
  | .iso => 1

/-- Where a chunk went: the disk of the account, and the file that it was written to. -/
structure Placement where
  chunk : Chunk
  disk : Nat
  file : PathFile

structure State where
  disks : List Nat
  disk_nr : Nat
  /-- `disk_N_size` -/
  size : Nat → Nat
  /-- The lines of the path files. -/
  paths : PathFile → List Text
  /-- The calls of `add`. -/
  log : List Placement

def State.put (s : State) (c : Chunk) (x v : Nat) (file : PathFile) : State :=
  { s with
    size := upd s.size x v
    paths := upd s.paths file (s.paths file ++ [c.spec])
    log := s.log ++ [⟨c, x, file⟩] }

/-- What is free on a disk; the shared data never exceed its size. -/
def State.free (s : State) (dsize : Nat) : Nat := dsize - s.size 0

def Room (dsize : Nat) (s : State) (x : Nat) (c : Chunk) : Prop := s.size x + c.size ≤ s.free dsize

instance (dsize : Nat) (s : State) (x : Nat) (c : Chunk) : Decidable (Room dsize s x c) :=
  inferInstanceAs (Decidable (_ ≤ _))

/-- None if the chunk is too big. -/
def add (dsize : Nat) (s : State) (c : Chunk) : Option State :=
  if s.free dsize < c.size then none
  else
    match s.disks.find? fun x => decide (Room dsize s x c) with
    | some x => some (s.put c x (s.size x + c.size) (.disk s.disk_nr))
    | none =>
      let n := s.disk_nr + 1
      let file := if c.isolinux then .iso else .disk n
      some { s.put c n c.size file with disks := s.disks ++ [n], disk_nr := n }

/-! ## The passes -/

/-- A line of `isofs.txt`; the files of a `SPLIT` line are chunks of their own. -/
inductive Line
  | every (c : Chunk)
  | disk1 (c : Chunk)
  | single (c : Chunk)
  | split (files : List Chunk)

def everyData (data : List Line) : List Chunk := data.flatMap fun | .every c => [c] | _ => []
def disk1Data (data : List Line) : List Chunk := data.flatMap fun | .disk1 c => [c] | _ => []
def singleData (data : List Line) : List Chunk := data.flatMap fun | .single c => [c] | _ => []
def splitData (data : List Line) : List Chunk := data.flatMap fun | .split files => files | _ => []

/-- The chunks, in the order in which they are added. -/
def chunks (data : List Line) : List Chunk := everyData data ++ disk1Data data ++ (singleData data ++ splitData data)

def start (index : Text) : State where
  disks := [0]
  disk_nr := 0
  size _ := 0
  paths := fun file => if file = .disk 0 then [index] else []
  log := []

def everyStep (dsize : Nat) (s : State) (c : Chunk) : Option State :=
  (add dsize s c).filter fun s => s.disk_nr = 0

/-- Between the passes for every disk and for the first one. -/
def State.reset (s : State) : State := { s with disks := [], disk_nr := 0 }

def disk1Step (dsize : Nat) (s : State) (c : Chunk) : Option State :=
  (add dsize s c).filter fun s => s.disk_nr ≤ 1

/-- None if the script gives up. -/
def fill (dsize : Nat) (index : Text) (data : List Line) : Option State :=
  (run (everyStep dsize) (start index) (everyData data)).bind fun s =>
    (run (disk1Step dsize) s.reset (disk1Data data)).bind fun s =>
      run (add dsize) s (singleData data ++ splitData data)

/-! ## What should hold -/

def sum (log : List Placement) : Nat := (log.map (·.chunk.size)).sum

/-- What is written on a disk. -/
def written (s : State) (x : Nat) : Nat := sum (s.log.filter fun e => e.file.image = x)

/-- The path file is that of the disk of the account. -/
def Placement.right (e : Placement) : Prop := e.file.image = e.disk

instance (e : Placement) : Decidable e.right := inferInstanceAs (Decidable (_ = _))

def AllRight (s : State) : Prop := ∀ e ∈ s.log, e.right

/-- The lines of a path file, from the log. -/
def logged (index : Text) (s : State) (file : PathFile) : List Text :=
  (if file = .disk 0 then [index] else []) ++ (s.log.filter fun e => e.file = file).map (·.chunk.spec)

/-- Every chunk is on one disk, in the path file of the disk of its account, and no disk is too full. -/
def Filled (dsize : Nat) (index : Text) (data : List Line) : Prop :=
  ∃ s, fill dsize index data = some s ∧
    s.log.map (·.chunk) = chunks data ∧ s.paths = logged index s ∧ AllRight s ∧
    ∀ x ≠ 0, written s x + written s 0 ≤ dsize

/-! ## When it holds -/

/-- No disk but the last one has room for the chunk, and an `isolinux/` does not open a second one. -/
def AddRight (dsize : Nat) (s : State) (c : Chunk) : Prop :=
  c.size ≤ s.free dsize ∧ (∀ x ∈ s.disks, Room dsize s x c → x = s.disk_nr) ∧
    (c.isolinux = true → s.disk_nr ≠ 0 → ∃ x ∈ s.disks, Room dsize s x c)

/-- The shared data are counted twice. -/
def EveryRight (dsize : Nat) (s : State) (c : Chunk) : Prop := c.size ≤ s.free dsize ∧ Room dsize s 0 c

def Disk1Right (dsize : Nat) (s : State) (c : Chunk) : Prop :=
  c.size ≤ s.free dsize ∧ (s.disk_nr = 0 ∨ Room dsize s 1 c)

instance (dsize : Nat) (s : State) (c : Chunk) : Decidable (AddRight dsize s c) :=
  inferInstanceAs (Decidable (_ ∧ _ ∧ _))
instance (dsize : Nat) (s : State) (c : Chunk) : Decidable (EveryRight dsize s c) :=
  inferInstanceAs (Decidable (_ ∧ _))
instance (dsize : Nat) (s : State) (c : Chunk) : Decidable (Disk1Right dsize s c) :=
  inferInstanceAs (Decidable (_ ∧ _))

def FillRight (dsize : Nat) (index : Text) (data : List Line) : Prop :=
  Along (everyStep dsize) (EveryRight dsize) (start index) (everyData data) ∧
    ∀ s, run (everyStep dsize) (start index) (everyData data) = some s →
      Along (disk1Step dsize) (Disk1Right dsize) s.reset (disk1Data data) ∧
        ∀ s', run (disk1Step dsize) s.reset (disk1Data data) = some s' →
          Along (add dsize) (AddRight dsize) s' (singleData data ++ splitData data)

/-! ## One call -/

variable {dsize : Nat} {index : Text} {s s' : State} {c : Chunk}

/-- It goes to the last disk while another one is charged, or a new disk is opened. -/
theorem add_cases (h : add dsize s c = some s') :
    c.size ≤ s.free dsize ∧
      ((∃ x, (s.disks.find? fun x => decide (Room dsize s x c)) = some x ∧
          s' = s.put c x (s.size x + c.size) (.disk s.disk_nr)) ∨
        ((∀ x ∈ s.disks, ¬ Room dsize s x c) ∧
          s' = { s.put c (s.disk_nr + 1) c.size (if c.isolinux then .iso else .disk (s.disk_nr + 1)) with
            disks := s.disks ++ [s.disk_nr + 1], disk_nr := s.disk_nr + 1 })) := by
  rw [add] at h
  split at h
  · cases h
  next hsize =>
    refine ⟨not_lt.1 hsize, ?_⟩
    split at h
    next x hx => exact .inl ⟨x, hx, (Option.some.inj h).symm⟩
    next hnone =>
      refine .inr ⟨?_, (Option.some.inj h).symm⟩
      intro x hx
      simpa using List.find?_eq_none.1 hnone x hx

/-- The accounts: nothing is charged to a disk that is not open, every disk has room for what is charged to it and the
shared data, and they are the sums of the sizes. -/
structure Accounts (dsize : Nat) (index : Text) (s : State) : Prop where
  fresh : ∀ x, s.disk_nr < x → s.size x = 0
  fits : ∀ x, x ≠ 0 → s.size x + s.size 0 ≤ dsize
  sums : ∀ x, sum (s.log.filter fun e => e.disk = x) = s.size x
  paths : s.paths = logged index s

/-- Between two calls in the later passes. -/
structure Inv (dsize : Nat) (index : Text) (s : State) : Prop extends Accounts dsize index s where
  disks : s.disks = List.range' 1 s.disk_nr

/-- In the pass for every disk. -/
structure EveryInv (dsize : Nat) (index : Text) (s : State) : Prop extends Accounts dsize index s where
  disks : s.disks = [0]
  first : s.disk_nr = 0

theorem sum_append (log : List Placement) (e : Placement) : sum (log ++ [e]) = sum log + e.chunk.size := by
  simp [sum]

theorem Accounts.shared_le (h : Accounts dsize index s) : s.size 0 ≤ dsize := by
  have hfits := h.fits (s.disk_nr + 1) (by omega)
  omega

/-- An account that grows by the size of the chunk is still the sum. -/
theorem Accounts.put (h : Accounts dsize index s) {x v : Nat} (hv : v = s.size x + c.size) (hx : x ≤ s.disk_nr)
    (hfits : ∀ y ≠ 0, upd s.size x v y + upd s.size x v 0 ≤ dsize) (file : PathFile) :
    Accounts dsize index (s.put c x v file) where
  fresh y hy := by
    have hne : y ≠ x := by
      rintro rfl
      exact absurd hx (not_le.2 hy)
    exact (upd_ne _ _ _ _ hne).trans (h.fresh y hy)
  fits := hfits
  sums y := by
    simp only [State.put, List.filter_append]
    by_cases hxy : x = y
    · subst hxy
      rw [List.filter_cons_of_pos (by simp), List.filter_nil, sum_append, h.sums, upd_same, hv]
    · rw [List.filter_cons_of_neg (by simp [hxy]), List.filter_nil, List.append_nil, h.sums,
        upd_ne _ _ _ _ (Ne.symm hxy)]
  paths := by
    funext f
    simp only [State.put, logged, List.filter_append]
    by_cases hf : file = f
    · subst hf
      rw [upd_same, h.paths, List.filter_cons_of_pos (by simp), List.filter_nil, List.map_append, logged]
      simp
    · rw [upd_ne _ _ _ _ (Ne.symm hf), h.paths, List.filter_cons_of_neg (by simp [hf]), List.filter_nil,
        List.append_nil, logged]

theorem Accounts.open (h : Accounts dsize index s) (disks : List Nat) :
    Accounts dsize index { s with disks := disks, disk_nr := s.disk_nr + 1 } where
  fresh x hx := h.fresh x (Nat.lt_of_succ_lt hx)
  fits := h.fits
  sums := h.sums
  paths := h.paths

/-! ## Between the calls -/

theorem Inv.add (h : Inv dsize index s) (hadd : add dsize s c = some s') : Inv dsize index s' := by
  have hshared := h.shared_le
  obtain ⟨hsize, ⟨x, hx, rfl⟩ | ⟨-, rfl⟩⟩ := add_cases hadd
  · have hmem : 1 ≤ x ∧ x ≤ s.disk_nr := by
      have hmem := List.mem_of_find?_eq_some hx
      rw [h.disks, List.mem_range'_1] at hmem
      omega
    have hroom : Room dsize s x c := by simpa using List.find?_some hx
    refine { h.toAccounts.put rfl hmem.2 (fun y hy => ?_) _ with disks := h.disks }
    rw [upd_ne s.size x 0 _ (by omega)]
    by_cases hyx : y = x
    · subst hyx
      rw [upd_same]
      simp only [Room, State.free] at hroom
      omega
    · rw [upd_ne _ _ _ _ hyx]
      exact h.fits y hy
  · have hfresh : s.size (s.disk_nr + 1) = 0 := h.fresh _ (Nat.lt_succ_self _)
    have hopen := h.toAccounts.open (s.disks ++ [s.disk_nr + 1])
    refine { hopen.put (by simp [hfresh]) le_rfl (fun y hy => ?_) _ with disks := ?_ }
    · rw [upd_ne _ (s.disk_nr + 1) 0 _ (by omega)]
      by_cases hyx : y = s.disk_nr + 1
      · subst hyx
        rw [upd_same]
        have hfree : c.size ≤ dsize - s.size 0 := hsize
        exact (by omega : c.size + s.size 0 ≤ dsize)
      · rw [upd_ne _ _ _ _ hyx]
        exact h.fits y hy
    · show s.disks ++ [s.disk_nr + 1] = List.range' 1 (s.disk_nr + 1)
      rw [h.disks, List.range'_1_concat, Nat.add_comm 1]

theorem EveryInv.step (h : EveryInv dsize index s) (hstep : everyStep dsize s c = some s') :
    EveryInv dsize index s' := by
  obtain ⟨hadd, hnr⟩ := Option.filter_eq_some_iff.1 hstep
  have hnr : s'.disk_nr = 0 := by simpa using hnr
  obtain ⟨hsize, ⟨x, hx, rfl⟩ | ⟨-, rfl⟩⟩ := add_cases hadd
  · obtain rfl : x = 0 := by
      have hmem := List.mem_of_find?_eq_some hx
      simpa [h.disks] using hmem
    have hroom : Room dsize s 0 c := by simpa using List.find?_some hx
    refine { h.toAccounts.put rfl (Nat.zero_le _) (fun y hy => ?_) _ with disks := h.disks, first := hnr }
    rw [upd_same, upd_ne _ _ _ _ hy, h.fresh y (by rw [h.first]; omega)]
    simp only [Room, State.free] at hroom
    omega
  · cases hnr

theorem EveryInv.reset (h : EveryInv dsize index s) : Inv dsize index s.reset where
  fresh x hx := h.fresh x (h.first ▸ hx)
  fits := h.fits
  sums := h.sums
  paths := h.paths
  disks := rfl

theorem Inv.disk1Step (h : Inv dsize index s) (hstep : disk1Step dsize s c = some s') : Inv dsize index s' :=
  h.add (Option.filter_eq_some_iff.1 hstep).1

/-! ## The log -/

theorem add_log (h : add dsize s c = some s') : ∃ e, s'.log = s.log ++ [e] ∧ e.chunk = c := by
  obtain ⟨-, ⟨x, -, rfl⟩ | ⟨-, rfl⟩⟩ := add_cases h
  · exact ⟨_, rfl, rfl⟩
  · exact ⟨_, rfl, rfl⟩

/-- What is written wrong stays so. -/
theorem allRight_back (h : add dsize s c = some s') (hright : AllRight s') : AllRight s := by
  obtain ⟨e, he, -⟩ := add_log h
  exact fun e' he' => hright e' (by rw [he]; exact List.mem_append_left _ he')

theorem log_run {step : State → Chunk → Option State}
    (hstep : ∀ s c s', step s c = some s' → add dsize s c = some s') {cs : List Chunk} {s s' : State}
    (h : run step s cs = some s') : s'.log.map (·.chunk) = s.log.map (·.chunk) ++ cs := by
  induction cs generalizing s with
  | nil => cases h; simp
  | cons c cs ih =>
    obtain ⟨t, ht, hrun⟩ := run_cons_some.1 h
    obtain ⟨e, he, hc⟩ := add_log (hstep s c t ht)
    rw [ih hrun, he, List.map_append, List.map_singleton, hc, List.append_assoc, List.singleton_append]

/-! ## Steps that are right -/

theorem allRight_put (h : AllRight s) (x v : Nat) (file : PathFile) :
    AllRight (s.put c x v file) ↔ file.image = x := by
  constructor
  · exact fun hall => hall ⟨c, x, file⟩ (by simp [State.put])
  · intro he e he'
    rcases List.mem_append.1 he' with he' | he'
    · exact h e he'
    · obtain rfl := List.mem_singleton.1 he'
      exact he

/-- A new disk gets the chunk, but for an `isolinux/`. -/
theorem image_new (c : Chunk) (n : Nat) :
    (if c.isolinux then PathFile.iso else .disk (n + 1)).image = n + 1 ↔ (c.isolinux = true → n = 0) := by
  split
  next hiso => simp [PathFile.image, hiso]
  next hiso => simp [PathFile.image, hiso]

/-- The first disk with room is the last one exactly if no other has room. -/
theorem first_eq_last (h : Inv dsize index s) {x : Nat}
    (hx : (s.disks.find? fun x => decide (Room dsize s x c)) = some x) :
    s.disk_nr = x ↔ ∀ y ∈ s.disks, Room dsize s y c → y = s.disk_nr := by
  constructor
  · rintro hlast y hy hroom
    obtain ⟨-, front, back, hsplit, hfront⟩ := List.find?_eq_some_iff_append.1 hx
    have hsorted : s.disks.Pairwise (· < ·) := by
      rw [h.disks]
      exact List.pairwise_lt_range'
    have hle : y ≤ s.disk_nr := by
      rw [h.disks, List.mem_range'_1] at hy
      omega
    rw [hsplit] at hy hsorted
    rcases List.mem_append.1 hy with hy | hy
    · exact absurd hroom (by simpa using hfront y hy)
    · rcases List.mem_cons.1 hy with rfl | hy
      · exact hlast.symm
      · have hlt := (List.pairwise_cons.1 (List.pairwise_append.1 hsorted).2.1).1 y hy
        omega
  · intro honly
    exact (honly x (List.mem_of_find?_eq_some hx) (by simpa using List.find?_some hx)).symm

theorem addRight_iff (h : Inv dsize index s) (hright : AllRight s) :
    AddRight dsize s c ↔ ∃ s', add dsize s c = some s' ∧ AllRight s' := by
  rw [AddRight, add]
  by_cases hsize : s.free dsize < c.size
  · simp [hsize, not_le.2 hsize]
  rw [if_neg hsize, and_iff_right (not_lt.1 hsize)]
  cases hfind : s.disks.find? fun x => decide (Room dsize s x c) with
  | some x =>
    have hroom : ∃ y ∈ s.disks, Room dsize s y c :=
      ⟨x, List.mem_of_find?_eq_some hfind, by simpa using List.find?_some hfind⟩
    have hput : (∃ s', some (s.put c x (s.size x + c.size) (.disk s.disk_nr)) = some s' ∧ AllRight s') ↔
        s.disk_nr = x := by
      simp [allRight_put hright, PathFile.image]
    rw [hput, first_eq_last h hfind]
    exact and_iff_left fun _ _ => hroom
  | none =>
    have hnone : ∀ y ∈ s.disks, ¬ Room dsize s y c := fun y hy => by simpa using List.find?_eq_none.1 hfind y hy
    have hput := (allRight_put (c := c) hright (s.disk_nr + 1) c.size
      (if c.isolinux then .iso else .disk (s.disk_nr + 1))).trans (image_new c s.disk_nr)
    constructor
    · rintro ⟨-, hiso⟩
      refine ⟨_, rfl, hput.2 fun hc => ?_⟩
      by_contra hnr
      obtain ⟨y, hy, hroom⟩ := hiso hc hnr
      exact hnone y hy hroom
    · rintro ⟨s', hs', hall⟩
      obtain rfl := Option.some.inj hs'
      exact ⟨fun y hy hroom => absurd hroom (hnone y hy), fun hc hnr => absurd (hput.1 hall hc) hnr⟩

/-- With at most one disk open, that one has to have room. -/
theorem disk1Right_iff (h : Inv dsize index s) (hnr : s.disk_nr ≤ 1) (hright : AllRight s) :
    Disk1Right dsize s c ↔ ∃ s', disk1Step dsize s c = some s' ∧ AllRight s' := by
  have hmem : ∀ x ∈ s.disks, x = 1 ∧ s.disk_nr = 1 := by
    intro x hx
    rw [h.disks, List.mem_range'_1] at hx
    omega
  constructor
  · rintro ⟨hsize, hroom⟩
    have hadd : AddRight dsize s c := by
      refine ⟨hsize, fun x hx _ => (hmem x hx).1.trans (hmem x hx).2.symm, fun _ hnr => ?_⟩
      have hone : s.disk_nr = 1 := by omega
      exact ⟨1, by simp [h.disks, hone], hroom.resolve_left hnr⟩
    obtain ⟨s', hs', hall⟩ := (addRight_iff h hright).1 hadd
    refine ⟨s', Option.filter_eq_some_iff.2 ⟨hs', ?_⟩, hall⟩
    obtain ⟨-, ⟨x, -, rfl⟩ | ⟨hnone, rfl⟩⟩ := add_cases hs'
    · exact decide_eq_true hnr
    · have hzero : s.disk_nr = 0 := by
        by_contra hne
        have hone : s.disk_nr = 1 := by omega
        exact hnone 1 (by simp [h.disks, hone]) (hroom.resolve_left hne)
      exact decide_eq_true (by simp [hzero])
  · rintro ⟨s', hs', -⟩
    obtain ⟨hadd, hle⟩ := Option.filter_eq_some_iff.1 hs'
    obtain ⟨hsize, ⟨x, hx, rfl⟩ | ⟨-, rfl⟩⟩ := add_cases hadd
    · have hroom : Room dsize s x c := by simpa using List.find?_some hx
      obtain ⟨rfl, -⟩ := hmem x (List.mem_of_find?_eq_some hx)
      exact ⟨hsize, .inr hroom⟩
    · exact ⟨hsize, .inl (by simpa using hle)⟩

/-- The shared disk has to have room. -/
theorem everyRight_iff (h : EveryInv dsize index s) (hright : AllRight s) :
    EveryRight dsize s c ↔ ∃ s', everyStep dsize s c = some s' ∧ AllRight s' := by
  constructor
  · rintro ⟨hsize, hroom⟩
    have hfind : (s.disks.find? fun x => decide (Room dsize s x c)) = some 0 := by
      rw [h.disks, List.find?_cons_of_pos (by simpa using hroom)]
    refine ⟨s.put c 0 (s.size 0 + c.size) (.disk s.disk_nr), ?_, (allRight_put hright _ _ _).2 h.first⟩
    rw [everyStep, Option.filter_eq_some_iff, add, if_neg (not_lt.2 hsize), hfind]
    exact ⟨rfl, decide_eq_true h.first⟩
  · rintro ⟨s', hs', -⟩
    obtain ⟨hadd, hnr⟩ := Option.filter_eq_some_iff.1 hs'
    obtain ⟨hsize, ⟨x, hx, rfl⟩ | ⟨-, rfl⟩⟩ := add_cases hadd
    · have hroom : Room dsize s x c := by simpa using List.find?_some hx
      obtain rfl : x = 0 := by simpa [h.disks] using List.mem_of_find?_eq_some hx
      exact ⟨hsize, hroom⟩
    · simp at hnr

/-! ## All passes -/

theorem start_inv (dsize : Nat) (index : Text) : EveryInv dsize index (start index) where
  fresh _ _ := rfl
  fits _ _ := Nat.zero_le dsize
  sums _ := rfl
  paths := by
    funext file
    simp [start, logged]
  disks := rfl
  first := rfl

theorem disk1_inv {s : State} (h : Inv dsize index s ∧ s.disk_nr ≤ 1) {s' : State}
    (hstep : disk1Step dsize s c = some s') :
    Inv dsize index s' ∧ s'.disk_nr ≤ 1 :=
  ⟨h.1.disk1Step hstep, of_decide_eq_true (Option.filter_eq_some_iff.1 hstep).2⟩

/-- If every placement is right, what is written is what is accounted. -/
theorem written_eq (h : Accounts dsize index s) (hright : AllRight s) (x : Nat) : written s x = s.size x := by
  rw [written, ← h.sums x]
  exact congrArg sum (List.filter_congr fun e he => by rw [hright e he])

theorem everyRun_iff {s : State} (h : EveryInv dsize index s) (hright : AllRight s) (cs : List Chunk) :
    (∃ s', run (everyStep dsize) s cs = some s' ∧ AllRight s') ↔ Along (everyStep dsize) (EveryRight dsize) s cs :=
  run_iff_along (fun _ _ _ h hs => h.step hs)
    (fun _ _ _ hs => allRight_back (Option.filter_eq_some_iff.1 hs).1) (fun _ _ h => everyRight_iff h) h hright cs

theorem disk1Run_iff {s : State} (h : Inv dsize index s ∧ s.disk_nr ≤ 1) (hright : AllRight s) (cs : List Chunk) :
    (∃ s', run (disk1Step dsize) s cs = some s' ∧ AllRight s') ↔ Along (disk1Step dsize) (Disk1Right dsize) s cs :=
  run_iff_along (fun _ _ _ h hs => disk1_inv h hs)
    (fun _ _ _ hs => allRight_back (Option.filter_eq_some_iff.1 hs).1) (fun _ _ h => disk1Right_iff h.1 h.2) h hright cs

theorem addRun_iff {s : State} (h : Inv dsize index s) (hright : AllRight s) (cs : List Chunk) :
    (∃ s', run (add dsize) s cs = some s' ∧ AllRight s') ↔ Along (add dsize) (AddRight dsize) s cs :=
  run_iff_along (fun _ _ _ h hs => h.add hs) (fun _ _ _ hs => allRight_back hs) (fun _ _ h => addRight_iff h) h
    hright cs

/-- What three passes leave, one after the other. -/
theorem fill_some {data : List Line} {s : State} (h : fill dsize index data = some s) :
    ∃ s₁ s₂, run (everyStep dsize) (start index) (everyData data) = some s₁ ∧
      run (disk1Step dsize) s₁.reset (disk1Data data) = some s₂ ∧
      run (add dsize) s₂ (singleData data ++ splitData data) = some s := by
  obtain ⟨s₁, h₁, h⟩ := Option.bind_eq_some_iff.1 h
  obtain ⟨s₂, h₂, h⟩ := Option.bind_eq_some_iff.1 h
  exact ⟨s₁, s₂, h₁, h₂, h⟩

/-- **The disks** are filled as accounted exactly if no disk but the last has room at any call. -/
theorem fill_right (dsize : Nat) (index : Text) (data : List Line) :
    Filled dsize index data ↔ FillRight dsize index data := by
  have hstart := start_inv dsize index
  have hempty : AllRight (start index) := fun e he => absurd he List.not_mem_nil
  constructor
  · rintro ⟨s, hfill, -, -, hright₃, -⟩
    obtain ⟨s₁, s₂, h₁, h₂, h₃⟩ := fill_some hfill
    have hright₂ : AllRight s₂ := run_back (fun _ _ _ hs => allRight_back hs) h₃ hright₃
    have hright₁ : AllRight s₁.reset :=
      run_back (fun _ _ _ hs => allRight_back (Option.filter_eq_some_iff.1 hs).1) h₂ hright₂
    have hinv₁ : Inv dsize index s₁.reset := (run_inv (fun _ _ _ h hs => h.step hs) hstart h₁).reset
    have hinv₂ := (run_inv (fun _ _ _ h hs => disk1_inv h hs) ⟨hinv₁, Nat.zero_le _⟩ h₂).1
    refine ⟨(everyRun_iff hstart hempty _).1 ⟨s₁, h₁, hright₁⟩, fun t ht => ?_⟩
    obtain rfl : s₁ = t := Option.some.inj (h₁.symm.trans ht)
    refine ⟨(disk1Run_iff ⟨hinv₁, Nat.zero_le _⟩ hright₁ _).1 ⟨s₂, h₂, hright₂⟩, fun t ht => ?_⟩
    obtain rfl : s₂ = t := Option.some.inj (h₂.symm.trans ht)
    exact (addRun_iff hinv₂ hright₂ _).1 ⟨s, h₃, hright₃⟩
  · rintro ⟨hevery, hrest⟩
    obtain ⟨s₁, h₁, hright₁⟩ := (everyRun_iff hstart hempty _).2 hevery
    obtain ⟨hdisk1, hrest⟩ := hrest s₁ h₁
    have hinv₁ : Inv dsize index s₁.reset := (run_inv (fun _ _ _ h hs => h.step hs) hstart h₁).reset
    obtain ⟨s₂, h₂, hright₂⟩ := (disk1Run_iff ⟨hinv₁, Nat.zero_le _⟩ hright₁ _).2 hdisk1
    have hinv₂ := (run_inv (fun _ _ _ h hs => disk1_inv h hs) ⟨hinv₁, Nat.zero_le _⟩ h₂).1
    obtain ⟨s₃, h₃, hright₃⟩ := (addRun_iff hinv₂ hright₂ _).2 (hrest s₂ h₂)
    have hinv₃ := run_inv (fun _ _ _ h hs => h.add hs) hinv₂ h₃
    refine ⟨s₃, ?_, ?_, hinv₃.paths, hright₃, fun x hx => ?_⟩
    · rw [fill, h₁, Option.bind_some, h₂, Option.bind_some, h₃]
    · rw [log_run (fun _ _ _ hs => hs) h₃, log_run (fun _ _ _ hs => (Option.filter_eq_some_iff.1 hs).1) h₂]
      have hlog₁ := log_run (fun _ _ _ hs => (Option.filter_eq_some_iff.1 hs).1) h₁
      show s₁.log.map (·.chunk) ++ _ ++ _ = _
      rw [hlog₁]
      simp [start, chunks]
    · rw [written_eq hinv₃.toAccounts hright₃, written_eq hinv₃.toAccounts hright₃]
      exact hinv₃.fits x hx

/-- Two large packages, and a small one that still goes on the first disk. -/
def packages : List Line := [.single ⟨['a'], ['a'], 6⟩, .single ⟨['b'], ['b'], 7⟩, .single ⟨['c'], ['c'], 4⟩]

/-- The small one is charged to the first disk and written to the second, which is then too full. -/
theorem fill_overfull :
    ((fill 10 [] packages).map fun s => (s.size 1, s.size 2, written s 1, written s 2)) = some (10, 7, 6, 11) ∧
      ((fill 10 [] packages).map fun s => s.paths (.disk 2)) = some ["b=b".toList, "c=c".toList] ∧
      ¬ Filled 10 [] packages := by
  have hwritten : ((fill 10 [] packages).map fun s => (s.size 1, s.size 2, written s 1, written s 2)) =
      some (10, 7, 6, 11) := by
    decide +kernel
  refine ⟨hwritten, by decide +kernel, ?_⟩
  rintro ⟨s, hs, -, -, -, hfits⟩
  rw [hs, Option.map_some] at hwritten
  have hfull : written s 2 = 11 := congrArg (fun x => x.2.2.2) (Option.some.inj hwritten)
  have hle := hfits 2 (by decide)
  omega

end T2Sde.Iso
