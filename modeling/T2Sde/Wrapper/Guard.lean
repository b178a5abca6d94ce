import T2Sde.Lib.Cut
import T2Sde.Lib.Joined
import T2Sde.Wrapper.Generate
/-!
# The write guard (`misc/tools-source/fl_wrapper.c.sh`)

With `FLWRAPPER_BASEDIR` a wrapper of `open` aborts if a file is opened for writing outside of that directory. It
tests single bits of the flags, and the front of the path as it is written.

| here | |
| --- | --- |
| `normalize` | the normal form of a path: no empty component, no `.`, no `..` |
| `Allowed`   | the places in which a file may be written |
| `Sibling`   | a path that only starts like one of them |

* `check_iff` — what `check_write_access` makes of a path as it is written.
* `guard_complete` — **when the guard is right**.
* `guardRight_normal`, `outward_dots` — which paths these are.
-/
namespace T2Sde.Wrapper
open Shell

/-! ## Paths in normal form -/

/-- One slash in front, as the guard looks at a path. -/
def single (path : Text) : Text := '/' :: path.dropWhile (· == '/')

def push (stack : List Text) (c : Text) : List Text :=
  if c = [] ∨ c = ['.'] then stack else if c = ['.', '.'] then stack.dropLast else stack ++ [c]

def components (path : Text) : List Text := (path.splitOn '/').foldl push []

def normalize (path : Text) : Text := '/' :: ['/'].intercalate (components path)

/-- `FLWRAPPER_BASEDIR` -/
structure BaseDir where
  path : Text
  normal : normalize path = path

def Below (dir path : Text) : Prop := dir = ['/'] ∨ dir ++ ['/'] <+: path

def Under (dir path : Text) : Prop := path = dir ∨ Below dir path

def Allowed (base : BaseDir) (path : Text) : Prop :=
  Under base.path path ∨ Under "/tmp".toList path ∨ path = "/dev/null".toList ∨ Below "/dev/fd".toList path

instance (dir path : Text) : Decidable (Below dir path) := inferInstanceAs (Decidable (_ ∨ _))
instance (dir path : Text) : Decidable (Under dir path) := inferInstanceAs (Decidable (_ ∨ _))
instance (base : BaseDir) (path : Text) : Decidable (Allowed base path) := inferInstanceAs (Decidable (_ ∨ _))

/-- The path starts like `BASEDIR` or `/tmp`, and is another one. -/
def Sibling (base : BaseDir) (path : Text) : Prop :=
  (base.path <+: path ∨ "/tmp".toList <+: path) ∧ ¬ Allowed base path

theorem push_spec {stack : List Text} (hstack : ∀ c ∈ stack, c ≠ [] ∧ '/' ∉ c) {x : Text} (hx : '/' ∉ x) :
    ∀ c ∈ push stack x, c ≠ [] ∧ '/' ∉ c := by
  unfold push
  split
  · exact hstack
  next hname =>
    split
    · exact fun c hc => hstack c (List.dropLast_subset _ hc)
    · intro c hc
      rcases List.mem_append.1 hc with hc | hc
      · exact hstack c hc
      · obtain rfl := List.mem_singleton.1 hc
        exact ⟨fun h => hname (.inl h), hx⟩

theorem components_spec (path : Text) : ∀ c ∈ components path, c ≠ [] ∧ '/' ∉ c := by
  have hfold : ∀ (xs stack : List Text), (∀ c ∈ stack, c ≠ [] ∧ '/' ∉ c) → (∀ x ∈ xs, '/' ∉ x) →
      ∀ c ∈ xs.foldl push stack, c ≠ [] ∧ '/' ∉ c := by
    intro xs
    induction xs with
    | nil => exact fun _ h _ => h
    | cons x xs ih =>
      intro stack hstack hxs
      obtain ⟨hx, hxs⟩ := List.forall_mem_cons.1 hxs
      exact ih _ (push_spec hstack hx) hxs
  exact hfold _ [] (by simp) (splitOn_parts '/' path)

/-- A path in normal form has one slash in front. -/
theorem single_normal {path : Text} (h : normalize path = path) : single path = path := by
  have hspec := components_spec path
  rw [normalize] at h
  rw [single]
  rw [← h, List.dropWhile_cons_of_pos (by simp)]
  congr 1
  cases hcs : components path with
  | nil => rfl
  | cons c cs =>
    rw [hcs] at hspec
    obtain ⟨hne, hslash⟩ := hspec c List.mem_cons_self
    obtain ⟨d, c, rfl⟩ := List.exists_cons_of_ne_nil hne
    have hd : ¬ (d == '/') = true := by
      rw [beq_iff_eq]
      rintro rfl
      exact hslash List.mem_cons_self
    have hhead : ∃ s, ['/'].intercalate ((d :: c) :: cs) = d :: s := by
      cases cs with
      | nil => exact ⟨c, by simp⟩
      | cons e cs => exact ⟨c ++ '/' :: ['/'].intercalate (e :: cs), by simp [List.intercalate_cons_cons]⟩
    obtain ⟨s, hs⟩ := hhead
    rw [hs, List.dropWhile_cons, if_neg hd]

theorem starts_of_under {dir path : Text} (habs : path.head? = some '/') (h : Under dir path) : dir <+: path := by
  rcases h with rfl | rfl | h
  · exact List.prefix_refl _
  · cases path with
    | nil => simp at habs
    | cons c path =>
      obtain rfl : c = '/' := by simpa using habs
      exact ⟨path, rfl⟩
  · exact (List.prefix_append dir ['/']).trans h

/-- **What passes**: a path that as it is written is in an allowed place, or looks like it at the front. -/
theorem check_iff (base : BaseDir) {path : Text} (habs : path.head? = some '/') :
    checkWriteAccess base.path path = true ↔ Allowed base (single path) ∨ Sibling base (single path) := by
  have hsingle : (single path).head? = some '/' := rfl
  rw [checkWriteAccess, if_pos habs, ← single]
  simp only [Bool.or_eq_true, beq_iff_eq, List.isPrefixOf_iff_prefix]
  constructor
  · intro hcheck
    by_cases hallowed : Allowed base (single path)
    · exact .inl hallowed
    · rcases hcheck with ((hnull | hfd) | htmp) | hbase
      · exact .inl (.inr (.inr (.inl hnull)))
      · exact .inl (.inr (.inr (.inr (.inr hfd))))
      · exact .inr ⟨.inr htmp, hallowed⟩
      · exact .inr ⟨.inl hbase, hallowed⟩
  · rintro (hallowed | ⟨hbase | htmp, -⟩)
    · rcases hallowed with hbase | htmp | hnull | hfd
      · exact .inr (starts_of_under hsingle hbase)
      · exact .inl (.inr (starts_of_under hsingle htmp))
      · exact .inl (.inl (.inl hnull))
      · exact .inl (.inl (.inr (hfd.resolve_left (by decide))))
    · exact .inr hbase
    · exact .inl (.inr htmp)

/-! ## Flags -/

/-- The file may be written or made. -/
def mayWrite (a : BitVec 32) : Prop :=
  a &&& O_ACCMODE = O_WRONLY ∨ a &&& O_ACCMODE = O_RDWR ∨ a &&& O_CREAT ≠ 0 ∨ a &&& O_APPEND ≠ 0

/-- The flags that the guard looks at. -/
def tested (a : BitVec 32) : Prop := a &&& (O_WRONLY ||| O_CREAT ||| O_APPEND) ≠ 0

/-- For reading and writing, and nothing else. -/
def ReadWrite (a : BitVec 32) : Prop := a &&& O_ACCMODE = O_RDWR ∧ a &&& O_CREAT = 0 ∧ a &&& O_APPEND = 0

instance (a : BitVec 32) : Decidable (tested a) := inferInstanceAs (Decidable (_ ≠ _))
instance (a : BitVec 32) : Decidable (mayWrite a) := inferInstanceAs (Decidable (_ ∨ _))

theorem tested_iff (a : BitVec 32) : tested a ↔ a &&& O_WRONLY ≠ 0 ∨ a &&& O_CREAT ≠ 0 ∨ a &&& O_APPEND ≠ 0 := by
  have hand : ∀ x y : BitVec 32, a &&& (x ||| y) = a &&& x ||| a &&& y := by
    intro x y
    ext i hi
    simp [Bool.and_or_distrib_left]
  have hor : ∀ x y : BitVec 32, x ||| y = 0 ↔ x = 0 ∧ y = 0 := fun _ _ => BitVec.or_eq_zero_iff
  rw [tested, hand, hand, Ne, hor, hor, not_and_or, not_and_or, or_assoc]

/-- The bit of `O_WRONLY` is one of the access mode. -/
theorem and_writeOnly (a : BitVec 32) : a &&& O_WRONLY = a &&& O_ACCMODE &&& O_WRONLY := by
  rw [BitVec.and_assoc]
  rfl

/-- The guard looks at all flags for writing, but not at the access mode for both. -/
theorem tested_of_mayWrite {a : BitVec 32} (h : mayWrite a) : tested a ↔ ¬ ReadWrite a := by
  rw [tested_iff, and_writeOnly, ReadWrite]
  rcases h with hmode | hmode | hcreat | happend
  · have hne : O_WRONLY &&& O_WRONLY ≠ 0 ∧ O_WRONLY ≠ O_RDWR := by decide
    rw [hmode]
    exact ⟨fun _ h => hne.2 h.1, fun _ => .inl hne.1⟩
  · have hzero : O_RDWR &&& O_WRONLY = 0 := by decide
    rw [hmode, hzero]
    tauto
  · exact ⟨fun _ h => hcreat h.2.1, fun _ => .inr (.inl hcreat)⟩
  · exact ⟨fun _ h => happend h.2.2, fun _ => .inr (.inr happend)⟩

/-! ## The guard -/

def openWrappers : List Func := wrappers.filter (·.named "open")

theorem open_shape : ∀ w ∈ openWrappers, w.named "exec" = false ∧ w.named "open" = true ∧
    (w.atcheck = [] ∨ w.atcheck = [checked]) := by
  rw [openWrappers, wrappers]
  simp only [List.map_cons, List.map_nil]
  repeat rw [String.toList_ofList]
  decide +kernel

/-- Nothing is written elsewhere, and what may be written is not rejected. -/
def Guarded (base : BaseDir) (w : Func) (fds : Text → Fd) (f : Text) (a : BitVec 32) : Prop :=
  (mayWrite a → ¬ Allowed base (normalize f) → w.run (some base.path) fds f a = some [.abort]) ∧
    (Allowed base (normalize f) → ∃ t, w.run (some base.path) fds f a = some t ∧ .abort ∉ t)

/-- The directory of the descriptor, which is put in front of the path. -/
def Func.front (w : Func) (fds : Text → Fd) : Option Text :=
  if w.atcheck = [] then none
  else match fds checked with
    | .cwd => none
    | .dir dir => some dir

/-- The path with the directory in front. -/
def Func.written (w : Func) (fds : Text → Fd) (f : Text) : Text :=
  match w.front fds with
  | none => f
  | some dir => dir ++ '/' :: f

/-- **The calls that do not go wrong.** A relative path is one from the root here. -/
structure GuardRight (base : BaseDir) (w : Func) (fds : Text → Fd) (f : Text) (a : BitVec 32) : Prop where
  /-- Nothing is opened just for reading and writing outside. -/
  both : ReadWrite a → Allowed base (normalize f)
  /-- No path is written that starts with the characters of `BASEDIR` or `/tmp` only. -/
  sibling : mayWrite a → Sibling base (single (w.written fds f)) → Allowed base (normalize f)
  /-- No path is written that starts in an allowed place and leads out of it by `..`, and no relative one. -/
  outward : mayWrite a → absolute (w.written fds f) = false ∨ Allowed base (single (w.written fds f)) →
    Allowed base (normalize f)
  /-- A path that leads into an allowed place by `..`, or over `.` and empty components, looks like it in front. -/
  inward : tested a → Allowed base (normalize f) → absolute (w.written fds f) = false ∨
    Allowed base (single (w.written fds f)) ∨ Sibling base (single (w.written fds f))
  /-- With the directory in front the path fits. -/
  fits : ∀ dir ∈ w.front fds, ¬ Fits dir f → ¬ mayWrite a ∧ ¬ Allowed base (normalize f)

theorem run_open {w : Func} (hw : w ∈ openWrappers) (base : BaseDir) {fds : Text → Fd} {f f2 : Text}
    (hf : w.f2 fds f = some f2) (a : BitVec 32) :
    w.run (some base.path) fds f a =
      some (if tested a ∧ checkWriteAccess base.path f2 = false then [.abort] else [.before f2, .call, .after f2]) := by
  obtain ⟨hexec, hopen, -⟩ := open_shape w hw
  rw [Func.run, hexec, if_neg Bool.false_ne_true, hf, Option.map_some, hopen]
  by_cases h : tested a ∧ checkWriteAccess base.path f2 = false
  · simp only [Option.any_some, Bool.true_and]
    rw [if_pos h, if_pos (by simpa [tested] using h)]
  · simp only [Option.any_some, Bool.true_and]
    rw [if_neg h, if_neg (by simpa [tested] using h)]

/-- What the guard does with the path that it inspects. -/
theorem guarded_iff {w : Func} (hw : w ∈ openWrappers) (base : BaseDir) {fds : Text → Fd} {f f2 : Text}
    (hf : w.f2 fds f = some f2) (a : BitVec 32) :
    Guarded base w fds f a ↔
      if Allowed base (normalize f) then tested a → checkWriteAccess base.path f2 = true
      else mayWrite a → ¬ ReadWrite a ∧ checkWriteAccess base.path f2 = false := by
  rw [Guarded, run_open hw base hf]
  by_cases hallowed : Allowed base (normalize f)
  · rw [if_pos hallowed]
    constructor
    · rintro ⟨-, hpass⟩ htest
      obtain ⟨t, ht, habort⟩ := hpass hallowed
      by_contra hcheck
      rw [if_pos ⟨htest, by simpa using hcheck⟩] at ht
      obtain rfl := Option.some.inj ht
      simp at habort
    · intro hcheck
      refine ⟨fun _ h => absurd hallowed h, fun _ => ⟨_, rfl, ?_⟩⟩
      rw [if_neg fun h => by simp [hcheck h.1] at h]
      simp
  · rw [if_neg hallowed]
    constructor
    · rintro ⟨hreject, -⟩ hwrite
      have habort := Option.some.inj (hreject hwrite hallowed)
      by_cases hboth : tested a ∧ checkWriteAccess base.path f2 = false
      · exact ⟨(tested_of_mayWrite hwrite).1 hboth.1, hboth.2⟩
      · simp [if_neg hboth] at habort
    · intro h
      refine ⟨fun hwrite _ => ?_, fun h => absurd h hallowed⟩
      obtain ⟨hflags, hcheck⟩ := h hwrite
      rw [if_pos ⟨(tested_of_mayWrite hwrite).2 hflags, hcheck⟩]

theorem f2_open {w : Func} (hw : w ∈ openWrappers) (fds : Text → Fd) (f : Text) :
    w.f2 fds f = if ∃ dir ∈ w.front fds, ¬ Fits dir f then none else some (w.written fds f) := by
  rcases (open_shape w hw).2.2 with h | h
  · have hfront : w.front fds = none := if_pos h
    rw [Func.written, hfront, Func.f2, h]
    simp
  · have hfront : w.front fds = match fds checked with
        | .cwd => none
        | .dir dir => some dir := by
      rw [Func.front, h, if_neg (by simp)]
    rw [Func.written, hfront, f2_at h]
    cases fds checked with
    | cwd => simp
    | dir dir => by_cases hfits : Fits dir f <;> simp [getatpath, hfits]

/-- **The write guard** is right for these calls, and no others. -/
theorem guard_complete (base : BaseDir) (w : Func) (hw : w ∈ openWrappers) (fds : Text → Fd) (f : Text)
    (a : BitVec 32) : Guarded base w fds f a ↔ GuardRight base w fds f a := by
  have hf := f2_open hw fds f
  by_cases hfits : ∃ dir ∈ w.front fds, ¬ Fits dir f
  · rw [if_pos hfits] at hf
    have hrun : w.run (some base.path) fds f a = none := by
      simp [Func.run, (open_shape w hw).1, hf]
    constructor
    · rintro ⟨hreject, hpass⟩
      have hallowed : ¬ Allowed base (normalize f) := by
        intro h
        obtain ⟨t, ht, -⟩ := hpass h
        rw [hrun] at ht
        cases ht
      have hwrite : ¬ mayWrite a := by
        intro h
        have habort := hreject h hallowed
        rw [hrun] at habort
        cases habort
      exact ⟨fun h => absurd (.inr (.inl h.1)) hwrite, fun h => absurd h hwrite, fun h => absurd h hwrite,
        fun _ h => absurd h hallowed, fun _ _ _ => ⟨hwrite, hallowed⟩⟩
    · intro h
      obtain ⟨dir, hdir, hlong⟩ := hfits
      obtain ⟨hwrite, hallowed⟩ := h.fits dir hdir hlong
      exact ⟨fun h => absurd h hwrite, fun h => absurd h hallowed⟩
  · rw [if_neg hfits] at hf
    have hcheck : checkWriteAccess base.path (w.written fds f) = true ↔ absolute (w.written fds f) = false ∨
        Allowed base (single (w.written fds f)) ∨ Sibling base (single (w.written fds f)) := by
      by_cases habs : (w.written fds f).head? = some '/'
      · rw [check_iff base habs]
        simp [absolute, habs]
      · simp [checkWriteAccess, absolute, habs]
    rw [guarded_iff hw base hf, ← Bool.not_eq_true, hcheck]
    by_cases hallowed : Allowed base (normalize f)
    · rw [if_pos hallowed]
      constructor
      · intro h
        exact ⟨fun _ => hallowed, fun _ _ => hallowed, fun _ _ => hallowed, fun ht _ => h ht,
          fun dir hdir hlong => absurd ⟨dir, hdir, hlong⟩ hfits⟩
      · exact fun h ht => h.inward ht hallowed
    · rw [if_neg hallowed]
      constructor
      · intro h
        refine ⟨fun hboth => absurd hboth (h (.inr (.inl hboth.1))).1, fun hw hs => ?_, fun hw ho => ?_,
          fun _ h => absurd h hallowed, fun dir hdir hlong => absurd ⟨dir, hdir, hlong⟩ hfits⟩
        · exact absurd (.inr (.inr hs)) (h hw).2
        · exact absurd (ho.imp_right .inl) (h hw).2
      · intro h hwrite
        refine ⟨fun hboth => hallowed (h.both hboth), ?_⟩
        rintro (hrel | hin | hs)
        · exact hallowed (h.outward hwrite (.inl hrel))
        · exact hallowed (h.outward hwrite (.inr hin))
        · exact hallowed (h.sibling hwrite hs)

def build : BaseDir := ⟨"/t2".toList, by decide +kernel⟩

def open_ : Func := addWrapper "int,   open,    const char* f, int a, ...".toList

theorem open_mem : open_ ∈ openWrappers := by
  rw [openWrappers, wrappers, open_]
  simp only [List.map_cons, List.map_nil]
  repeat rw [String.toList_ofList]
  decide +kernel

theorem guard_complete_etc :
    Guarded build open_ (fun _ => .cwd) "/etc/passwd".toList O_WRONLY ↔
      GuardRight build open_ (fun _ => .cwd) "/etc/passwd".toList O_WRONLY :=
  guard_complete build open_ open_mem (fun _ => .cwd) "/etc/passwd".toList O_WRONLY

/-- A file outside is opened for writing. -/
def Escapes (path : Text) (a : BitVec 32) : Prop :=
  mayWrite a ∧ ¬ Allowed build (normalize path) ∧
    open_.run (some build.path) (fun _ => .cwd) path a = some [.before path, .call, .after path]

instance (path : Text) (a : BitVec 32) : Decidable (Escapes path a) := inferInstanceAs (Decidable (_ ∧ _ ∧ _))

theorem not_guarded {path : Text} {a : BitVec 32} (h : Escapes path a) :
    ¬ Guarded build open_ (fun _ => .cwd) path a := by
  obtain ⟨hwrite, hallowed, hrun⟩ := h
  intro hguarded
  rw [hguarded.1 hwrite hallowed] at hrun
  simp at hrun

/-- A file for reading and writing, a neighbour of `/tmp`, one of the base directory, and a way out of it. -/
theorem guard_incomplete :
    (Escapes "/etc/passwd".toList O_RDWR ∧ Escapes "/tmpfoo".toList O_WRONLY ∧ Escapes "/t2-old/f".toList O_WRONLY ∧
      Escapes "/t2/../etc/f".toList O_CREAT) ∧
      ¬ Guarded build open_ (fun _ => .cwd) "/etc/passwd".toList O_RDWR := by
  have hpasswd : Escapes "/etc/passwd".toList O_RDWR := by decide +kernel
  exact ⟨⟨hpasswd, by decide +kernel, by decide +kernel, by decide +kernel⟩, not_guarded hpasswd⟩

/-! ## Paths without `..` -/

/-- On a path in normal form with nothing in front the guard fails for `O_RDWR` alone and for the paths that look like
an allowed one. -/
theorem guardRight_normal {base : BaseDir} {w : Func} {fds : Text → Fd} {f : Text} (hfront : w.front fds = none)
    (hnormal : normalize f = f) (a : BitVec 32) :
    GuardRight base w fds f a ↔ Allowed base f ∨ ¬ mayWrite a ∨ (¬ ReadWrite a ∧ ¬ Sibling base f) := by
  have hwritten : w.written fds f = f := by rw [Func.written, hfront]
  have habs : absolute f = true := by
    rw [← hnormal]
    rfl
  have hboth : ReadWrite a → mayWrite a := fun h => .inr (.inl h.1)
  constructor
  · intro h
    have hsibling := h.sibling
    rw [hwritten, single_normal hnormal, hnormal] at hsibling
    have hrw := h.both
    rw [hnormal] at hrw
    tauto
  · intro h
    constructor
    · rw [hnormal]
      intro hrw
      rcases h with h | h | h
      · exact h
      · exact absurd (hboth hrw) h
      · exact absurd hrw h.1
    · rw [hwritten, single_normal hnormal, hnormal]
      tauto
    · rw [hwritten, single_normal hnormal, hnormal, habs]
      rintro - (hrel | hin)
      · cases hrel
      · exact hin
    · rw [hwritten, single_normal hnormal, hnormal]
      exact fun _ hin => .inr (.inl hin)
    · simp [hfront]

theorem foldl_push {xs : List Text} (h : ['.', '.'] ∉ xs) (stack : List Text) :
    ∃ ys, xs.foldl push stack = stack ++ ys := by
  induction xs generalizing stack with
  | nil => exact ⟨[], by simp⟩
  | cons x xs ih =>
    rw [List.mem_cons, not_or] at h
    obtain ⟨ys, hys⟩ := ih h.2 (push stack x)
    rw [List.foldl_cons, hys, push]
    split
    · exact ⟨ys, rfl⟩
    · rw [if_neg (Ne.symm h.1)]
      exact ⟨x :: ys, by simp⟩

/-- Without `..` a path stays below the directory that it starts with. -/
theorem under_normalize {dir path : Text} (hdir : normalize dir = dir) (hdots : ['.', '.'] ∉ path.splitOn '/')
    (h : Under dir path) : Under dir (normalize path) := by
  rcases h with rfl | hroot | ⟨r, rfl⟩
  · exact .inl hdir
  · exact .inr (.inl hroot)
  · rw [List.append_assoc, List.singleton_append] at hdots ⊢
    rw [List.splitOn_append_cons_self, List.mem_append, not_or] at hdots
    obtain ⟨ys, hys⟩ : ∃ ys, components (dir ++ '/' :: r) = components dir ++ ys := by
      rw [components, List.splitOn_append_cons_self, List.foldl_append]
      exact foldl_push hdots.2 _
    rw [normalize, hys]
    by_cases hnil : ys = []
    · rw [hnil, List.append_nil]
      exact .inl hdir
    by_cases hroot : components dir = []
    · exact .inr (.inl (by rw [← hdir, normalize, hroot]; rfl))
    · refine .inr (.inr ?_)
      rw [intercalate_append hroot hnil, ← List.cons_append, ← List.cons_append]
      exact ⟨_, by rw [show '/' :: ['/'].intercalate (components dir) = dir from hdir]⟩

theorem allowed_normalize {base : BaseDir} {path : Text} (hdots : ['.', '.'] ∉ path.splitOn '/')
    (h : Allowed base path) : Allowed base (normalize path) ∨ normalize path = "/dev/fd".toList := by
  rcases h with h | h | rfl | h
  · exact .inl (.inl (under_normalize base.normal hdots h))
  · exact .inl (.inr (.inl (under_normalize (by decide +kernel) hdots h)))
  · exact .inl (.inr (.inr (.inl (by decide +kernel))))
  · have hfd : normalize "/dev/fd".toList = "/dev/fd".toList := by decide +kernel
    rcases under_normalize hfd hdots (.inr h) with h | h
    · exact .inr h
    · exact .inl (.inr (.inr (.inr h)))

/-- More slashes in front change nothing. -/
theorem single_spec (f : Text) : normalize (single f) = normalize f ∧
    ∀ x ∈ (single f).splitOn '/', x ≠ [] → x ∈ f.splitOn '/' := by
  have hslash : ∀ s : Text, ('/' :: s).splitOn '/' = [] :: s.splitOn '/' := fun s => splitOn_cons List.not_mem_nil s
  have hcomponents : ∀ s, components ('/' :: s) = components s := by
    intro s
    rw [components, hslash, List.foldl_cons]
    rfl
  have hdrop : ∀ s : Text, components (s.dropWhile (· == '/')) = components s ∧
      ∀ x ∈ (s.dropWhile (· == '/')).splitOn '/', x ≠ [] → x ∈ s.splitOn '/' := by
    intro s
    induction s with
    | nil => exact ⟨rfl, fun x hx _ => hx⟩
    | cons c s ih =>
      by_cases hc : c = '/'
      · subst hc
        rw [List.dropWhile_cons_of_pos (by simp), hcomponents, hslash]
        exact ⟨ih.1, fun x hx hne => List.mem_cons_of_mem _ (ih.2 x hx hne)⟩
      · rw [List.dropWhile_cons_of_neg (by simpa using hc)]
        exact ⟨rfl, fun x hx _ => hx⟩
  refine ⟨by rw [normalize, single, hcomponents, (hdrop f).1, normalize], fun x hx hne => ?_⟩
  rw [single, hslash] at hx
  exact (hdrop f).2 x ((List.mem_cons.1 hx).resolve_left hne) hne

/-- Only `..` leads out of an allowed place, but for the directory of the descriptors itself. -/
theorem outward_dots {base : BaseDir} {f : Text} (hin : Allowed base (single f)) (hout : ¬ Allowed base (normalize f)) :
    ['.', '.'] ∈ f.splitOn '/' ∨ normalize f = "/dev/fd".toList := by
  obtain ⟨hsame, hparts⟩ := single_spec f
  by_cases hdots : ['.', '.'] ∈ (single f).splitOn '/'
  · exact .inl (hparts _ hdots (by simp))
  · have hallowed := allowed_normalize hdots hin
    rw [hsame] at hallowed
    exact .inr (hallowed.resolve_left hout)

end T2Sde.Wrapper
