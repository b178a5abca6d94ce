import T2Sde.Wrapper.Log
/-!
# The text of the process tree (`misc/tools-source/fl_wrapper.c.sh`)

The ancestors of a process are written one behind the other into a buffer of 4096 bytes. What `snprintf` returns is the
length that it wanted to write, and is added to the offset whether there was room or not.

| here | there |
| --- | --- |
| `Processes`    | what `pid2ppid` and `getpname` read |
| `snprintf`     | a call with `cmdtxt+*txtpos` and `4096-*txtpos` |
| `entry`        | :402-411 |
| `addptree`     | :386-411 |
| `initial`      | `fl_wrapper_init` :434-437, `l` :388 |
| `Chain`        | the processes of a recursion, the oldest one first |

* `addptree_chain` — the recursion goes through the chain.
* `entries_follow` — what is in the buffer is the front of `cmdname`, and the offset is its length.
* `addptree_iff` — **when the offset stays in the buffer**.
-/
namespace T2Sde.Wrapper
open Shell

structure Processes where
  ppid : Int → Int
  process : Int → Process

def Processes.pname (t : Processes) (pid : Int) : Text := getpname (t.process pid)

/-- `l` is the name of the entry before; `starts` are the offsets at which `snprintf` was called. -/
structure Ptree where
  txtpos : Int
  cmdtxt : Text
  l : Text
  starts : List Int

def snprintf (s : Ptree) (t : Text) : Ptree :=
  { s with
    txtpos := s.txtpos + t.length
    cmdtxt := s.cmdtxt.take s.txtpos.toNat ++ t.take (4096 - s.txtpos - 1).toNat
    starts := s.starts ++ [s.txtpos] }

/-- A name, or a star for the name that was the last one. -/
def entry (s : Ptree) (p : Text) : Ptree :=
  let s :=
    if s.l ≠ p then snprintf s ((if s.txtpos ≠ 0 then ".".toList else []) ++ p) else snprintf s "*".toList
  { s with l := p }

/-- With at most `n` calls inside one another. -/
def addptree (t : Processes) (basepid : Int) (s : Ptree) : Nat → Int → Option Ptree
  | 0, _ => none
  | n + 1, pid =>
    if pid = 0 ∨ pid = basepid then some s
    else if pid = t.ppid pid then some s
    else (addptree t basepid s n (t.ppid pid)).map fun s => entry s (t.pname pid)

def initial : Ptree := ⟨0, [], [], []⟩

inductive Chain (t : Processes) (basepid : Int) : Int → List Int → Prop
  | stop {pid : Int} (h : pid = 0 ∨ pid = basepid ∨ pid = t.ppid pid) : Chain t basepid pid []
  | process {pid : Int} {pids : List Int} (h : ¬ (pid = 0 ∨ pid = basepid) ∧ pid ≠ t.ppid pid)
      (hparent : Chain t basepid (t.ppid pid) pids) : Chain t basepid pid (pids ++ [pid])

/-- The size that is handed over is never negative, and nothing starts behind the end. -/
def InBuffer (s : Ptree) : Prop := s.txtpos ≤ 4096 ∧ ∀ x ∈ s.starts, 0 ≤ x ∧ x ≤ 4096

/-! ## The length -/

/-- Behind a name, each process adds its own name and a dot, or a star. -/
def lengthBehind : Text → List Text → Nat
  | _, [] => 0
  | l, p :: ps => (if p = l then 1 else p.length + 1) + lengthBehind p ps

/-- The first process has no dot. -/
def treeLength : List Text → Nat
  | [] => 0
  | p :: ps => (if p = [] then 1 else p.length) + lengthBehind p ps

section
variable {t : Processes} {basepid : Int} {s : Ptree} {u : Text × Text}

theorem length_addpname (u : Text × Text) (p : Text) : (addpname u p).2 = p ∧
    (addpname u p).1.length = u.1.length + if p = u.2 then 1 else p.length + if u.1 = [] then 0 else 1 := by
  unfold addpname
  by_cases hl : u.2 = p
  · rw [if_neg (by simpa using hl), if_pos hl.symm]
    exact ⟨hl ▸ rfl, by simp⟩
  · rw [if_pos hl, if_neg (Ne.symm hl)]
    refine ⟨rfl, ?_⟩
    dsimp only
    split <;> simp

theorem length_behind (ps : List Text) (hu : u.1 ≠ []) :
    (ps.foldl addpname u).1.length = u.1.length + lengthBehind u.2 ps := by
  induction ps generalizing u with
  | nil => rfl
  | cons p ps ih =>
    obtain ⟨hname, hlength⟩ := length_addpname u p
    rw [if_neg hu] at hlength
    have hpos := List.length_pos_of_ne_nil hu
    have hne : (addpname u p).1 ≠ [] := by
      apply List.ne_nil_of_length_pos
      omega
    rw [List.foldl_cons, ih hne, hname, hlength, lengthBehind, Nat.add_assoc]

/-- The length of the whole text. -/
theorem length_cmdname (chain : List Process) : (cmdname chain).length = treeLength (chain.map getpname) := by
  unfold cmdname
  cases chain.map getpname with
  | nil => rfl
  | cons p ps =>
    obtain ⟨hname, hlength⟩ := length_addpname ([], []) p
    have hfirst : (addpname ([], []) p).1.length = if p = [] then 1 else p.length := by
      rw [hlength]
      exact Nat.zero_add _
    have hne : (addpname ([], []) p).1 ≠ [] := by
      apply List.ne_nil_of_length_pos
      rw [hfirst]
      split
      · exact Nat.one_pos
      next hp => exact List.length_pos_of_ne_nil hp
    rw [List.foldl_cons, length_behind ps hne, hname, hfirst, treeLength]

/-- The buffer, beside a text that has no end. -/
structure Follows (s : Ptree) (u : Text × Text) : Prop where
  txtpos : s.txtpos = u.1.length
  l : s.l = u.2
  cmdtxt : s.cmdtxt = u.1.take 4095
  starts : ∀ x ∈ s.starts, 0 ≤ x ∧ x ≤ s.txtpos

theorem Follows.snprintf (h : Follows s u) (w p : Text) :
    Follows { Wrapper.snprintf s w with l := p } (u.1 ++ w, p) where
  txtpos := by
    unfold Wrapper.snprintf
    dsimp only
    rw [h.txtpos, List.length_append]
    omega
  l := rfl
  cmdtxt := by
    have hroom : (4096 - s.txtpos - 1).toNat = 4095 - u.1.length := by
      rw [h.txtpos]
      omega
    have hpos : s.txtpos.toNat = u.1.length := by
      rw [h.txtpos]
      omega
    unfold Wrapper.snprintf
    dsimp only
    rw [hroom, hpos, h.cmdtxt, List.take_append, List.take_of_length_le (List.length_take_le' 4095 u.1)]
  starts x hx := by
    have hpos := h.txtpos
    unfold Wrapper.snprintf at hx ⊢
    dsimp only at hx ⊢
    rcases List.mem_append.1 hx with hx | hx
    · have hold := h.starts x hx
      omega
    · obtain rfl := List.mem_singleton.1 hx
      omega

/-- **One entry.** -/
theorem Follows.entry (h : Follows s u) (p : Text) : Follows (Wrapper.entry s p) (addpname u p) := by
  have hempty : s.txtpos ≠ 0 ↔ u.1 ≠ [] := by
    rw [h.txtpos, ← List.length_pos_iff]
    omega
  unfold Wrapper.entry addpname
  rw [h.l]
  dsimp only
  split
  · have hstep := h.snprintf ((if s.txtpos ≠ 0 then ".".toList else []) ++ p) p
    by_cases hu : u.1 = []
    · rw [if_neg (by rw [hempty]; simpa using hu)] at hstep ⊢
      rw [if_pos hu, List.append_nil]
      exact hstep
    · rw [if_pos (hempty.2 hu)] at hstep ⊢
      rw [if_neg hu, List.append_assoc]
      exact hstep
  · exact h.snprintf "*".toList p

theorem entries_follow (ps : List Text) (h : Follows s u) : Follows (ps.foldl entry s) (ps.foldl addpname u) := by
  induction ps generalizing s u with
  | nil => exact h
  | cons p ps ih => exact ih (h.entry p)

theorem follows_initial : Follows initial ([], []) := ⟨rfl, rfl, rfl, by simp [initial]⟩

/-- The recursion inverts the order. -/
theorem addptree_chain {pid : Int} {pids : List Int} (h : Chain t basepid pid pids) :
    ∃ n, addptree t basepid s n pid = some ((pids.map t.pname).foldl entry s) := by
  induction h with
  | stop h =>
    refine ⟨1, ?_⟩
    unfold addptree
    split
    · rfl
    next hne =>
      rw [if_pos (by tauto)]
      rfl
  | process h _ ih =>
    obtain ⟨n, hn⟩ := ih
    refine ⟨n + 1, ?_⟩
    unfold addptree
    rw [if_neg h.1, if_neg h.2, hn, List.map_append, List.foldl_append]
    rfl

/-- More calls are not needed. -/
theorem addptree_unique {n m : Nat} {pid : Int} {s' s'' : Ptree} (h : addptree t basepid s n pid = some s')
    (h' : addptree t basepid s m pid = some s'') : s' = s'' := by
  induction n generalizing m pid s' s'' with
  | zero => cases h
  | succ n ih =>
    cases m with
    | zero => cases h'
    | succ m =>
      unfold addptree at h h'
      split at h
      next hstop =>
        rw [if_pos hstop] at h'
        exact Option.some.inj (h.symm.trans h')
      next hstop =>
        rw [if_neg hstop] at h'
        split at h
        next hself =>
          rw [if_pos hself] at h'
          exact Option.some.inj (h.symm.trans h')
        next hself =>
          rw [if_neg hself] at h'
          obtain ⟨r, hr, rfl⟩ := Option.map_eq_some_iff.1 h
          obtain ⟨r', hr', rfl⟩ := Option.map_eq_some_iff.1 h'
          rw [ih hr hr']

end

/-- **The offset stays in the buffer** if and only if the names of the chain, with a dot between two of them and a star
for each one that is the same as its parent's, have at most 4096 characters. -/
theorem addptree_iff {t : Processes} {basepid pid : Int} {pids : List Int} (h : Chain t basepid pid pids) :
    (∃ n s, addptree t basepid initial n pid = some s) ∧
      ((∀ n s, addptree t basepid initial n pid = some s → InBuffer s) ↔ treeLength (pids.map t.pname) ≤ 4096) := by
  obtain ⟨n, hn⟩ := addptree_chain (s := initial) h
  obtain ⟨hpos, -, -, hstarts⟩ := entries_follow (pids.map t.pname) follows_initial
  have hlength := length_cmdname (pids.map t.process)
  rw [cmdname, List.map_map] at hlength
  have hlength : ((pids.map t.pname).foldl addpname ([], [])).1.length = treeLength (pids.map t.pname) := hlength
  refine ⟨⟨n, _, hn⟩, ?_⟩
  constructor
  · intro hin
    have hle := (hin n _ hn).1
    omega
  · intro hle m s hs
    obtain rfl := addptree_unique hn hs
    refine ⟨by omega, ?_⟩
    intro x hx
    have hx := hstarts x hx
    omega

/-- A process tree in which the processes with an even number have a name of their own, and each one is started by the
one before. -/
def deepTree : Processes where
  ppid pid := pid - 1
  process pid := ⟨pid.toNat, some (List.replicate 60 (if pid % 2 = 0 then 'a' else 'b') ++ [nul]), []⟩

theorem chain_deepTree (n : Nat) : Chain deepTree 0 n ((List.range n).map fun k : Nat => (k : Int) + 1) := by
  induction n with
  | zero => exact .stop (.inl rfl)
  | succ n ih =>
    rw [List.range_succ, List.map_append]
    have hparent : deepTree.ppid ((n + 1 : Nat) : Int) = n := by
      unfold deepTree
      dsimp only
      omega
    apply Chain.process
    · rw [hparent]
      omega
    · rw [hparent]
      exact ih

/-- Two processes: the text has 121 characters. -/
theorem addptree_two : (∃ n s, addptree deepTree 0 initial n 2 = some s) ∧
    ((∀ n s, addptree deepTree 0 initial n 2 = some s → InBuffer s) ↔
      treeLength (([1, 2] : List Int).map deepTree.pname) ≤ 4096) :=
  addptree_iff (chain_deepTree 2)

/-- Seventy of them, one below the other: the offset is 4269 at the end. -/
theorem addptree_seventy : (∃ pids, Chain deepTree 0 70 pids) ∧
    ∃ s, addptree deepTree 0 initial 71 70 = some s ∧ s.txtpos = 4269 ∧ ¬ InBuffer s := by
  refine ⟨⟨_, chain_deepTree 70⟩, ?_⟩
  have hrun : (addptree deepTree 0 initial 71 70).map (·.txtpos) = some 4269 := by decide +kernel
  obtain ⟨s, hs, hpos⟩ := Option.map_eq_some_iff.1 hrun
  refine ⟨s, hs, hpos, ?_⟩
  intro hin
  have hle := hin.1
  omega

end T2Sde.Wrapper
