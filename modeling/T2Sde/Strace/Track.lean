import T2Sde.Strace.Parse
import Mathlib.Data.Multiset.Filter
import Mathlib.Data.Multiset.MapFold
/-!
# Following the processes of a log (`misc/tools-source/fl_stparse.c`)

What a log tells is what processes did: each is made by a `fork` or `vfork` of another one in the directory of that one,
changes its own directory, and ends. The other side is the table of `fl_stparse`. A child may be at work before the line
that tells of it; a process may be ended by a signal, and its place in the table stays; a `chdir` is done again when the
log is read.

* `Happens` — what a process may do, and what should be written for it.
* `Fair` — what `fl_stparse` counts on at a line.
* `happens_good` — what the processes and the places of the table keep.
* `perform_happens` — the table follows a step.
* `stparse_tracks` — **the table follows every log of fair steps**.
-/
namespace T2Sde.Strace
open Shell (Text)
open Stdio Wrapper

/-! ## Processes -/

/-- `mother` has called `fork` or `vfork` for it, and the call has not come back in the log; `unfinished` is the child
of a call of its own that has not come back, or -1. -/
structure Process where
  pid : Int
  cwd : Place
  mother : Option Int
  unfinished : Option Int
  deriving DecidableEq, Repr

/-- The processes that are alive. Beside them, the process numbers that came back from a call or were ended by a signal
afterwards, so that no later line takes them back. -/
structure World where
  procs : Multiset Process
  gone : Multiset Int

def World.start (pid : Int) (cwd : Place) : World := ⟨{⟨pid, cwd, none, none⟩}, 0⟩

def Fresh (c : Int) (procs : Multiset Process) : Prop := 0 < c ∧ ∀ q ∈ procs, q.pid ≠ c

/-- A path seen from a directory. -/
def fullName (cwd : Place) (path : Text) : Text := if path.head? = some '/' then path else under cwd.text path

def told (p : Process) (log : LogFile) (path : Text) : List (LogFile × Text) :=
  [(log, record p.pid (fullName p.cwd path))]

/-- A process of the world does what is on the line; the list is what is to be written. -/
inductive Happens : World → Entry → List (LogFile × Text) → World → Prop
  | fork {p r g pad v k c rest} : p.unfinished = none → Fresh c (p ::ₘ r) →
      Happens ⟨p ::ₘ r, g⟩ ⟨p.pid, pad, .fork v k c rest⟩ [] ⟨⟨c, p.cwd, none, none⟩ ::ₘ p ::ₘ r, g⟩
  | forkFails {p r g pad v k rest} : p.unfinished = none →
      Happens ⟨p ::ₘ r, g⟩ ⟨p.pid, pad, .fork v k (-1) rest⟩ [] ⟨p ::ₘ r, -1 ::ₘ g⟩
  | begun {p r g pad v c} : p.unfinished = none → Fresh c (p ::ₘ r) →
      Happens ⟨p ::ₘ r, g⟩ ⟨p.pid, pad, .begun v⟩ []
        ⟨⟨c, p.cwd, some p.pid, none⟩ ::ₘ { p with unfinished := some c } ::ₘ r, g⟩
  | begunFails {p r g pad v} : p.unfinished = none →
      Happens ⟨p ::ₘ r, g⟩ ⟨p.pid, pad, .begun v⟩ [] ⟨{ p with unfinished := some (-1) } ::ₘ r, g⟩
  | resumed {p q r g pad v j k rest} : p.unfinished = some q.pid → q.mother = some p.pid →
      Happens ⟨q ::ₘ p ::ₘ r, g⟩ ⟨p.pid, pad, .resumed v j k q.pid rest⟩ []
        ⟨{ q with mother := none } ::ₘ { p with unfinished := none } ::ₘ r, g⟩
  /-- The child has ended, or there was none. -/
  | resumedGone {p r g pad v j k c rest} : p.unfinished = some c → (∀ q ∈ r, q.pid = c → q.mother ≠ some p.pid) →
      Happens ⟨p ::ₘ r, g⟩ ⟨p.pid, pad, .resumed v j k c rest⟩ [] ⟨{ p with unfinished := none } ::ₘ r, c ::ₘ g⟩
  | exit {p r g pad group status rest} : p.unfinished = none →
      Happens ⟨p ::ₘ r, g⟩ ⟨p.pid, pad, .exit group status rest⟩ [] ⟨r, g⟩
  | killed {p r g pad rest} :
      Happens ⟨p ::ₘ r, g⟩ ⟨p.pid, pad, .killed rest⟩ [] ⟨r, if p.mother = none then p.pid ::ₘ g else g⟩
  | chdir {p r g pad path d rest} : p.unfinished = none →
      Happens ⟨p ::ₘ r, g⟩ ⟨p.pid, pad, .chdir path (some d) rest⟩ [] ⟨{ p with cwd := d } ::ₘ r, g⟩
  | chdirFails {p r g pad path rest} : p.unfinished = none →
      Happens ⟨p ::ₘ r, g⟩ ⟨p.pid, pad, .chdir path none rest⟩ [] ⟨p ::ₘ r, g⟩
  | openFile {p r g pad path flags rest} : p.unfinished = none →
      Happens ⟨p ::ₘ r, g⟩ ⟨p.pid, pad, .openFile path flags rest⟩
        (if "O_DIRECTORY".toList <:+: flags then [] else told p (logOf flags) path) ⟨p ::ₘ r, g⟩
  | onePath {p r g pad c path rest} : p.unfinished = none →
      Happens ⟨p ::ₘ r, g⟩ ⟨p.pid, pad, .onePath c path rest⟩ (told p .wlog path) ⟨p ::ₘ r, g⟩
  | twoPaths {p r g pad c old path rest} : p.unfinished = none →
      Happens ⟨p ::ₘ r, g⟩ ⟨p.pid, pad, .twoPaths c old path rest⟩ (told p .wlog path) ⟨p ::ₘ r, g⟩
  /-- Also of a process that has ended. -/
  | other {w pid pad c rest} : Happens w ⟨pid, pad, .other c rest⟩ [] w

/-- A log from one world to another, each step of which is as `C` says. -/
inductive Run (C : World → Entry → World → Prop) : World → List Entry → List (LogFile × Text) → World → Prop
  | nil {w} : Run C w [] [] w
  | cons {w w' w'' e es o os} : Happens w e o w' → C w e w' → Run C w' es os w'' → Run C w (e :: es) (o ++ os) w''

/-- The line fits into the buffer, and not too many processes are alive. -/
def Logged (e : Entry) (w' : World) : Prop := e.Ok ∧ w'.procs.card ≤ maxprocs

/-! ## What `fl_stparse` counts on -/

/-- The processes of which the log has told. -/
def World.seen (w : World) : Multiset Process := w.procs.filter (·.mother = none)

/-- The process numbers in the table. -/
def World.entries (w : World) : Multiset Int := w.seen.map Process.pid + w.gone

def Known (w : World) (pid : Int) : Prop := ∃ p ∈ w.procs, p.pid = pid ∧ p.mother = none

/-- From wherever, the directory and then the path lead to where the process went. -/
def Replays (chdir : Place → Text → Option Place) (cwd : Place) (path : Text) (result : Option Place) : Prop :=
  ∀ x, go chdir (go chdir x cwd.text) path = result.getD cwd

/-- What is looked up for a path. -/
def KnownFor (w : World) (pid : Int) (path : Text) : Prop := path.head? = some '/' ∨ Known w pid

/-- The log has told of the process, if it is looked up. The number of a new one is not one that is left in the table.
No other process has by now the number of a child whose call comes back. A `chdir` leads to the same directory again. -/
def FairCall (chdir : Place → Text → Option Place) (w : World) (pid : Int) : Call → Prop
  | .fork _ _ c _ => Known w pid ∧ (0 < c → c ∉ w.gone)
  | .resumed _ _ _ c _ => Known w pid ∧ (0 < c → c ∉ w.gone ∧ ∀ q ∈ w.procs, q.pid = c → q.mother = some pid)
  | .exit _ _ _ => Known w pid
  | .chdir path result _ => ∃ p ∈ w.procs, p.pid = pid ∧ p.mother = none ∧ Replays chdir p.cwd path result
  | .openFile path flags _ => "O_DIRECTORY".toList <:+: flags ∨ KnownFor w pid path
  | .onePath _ path _ => KnownFor w pid path
  | .twoPaths _ _ path _ => KnownFor w pid path
  | _ => True

/-- And what is left in the table leaves room for the processes. -/
structure Fair (chdir : Place → Text → Option Place) (w : World) (e : Entry) (w' : World) : Prop where
  paths : e.call.Readable
  room : w'.gone ≠ 0 → w'.entries.card ≤ maxprocs
  call : FairCall chdir w e.pid e.call

/-! ## The table and the world -/

def occupied (procs : List Proc) : Multiset Proc := procs.filter (·.pid ≠ 0)

def Process.entry (p : Process) : Proc := ⟨p.pid, p.cwd.text⟩

/-- The table follows the world. -/
structure Tracks (w : World) (out : List (LogFile × Text)) (s : State) : Prop where
  out : s.out = out
  once : ∀ p ∈ w.procs, (s.procs.filter (·.pid = p.pid)).length ≤ 1
  known : ∀ p ∈ w.procs, p.mother = none → p.entry ∈ s.procs

/-- A child whose call has not come back is where its mother is. -/
def Beside (p q : Process) : Prop := q.mother = some p.pid → p.unfinished = some q.pid → q.cwd = p.cwd

/-- The numbers of the processes, and those in the table. -/
structure Good (w : World) : Prop where
  nodup : (w.procs.map Process.pid).Nodup
  pos : ∀ p ∈ w.procs, 0 < p.pid
  call : ∀ p ∈ w.procs, ∀ c, p.unfinished = some c → c ≠ 0
  child : ∀ p ∈ w.procs, ∀ q ∈ w.procs, Beside p q
  gone : ∀ c ∈ w.gone, c ≠ 0
  once : (w.entries.filter (0 < ·)).Nodup

/-- What is in the table: the processes of which the log has told, and what is left. -/
structure Holds (w : World) (procs : List Proc) : Prop where
  length : procs.length = maxprocs
  table : ∃ left : Multiset Proc, occupied procs = w.seen.map Process.entry + left ∧ left.map Proc.pid = w.gone

/-! ## The table -/

section
variable {procs : List Proc} {a : Proc} {pid : Int} {cwd : Text}

/-- The first one is written over. -/
theorem setFirst_find {α : Type} {q : α → Bool} {a b : α} {l : List α} (h : l.find? q = some a) :
    ∃ l', setFirst q b l = some l' ∧ l'.length = l.length ∧ a ::ₘ (l' : Multiset α) = b ::ₘ (l : Multiset α) := by
  induction l with
  | nil => simp at h
  | cons x l ih =>
    by_cases hx : q x = true
    · obtain rfl : x = a := by simpa [List.find?_cons, hx] using h
      refine ⟨b :: l, by rw [setFirst, if_pos hx], rfl, ?_⟩
      rw [← Multiset.cons_coe, ← Multiset.cons_coe, Multiset.cons_swap]
    · rw [List.find?_cons_of_neg hx] at h
      obtain ⟨l', hset, hlen, hl'⟩ := ih h
      refine ⟨x :: l', by rw [setFirst, if_neg hx, hset]; rfl, by rw [List.length_cons, hlen, List.length_cons], ?_⟩
      rw [← Multiset.cons_coe, ← Multiset.cons_coe, Multiset.cons_swap, hl', Multiset.cons_swap]

theorem occupied_eq (procs : List Proc) : occupied procs = (procs : Multiset Proc).filter (·.pid ≠ 0) := by
  rw [occupied, Multiset.filter_coe]

theorem mem_occupied : a ∈ occupied procs ↔ a ∈ procs ∧ a.pid ≠ 0 := by
  rw [occupied_eq, Multiset.mem_filter, Multiset.mem_coe]

theorem occupied_written {b : Proc} {procs' : List Proc}
    (h : a ::ₘ (procs' : Multiset Proc) = b ::ₘ (procs : Multiset Proc)) :
    (if a.pid ≠ 0 then {a} else 0) + occupied procs' = (if b.pid ≠ 0 then {b} else 0) + occupied procs := by
  have hfilter := congrArg (Multiset.filter fun x : Proc => x.pid ≠ 0) h
  rwa [Multiset.filter_cons, Multiset.filter_cons, ← occupied_eq, ← occupied_eq] at hfilter

/-- A place is free if not all of them are occupied. -/
theorem exists_free (h : (occupied procs).card < procs.length) : ∃ a ∈ procs, a.pid = 0 := by
  by_contra hall
  have hfull : ∀ a ∈ procs, decide (a.pid ≠ 0) = true := fun a ha => by simpa using fun h0 => hall ⟨a, ha, h0⟩
  rw [occupied, List.filter_eq_self.2 hfull] at h
  simp at h

/-- A new process. -/
theorem newproc_spec (h : (occupied procs).card < procs.length) (hpid : pid ≠ 0) (cwd : Text) :
    ∃ procs', newproc procs pid cwd = .ok procs' ∧ procs'.length = procs.length ∧
      occupied procs' = ⟨pid, cwd⟩ ::ₘ occupied procs := by
  obtain ⟨a, ha, hfree⟩ := exists_free h
  obtain ⟨b, hb⟩ := Option.isSome_iff_exists.1 (List.find?_isSome.2 ⟨a, ha, by simpa using hfree⟩ :
    (procs.find? (·.pid == 0)).isSome = true)
  have hb0 : b.pid = 0 := by simpa using List.find?_some hb
  obtain ⟨procs', hset, hlen, htable⟩ := @setFirst_find _ _ _ ⟨pid, cwd⟩ _ hb
  refine ⟨procs', by rw [newproc, hset]; rfl, hlen, ?_⟩
  have hwritten := occupied_written htable
  rwa [if_neg (not_not.2 hb0), if_pos hpid, Multiset.zero_add, Multiset.singleton_add] at hwritten

/-- The one entry of a process. -/
theorem find_spec (ha : a ∈ occupied procs) (hone : ∀ b ∈ occupied procs, b.pid = a.pid → b = a) :
    procs.find? (·.pid == a.pid) = some a := by
  obtain ⟨hmem, h0⟩ := mem_occupied.1 ha
  obtain ⟨b, hb⟩ := Option.isSome_iff_exists.1 (List.find?_isSome.2 ⟨a, hmem, by simp⟩ :
    (procs.find? (·.pid == a.pid)).isSome = true)
  have hpid : b.pid = a.pid := by simpa using List.find?_some hb
  rw [hb, hone b (mem_occupied.2 ⟨List.mem_of_find?_eq_some hb, hpid ▸ h0⟩) hpid]

theorem getproc_spec (ha : a ∈ occupied procs) (hone : ∀ b ∈ occupied procs, b.pid = a.pid → b = a) :
    getproc procs a.pid = .ok a := by
  rw [getproc, find_spec ha hone]
  rfl

theorem setproc_spec (ha : a ∈ occupied procs) (hone : ∀ b ∈ occupied procs, b.pid = a.pid → b = a) (cwd : Text) :
    ∃ procs', setproc procs a.pid cwd = .ok procs' ∧ procs'.length = procs.length ∧
      a ::ₘ occupied procs' = ⟨a.pid, cwd⟩ ::ₘ occupied procs := by
  obtain ⟨procs', hset, hlen, htable⟩ := @setFirst_find _ _ _ ⟨a.pid, cwd⟩ _ (find_spec ha hone)
  have h0 := (mem_occupied.1 ha).2
  refine ⟨procs', by rw [setproc, hset]; rfl, hlen, ?_⟩
  have hwritten := occupied_written htable
  rwa [if_pos h0, if_pos h0, Multiset.singleton_add, Multiset.singleton_add] at hwritten

theorem freeproc_spec (ha : a ∈ occupied procs) (hone : ∀ b ∈ occupied procs, b.pid = a.pid → b = a) :
    ∃ procs', freeproc procs a.pid = .ok procs' ∧ procs'.length = procs.length ∧
      a ::ₘ occupied procs' = occupied procs := by
  obtain ⟨procs', hset, hlen, htable⟩ := @setFirst_find _ _ _ ⟨0, []⟩ _ (find_spec ha hone)
  have h0 := (mem_occupied.1 ha).2
  refine ⟨procs', by rw [freeproc, hset]; rfl, hlen, ?_⟩
  have hwritten := occupied_written htable
  rwa [if_pos h0, if_neg (not_not.2 rfl), Multiset.singleton_add, Multiset.zero_add] at hwritten

end

/-! ## The processes -/

section
variable {p q : Process} {r : Multiset Process} {g : Multiset Int} {w w' : World} {e : Entry}
  {out : List (LogFile × Text)}

theorem seen_cons_of_known (h : p.mother = none) : (World.mk (p ::ₘ r) g).seen = p ::ₘ (World.mk r g).seen :=
  Multiset.filter_cons_of_pos _ h

theorem seen_cons_of_unknown (h : p.mother ≠ none) : (World.mk (p ::ₘ r) g).seen = (World.mk r g).seen :=
  Multiset.filter_cons_of_neg _ h

/-- What is in the table for a process. -/
theorem entries_cons_of_known (h : p.mother = none) :
    (World.mk (p ::ₘ r) g).entries = p.pid ::ₘ (World.mk r g).entries := by
  rw [World.entries, seen_cons_of_known h, Multiset.map_cons, Multiset.cons_add]
  rfl

theorem entries_cons_of_unknown (h : p.mother ≠ none) : (World.mk (p ::ₘ r) g).entries = (World.mk r g).entries := by
  rw [World.entries, seen_cons_of_unknown h]
  rfl

theorem entries_gone (c : Int) : (World.mk r (c ::ₘ g)).entries = c ::ₘ (World.mk r g).entries := by
  rw [World.entries, Multiset.add_cons]
  rfl

/-- A call changes only the process, and neither its number nor whether it is known. -/
theorem entries_congr (hpid : q.pid = p.pid) (hmother : q.mother = p.mother) :
    (World.mk (q ::ₘ r) g).entries = (World.mk (p ::ₘ r) g).entries := by
  by_cases h : p.mother = none
  · rw [entries_cons_of_known h, entries_cons_of_known (hmother.trans h), hpid]
  · rw [entries_cons_of_unknown h, entries_cons_of_unknown (hmother ▸ h)]

theorem mem_entries {c : Int} : c ∈ w.entries ↔ Known w c ∨ c ∈ w.gone := by
  rw [World.entries, Multiset.mem_add, Multiset.mem_map]
  simp only [World.seen, Multiset.mem_filter, Known]
  exact or_congr_left (exists_congr fun p => by tauto)

theorem not_known_of_fresh {c : Int} (h : Fresh c w.procs) : ¬ Known w c := by
  rintro ⟨p, hp, hpid, -⟩
  exact h.2 p hp hpid

theorem fresh_of_nodup (hpos : 0 < p.pid) (h : ((p ::ₘ r).map Process.pid).Nodup) : Fresh p.pid r := by
  rw [Multiset.map_cons, Multiset.nodup_cons] at h
  exact ⟨hpos, fun q hq hpid => h.1 (hpid ▸ Multiset.mem_map_of_mem _ hq)⟩

theorem once_cons {c : Int} (hc : 0 < c) {s : Multiset Int} :
    ((c ::ₘ s).filter (0 < ·)).Nodup ↔ c ∉ s ∧ (s.filter (0 < ·)).Nodup := by
  rw [Multiset.filter_cons_of_pos _ hc, Multiset.nodup_cons, Multiset.mem_filter, and_iff_left hc]

/-- One process more. -/
theorem good_cons_iff : Good ⟨p ::ₘ r, g⟩ ↔
    Good ⟨r, g⟩ ∧ Fresh p.pid r ∧ (∀ c, p.unfinished = some c → c ≠ 0) ∧ (∀ q ∈ r, Beside p q ∧ Beside q p) ∧
      (p.mother = none → p.pid ∉ g) := by
  constructor
  · rintro ⟨hnodup, hpos, hcall, hchild, hgone, honce⟩
    simp only [Multiset.mem_cons, forall_eq_or_imp] at hpos hcall hchild hgone
    have hfresh := fresh_of_nodup hpos.1 hnodup
    have hleft : (((World.mk r g).entries).filter (0 < ·)).Nodup ∧ (p.mother = none → p.pid ∉ g) := by
      by_cases hm : p.mother = none
      · rw [entries_cons_of_known hm, once_cons hpos.1] at honce
        exact ⟨honce.2, fun _ hg => honce.1 (mem_entries.2 (.inr hg))⟩
      · rw [entries_cons_of_unknown hm] at honce
        exact ⟨honce, fun h => absurd h hm⟩
    rw [Multiset.map_cons, Multiset.nodup_cons] at hnodup
    refine ⟨⟨hnodup.2, hpos.2, hcall.2, fun a ha b hb => (hchild.2 a ha).2 b hb, hgone, hleft.1⟩, hfresh, hcall.1, ?_,
      hleft.2⟩
    exact fun q hq => ⟨hchild.1.2 q hq, (hchild.2 q hq).1⟩
  · rintro ⟨⟨hnodup, hpos, hcall, hchild, hgone, honce⟩, hfresh, hcall', hchild', hleft⟩
    refine ⟨?_, ?_, ?_, ?_, hgone, ?_⟩
    · rw [Multiset.map_cons, Multiset.nodup_cons]
      refine ⟨fun h => ?_, hnodup⟩
      obtain ⟨q, hq, hpid⟩ := Multiset.mem_map.1 h
      exact hfresh.2 q hq hpid
    · simp only [Multiset.mem_cons, forall_eq_or_imp]
      exact ⟨hfresh.1, hpos⟩
    · simp only [Multiset.mem_cons, forall_eq_or_imp]
      exact ⟨hcall', hcall⟩
    · simp only [Multiset.mem_cons, forall_eq_or_imp]
      exact ⟨⟨fun _ _ => rfl, fun q hq => (hchild' q hq).1⟩, fun q hq => ⟨(hchild' q hq).2, hchild q hq⟩⟩
    · by_cases hm : p.mother = none
      · rw [entries_cons_of_known hm, once_cons hfresh.1, mem_entries]
        exact ⟨not_or.2 ⟨not_known_of_fresh hfresh, hleft hm⟩, honce⟩
      · rw [entries_cons_of_unknown hm]
        exact honce

/-- One place more that is left. -/
theorem good_gone_iff {c : Int} : Good ⟨r, c ::ₘ g⟩ ↔
    Good ⟨r, g⟩ ∧ c ≠ 0 ∧ (0 < c → ¬ Known ⟨r, g⟩ c ∧ c ∉ g) := by
  constructor
  · rintro ⟨hnodup, hpos, hcall, hchild, hgone, honce⟩
    simp only [Multiset.mem_cons, forall_eq_or_imp] at hgone
    rw [entries_gone] at honce
    by_cases hc : 0 < c
    · rw [once_cons hc, mem_entries, not_or] at honce
      exact ⟨⟨hnodup, hpos, hcall, hchild, hgone.2, honce.2⟩, hgone.1, fun _ => honce.1⟩
    · rw [Multiset.filter_cons_of_neg _ hc] at honce
      exact ⟨⟨hnodup, hpos, hcall, hchild, hgone.2, honce⟩, hgone.1, fun h => absurd h hc⟩
  · rintro ⟨⟨hnodup, hpos, hcall, hchild, hgone, honce⟩, hc0, hc⟩
    refine ⟨hnodup, hpos, hcall, hchild, ?_, ?_⟩
    · simp only [Multiset.mem_cons, forall_eq_or_imp]
      exact ⟨hc0, hgone⟩
    · rw [entries_gone]
      by_cases hpos : 0 < c
      · rw [once_cons hpos, mem_entries, not_or]
        exact ⟨hc hpos, honce⟩
      · rwa [Multiset.filter_cons_of_neg _ hpos]

/-- The log has told of a process that may be looked up. -/
theorem mother_none (hw : Good w) (hp : p ∈ w.procs) (h : Known w p.pid) : p.mother = none := by
  obtain ⟨q, hq, hpid, hmother⟩ := h
  rwa [← Multiset.inj_on_of_nodup_map hw.nodup q hq p hp hpid]

/-- A step. -/
theorem happens_good {chdir : Place → Text → Option Place} (h : Happens w e out w') (hfair : Fair chdir w e w')
    (hw : Good w) : Good w' := by
  cases h with
  | @fork p r g pad v k c rest hcall hfresh =>
    have hnew := hfair.call.2 hfresh.1
    refine good_cons_iff.2 ⟨hw, hfresh, fun c h => by simp at h, fun q hq => ⟨?_, ?_⟩, fun _ => hnew⟩
    · exact fun _ h => by simp at h
    · exact fun h => by simp at h
  | @forkFails p r g pad v k rest hcall =>
    exact good_gone_iff.2 ⟨hw, by decide, fun h => absurd h (by decide)⟩
  | @begun p r g pad v c hcall hfresh =>
    obtain ⟨hr, hpid, -, hbeside, hgone⟩ := good_cons_iff.1 hw
    have hnew : ∀ q ∈ r, q.pid ≠ c := fun q hq => hfresh.2 q (Multiset.mem_cons_of_mem hq)
    have hmother : Good ⟨{ p with unfinished := some c } ::ₘ r, g⟩ := by
      refine good_cons_iff.2 ⟨hr, hpid, ?_, fun q hq => ⟨?_, (hbeside q hq).2⟩, hgone⟩
      · rintro c' h rfl
        exact hfresh.1.ne' (Option.some.inj h)
      · exact fun _ h => absurd (Option.some.inj h).symm (hnew q hq)
    refine good_cons_iff.2
      ⟨hmother, ⟨hfresh.1, ?_⟩, fun c h => by simp at h, fun q hq => ⟨?_, ?_⟩, fun h => by simp at h⟩
    · intro q hq
      rcases Multiset.mem_cons.1 hq with rfl | hq
      · exact hfresh.2 p (Multiset.mem_cons_self p r)
      · exact hnew q hq
    · exact fun _ h => by simp at h
    · intro h _
      rcases Multiset.mem_cons.1 hq with rfl | hq
      · rfl
      · exact absurd (Option.some.inj h).symm (hpid.2 q hq)
  | @begunFails p r g pad v hcall =>
    obtain ⟨hr, hfresh, -, hbeside, hgone⟩ := good_cons_iff.1 hw
    refine good_cons_iff.2 ⟨hr, hfresh, ?_, fun q hq => ⟨?_, (hbeside q hq).2⟩, hgone⟩
    · rintro c h rfl
      simp at h
    · intro _ h
      have hpos := hr.pos q hq
      have hpid : -1 = q.pid := Option.some.inj h
      omega
  | @resumed p q r g pad v j k rest hcall hmother =>
    obtain ⟨hpr, hq, hqcall, hqbeside, -⟩ := good_cons_iff.1 hw
    obtain ⟨hr, hp, -, hbeside, hgone⟩ := good_cons_iff.1 hpr
    have hback : Good ⟨{ p with unfinished := none } ::ₘ r, g⟩ :=
      good_cons_iff.2 ⟨hr, hp, fun c h => by simp at h,
        fun a ha => ⟨fun _ h => by simp at h, (hbeside a ha).2⟩, hgone⟩
    refine good_cons_iff.2 ⟨hback, ⟨hq.1, ?_⟩, hqcall, fun a ha => ⟨?_, fun h => by simp at h⟩, fun _ => ?_⟩
    · intro a ha
      rcases Multiset.mem_cons.1 ha with rfl | ha
      · exact hq.2 p (Multiset.mem_cons_self p r)
      · exact hq.2 a (Multiset.mem_cons_of_mem ha)
    · rcases Multiset.mem_cons.1 ha with rfl | ha
      · exact (hqbeside p (Multiset.mem_cons_self p r)).1
      · exact (hqbeside a (Multiset.mem_cons_of_mem ha)).1
    · exact (hfair.call.2 hq.1).1
  | @resumedGone p r g pad v j k c rest hcall hno =>
    obtain ⟨hr, hp, hpcall, hbeside, hgone⟩ := good_cons_iff.1 hw
    have hback : Good ⟨{ p with unfinished := none } ::ₘ r, g⟩ :=
      good_cons_iff.2 ⟨hr, hp, fun c h => by simp at h,
        fun a ha => ⟨fun _ h => by simp at h, (hbeside a ha).2⟩, hgone⟩
    refine good_gone_iff.2 ⟨hback, hpcall c hcall, fun hc => ?_⟩
    obtain ⟨hleft, hchild⟩ := hfair.call.2 hc
    refine ⟨?_, hleft⟩
    rintro ⟨q, hq, hpid, hnone⟩
    rcases Multiset.mem_cons.1 hq with rfl | hq
    · have h : p.mother = some p.pid := hchild p (Multiset.mem_cons_self p r) hpid
      simp [h] at hnone
    · have h : q.mother = some p.pid := hchild q (Multiset.mem_cons_of_mem hq) hpid
      simp [h] at hnone
  | exit hcall => exact (good_cons_iff.1 hw).1
  | @killed p r g pad rest =>
    obtain ⟨hr, hfresh, -, -, hgone⟩ := good_cons_iff.1 hw
    by_cases hm : p.mother = none
    · rw [if_pos hm]
      exact good_gone_iff.2 ⟨hr, hfresh.1.ne', fun _ => ⟨not_known_of_fresh hfresh, hgone hm⟩⟩
    · rwa [if_neg hm]
  | @chdir p r g pad path d rest hcall =>
    obtain ⟨hr, hfresh, hunfinished, hbeside, hgone⟩ := good_cons_iff.1 hw
    obtain ⟨q, hq, hpid, hmother, -⟩ := hfair.call
    have hm := mother_none hw (Multiset.mem_cons_self p r) ⟨q, hq, hpid, hmother⟩
    refine good_cons_iff.2 ⟨hr, hfresh, hunfinished, fun q hq => ⟨?_, ?_⟩, hgone⟩
    · exact fun _ h => by simp [hcall] at h
    · exact fun h => by simp [hm] at h
  | chdirFails hcall => exact hw
  | openFile hcall => exact hw
  | onePath hcall => exact hw
  | twoPaths hcall => exact hw
  | other => exact hw

end

/-! ## A line -/

section
variable {chdir : Place → Text → Option Place} {p : Process} {r : Multiset Process} {g : Multiset Int} {w w' : World}
  {e : Entry} {out : List (LogFile × Text)} {s : State}

theorem holds_entries {procs : List Proc} (h : Holds w procs) : (occupied procs).map Proc.pid = w.entries := by
  obtain ⟨left, htable, hleft⟩ := h.table
  rw [htable, Multiset.map_add, hleft, Multiset.map_map]
  rfl

/-- The entry of a process that is known, and no other one. -/
theorem holds_known {procs : List Proc} (h : Holds w procs) (hw : Good w) (hp : p ∈ w.procs) (hm : p.mother = none) :
    p.entry ∈ occupied procs ∧ ∀ b ∈ occupied procs, b.pid = p.entry.pid → b = p.entry := by
  have hmem : p.entry ∈ occupied procs := by
    obtain ⟨left, htable, -⟩ := h.table
    rw [htable, Multiset.mem_add]
    exact .inl (Multiset.mem_map_of_mem _ (Multiset.mem_filter.2 ⟨hp, hm⟩))
  refine ⟨hmem, fun b hb hpid => ?_⟩
  have hnodup : (((occupied procs).filter fun a => 0 < a.pid).map Proc.pid).Nodup := by
    have honce := hw.once
    rwa [← holds_entries h, Multiset.filter_map] at honce
  refine Multiset.inj_on_of_nodup_map hnodup b ?_ p.entry ?_ hpid
  · exact Multiset.mem_filter.2 ⟨hb, hpid ▸ hw.pos p hp⟩
  · exact Multiset.mem_filter.2 ⟨hmem, hw.pos p hp⟩

/-- There is room for a new process. -/
theorem room_for {procs : List Proc} (h : Holds w procs) {c : Int} (hnew : w'.entries = c ::ₘ w.entries)
    (hroom : w'.gone ≠ 0 → w'.entries.card ≤ maxprocs) (halive : w'.procs.card ≤ maxprocs) :
    (occupied procs).card < procs.length := by
  have hall : w'.entries.card ≤ maxprocs := by
    by_cases hg : w'.gone = 0
    · rw [World.entries, hg, Multiset.add_zero, Multiset.card_map]
      exact (Multiset.card_le_card (Multiset.filter_le _ _)).trans halive
    · exact hroom hg
  have hcard := congrArg Multiset.card (holds_entries h)
  rw [hnew, Multiset.card_cons] at hall
  rw [Multiset.card_map] at hcard
  rw [h.length]
  omega

/-- A call of `fork` that is reported. -/
theorem fork_spec (h : Holds w s.procs) (hw : Good w) (hp : p ∈ w.procs) (hm : p.mother = none) {c : Int} (hc : c ≠ 0)
    (hroom : (occupied s.procs).card < s.procs.length) :
    ∃ procs', s.fork p.pid c = .ok { s with procs := procs' } ∧ procs'.length = maxprocs ∧
      occupied procs' = ⟨c, p.cwd.text⟩ ::ₘ occupied s.procs := by
  obtain ⟨hmem, hone⟩ := holds_known h hw hp hm
  obtain ⟨procs', hnew, hlen, htable⟩ := newproc_spec hroom hc p.cwd.text
  have hget := getproc_spec hmem hone
  refine ⟨procs', ?_, hlen.trans h.length, htable⟩
  change (getproc s.procs p.entry.pid >>= _) = _
  rw [hget]
  change (newproc s.procs c p.cwd.text >>= _) = _
  rw [hnew]
  rfl

/-- A path is written with the directory of its process. -/
theorem write_spec (h : Holds w s.procs) (hw : Good w) (hp : p ∈ w.procs) {path : Text} (hknown : KnownFor w p.pid path)
    (log : LogFile) : s.write log p.pid path = .ok { s with out := s.out ++ told p log path } := by
  rw [State.write, told, fullName]
  by_cases hpath : path.head? = some '/'
  · rw [if_pos hpath, if_pos hpath]
    rfl
  · have hm := mother_none hw hp (hknown.resolve_left hpath)
    obtain ⟨hmem, hone⟩ := holds_known h hw hp hm
    have hget := getproc_spec hmem hone
    rw [if_neg hpath, if_neg hpath]
    change (getproc s.procs p.entry.pid >>= _) = _
    rw [hget]
    rfl

theorem holds_congr {procs : List Proc} {q : Process} (hentry : q.entry = p.entry) (hmother : q.mother = p.mother)
    (h : Holds ⟨p ::ₘ r, g⟩ procs) : Holds ⟨q ::ₘ r, g⟩ procs := by
  obtain ⟨left, htable, hleft⟩ := h.table
  refine ⟨h.length, left, ?_, hleft⟩
  rw [htable]
  by_cases hm : p.mother = none
  · rw [seen_cons_of_known hm, seen_cons_of_known (hmother.trans hm), Multiset.map_cons, Multiset.map_cons, hentry]
  · rw [seen_cons_of_unknown hm, seen_cons_of_unknown (hmother ▸ hm)]

/-- A process of which the log tells now. -/
theorem holds_new {procs procs' : List Proc} (h : Holds ⟨r, g⟩ procs) (hlen : procs'.length = maxprocs)
    (hm : p.mother = none) (htable : occupied procs' = p.entry ::ₘ occupied procs) : Holds ⟨p ::ₘ r, g⟩ procs' := by
  obtain ⟨left, hold, hleft⟩ := h.table
  refine ⟨hlen, left, ?_, hleft⟩
  rw [htable, hold, seen_cons_of_known hm, Multiset.map_cons, Multiset.cons_add]

theorem holds_unknown {procs : List Proc} (hm : p.mother ≠ none) :
    Holds ⟨p ::ₘ r, g⟩ procs ↔ Holds ⟨r, g⟩ procs := by
  constructor
  · rintro ⟨hlen, left, htable, hleft⟩
    exact ⟨hlen, left, by rw [htable, seen_cons_of_unknown hm], hleft⟩
  · rintro ⟨hlen, left, htable, hleft⟩
    exact ⟨hlen, left, by rw [htable, seen_cons_of_unknown hm], hleft⟩

/-- A place that is left. -/
theorem holds_gone {procs procs' : List Proc} (h : Holds ⟨r, g⟩ procs) (hlen : procs'.length = maxprocs) {a : Proc}
    (htable : occupied procs' = a ::ₘ occupied procs) : Holds ⟨r, a.pid ::ₘ g⟩ procs' := by
  obtain ⟨left, hold, hleft⟩ := h.table
  refine ⟨hlen, a ::ₘ left, ?_, ?_⟩
  · rw [htable, hold, Multiset.add_cons]
    rfl
  · rw [Multiset.map_cons]
    exact congrArg (a.pid ::ₘ ·) hleft

/-- A process of which the log has told goes out of the table. -/
theorem holds_freed {procs procs' : List Proc} (h : Holds ⟨p ::ₘ r, g⟩ procs) (hlen : procs'.length = maxprocs)
    (hm : p.mother = none) (htable : p.entry ::ₘ occupied procs' = occupied procs) : Holds ⟨r, g⟩ procs' := by
  obtain ⟨left, hold, hleft⟩ := h.table
  rw [hold, seen_cons_of_known hm, Multiset.map_cons, Multiset.cons_add, Multiset.cons_inj_right] at htable
  exact ⟨hlen, left, htable, hleft⟩

/-- Its place stays after a signal. -/
theorem holds_killed {procs : List Proc} (h : Holds ⟨p ::ₘ r, g⟩ procs) (hm : p.mother = none) :
    Holds ⟨r, p.pid ::ₘ g⟩ procs := by
  obtain ⟨left, hold, hleft⟩ := h.table
  refine ⟨h.length, p.entry ::ₘ left, ?_, ?_⟩
  · rw [hold, seen_cons_of_known hm, Multiset.map_cons, Multiset.cons_add, Multiset.add_cons]
    rfl
  · rw [Multiset.map_cons]
    exact congrArg (p.pid ::ₘ ·) hleft

/-- A `chdir` that leads to the same directory again. -/
theorem chdir_spec (h : Holds ⟨p ::ₘ r, g⟩ s.procs) (hw : Good ⟨p ::ₘ r, g⟩) (hm : p.mother = none) {path : Text}
    {result : Option Place} (hreplay : Replays chdir p.cwd path result) :
    ∃ s', s.chdir chdir p.pid path = .ok s' ∧ s'.out = s.out ∧
      Holds ⟨{ p with cwd := result.getD p.cwd } ::ₘ r, g⟩ s'.procs := by
  obtain ⟨hmem, hone⟩ := holds_known h hw (Multiset.mem_cons_self p r) hm
  obtain ⟨procs', hset, hlen, htable⟩ := setproc_spec hmem hone (result.getD p.cwd).text
  have hget := getproc_spec hmem hone
  refine ⟨⟨procs', result.getD p.cwd, s.out⟩, ?_, rfl, ?_⟩
  · change (getproc s.procs p.entry.pid >>= _) = _
    rw [hget]
    change (setproc s.procs p.entry.pid (go chdir (go chdir s.cwd p.cwd.text) path).text >>= _) = _
    rw [hreplay s.cwd, hset]
    change Except.ok _ = _
    rw [← hreplay s.cwd]
    rfl
  · obtain ⟨left, hold, hleft⟩ := h.table
    rw [hold, seen_cons_of_known hm, Multiset.map_cons, Multiset.cons_add, Multiset.cons_swap,
      Multiset.cons_inj_right] at htable
    refine ⟨hlen.trans h.length, left, ?_, hleft⟩
    rw [htable, seen_cons_of_known (by exact hm), Multiset.map_cons, Multiset.cons_add]
    rfl

/-- **A step**: the line is followed, and what should be written is written. -/
theorem perform_happens (h : Happens w e out w') (hlog : w'.procs.card ≤ maxprocs) (hfair : Fair chdir w e w')
    (hw : Good w) (hs : Holds w s.procs) :
    ∃ s', s.perform chdir (e.call.action e.pid) = .ok s' ∧ s'.out = s.out ++ out ∧ Holds w' s'.procs := by
  cases h with
  | @fork p r g pad v k c rest hcall hfresh =>
    have hm := mother_none hw (Multiset.mem_cons_self p r) hfair.call.1
    have hroom := room_for hs (entries_cons_of_known rfl) hfair.room hlog
    obtain ⟨procs', hfork, hlen, htable⟩ := fork_spec hs hw (Multiset.mem_cons_self p r) hm hfresh.1.ne' hroom
    exact ⟨_, hfork, (List.append_nil _).symm, holds_new hs hlen rfl htable⟩
  | @forkFails p r g pad v k rest hcall =>
    have hm := mother_none hw (Multiset.mem_cons_self p r) hfair.call.1
    have hroom := room_for hs (entries_gone _) hfair.room hlog
    obtain ⟨procs', hfork, hlen, htable⟩ :=
      @fork_spec _ _ _ hs hw (Multiset.mem_cons_self p r) hm (-1) (by decide) hroom
    exact ⟨_, hfork, (List.append_nil _).symm, holds_gone hs hlen htable⟩
  | @begun p r g pad v c hcall hfresh =>
    exact ⟨s, rfl, (List.append_nil _).symm, (holds_unknown (by simp)).2 (holds_congr (p := p) rfl rfl hs)⟩
  | @begunFails p r g pad v hcall => exact ⟨s, rfl, (List.append_nil _).symm, holds_congr (p := p) rfl rfl hs⟩
  | @resumed p q r g pad v j k rest hcall hmother =>
    have hp : p ∈ q ::ₘ p ::ₘ r := Multiset.mem_cons_of_mem (Multiset.mem_cons_self p r)
    have hq : q ∈ q ::ₘ p ::ₘ r := Multiset.mem_cons_self q _
    have hunknown : q.mother ≠ none := by simp [hmother]
    have hm := mother_none hw hp hfair.call.1
    have hentries : (World.mk ({ q with mother := none } ::ₘ { p with unfinished := none } ::ₘ r) g).entries =
        q.pid ::ₘ (World.mk (q ::ₘ p ::ₘ r) g).entries := by
      rw [entries_cons_of_known rfl, entries_cons_of_unknown hunknown,
        entries_congr (p := p) (q := { p with unfinished := none }) rfl rfl]
    have hroom := room_for hs hentries hfair.room hlog
    obtain ⟨procs', hfork, hlen, htable⟩ := fork_spec hs hw hp hm (hw.pos q hq).ne' hroom
    rw [← hw.child p hp q hq hmother hcall] at htable
    have hback := holds_congr (p := p) (q := { p with unfinished := none }) rfl rfl ((holds_unknown hunknown).1 hs)
    exact ⟨_, hfork, (List.append_nil _).symm, holds_new hback hlen rfl htable⟩
  | @resumedGone p r g pad v j k c rest hcall hno =>
    have hp := Multiset.mem_cons_self p r
    have hm := mother_none hw hp hfair.call.1
    have hentries : (World.mk ({ p with unfinished := none } ::ₘ r) (c ::ₘ g)).entries =
        c ::ₘ (World.mk (p ::ₘ r) g).entries := by
      rw [entries_gone, entries_congr (p := p) (q := { p with unfinished := none }) rfl rfl]
    have hroom := room_for hs hentries hfair.room hlog
    obtain ⟨procs', hfork, hlen, htable⟩ := fork_spec hs hw hp hm (hw.call p hp c hcall) hroom
    have hback := holds_congr (p := p) (q := { p with unfinished := none }) rfl rfl hs
    exact ⟨_, hfork, (List.append_nil _).symm, holds_gone hback hlen htable⟩
  | @exit p r g pad group status rest hcall =>
    have hm := mother_none hw (Multiset.mem_cons_self p r) hfair.call
    obtain ⟨hmem, hone⟩ := holds_known hs hw (Multiset.mem_cons_self p r) hm
    obtain ⟨procs', hfree, hlen, htable⟩ := freeproc_spec hmem hone
    refine ⟨{ s with procs := procs' }, ?_, (List.append_nil _).symm, holds_freed hs (hlen.trans hs.length) hm htable⟩
    change (freeproc s.procs p.entry.pid >>= _) = _
    rw [hfree]
    rfl
  | @killed p r g pad rest =>
    refine ⟨s, rfl, (List.append_nil _).symm, ?_⟩
    by_cases hm : p.mother = none
    · rw [if_pos hm]
      exact holds_killed hs hm
    · rw [if_neg hm]
      exact (holds_unknown hm).1 hs
  | @chdir p r g pad path d rest hcall =>
    obtain ⟨q, hq, hpid, hmother, hreplay⟩ := hfair.call
    obtain rfl : q = p := Multiset.inj_on_of_nodup_map hw.nodup q hq p (Multiset.mem_cons_self p r) hpid
    obtain ⟨s', hdone, hout, hs'⟩ := chdir_spec hs hw hmother hreplay
    exact ⟨s', hdone, hout.trans (List.append_nil _).symm, hs'⟩
  | @chdirFails p r g pad path rest hcall =>
    obtain ⟨q, hq, hpid, hmother, hreplay⟩ := hfair.call
    obtain rfl : q = p := Multiset.inj_on_of_nodup_map hw.nodup q hq p (Multiset.mem_cons_self p r) hpid
    obtain ⟨s', hdone, hout, hs'⟩ := chdir_spec hs hw hmother hreplay
    exact ⟨s', hdone, hout.trans (List.append_nil _).symm, hs'⟩
  | @openFile p r g pad path flags rest hcall =>
    by_cases hdir : "O_DIRECTORY".toList <:+: flags
    · rw [if_pos hdir]
      exact ⟨s, if_pos hdir, (List.append_nil _).symm, hs⟩
    · rw [if_neg hdir]
      have hwrite := write_spec hs hw (Multiset.mem_cons_self p r) (hfair.call.resolve_left hdir) (logOf flags)
      exact ⟨_, (if_neg hdir).trans hwrite, rfl, hs⟩
  | onePath hcall =>
    exact ⟨_, write_spec hs hw (Multiset.mem_cons_self _ _) hfair.call .wlog, rfl, hs⟩
  | twoPaths hcall =>
    exact ⟨_, write_spec hs hw (Multiset.mem_cons_self _ _) hfair.call .wlog, rfl, hs⟩
  | other => exact ⟨s, rfl, (List.append_nil _).symm, hs⟩

/-! ## A log -/

/-- Step after step. -/
theorem loop_run {es : List Entry} (h : Run (fun w e w' => Logged e w' ∧ Fair chdir w e w') w es out w') (hw : Good w)
    (hs : Holds w s.procs) :
    ∃ s', stLoop chdir s (es.map fun e => e.line ++ ['\n']) = .ok s' ∧ s'.out = s.out ++ out ∧ Good w' ∧
      Holds w' s'.procs := by
  induction h generalizing s with
  | nil => exact ⟨s, rfl, (List.append_nil _).symm, hw, hs⟩
  | @cons w w₁ w₂ e es o os hstep hfair hrun ih =>
    obtain ⟨⟨hok, halive⟩, hfair⟩ := hfair
    obtain ⟨s₁, hperform, hout, hs₁⟩ := perform_happens hstep halive hfair hw hs
    obtain ⟨s₂, hloop, hout₂, hgood, hs₂⟩ := ih (happens_good hstep hfair hw) hs₁
    refine ⟨s₂, ?_, ?_, hgood, hs₂⟩
    · rw [List.map_cons, stLoop, action_line hok.parts hfair.paths, hperform]
      exact hloop
    · rw [hout₂, hout, List.append_assoc]

/-- What is in the table is what was meant. -/
theorem tracks_of_holds (hw : Good w) (hs : Holds w s.procs) (hout : s.out = out) : Tracks w out s := by
  refine ⟨hout, fun p hp => ?_, fun p hp hm => (mem_occupied.1 (holds_known hs hw hp hm).1).1⟩
  have hpos := hw.pos p hp
  have honce := Multiset.nodup_iff_count_le_one.1 hw.once p.pid
  rw [Multiset.count_filter_of_pos hpos, ← holds_entries hs, Multiset.count_map, occupied_eq, Multiset.filter_filter,
    Multiset.filter_coe, Multiset.coe_card] at honce
  have hsame : s.procs.filter (fun a => a.pid = p.pid) = s.procs.filter fun a => p.pid = a.pid ∧ a.pid ≠ 0 :=
    List.filter_congr fun a _ => by
      simp only [decide_eq_decide]
      omega
  rw [hsame]
  exact honce

/-- The first line tells the first process. -/
theorem flStparse_eq {start : Place} {e : Entry} {es : List Entry} (hpid : 0 < e.pid)
    (hes : ∀ e' ∈ e :: es, e'.Ok) :
    ∃ procs, Holds (World.start e.pid start) procs ∧
      flStparse chdir start ((e :: es).flatMap fun e => e.line ++ ['\n']) =
        stLoop chdir ⟨procs, start, []⟩ ((e :: es).map fun e => e.line ++ ['\n']) := by
  have hfree : occupied (List.replicate maxprocs ⟨0, []⟩) = 0 := by
    rw [occupied, List.filter_eq_nil_iff.2 fun a ha => by simp [List.eq_of_mem_replicate ha]]
    rfl
  have hempty : Holds ⟨0, 0⟩ (List.replicate maxprocs ⟨0, []⟩) :=
    ⟨List.length_replicate, 0, hfree, rfl⟩
  obtain ⟨procs, hnew, hlen, htable⟩ := @newproc_spec (List.replicate maxprocs ⟨0, []⟩) e.pid
    (by rw [hfree, List.length_replicate]; decide) hpid.ne' start.text
  have hprocs := holds_new (p := ⟨e.pid, start, none, none⟩) hempty (hlen.trans List.length_replicate) rfl htable
  refine ⟨procs, hprocs, ?_⟩
  have hlines : gets bufSize ((e :: es).flatMap fun e => e.line ++ ['\n']) =
      (e :: es).map fun e => e.line ++ ['\n'] := by
    have hread := @gets_lines bufSize ((e :: es).map Entry.line) fun l hl => by
      obtain ⟨e', he', rfl⟩ := List.mem_map.1 hl
      exact ⟨(hes e' he').line, (hes e' he').short⟩
    rwa [List.flatMap_map, List.map_map] at hread
  have hfirst : sscanf (e.line ++ ['\n']) "%d".toList = [.num e.pid] := by
    have hblanks : Stops Char.isDigit (blanks (e.pad + 1) ++ (e.call.text ++ ['\n'])) := by
      simp [Stops, blanks, List.replicate_succ]
    have hread := @scan_num [] _ e.pid hblanks
    rw [Entry.line, List.append_assoc, List.append_assoc]
    exact hread
  rw [flStparse, hlines, List.map_cons]
  simp only
  rw [hfirst]
  change (newproc _ e.pid start.text >>= _) = _
  rw [hnew]
  rfl

theorem run_ok {es : List Entry} (h : Run (fun w e w' => Logged e w' ∧ Fair chdir w e w') w es out w') :
    ∀ e ∈ es, e.Ok := by
  induction h with
  | nil => simp
  | cons _ hfair _ ih => exact List.forall_mem_cons.2 ⟨hfair.1.1, ih⟩

/-- **Every log of fair steps** is followed to its end: for each process there is one entry at most, with its directory
if the log has told of it, and each path is written with the directory in which its process was. -/
theorem stparse_tracks {start : Place} {e : Entry} {es : List Entry} (hpid : 0 < e.pid)
    (hrun : Run (fun w e w' => Logged e w' ∧ Fair chdir w e w') (World.start e.pid start) (e :: es) out w) :
    ∃ s, flStparse chdir start ((e :: es).flatMap fun e => e.line ++ ['\n']) = .ok s ∧ Tracks w out s := by
  obtain ⟨procs, hprocs, hparse⟩ := @flStparse_eq chdir start e es hpid (run_ok hrun)
  have hgood : Good (World.start e.pid start) := by
    have hnone : Good ⟨0, 0⟩ := ⟨Multiset.nodup_zero, by simp, by simp, by simp, by simp, Multiset.nodup_zero⟩
    exact good_cons_iff.2 ⟨hnone, ⟨hpid, by simp⟩, fun c h => by simp at h, by simp, by simp⟩
  obtain ⟨s, hloop, hout, hw, hs⟩ := @loop_run chdir _ _ _ ⟨procs, start, []⟩ _ hrun hgood hprocs
  exact ⟨s, hparse.trans hloop, tracks_of_holds hw hs (hout.trans (List.nil_append _))⟩

end

/-! ## Two logs -/

/-- `100 fork() = 101`, `101 chdir("r")`, `101 open("x", O_WRONLY)`, `101 exit_group(0)`, `100 mkdir("y", 0777)` -/
def reported : List Entry :=
  [⟨100, 0, .fork false 1 101 []⟩, ⟨101, 0, .chdir "r".toList (some ["r".toList]) []⟩,
    ⟨101, 0, .openFile "x".toList "O_WRONLY".toList []⟩, ⟨101, 0, .exit true 0 []⟩,
    ⟨100, 0, .onePath .mkdir "y".toList "0777".toList⟩]

theorem ok_of_decide {e : Entry} (hparts : e.call.Parts)
    (h : e.line.all (· ≠ '\n') = true ∧ e.line.length + 1 < bufSize) : e.Ok :=
  ⟨hparts, fun hmem => by simpa using List.all_eq_true.1 h.1 _ hmem, h.2⟩

theorem reported_run : Run (fun w e w' => Logged e w' ∧ Fair smallChdir w e w') (World.start 100 []) reported
    [(.wlog, "101: /r/x\n".toList), (.wlog, "100: /y\n".toList)] (World.start 100 []) := by
  have hread : ∀ c, '"' ≠ c → Readable [c] := fun c hc => by simpa [Readable] using hc
  refine .cons (.fork (p := ⟨100, [], none, none⟩) (r := 0) rfl ⟨by decide, by simp⟩)
    ⟨⟨ok_of_decide (by simp [Call.Parts, Stops]) (by decide +kernel), by simp [maxprocs]⟩, trivial, by simp, ?_⟩ ?_
  · exact ⟨⟨⟨100, [], none, none⟩, by simp, rfl, rfl⟩, by simp⟩
  refine .cons (.chdir (p := ⟨101, [], none, none⟩) rfl)
    ⟨⟨ok_of_decide trivial (by decide +kernel), by simp [maxprocs]⟩, hread 'r' (by decide), by simp, ?_⟩ ?_
  · exact ⟨⟨101, [], none, none⟩, by simp, rfl, rfl, fun x => rfl⟩
  refine .cons (o := [(.wlog, "101: /r/x\n".toList)]) (.openFile (p := ⟨101, ["r".toList], none, none⟩) rfl)
    ⟨⟨ok_of_decide (by simp [Call.Parts, Stops, Lua.isSpace, Lua.between]) (by decide +kernel), by simp [maxprocs]⟩,
      hread 'x' (by decide), by simp, ?_⟩ ?_
  · exact .inr (.inr ⟨⟨101, ["r".toList], none, none⟩, by simp, rfl, rfl⟩)
  refine .cons (.exit (p := ⟨101, ["r".toList], none, none⟩) rfl)
    ⟨⟨ok_of_decide (by simp [Call.Parts, Stops]) (by decide +kernel), by simp [maxprocs]⟩, trivial, by simp, ?_⟩ ?_
  · exact ⟨⟨101, ["r".toList], none, none⟩, by simp, rfl, rfl⟩
  refine @Run.cons _ _ _ _ _ _ _ [] (.onePath (p := ⟨100, [], none, none⟩) rfl)
    ⟨⟨ok_of_decide trivial (by decide +kernel), by simp [maxprocs]⟩, hread 'y' (by decide), by simp, ?_⟩ .nil
  exact .inr ⟨⟨100, [], none, none⟩, by simp, rfl, rfl⟩

theorem reported_followed :
    ∃ s, flStparse smallChdir [] (reported.flatMap fun e => e.line ++ ['\n']) = .ok s ∧
      Tracks (World.start 100 []) [(.wlog, "101: /r/x\n".toList), (.wlog, "100: /y\n".toList)] s :=
  stparse_tracks (by decide) reported_run

/-- `100 vfork( <unfinished ...>`, `101 chdir("r")` -/
def early : List Entry := [⟨100, 0, .begun true⟩, ⟨101, 0, .chdir "r".toList (some ["r".toList]) []⟩]

/-- A child is at work before the line that tells of it. -/
theorem early_child_aborts :
    Run (fun _ e w' => Logged e w') (World.start 100 []) early []
        ⟨⟨101, ["r".toList], some 100, none⟩ ::ₘ ⟨100, [], none, some 101⟩ ::ₘ 0, 0⟩ ∧
      flStparse smallChdir [] (early.flatMap fun e => e.line ++ ['\n']) =
        .error "fl_stparse: Can't find proc 101!\n".toList := by
  refine ⟨?_, by decide +kernel⟩
  refine .cons (.begun (p := ⟨100, [], none, none⟩) (r := 0) (c := 101) rfl ⟨by decide, by simp⟩)
    ⟨ok_of_decide trivial (by decide +kernel), by simp [maxprocs]⟩ ?_
  exact @Run.cons _ _ _ _ _ _ _ [] (.chdir (p := ⟨101, [], some 100, none⟩) rfl)
    ⟨ok_of_decide trivial (by decide +kernel), by simp [maxprocs]⟩ .nil

end T2Sde.Strace
