import T2Sde.Emerge.Visit
/-!
# What the calls under way still have to do

Most of the state of the closure is bookkeeping of the calls: which words they have left, each with
the type in front of it (`Todo`), and which packages they will look into (`Key`). The steps that are
no visit only move these between frames.
-/
namespace T2Sde.Emerge
open Shell

/-- The package words of an argument list with the type that holds for each. -/
def pairs : Option DepTyp → List Word → List (Option DepTyp × Name)
  | _, [] => []
  | _, .typ t :: ws => pairs (some t) ws
  | typ, .pkg p :: ws => (typ, p) :: pairs typ ws

theorem pairs_pkgs (typ : Option DepTyp) (ps : List Name) : pairs typ (ps.map .pkg) = ps.map (typ, ·) := by
  induction ps with
  | nil => rfl
  | cons p ps ih => simp [pairs, ih]

theorem pairs_depWords (E : Env) (typ : Option DepTyp) (k : Name) :
    pairs typ (E.depWords k) = (E.cache k).map fun d => (some d.1, d.2) := by
  unfold Env.depWords
  induction E.cache k generalizing typ with
  | nil => rfl
  | cons d ds ih => simp [pairs, ih]

def Frame.todo (f : Frame) : List (Option DepTyp × Name) :=
  match f.phase with
  | .args ws => pairs f.typ ws
  | .calls _ => []

/-- The packages a call will look into: `deferred`, or what is left of it. -/
def Frame.keys (f : Frame) : List Name :=
  match f.phase with
  | .args _ => f.deferred
  | .calls ks => ks

@[simp] theorem todo_args (d : Int) (t : Option DepTyp) (df : List Name) (ws : List Word) :
    (Frame.mk d t df (.args ws)).todo = pairs t ws := rfl

@[simp] theorem todo_calls (d : Int) (t : Option DepTyp) (df : List Name) (ks : List Name) :
    (Frame.mk d t df (.calls ks)).todo = [] := rfl

@[simp] theorem keys_args (d : Int) (t : Option DepTyp) (df : List Name) (ws : List Word) :
    (Frame.mk d t df (.args ws)).keys = df := rfl

@[simp] theorem keys_calls (d : Int) (t : Option DepTyp) (df : List Name) (ks : List Name) :
    (Frame.mk d t df (.calls ks)).keys = ks := rfl

@[simp] theorem todo_call (d : Int) (ws : List Word) : (Frame.call d ws).todo = pairs none ws := rfl

@[simp] theorem keys_call (d : Int) (ws : List Word) : (Frame.call d ws).keys = [] := rfl

@[simp] theorem depth_call (d : Int) (ws : List Word) : (Frame.call d ws).depth = d := rfl

/-- A call at depth `d` still has the word `p` to visit, as a `typ` dependency. -/
def Todo (fs : List Frame) (d : Int) (typ : Option DepTyp) (p : Name) : Prop :=
  ∃ f ∈ fs, f.depth = d ∧ (typ, p) ∈ f.todo

def Key (fs : List Frame) (k : Name) : Prop := ∃ f ∈ fs, k ∈ f.keys

/-- A hard dependency on `b` is still to be visited. -/
def Owed (E : Env) (fs : List Frame) (b : Name) : Prop :=
  (∃ d typ, typ ≠ some .opt ∧ Todo fs d typ b) ∨ ∃ k, Key fs k ∧ (.dep, b) ∈ E.cache k

@[simp] theorem todo_nil (d : Int) (typ : Option DepTyp) (p : Name) : ¬ Todo [] d typ p := by simp [Todo]

@[simp] theorem key_nil (k : Name) : ¬ Key [] k := by simp [Key]

theorem todo_cons {f : Frame} {fs : List Frame} {d : Int} {typ : Option DepTyp} {p : Name} :
    Todo (f :: fs) d typ p ↔ (f.depth = d ∧ (typ, p) ∈ f.todo) ∨ Todo fs d typ p := by simp [Todo]

theorem key_cons {f : Frame} {fs : List Frame} {k : Name} : Key (f :: fs) k ↔ k ∈ f.keys ∨ Key fs k := by simp [Key]

theorem todo_append {fs gs : List Frame} {d : Int} {typ : Option DepTyp} {p : Name} :
    Todo (fs ++ gs) d typ p ↔ Todo fs d typ p ∨ Todo gs d typ p := by
  simp [Todo, List.mem_append, or_and_right, exists_or]

theorem key_append {fs gs : List Frame} {k : Name} : Key (fs ++ gs) k ↔ Key fs k ∨ Key gs k := by
  simp [Key, List.mem_append, or_and_right, exists_or]

/-- The frame of a visit of `p`, before and after. -/
theorem todo_visited {fs c : List Frame} {d d' : Int} {typ typ' : Option DepTyp} {df df' : List Name} {p q : Name}
    {ws : List Word}
    (h : Todo (⟨d, typ, df, .args (.pkg p :: ws)⟩ :: fs) d' typ' q) :
    (d' = d ∧ typ' = typ ∧ q = p) ∨ Todo (c ++ ⟨d, typ, df', .args ws⟩ :: fs) d' typ' q := by
  rw [todo_append, todo_cons]
  rcases todo_cons.1 h with ⟨rfl, hq⟩ | h
  · simp only [todo_args, pairs, List.mem_cons, Prod.mk.injEq] at hq
    rcases hq with ⟨rfl, rfl⟩ | hq
    · exact .inl ⟨rfl, rfl, rfl⟩
    · exact .inr (.inr (.inl ⟨rfl, hq⟩))
  · exact .inr (.inr (.inr h))

theorem mem_setKey {ks : List Name} {p q : Name} : q ∈ setKey ks p ↔ q ∈ ks ∨ q = p := by
  unfold setKey
  split
  · rename_i h
    constructor
    · exact .inl
    · rintro (hq | rfl)
      · exact hq
      · exact h
  · simp

/-- All the names the script is asked for. -/
def Request.names (r : Request) : List Name := r.args ++ r.repositories.flatten ++ r.system.getD []

section
variable {E : Env} {r : Request} (hE : Plain E)
  (hsystem : ∀ ps, r.system = some ps → ∀ p ∈ ps, E.installed p = true)
include hE hsystem

/-- `-system` asks for nothing if nothing is installed. -/
theorem Plain.system_nil {ps : List Name} (h : r.system = some ps) : ps = [] := by
  cases ps with
  | nil => rfl
  | cons p ps =>
    have := hsystem _ h p List.mem_cons_self
    rw [hE.notInstalled] at this
    cases this

theorem Plain.names : r.names = r.args ++ r.repositories.flatten := by
  unfold Request.names
  cases h : r.system with
  | none => simp
  | some ps => simp [hE.system_nil hsystem h]

end

theorem todo_frames {r : Request} {d : Int} {typ : Option DepTyp} {p : Name} (h : Todo r.frames d typ p) :
    typ = none ∧ ((d = 0 ∧ p ∈ r.args ++ r.repositories.flatten) ∨ (d = -1 ∧ ∃ ps, r.system = some ps ∧ p ∈ ps)) := by
  obtain ⟨f, hf, rfl, hp⟩ := h
  simp only [Request.frames, List.mem_append, List.mem_map, List.mem_cons, Option.mem_toList] at hf
  rcases hf with ⟨ps, hps, rfl⟩ | ⟨ps, hps, rfl⟩
  · simp only [todo_call, pairs_pkgs, List.mem_map, Prod.mk.injEq] at hp
    obtain ⟨q, hq, rfl, rfl⟩ := hp
    refine ⟨rfl, .inl ⟨rfl, List.mem_append.2 ?_⟩⟩
    rcases hps with rfl | hps
    · exact .inl hq
    · exact .inr (List.mem_flatten.2 ⟨ps, hps, hq⟩)
  · simp only [todo_call, pairs_pkgs, List.mem_map, Prod.mk.injEq] at hp
    obtain ⟨q, hq, rfl, rfl⟩ := hp
    exact ⟨rfl, .inr ⟨rfl, ps, hps, hq⟩⟩

theorem frames_todo {r : Request} {p : Name} (h : p ∈ r.args ++ r.repositories.flatten) : Todo r.frames 0 none p := by
  have key : ∀ ps, ps = r.args ∨ ps ∈ r.repositories → p ∈ ps → Todo r.frames 0 none p := by
    intro ps hps hp
    refine ⟨.call 0 (ps.map .pkg), ?_, rfl, by simpa [pairs_pkgs] using hp⟩
    simp only [Request.frames, List.mem_append, List.mem_map, List.mem_cons]
    exact .inl ⟨ps, hps, rfl⟩
  rcases List.mem_append.1 h with h | h
  · exact key _ (.inl rfl) h
  · obtain ⟨ps, hps, hp⟩ := List.mem_flatten.1 h
    exact key ps (.inr hps) hp

theorem not_key_frames {r : Request} {k : Name} : ¬ Key r.frames k := by
  rintro ⟨f, hf, hk⟩
  simp only [Request.frames, List.mem_append, List.mem_map, Option.mem_toList] at hf
  rcases hf with ⟨ps, -, rfl⟩ | ⟨ps, -, rfl⟩ <;> simp at hk

theorem frames_depth {r : Request} {f : Frame} (hf : f ∈ r.frames) : -1 ≤ f.depth := by
  simp only [Request.frames, List.mem_append, List.mem_map, Option.mem_toList] at hf
  rcases hf with ⟨ps, -, rfl⟩ | ⟨ps, -, rfl⟩ <;> simp

end T2Sde.Emerge
