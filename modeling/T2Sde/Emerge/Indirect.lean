import T2Sde.Emerge.Bound
/-!
# `-deps=indirect`: the closure is reachability

`Needed` says what the closure is for: the packages reachable from the requests over hard
dependencies, a name standing for its selected alternative. `Slip` lists the four kinds of visit that
go wrong, all on the way from a name to the package behind it. `Marks` is the invariant of the runs
that make none of them; at its end the packages marked `y` are the needed ones.
-/
namespace T2Sde.Emerge
open Shell

/-- The names the script is asked for, the members of groups included. -/
inductive Asked (E : Env) (r : Request) : Name → Prop
  | named {p} : p ∈ r.names → Asked E r p
  | member {p m} : Asked E r p → E.desc p = false → m ∈ E.cvGroup p → Asked E r m

/-- The name `b` stands for the package `v`, which exists and is not excluded. -/
structure StandsFor (E : Env) (b v : Name) : Prop where
  pick : E.pick b = some v
  desc : E.desc v = true
  included : E.excludes v = false

/-- The packages a request needs. -/
inductive Needed (E : Env) (r : Request) : Name → Prop
  | asked {b v} : Asked E r b → StandsFor E b v → Needed E r v
  | dep {t b v} : Needed E r t → (.dep, b) ∈ E.cache t → StandsFor E b v → Needed E r v

/-- The visits of `p` that go wrong. -/
inductive Slip (E : Env) (r : Request) (g : Glob) (depth : Int) (typ : Option DepTyp) (p : Name) : Prop
  /-- An optional dependency that is switched to an alternative to be built already: `y` becomes `o`. -/
  | demoted {v} : g.deplist p = none → E.pick p = some v → typ = some .opt → g.deplist v = some .y →
      Slip E r g depth typ p
  /-- A hard dependency whose name was met before, when its alternative was declined. -/
  | declinedBase {v} : g.deplist p = some .n → E.pick p = some v → typ ≠ some .opt → g.deplist v = some .o →
      Slip E r g depth typ p
  /-- The alternative is excluded or does not exist. For an optional dependency it then matters only
  as the name of a group. -/
  | unchecked {v} : g.deplist p = none → E.pick p = some v → ¬ (E.desc v = true ∧ E.excludes v = false) →
      (typ = some .opt → E.desc v = false ∧ E.cvGroup v ≠ []) → Slip E r g depth typ p
  /-- The name of a group that is asked for is first met as a dependency. -/
  | groupDep : g.deplist p = none → depth ≠ 0 → E.desc p = false → E.cvGroup p ≠ [] → Asked E r p →
      Slip E r g depth typ p

/-- The step is no visit that goes wrong. -/
def Straight (E : Env) (r : Request) (s : St) (_ : Act) : Prop :=
  ∀ depth typ df p ws fs, s.stack = ⟨depth, typ, df, .args (.pkg p :: ws)⟩ :: fs → ¬ Slip E r s.glob depth typ p

/-- What the name `b` stands for is to be built. -/
def Settled (E : Env) (g : Glob) (b : Name) : Prop :=
  g.deplist b ≠ none ∧ ∀ v, StandsFor E b v → g.deplist v = some .y

/-- A word to be visited comes from a request, at depth 0, or from the cache of a needed package. -/
def WordOk (E : Env) (r : Request) (d : Int) (typ : Option DepTyp) (p : Name) : Prop :=
  (d = 0 ∧ typ = none ∧ Asked E r p) ∨ (0 < d ∧ ∃ t c, typ = some c ∧ Needed E r t ∧ (c, p) ∈ E.cache t)

structure Marks (E : Env) (r : Request) (g : Glob) (fs : List Frame) : Prop where
  packages : g.packages = E.packages
  optional : g.optional = "no".toList
  needed : ∀ v, g.deplist v = some .y → Needed E r v
  offered : ∀ v, g.deplist v = some .o → E.packages v = some .X ∧ (E.desc v = true ∨ E.cvGroup v = [])
  noted : ∀ p v, g.deplist p = some .n → E.pick p = some v →
    v ≠ p ∧ (g.deplist v = some .o ∨ g.deplist v = some .y)
  words : ∀ d typ p, Todo fs d typ p → WordOk E r d typ p
  keys : ∀ k, Key fs k → Needed E r k
  deep : ∀ f ∈ fs, -1 ≤ f.depth
  owed : ∀ u b v, g.deplist u = some .y → (.dep, b) ∈ E.cache u → StandsFor E b v →
    g.deplist v = some .y ∨ Owed E fs b
  asked : ∀ b ∈ r.names, Todo fs 0 none b ∨ Settled E g b
  member : ∀ b m, Asked E r b → g.deplist b ≠ none → E.desc b = false → m ∈ E.cvGroup b →
    Todo fs 0 none m ∨ Settled E g m

/-- The options and the environment of the closure: `-deps=indirect`, `-optional-deps=no`, nothing
installed. -/
structure Indirect (E : Env) (r : Request) : Prop extends Plain E where
  deps : E.deps = .indirect
  no : E.optional = "no".toList
  /-- What `-system` asks for is what is installed. -/
  system : ∀ ps, r.system = some ps → ∀ p ∈ ps, E.installed p = true

theorem Needed.listed {E : Env} {r : Request} {v : Name} (h : Needed E r v) :
    E.desc v = true ∧ E.excludes v = false ∧ E.packages v = some .X := by
  have key : ∀ b, StandsFor E b v → E.desc v = true ∧ E.excludes v = false ∧ E.packages v = some .X :=
    fun b hb => ⟨hb.desc, hb.included, (pick_eq_some.1 hb.pick).2.2.1⟩
  cases h with
  | asked _ hb => exact key _ hb
  | dep _ _ hb => exact key _ hb

theorem settled_mono {E : Env} {g g' : Glob} {b : Name} (hy : ∀ v, g.deplist v = some .y → g'.deplist v = some .y)
    (hn : ∀ v, g.deplist v ≠ none → g'.deplist v ≠ none) (h : Settled E g b) : Settled E g' b :=
  ⟨hn b h.1, fun v hv => hy v (h.2 v hv)⟩

section
variable {E : Env} {r : Request} {g g' : Glob} {fs : List Frame}

theorem marks_init (hE : Indirect E r) : Marks E r (E.init r).glob (E.init r).stack where
  packages := rfl
  optional := hE.no
  needed v h := by simp [Env.init] at h
  offered v h := by simp [Env.init] at h
  noted p v h := by simp [Env.init] at h
  words d typ p h := by
    obtain ⟨rfl, ⟨rfl, hp⟩ | ⟨-, ps, hps, hp⟩⟩ := todo_frames h
    · exact .inl ⟨rfl, rfl, .named (by rw [hE.toPlain.names hE.system]; exact hp)⟩
    · rw [hE.toPlain.system_nil hE.system hps] at hp
      cases hp
  keys k h := absurd h not_key_frames
  deep f hf := frames_depth hf
  owed u b v h := by simp [Env.init] at h
  asked b hb := .inl (frames_todo (by rw [← hE.toPlain.names hE.system]; exact hb))
  member b m _ h := by simp [Env.init] at h

/-- The stack may change as long as no word and no key is lost, and the new words come from keys. -/
theorem Marks.restack {gs : List Frame} (hm : Marks E r g fs) (hdeep : ∀ f ∈ gs, -1 ≤ f.depth)
    (htodo : ∀ d typ p, Todo fs d typ p → Todo gs d typ p)
    (hwords : ∀ d typ p, Todo gs d typ p →
      Todo fs d typ p ∨ (0 < d ∧ ∃ k c, typ = some c ∧ Key fs k ∧ (c, p) ∈ E.cache k))
    (hkeys : ∀ k, Key gs k → Key fs k)
    (howed : ∀ k b, Key fs k → (.dep, b) ∈ E.cache k → Owed E gs b) : Marks E r g gs where
  packages := hm.packages
  optional := hm.optional
  needed := hm.needed
  offered := hm.offered
  noted := hm.noted
  words d typ p h := by
    rcases hwords d typ p h with h | ⟨hd, k, c, htyp, hk, hp⟩
    · exact hm.words d typ p h
    · exact .inr ⟨hd, k, c, htyp, hm.keys k hk, hp⟩
  keys k h := hm.keys k (hkeys k h)
  deep := hdeep
  owed u b v hu hb hv := by
    rcases hm.owed u b v hu hb hv with h | ⟨d, typ, ht, h⟩ | ⟨k, hk, hkb⟩
    · exact .inl h
    · exact .inr (.inl ⟨d, typ, ht, htodo _ _ _ h⟩)
    · exact .inr (howed k b hk hkb)
  asked b hb := (hm.asked b hb).imp_left (htodo _ _ _)
  member b m h1 h2 h3 h4 := (hm.member b m h1 h2 h3 h4).imp_left (htodo _ _ _)

/-- What a visit of `p` owes the invariant. `c` are the calls that it makes. -/
theorem marks_visited {d : Int} {typ : Option DepTyp} {df df' : List Name} {p : Name} {ws : List Word}
    {c : List Frame} (hm : Marks E r g (⟨d, typ, df, .args (.pkg p :: ws)⟩ :: fs))
    (hpackages : g'.packages = E.packages) (hoptional : g'.optional = "no".toList)
    (hy : ∀ v, g.deplist v = some .y → g'.deplist v = some .y)
    (hn : ∀ v, g.deplist v ≠ none → g'.deplist v ≠ none)
    (hadd : ∀ v, g'.deplist v = some .y → g.deplist v = some .y ∨ (Needed E r v ∧ v ∈ df'))
    (hoffered : ∀ v, g'.deplist v = some .o → E.packages v = some .X ∧ (E.desc v = true ∨ E.cvGroup v = []))
    (hnoted : ∀ q v, g'.deplist q = some .n → E.pick q = some v →
      v ≠ q ∧ (g'.deplist v = some .o ∨ g'.deplist v = some .y))
    (hsub : ∀ k ∈ df, k ∈ df') (hfresh : ∀ k ∈ df', k ∈ df ∨ Needed E r k)
    (hserved : typ ≠ some .opt → Settled E g' p)
    (hnew : ∀ f ∈ c, f.depth = d ∧ f.keys = []) (hwords : ∀ d' typ' q, Todo c d' typ' q → WordOk E r d' typ' q)
    (hmember : ∀ b m, g.deplist b = none → g'.deplist b ≠ none → Asked E r b → E.desc b = false → m ∈ E.cvGroup b →
      Todo c 0 none m) :
    Marks E r g' (c ++ ⟨d, typ, df', .args ws⟩ :: fs) where
  packages := hpackages
  optional := hoptional
  needed v h := (hadd v h).elim (hm.needed v) And.left
  offered := hoffered
  noted := hnoted
  words d' typ' q h := by
    rw [todo_append, todo_cons] at h
    rcases h with h | ⟨rfl, h⟩ | h
    · exact hwords _ _ _ h
    · exact hm.words _ _ _ (todo_cons.2 (.inl ⟨rfl, List.mem_cons_of_mem _ h⟩))
    · exact hm.words _ _ _ (todo_cons.2 (.inr h))
  keys k h := by
    rw [key_append, key_cons] at h
    rcases h with ⟨f, hf, hk⟩ | h | h
    · rw [(hnew f hf).2] at hk
      cases hk
    · exact (hfresh k h).elim (fun h => hm.keys k (key_cons.2 (.inl h))) id
    · exact hm.keys k (key_cons.2 (.inr h))
  deep f hf := by
    have htop := hm.deep _ List.mem_cons_self
    rcases List.mem_append.1 hf with hf | hf
    · rw [(hnew f hf).1]
      exact htop
    · rcases List.mem_cons.1 hf with rfl | hf
      · exact htop
      · exact hm.deep f (List.mem_cons_of_mem _ hf)
  owed u b v hu hb hv := by
    have hkey : ∀ k, (Key (⟨d, typ, df, .args (.pkg p :: ws)⟩ :: fs) k ∨ k ∈ df') →
        Key (c ++ ⟨d, typ, df', .args ws⟩ :: fs) k := by
      intro k hk
      rw [key_append, key_cons]
      rcases hk with hk | hk
      · exact .inr ((key_cons.1 hk).imp_left (hsub k))
      · exact .inr (.inl hk)
    rcases hadd u hu with hu | ⟨-, hu⟩
    · rcases hm.owed u b v hu hb hv with h | ⟨d', typ', ht, h⟩ | ⟨k, hk, hkb⟩
      · exact .inl (hy v h)
      · rcases todo_visited h with ⟨-, rfl, rfl⟩ | h
        · exact .inl ((hserved ht).2 v hv)
        · exact .inr (.inl ⟨d', typ', ht, h⟩)
      · exact .inr (.inr ⟨k, hkey k (.inl hk), hkb⟩)
    · exact .inr (.inr ⟨u, hkey u (.inr hu), hb⟩)
  asked b hb := by
    rcases hm.asked b hb with h | h
    · rcases todo_visited h with ⟨-, rfl, rfl⟩ | h
      · exact .inr (hserved (by simp))
      · exact .inl h
    · exact .inr (settled_mono hy hn h)
  member b m h1 h2 h3 h4 := by
    by_cases hb : g.deplist b = none
    · exact .inl (todo_append.2 (.inl (hmember b m hb h2 h1 h3 h4)))
    · rcases hm.member b m h1 hb h3 h4 with h | h
      · rcases todo_visited h with ⟨-, rfl, rfl⟩ | h
        · exact .inr (hserved (by simp))
        · exact .inl h
      · exact .inr (settled_mono hy hn h)

theorem beenHere_apply (g : Glob) (p u : Name) :
    (beenHere g p).deplist u = if u = p ∧ g.deplist p = none then some .n else g.deplist u := by
  rw [beenHere_deplist]
  by_cases hp : g.deplist p = none
  · by_cases hu : u = p
    · subst hu; simp [hp]
    · simp [hp, hu]
  · simp [hp]

/-- The marks that a visit leaves that finds no package. -/
theorem marks_pass {d : Int} {typ : Option DepTyp} {df : List Name} {p : Name} {ws : List Word} {c : List Frame}
    (hm : Marks E r g (⟨d, typ, df, .args (.pkg p :: ws)⟩ :: fs)) (hpick : E.pick p = none)
    (hnew : ∀ f ∈ c, f.depth = d ∧ f.keys = []) (hwords : ∀ d' typ' q, Todo c d' typ' q → WordOk E r d' typ' q)
    (hmember : ∀ m, g.deplist p = none → Asked E r p → E.desc p = false → m ∈ E.cvGroup p → Todo c 0 none m) :
    Marks E r (beenHere g p) (c ++ ⟨d, typ, df, .args ws⟩ :: fs) := by
  refine marks_visited hm (by simpa using hm.packages) (by simpa using hm.optional) ?_ ?_ ?_ ?_ ?_
    (fun _ h => h) (fun _ => .inl) ?_ hnew hwords ?_
  · intro v hv
    rw [beenHere_apply, if_neg]
    · exact hv
    · rintro ⟨rfl, h⟩; simp [h] at hv
  · intro v hv
    rw [beenHere_apply]
    split
    · simp
    · exact hv
  · intro v hv
    rw [beenHere_apply] at hv
    split at hv
    · cases hv
    · exact .inl hv
  · intro v hv
    rw [beenHere_apply] at hv
    split at hv
    · cases hv
    · exact hm.offered v hv
  · intro q v hq hv
    have hqp : q ≠ p := by rintro rfl; rw [hpick] at hv; cases hv
    rw [beenHere_apply, if_neg (fun h => hqp h.1)] at hq
    obtain ⟨hne, hmark⟩ := hm.noted q v hq hv
    refine ⟨hne, ?_⟩
    rw [beenHere_apply, if_neg]
    · exact hmark
    · rintro ⟨rfl, h⟩; simp [h] at hmark
  · intro _
    refine ⟨?_, fun v hv => ?_⟩
    · rw [beenHere_apply]
      split
      · simp
      · rename_i h; simpa using h
    · rw [hv.pick] at hpick
      cases hpick
  · intro b m hb hb' hasked hdesc hmb
    have hbp : b = p := by
      by_contra hne
      rw [beenHere_apply, if_neg (fun h => hne h.1)] at hb'
      exact hb' hb
    subst hbp
    exact hmember m hb hasked hdesc hmb

/-- The marks that a visit leaves that leads to the package `v`; `x` is the new mark of `v`. -/
theorem marks_pick {d : Int} {typ : Option DepTyp} {df df' : List Name} {p v : Name} {ws : List Word} {x : Mark}
    (hm : Marks E r g (⟨d, typ, df, .args (.pkg p :: ws)⟩ :: fs)) (hpick : E.pick p = some v)
    (hpackages : g'.packages = g.packages) (hoptional : g'.optional = g.optional)
    (hmarks : g'.deplist = upd (beenHere g p).deplist v (some x)) (hx : x ≠ .n)
    (hdown : x = .o → g.deplist v ≠ some .y ∧ (E.desc v = true ∨ E.cvGroup v = []) ∧ typ = some .opt)
    (hup : x = .y → E.desc v = true ∧ Needed E r v ∧ v ∈ df')
    (hsub : ∀ k ∈ df, k ∈ df') (hfresh : ∀ k ∈ df', k ∈ df ∨ Needed E r k) :
    Marks E r g' (⟨d, typ, df', .args ws⟩ :: fs) := by
  obtain ⟨hdescp, hexp, hvX, -⟩ := pick_eq_some.1 hpick
  have hat : ∀ u, g'.deplist u =
      if u = v then some x else if u = p ∧ g.deplist p = none then some .n else g.deplist u := by
    intro u
    rw [hmarks]
    by_cases huv : u = v
    · subst huv; simp
    · rw [upd_ne _ _ _ _ huv, if_neg huv, beenHere_apply]
  have hxy : x = .o ∨ x = .y := by cases x <;> simp_all
  have hkeep : ∀ u, u ≠ v → g.deplist u ≠ none → g'.deplist u = g.deplist u := by
    intro u huv hu
    rw [hat, if_neg huv, if_neg]
    rintro ⟨rfl, h⟩
    exact hu h
  have hback : ∀ u m, m ≠ .n → u ≠ v → g'.deplist u = some m → g.deplist u = some m := by
    intro u m hmn huv hu
    rw [hat, if_neg huv] at hu
    split at hu
    · cases hu; exact absurd rfl hmn
    · exact hu
  have hvmark : g'.deplist v = some x := by rw [hat, if_pos rfl]
  refine marks_visited (c := []) hm (hpackages.trans hm.packages) (hoptional.trans hm.optional) ?_ ?_ ?_ ?_ ?_
    hsub hfresh ?_ (by simp) (by simp) ?_
  · -- what is `y` stays `y`
    intro u hu
    by_cases huv : u = v
    · subst huv
      rcases hxy with rfl | rfl
      · exact absurd hu (hdown rfl).1
      · exact hvmark
    · rw [hkeep u huv (by simp [hu])]; exact hu
  · intro u hu
    by_cases huv : u = v
    · subst huv; simp [hvmark]
    · rw [hkeep u huv hu]; exact hu
  · intro u hu
    by_cases huv : u = v
    · subst huv
      rw [hvmark] at hu
      cases hu
      exact .inr ⟨(hup rfl).2.1, (hup rfl).2.2⟩
    · exact .inl (hback u .y (by simp) huv hu)
  · intro u hu
    by_cases huv : u = v
    · subst huv
      rw [hvmark] at hu
      cases hu
      exact ⟨hvX, (hdown rfl).2.1⟩
    · exact hm.offered u (hback u .o (by simp) huv hu)
  · -- a name marked `n` for good has an alternative
    intro q w hq hw
    have hqv : q ≠ v := by
      rintro rfl
      rw [hvmark] at hq
      cases hq
      exact hx rfl
    by_cases hqp : q = p ∧ g.deplist p = none
    · obtain ⟨rfl, -⟩ := hqp
      obtain rfl : v = w := Option.some.inj (hpick.symm.trans hw)
      exact ⟨hqv.symm, by rw [hvmark]; simpa using hxy⟩
    · rw [hat, if_neg hqv, if_neg hqp] at hq
      obtain ⟨hne, hmark⟩ := hm.noted q w hq hw
      refine ⟨hne, ?_⟩
      by_cases hwv : w = v
      · subst hwv; rw [hvmark]; simpa using hxy
      · rw [hkeep w hwv (by rcases hmark with h | h <;> simp [h])]; exact hmark
  · intro ht
    have hxy' : x = .y := hxy.resolve_left fun h => ht (hdown h).2.2
    refine ⟨?_, fun w hw => ?_⟩
    · by_cases hpv : p = v
      · subst hpv; simp [hvmark]
      · rw [hat, if_neg hpv]
        split
        · simp
        · rename_i h; simpa using h
    · obtain rfl : v = w := Option.some.inj (hpick.symm.trans hw.pick)
      rw [hvmark, hxy']
  · intro b m hb hb' _ hdesc hmb
    by_cases hbv : b = v
    · subst hbv
      rcases hxy with rfl | rfl
      · rcases (hdown rfl).2.1 with h | h
        · rw [hdesc] at h; cases h
        · rw [h] at hmb; cases hmb
      · rw [hdesc] at hup; exact absurd (hup rfl).1 (by simp)
    · have hbp : b = p := by
        by_contra hne
        rw [hat, if_neg hbv, if_neg (fun h => hne h.1)] at hb'
        exact hb' hb
      rw [hbp, hdescp] at hdesc
      cases hdesc

/-- A word to be visited is hard, and then what it stands for is needed, or an optional dependency. -/
theorem WordOk.needed {d : Int} {typ : Option DepTyp} {p v : Name} (h : WordOk E r d typ p) (ht : typ ≠ some .opt)
    (hv : StandsFor E p v) : Needed E r v := by
  rcases h with ⟨-, -, hp⟩ | ⟨-, t, c, rfl, htn, hc⟩
  · exact .asked hp hv
  · cases c with
    | dep => exact .dep htn hc hv
    | opt => exact absurd rfl ht

theorem WordOk.mem_allNames {d : Int} {typ : Option DepTyp} {p : Name} (h : WordOk E r d typ p) :
    p ∈ allNames E r := by
  rcases h with ⟨-, -, hp⟩ | ⟨-, t, c, -, -, hc⟩
  · cases hp with
    | named hp => exact mem_allNames_names hp
    | member _ _ hm => exact mem_allNames_group hm
  · exact mem_allNames_cache hc

/-- A straight visit keeps the invariant. -/
theorem marks_next {d : Int} {typ : Option DepTyp} {df df' : List Name} {p : Name} {ws : List Word} (hE : Indirect E r)
    (hm : Marks E r g (⟨d, typ, df, .args (.pkg p :: ws)⟩ :: fs)) (hslip : ¬ Slip E r g d typ p)
    (hv : Visits E d typ g df p (.next g' df')) : Marks E r g' (⟨d, typ, df', .args ws⟩ :: fs) := by
  have hword : WordOk E r d typ p := hm.words d typ p (todo_cons.2 (.inl ⟨rfl, List.mem_cons_self⟩))
  cases hv with
  | skip hskip =>
    refine marks_visited (c := []) hm hm.packages hm.optional (fun _ h => h) (fun _ h => h) (fun _ h => .inl h)
      hm.offered hm.noted (fun _ h => h) (fun _ => .inl) ?_ (by simp) (by simp) ?_
    · intro ht
      unfold skips at hskip
      cases hmark : g.deplist p with
      | none => simp [hmark] at hskip
      | some x =>
        refine ⟨by simp [hmark], fun v hv => ?_⟩
        cases x with
        | o => simp [hmark, ht] at hskip
        | y =>
          obtain ⟨hd, hx, hp⟩ := (hm.needed p hmark).listed
          obtain rfl : p = v := Option.some.inj ((pick_self hd hx hp).symm.trans hv.pick)
          exact hmark
        | n =>
          rcases (hm.noted p v hmark hv.pick).2 with h | h
          · exact absurd (.declinedBase hmark hv.pick ht h) hslip
          · exact h
    · intro b m hb hb'
      exact absurd hb hb'
  | pass hskip hpick hdepth =>
    refine marks_pass (c := []) hm hpick (by simp) (by simp) fun m hp hasked hdesc hmem => ?_
    exact absurd (.groupDep hp (hdepth hdesc) hdesc (List.ne_nil_of_mem hmem) hasked) hslip
  | @add v hskip hpick hhard =>
    -- no optional dependency comes from a request
    have ht : typ ≠ some .opt := by
      rintro rfl
      rcases hword with ⟨-, h, -⟩ | ⟨hd, -⟩
      · cases h
      · exact hhard ⟨hd, rfl⟩
    obtain ⟨hdescp, hexp, hvX, hvp⟩ := pick_eq_some.1 hpick
    have hreal : E.desc v = true ∧ E.excludes v = false := by
      rcases skips_eq_false hskip with hn | ⟨hmark, -⟩
      · by_contra hne
        exact hslip (.unchecked hn hpick hne fun h => absurd h ht)
      · rcases hvp with rfl | ⟨hO, -⟩
        · exact ⟨hdescp, hexp⟩
        · rw [(hm.offered p hmark).1] at hO
          cases hO
    have hneeded : Needed E r v := hword.needed ht ⟨hpick, hreal.1, hreal.2⟩
    have hdefers : (addPkg E d (beenHere g p) df v).2 = setKey df v := by
      simp [addPkg, Env.defers, hE.deps]
    rw [hdefers]
    refine marks_pick (x := .y) hm hpick (by simp [addPkg]) (by simp [addPkg]) rfl (by simp) (by simp) ?_ ?_ ?_
    · exact fun _ => ⟨hreal.1, hneeded, mem_setKey.2 (.inr rfl)⟩
    · exact fun k hk => mem_setKey.2 (.inl hk)
    · intro k hk
      rcases mem_setKey.1 hk with h | rfl
      · exact .inl h
      · exact .inr hneeded
  | @accept v g₁ hskip hpick _ _ hask hyes =>
    rw [askOptional_no (by simpa using hm.optional)] at hask
    subst hask
    simp only [beenHere_optional, hm.optional] at hyes
    exact absurd hyes (by decide)
  | @decline v g₁ hskip hpick hd htyp hask =>
    rw [askOptional_no (by simpa using hm.optional)] at hask
    subst hask
    have hn : g.deplist p = none := (skips_eq_false hskip).resolve_right fun h => h.2 htyp
    refine marks_pick (x := .o) hm hpick (by simp) (by simp) rfl (by simp) (fun _ => ⟨?_, ?_, htyp⟩) (by simp)
      (fun _ h => h) (fun _ => .inl)
    · exact fun hy => hslip (.demoted hn hpick htyp hy)
    · by_contra hne
      obtain ⟨h1, h2⟩ := not_or.1 hne
      exact hslip (.unchecked hn hpick (fun h => h1 h.1) fun _ => ⟨by simpa using h1, h2⟩)

theorem marks_fires {s s' : St} {a : Act} (hE : Indirect E r) (hm : Marks E r s.glob s.stack)
    (hstraight : Straight E r s a) (hf : Fires E s a s') :
    (s'.exited = false → Marks E r s'.glob s'.stack) ∧ (s'.exited = true → ∃ p, Asked E r p ∧ E.unknown p) := by
  cases hf with
  | @typ depth typ deferred t ws fs hx hs =>
    refine ⟨fun _ => ?_, fun h => absurd h (by simp [hx])⟩
    rw [hs] at hm
    exact hm.restack (by simpa using hm.deep) (by simp [todo_cons, pairs])
      (fun d' typ' q h => .inl (by simpa [todo_cons, pairs] using h)) (by simp [key_cons])
      (fun k b hk hb => .inr ⟨k, by simpa [key_cons] using hk, hb⟩)
  | @next depth typ deferred p ws fs g deferred' hx hs hv =>
    refine ⟨fun _ => ?_, fun h => absurd h (by simp [hx])⟩
    have hvis := visit_visits hE.toPlain hm.packages depth typ deferred p
    rw [hv] at hvis
    rw [hs] at hm
    exact marks_next hE hm (hstraight _ _ _ _ _ _ hs) hvis
  | @group depth typ deferred p ws fs g pkgs hx hs hv =>
    refine ⟨fun _ => ?_, fun h => absurd h (by simp [hx])⟩
    have hvis := visit_visits hE.toPlain hm.packages depth typ deferred p
    rw [hv] at hvis
    rw [hs] at hm
    have hword : WordOk E r depth typ p := hm.words depth typ p (todo_cons.2 (.inl ⟨rfl, List.mem_cons_self⟩))
    cases hvis with
    | group hskip hdesc h0 hne =>
      have hasked : Asked E r p := by
        rcases hword with ⟨-, -, h⟩ | ⟨h, -⟩
        · exact h
        · omega
      subst h0
      refine marks_pass (c := [.call 0 ((E.cvGroup p).map .pkg)]) hm (by simp [Env.pick, hdesc]) (by simp) ?_ ?_
      · intro d' typ' q hq
        simp only [todo_cons, todo_nil, or_false, depth_call, todo_call, pairs_pkgs, List.mem_map, Prod.mk.injEq] at hq
        obtain ⟨rfl, q, hq, rfl, rfl⟩ := hq
        exact .inl ⟨rfl, rfl, .member hasked hdesc hq⟩
      · intro m _ _ _ hmem
        exact todo_cons.2 (.inl ⟨rfl, by simpa [pairs_pkgs] using hmem⟩)
  | @exit depth typ deferred p ws fs g hx hs hv =>
    refine ⟨fun h => absurd h (by simp), fun _ => ?_⟩
    have hvis := visit_visits hE.toPlain hm.packages depth typ deferred p
    rw [hv] at hvis
    have hword : WordOk E r depth typ p :=
      hm.words depth typ p (by rw [hs]; exact todo_cons.2 (.inl ⟨rfl, List.mem_cons_self⟩))
    cases hvis with
    | exit _ h0 hunknown =>
      rcases hword with ⟨-, -, h⟩ | ⟨h, -⟩
      · exact ⟨p, h, hunknown⟩
      · omega
  | @walk depth typ deferred ks fs hx hs hks =>
    refine ⟨fun _ => ?_, fun h => absurd h (by simp [hx])⟩
    rw [hs] at hm
    have hkey : ∀ k, Key (⟨depth, typ, deferred, .calls ks⟩ :: fs) k ↔ Key (⟨depth, typ, deferred, .args []⟩ :: fs) k :=
      fun k => by simp [key_cons, hks.mem_iff]
    exact hm.restack (by simpa using hm.deep) (by simp [todo_cons, pairs])
      (fun d' typ' q h => .inl (by simpa [todo_cons, pairs] using h)) (fun k => (hkey k).1)
      (fun k b hk hb => .inr ⟨k, (hkey k).2 hk, hb⟩)
  | @dep depth typ deferred k ks fs hx hs =>
    refine ⟨fun _ => ?_, fun h => absurd h (by simp [hx])⟩
    rw [hs] at hm
    have hdeep := hm.deep _ List.mem_cons_self
    refine hm.restack ?_ ?_ ?_ ?_ ?_
    · intro f hf
      rcases List.mem_cons.1 hf with rfl | hf
      · simp only [depth_call] at *
        omega
      · rcases List.mem_cons.1 hf with rfl | hf
        · exact hdeep
        · exact hm.deep f (List.mem_cons_of_mem _ hf)
    · exact fun d' typ' q hq => todo_cons.2 (.inr (by simpa [todo_cons] using hq))
    · intro d' typ' q hq
      rw [todo_cons] at hq
      rcases hq with ⟨rfl, hq⟩ | hq
      · simp only [todo_call, pairs_depWords, List.mem_map, Prod.mk.injEq] at hq
        obtain ⟨⟨c, q'⟩, hc, rfl, rfl⟩ := hq
        simp only [depth_call] at *
        exact .inr ⟨by omega, k, c, rfl, key_cons.2 (.inl List.mem_cons_self), hc⟩
      · exact .inl (by simpa [todo_cons] using hq)
    · intro k' hk'
      simp only [key_cons, keys_call, List.not_mem_nil, false_or, keys_calls] at hk' ⊢
      exact hk'.imp_left (List.mem_cons_of_mem _)
    · intro k' b hk' hb
      by_cases hkk : k' = k
      · subst hkk
        refine .inl ⟨depth + 2, some .dep, by simp, todo_cons.2 (.inl ⟨rfl, ?_⟩)⟩
        simp only [todo_call, pairs_depWords, List.mem_map, Prod.mk.injEq]
        exact ⟨_, hb, rfl, rfl⟩
      · refine .inr ⟨k', ?_, hb⟩
        simp only [key_cons, keys_call, List.not_mem_nil, false_or, keys_calls, List.mem_cons, hkk] at hk' ⊢
        exact hk'
  | @ret depth typ deferred fs hx hs =>
    refine ⟨fun _ => ?_, fun h => absurd h (by simp [hx])⟩
    rw [hs] at hm
    exact hm.restack (fun f hf => hm.deep f (List.mem_cons_of_mem _ hf)) (by simp [todo_cons])
      (fun d' typ' q h => .inl (todo_cons.2 (.inr h))) (fun k h => key_cons.2 (.inr h))
      (fun k b hk hb => .inr ⟨k, by simpa [key_cons] using hk, hb⟩)

/-- With nothing left to visit, what is asked for is settled. -/
theorem settled_of_asked (hm : Marks E r g []) {p : Name} (h : Asked E r p) : Settled E g p := by
  induction h with
  | named hp => exact (hm.asked _ hp).resolve_left (todo_nil _ _ _)
  | member hp hd hmem ih => exact (hm.member _ _ hp ih.1 hd hmem).resolve_left (todo_nil _ _ _)

theorem scheduled_iff_needed (hm : Marks E r g []) (v : Name) : g.deplist v = some .y ↔ Needed E r v := by
  constructor
  · exact hm.needed v
  · intro h
    induction h with
    | asked hb hv => exact (settled_of_asked hm hb).2 _ hv
    | dep _ hb hv ih =>
      rcases hm.owed _ _ _ ih hb hv with h | ⟨_, _, _, h⟩ | ⟨_, h, _⟩
      · exact h
      · exact absurd h (todo_nil _ _ _)
      · exact absurd h (key_nil _)

end

/-! ## The result -/

/-- What the closure owes a run. -/
structure Exact (E : Env) (r : Request) (acts : List Act) : Prop where
  /-- No run is longer than this. -/
  bounded : ∀ s, Lts.run (step E) (E.init r) acts = some s → acts.length ≤ closureMeasure E r (E.init r)
  /-- No run stops before the end of the last call, or at a request that names nothing. -/
  onward : ∀ s, Lts.run (step E) (E.init r) acts = some s →
    (∃ a s', step E s a = some s') ∨ s.finished ∨ (s.exited = true ∧ ∃ p, Asked E r p ∧ E.unknown p)
  scheduled : ∀ s, Lts.run (step E) (E.init r) acts = some s → s.finished →
    ∀ v, s.glob.deplist v = some .y ↔ Needed E r v

/-- **The indirect closure** schedules what is needed, in every run without a slip. -/
theorem closure_exact (E : Env) (r : Request) (hE : Indirect E r) (acts : List Act)
    (hstraight : Lts.Along (step E) (Straight E r) (E.init r) acts) : Exact E r acts := by
  let I : St → Prop := fun s =>
    (s.exited = false → Marks E r s.glob s.stack) ∧ (s.exited = true → ∃ p, Asked E r p ∧ E.unknown p)
  have h0 : I (E.init r) := ⟨fun _ => marks_init hE, fun h => absurd h (by simp [Env.init])⟩
  have hgo : ∀ {s a s'}, I s → step E s a = some s' → Marks E r s.glob s.stack := by
    intro s a s' hI hs
    refine hI.1 ?_
    cases step_fires hs <;> assumption
  have hstep : ∀ s a s', I s → Straight E r s a → step E s a = some s' → I s' :=
    fun s a s' hI hC hs => marks_fires hE (hgo hI hs) hC (step_fires hs)
  have hinv : ∀ s, Lts.run (step E) (E.init r) acts = some s → I s :=
    fun s hs => Lts.run_inv_along hstep h0 hstraight hs
  refine ⟨fun s hs => ?_, fun s hs => ?_, fun s hs hfin v => ?_⟩
  · have := Lts.run_length (m := closureMeasure E r) (fun s a s' hI hC hs => ⟨hstep s a s' hI hC hs, by
      have hm := hgo hI hs
      exact closureMeasure_fires hE.toPlain hm.packages (fun d typ p h => (hm.words d typ p h).mem_allNames) hm.offered
        (step_fires hs)⟩) h0 hstraight hs
    omega
  · by_cases hx : s.exited = false
    · by_cases hst : s.stack = []
      · exact .inr (.inl ⟨hst, hx⟩)
      · exact .inl (exists_step hx hst)
    · have hx : s.exited = true := by simpa using hx
      exact .inr (.inr ⟨hx, (hinv s hs).2 hx⟩)
  · have hm := (hinv s hs).1 hfin.2
    rw [hfin.1] at hm
    exact scheduled_iff_needed hm v

/-- Only alternatives and groups make a visit go wrong. -/
theorem straight_of_no_alternatives {E : Env} (halt : ∀ p, E.alternatives p = none) (hgroup : E.groups = [])
    (r : Request) (s : St) (a : Act) : Straight E r s a := by
  have hself : ∀ p v, E.pick p = some v → v = p := by
    intro p v h
    rcases (pick_eq_some.1 h).2.2.2 with h | ⟨-, h⟩
    · exact h
    · rw [halt] at h; cases h
  intro depth typ df p ws fs _ hslip
  cases hslip with
  | demoted hn hpick _ hy => rw [hself p _ hpick, hn] at hy; cases hy
  | declinedBase hn hpick _ ho => rw [hself p _ hpick, hn] at ho; cases ho
  | unchecked _ hpick hne _ =>
    obtain ⟨h1, h2, -⟩ := pick_eq_some.1 hpick
    rw [hself p _ hpick] at hne
    exact hne ⟨h1, h2⟩
  | groupDep _ _ _ hne _ => simp [Env.cvGroup, hgroup] at hne

theorem indirect_treeEnv (caches : List (Name × List (DepTyp × Name))) (alts : List (Name × Name))
    (hwords : ∀ c ∈ caches, ∀ d ∈ c.2, IsWord d.2) (args : List Name) :
    Indirect (treeEnv .indirect caches alts hwords) ⟨args, [], none⟩ where
  notInstalled _ := rfl
  notForced := rfl
  sameList := rfl
  deps := rfl
  no := rfl
  system _ h := by cases h

/-- The next word stands for a package that exists, has not got its mark as another kind of dependency and is not
excluded. -/
def Goes (E : Env) (s : St) (_ : Act) : Prop :=
  match s.stack with
  | ⟨_, typ, _, .args (.pkg p :: _)⟩ :: _ => ∀ v ∈ E.pick p,
      (s.glob.deplist p = none →
        (typ = some .opt → s.glob.deplist v ≠ some .y) ∧ E.desc v = true ∧ E.excludes v = false) ∧
      (s.glob.deplist p = some .n → typ = some .opt ∨ s.glob.deplist v ≠ some .o)
  | _ => True

instance (E : Env) (s : St) (a : Act) : Decidable (Goes E s a) := by
  unfold Goes
  split <;> infer_instance

theorem straight_of_goes {E : Env} (hgroup : E.groups = []) (r : Request) (s : St) (a : Act) (h : Goes E s a) :
    Straight E r s a := by
  intro depth typ df p ws fs hstack hslip
  simp only [Goes, hstack] at h
  cases hslip with
  | demoted hn hpick ht hy => exact ((h _ hpick).1 hn).1 ht hy
  | declinedBase hn hpick ht ho => exact ((h _ hpick).2 hn).elim ht fun hne => hne ho
  | unchecked hn hpick hne _ => exact hne ((h _ hpick).1 hn).2
  | groupDep _ _ _ hne _ => simp [Env.cvGroup, hgroup] at hne

/-- `eudev` is selected for `udev`; `gvfs` can use it and `libinput` needs it. -/
def udevEnv : Env :=
  treeEnv .indirect
    [("gvfs".toList, [(.opt, "udev".toList)]), ("libinput".toList, [(.dep, "udev".toList)]), ("udev".toList, []),
      ("eudev".toList, [])]
    [("udev".toList, "eudev".toList)] (by decide)

def udevRequest : Request := ⟨["gvfs".toList, "libinput".toList], [], none⟩

/-- `libinput` comes first, and `eudev` is to be built when `gvfs` asks for it. -/
def libinputActs : List Act :=
  [.tick, .tick, .walk ["libinput".toList, "gvfs".toList], .tick, .tick, .tick, .walk ["eudev".toList], .tick, .walk [],
    .tick, .tick, .tick, .tick, .tick, .walk [], .tick, .tick]

theorem closure_exact_libinput :
    (∃ s, Lts.run (step udevEnv) (udevEnv.init udevRequest) libinputActs = some s ∧ s.finished) ∧
      Exact udevEnv udevRequest libinputActs := by
  have hrun : (Lts.run (step udevEnv) (udevEnv.init udevRequest) libinputActs).map (fun s => (s.stack, s.exited)) =
      some ([], false) := by decide +kernel
  obtain ⟨s, hs, hv⟩ := Option.map_eq_some_iff.1 hrun
  have hgoes : Lts.Along (step udevEnv) (Goes udevEnv) (udevEnv.init udevRequest) libinputActs := by decide +kernel
  exact ⟨⟨s, hs, Prod.mk.inj hv⟩, closure_exact udevEnv udevRequest (indirect_treeEnv _ _ _ _) libinputActs
    (Lts.along_imp (straight_of_goes rfl udevRequest) hgoes)⟩

/-! ## A hard dependency on a name whose alternative was declined -/

def udevActs : List Act :=
  [.tick, .tick, .walk ["gvfs".toList, "libinput".toList], .tick, .tick, .tick, .walk [], .tick, .tick, .tick, .tick,
    .walk [], .tick, .tick]

theorem needed_eudev : Needed udevEnv udevRequest "eudev".toList := by
  have hlib : Needed udevEnv udevRequest "libinput".toList :=
    .asked (b := "libinput".toList) (.named (by decide)) ⟨by decide, by decide, by decide⟩
  exact .dep (b := "udev".toList) hlib (by decide) ⟨by decide, by decide, by decide⟩

/-- The run ends with `eudev` declined. -/
theorem not_exact_udev :
    Indirect udevEnv udevRequest ∧
      (∃ s, Lts.run (step udevEnv) (udevEnv.init udevRequest) udevActs = some s ∧ s.finished ∧
        s.glob.deplist "eudev".toList = some .o) ∧
      Needed udevEnv udevRequest "eudev".toList ∧ ¬ Exact udevEnv udevRequest udevActs := by
  have hrun : (Lts.run (step udevEnv) (udevEnv.init udevRequest) udevActs).map
      (fun s => (s.stack, s.exited, s.glob.deplist "eudev".toList)) = some ([], false, some .o) := by decide
  obtain ⟨s, hs, hv⟩ := Option.map_eq_some_iff.1 hrun
  obtain ⟨h1, h2⟩ := Prod.mk.inj hv
  obtain ⟨h2, h3⟩ := Prod.mk.inj h2
  refine ⟨indirect_treeEnv _ _ _ _, ⟨s, hs, ⟨h1, h2⟩, h3⟩, needed_eudev, fun h => ?_⟩
  have := (h.scheduled s hs ⟨h1, h2⟩ _).2 needed_eudev
  rw [h3] at this
  cases this

end T2Sde.Emerge
