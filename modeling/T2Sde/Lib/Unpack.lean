import T2Sde.Lib.Tree
import Mathlib.Data.List.Infix
/-!
# Unpacking an archive into a tree

`tar -x -k` puts the members at their paths, one after the other. Directories that are missing on the way are made,
links on the way are followed, and what is there stays.

* `sub_unpack` — nothing goes.
* `entry_unpack` — what is there afterwards, if the members fit into the tree.
-/
namespace Files.Tree
variable {ν α : Type} [DecidableEq ν] [DecidableEq α]

/-- An entry at a path where nothing is, in a directory. -/
def add (t : Tree ν α) (p : List ν) (e : Entry ν α) : Tree ν α :=
  if h : p ≠ [] ∧ t.entry p = none ∧ t.entry p.dropLast = some .dir then
    { entries := t.entries ++ [(p, e)]
      named := fun x hx => by
        rcases List.mem_append.1 hx with hx | hx
        · exact t.named x hx
        · rw [List.mem_singleton.1 hx]
          exact h.1
      nodup := by
        rw [List.map_append, List.map_singleton]
        refine List.nodup_append.2 ⟨t.nodup, List.nodup_singleton p, fun q hq q' hq' heq => ?_⟩
        obtain ⟨x, hx, rfl⟩ := List.mem_map.1 hq
        obtain rfl : x.1 = p := heq.trans (List.mem_singleton.1 hq')
        exact (entry_eq_none_iff h.1).1 h.2.1 x.2 hx
      closed := fun x hx => by
        rcases List.mem_append.1 hx with hx | hx
        · exact (t.closed x hx).imp_right (List.mem_append_left _)
        · rw [List.mem_singleton.1 hx]
          by_cases hd : p.dropLast = []
          · exact .inl hd
          · exact .inr (List.mem_append_left _ ((entry_eq_some hd).1 h.2.2)) }
  else t

/-- At the place that a path names. -/
def addAt (t : Tree ν α) (p : List ν) (e : Entry ν α) : Tree ν α :=
  match t.place p with
  | none => t
  | some q => t.add q e

/-- `mkdir -p p` -/
def mkdirs (t : Tree ν α) (p : List ν) : Tree ν α := p.inits.foldl (fun t d => t.addAt d .dir) t

def unpackOne (t : Tree ν α) (m : List ν × Entry ν α) : Tree ν α := (t.mkdirs m.1.dropLast).addAt m.1 m.2

def unpack (t : Tree ν α) (ms : List (List ν × Entry ν α)) : Tree ν α := ms.foldl unpackOne t

variable {t t' : Tree ν α} {p q : List ν} {e : Entry ν α}

/-! ## Nothing goes -/

theorem entry_add (hp : p ≠ []) (h : t.entry p = none) (hd : t.entry p.dropLast = some .dir) (q : List ν) :
    (t.add p e).entry q = if q = p then some e else t.entry q := by
  have hentries : (t.add p e).entries = t.entries ++ [(p, e)] := by rw [add, dif_pos ⟨hp, h, hd⟩]
  by_cases hq : q = []
  · rw [if_neg (hq ▸ Ne.symm hp), hq, entry_nil, entry_nil]
  · apply Option.ext
    intro e'
    rw [entry_eq_some hq, hentries, List.mem_append, List.mem_singleton, Prod.mk.injEq, ← entry_eq_some hq]
    split
    next heq =>
      rw [heq, h, Option.some.injEq]
      simp [eq_comm]
    next hne => simp [hne]

theorem add_cases (t : Tree ν α) (p : List ν) (e : Entry ν α) :
    t.add p e = t ∨ t.entry p = none ∧ ∀ q, (t.add p e).entry q = if q = p then some e else t.entry q := by
  by_cases h : p ≠ [] ∧ t.entry p = none ∧ t.entry p.dropLast = some .dir
  · exact .inr ⟨h.2.1, entry_add h.1 h.2.1 h.2.2⟩
  · exact .inl (dif_neg h)

theorem sub_add (t : Tree ν α) (p : List ν) (e : Entry ν α) : t.Sub (t.add p e) := by
  rcases t.add_cases p e with hsame | ⟨hnone, hentry⟩
  · rw [hsame]
    exact .refl t
  · intro q e' he'
    rw [hentry, if_neg, he']
    rintro rfl
    rw [hnone] at he'
    cases he'

theorem sub_addAt (t : Tree ν α) (p : List ν) (e : Entry ν α) : t.Sub (t.addAt p e) := by
  rw [addAt]
  split
  · exact .refl t
  · exact t.sub_add _ e

theorem sub_foldl {β : Type} {f : Tree ν α → β → Tree ν α} (hf : ∀ (t : Tree ν α) b, t.Sub (f t b)) (bs : List β)
    (t : Tree ν α) : t.Sub (bs.foldl f t) := by
  induction bs generalizing t with
  | nil => exact .refl t
  | cons b bs ih => exact (hf t b).trans (ih (f t b))

theorem sub_mkdirs (t : Tree ν α) (p : List ν) : t.Sub (t.mkdirs p) :=
  sub_foldl (fun t d => t.sub_addAt d .dir) p.inits t

theorem sub_unpackOne (t : Tree ν α) (m : List ν × Entry ν α) : t.Sub (t.unpackOne m) :=
  (t.sub_mkdirs _).trans (sub_addAt _ _ _)

/-- **Nothing goes**, whatever the members are. -/
theorem sub_unpack (t : Tree ν α) (ms : List (List ν × Entry ν α)) : t.Sub (t.unpack ms) :=
  sub_foldl sub_unpackOne ms t

/-! ## Paths without links -/

theorem entry_addAt (h : t.Direct p) (hp : p ≠ []) (hd : t.entry p.dropLast = some .dir) (q : List ν) :
    (t.addAt p e).entry q = if q = p ∧ t.entry p = none then some e else t.entry q := by
  obtain ⟨d, n, rfl⟩ := exists_last hp
  rw [List.dropLast_concat] at hd
  have hplace : t.addAt (d ++ [n]) e = t.add (d ++ [n]) e := by rw [addAt, place_direct h, if_pos hd]
  rw [hplace]
  cases hentry : t.entry (d ++ [n]) with
  | none =>
    rw [entry_add hp hentry (by rwa [List.dropLast_concat])]
    simp
  | some e' =>
    have hsame : t.add (d ++ [n]) e = t := dif_neg fun hadd => by simp [hentry] at hadd
    rw [hsame]
    simp

theorem mkdirs_concat (t : Tree ν α) (d : List ν) (n : ν) :
    t.mkdirs (d ++ [n]) = (t.mkdirs d).addAt (d ++ [n]) .dir := by
  have hinits : (d ++ [n]).inits = d.inits ++ [d ++ [n]] := by simp [List.inits_append]
  rw [mkdirs, hinits, List.foldl_append]
  rfl

/-- No link is on the way to what is in a directory. -/
theorem direct_of_dir (h : t.entry p = some .dir) : t.Direct p := by
  rintro q r rfl hr absolute steps hlink
  rw [entry_front hr h] at hlink
  cases hlink

theorem mkdirs_dir (h : t.entry p = some .dir) : t.mkdirs p = t := by
  induction p using List.reverseRecOn with
  | nil => rfl
  | append_singleton d n ih =>
    have hd := entry_dir h
    have hsame : t.add (d ++ [n]) .dir = t := dif_neg fun hadd => by simp [h] at hadd
    rw [mkdirs_concat, ih hd, addAt, place_direct (direct_of_dir h), if_pos hd]
    exact hsame

/-! ## Members that fit -/

/-- Each path is once among the members, and free, if it is not a directory on both sides; and all directories on the
way are there or among the members. -/
structure Fits (t : Tree ν α) (ms : List (List ν × Entry ν α)) : Prop where
  named : ∀ m ∈ ms, m.1 ≠ []
  single : (ms.map Prod.fst).Nodup
  free : ∀ m ∈ ms, t.entry m.1 = none ∨ m.2 = .dir ∧ t.entry m.1 = some .dir
  ways : ∀ m ∈ ms, ∀ d r, m.1 = d ++ r → r ≠ [] → t.entry d = some .dir ∨ (d, .dir) ∈ ms

/-- What is there is from the tree or from the members. -/
structure Within (t : Tree ν α) (ms : List (List ν × Entry ν α)) (t' : Tree ν α) : Prop where
  sub : t.Sub t'
  source : ∀ q e, t'.entry q = some e → t.entry q = some e ∨ (q, e) ∈ ms

variable {ms : List (List ν × Entry ν α)}

theorem Within.agree (hw : Within t ms t') (hfits : Fits t ms) {m : List ν × Entry ν α} (hm : m ∈ ms)
    (he : t'.entry m.1 = some e) : e = m.2 := by
  rcases hw.source _ e he with h | h
  · rcases hfits.free m hm with hnone | ⟨hdir, hentry⟩
    · rw [hnone] at h
      cases h
    · rw [hentry] at h
      rw [hdir, Option.some.inj h]
  · exact congrArg Prod.snd (List.inj_on_of_nodup_map hfits.single h hm rfl)

theorem Within.way (hw : Within t ms t') (hfits : Fits t ms) {m : List ν × Entry ν α} (hm : m ∈ ms) {d r : List ν}
    (hsplit : m.1 = d ++ r) (hr : r ≠ []) (he : t'.entry d = some e) : e = .dir := by
  rcases hfits.ways m hm d r hsplit hr with h | h
  · exact Option.some.inj (he.symm.trans (hw.sub d _ h))
  · exact hw.agree hfits h he

theorem Within.direct (hw : Within t ms t') (hfits : Fits t ms) {m : List ν × Entry ν α} (hm : m ∈ ms) {d r : List ν}
    (hsplit : m.1 = d ++ r) : t'.Direct d := by
  rintro q r' rfl hr' absolute steps hlink
  have hdir := hw.way hfits hm (d := q) (r := r' ++ r) (by rw [hsplit, List.append_assoc]) (by simp [hr']) hlink
  cases hdir

/-- An entry of the members is added where its directory is. -/
theorem Within.addAt (hw : Within t ms t') (hfits : Fits t ms) {m : List ν × Entry ν α} (hm : m ∈ ms) {d r : List ν}
    (hsplit : m.1 = d ++ r) (hne : d ≠ []) (hd : t'.entry d.dropLast = some .dir)
    (he : t.entry d = some e ∨ (d, e) ∈ ms) (hagree : ∀ e', t'.entry d = some e' → e' = e) :
    Within t ms (t'.addAt d e) ∧ (t'.addAt d e).entry d = some e := by
  have hentry := @entry_addAt ν α _ _ t' d e (hw.direct hfits hm hsplit) hne hd
  refine ⟨⟨hw.sub.trans (t'.sub_addAt d e), fun q e' he' => ?_⟩, ?_⟩
  · rw [hentry] at he'
    split at he'
    next hq =>
      rw [hq.1, ← Option.some.inj he']
      exact he
    · exact hw.source q e' he'
  · rw [hentry]
    cases hold : t'.entry d with
    | none => simp
    | some e' => simp [hagree e' hold]

/-- The directories on the way to a member. -/
theorem Within.mkdirs (hw : Within t ms t') (hfits : Fits t ms) {m : List ν × Entry ν α} (hm : m ∈ ms) {d r : List ν}
    (hsplit : m.1 = d ++ r) (hr : r ≠ []) : Within t ms (t'.mkdirs d) ∧ (t'.mkdirs d).entry d = some .dir := by
  induction d using List.reverseRecOn generalizing r with
  | nil => exact ⟨hw, rfl⟩
  | append_singleton d n ih =>
    obtain ⟨hw', hdir⟩ := ih (r := n :: r) (by simp [hsplit]) (List.cons_ne_nil n r)
    rw [mkdirs_concat]
    refine hw'.addAt hfits hm hsplit (by simp) (by rwa [List.dropLast_concat]) (hfits.ways m hm _ r hsplit hr) ?_
    exact fun e' he' => hw'.way hfits hm hsplit hr he'

theorem Within.unpackOne (hw : Within t ms t') (hfits : Fits t ms) {m : List ν × Entry ν α} (hm : m ∈ ms) :
    Within t ms (t'.unpackOne m) ∧ (t'.unpackOne m).entry m.1 = some m.2 := by
  obtain ⟨d, n, hd⟩ := exists_last (hfits.named m hm)
  have hdrop : m.1.dropLast = d := by rw [hd, List.dropLast_concat]
  obtain ⟨hw', hdir⟩ := hw.mkdirs hfits hm hd (List.cons_ne_nil n [])
  rw [Tree.unpackOne, hdrop]
  refine hw'.addAt hfits hm (List.append_nil _).symm (hfits.named m hm) (by rwa [hdrop]) (.inr hm) ?_
  exact fun e' he' => hw'.agree hfits hm he'

theorem Within.unpack (hw : Within t ms t') (hfits : Fits t ms) {ms' : List (List ν × Entry ν α)}
    (hsub : ∀ m ∈ ms', m ∈ ms) :
    Within t ms (t'.unpack ms') ∧ ∀ m ∈ ms', (t'.unpack ms').entry m.1 = some m.2 := by
  induction ms' generalizing t' with
  | nil => exact ⟨hw, by simp⟩
  | cons m ms' ih =>
    obtain ⟨hm, hsub⟩ := List.forall_mem_cons.1 hsub
    obtain ⟨hw', hentry⟩ := hw.unpackOne hfits hm
    obtain ⟨hw'', hentries⟩ := ih hw' hsub
    exact ⟨hw'', List.forall_mem_cons.2 ⟨sub_unpack _ ms' _ _ hentry, hentries⟩⟩

/-- **What is there afterwards**: the members, and what was there. -/
theorem entry_unpack (hfits : Fits t ms) :
    (∀ m ∈ ms, (t.unpack ms).entry m.1 = some m.2) ∧
      ∀ q, (∀ m ∈ ms, m.1 ≠ q) → (t.unpack ms).entry q = t.entry q := by
  have hstart : Within t ms t := ⟨.refl t, fun _ _ => .inl⟩
  obtain ⟨hw, hentries⟩ := hstart.unpack hfits fun _ hm => hm
  refine ⟨hentries, fun q hq => ?_⟩
  cases he : t.entry q with
  | some e => exact hw.sub q e he
  | none =>
    by_contra hsome
    obtain ⟨e, he'⟩ := Option.ne_none_iff_exists'.1 hsome
    rcases hw.source q e he' with h | h
    · rw [he] at h
      cases h
    · exact hq _ h rfl

end Files.Tree
