import Mathlib.Data.List.Induction
import Mathlib.Data.List.Nodup
import Mathlib.Tactic.Common
/-!
# File trees with symbolic links

A tree is a list of entries, each at a path from the root; an entry is in a directory. A name on the way to a file may
be a symbolic link, which is followed; the last one is not followed by `rm` and `rmdir`, but by the tests for files and
directories.

* `place_direct` — a path on which no link stands names the entry at itself.
* `unlink_cases`, `rmdir_cases` — what may be removed.
* `foldl_removed` — what a sequence of removals may remove.
* `walk_append`, `resolve_of_place`, `place_of_resolve` — the entry of a path and where it leads.
-/
namespace Files

/-- `steps` of a link are names, or none for `..`. -/
inductive Entry (ν α : Type)
  | file (content : α)
  | dir
  | link (absolute : Bool) (steps : List (Option ν))
  | other
  deriving DecidableEq

variable {ν α : Type} [DecidableEq ν] [DecidableEq α]

structure Tree (ν α : Type) [DecidableEq ν] [DecidableEq α] where
  entries : List (List ν × Entry ν α)
  named : ∀ x ∈ entries, x.1 ≠ []
  nodup : (entries.map Prod.fst).Nodup
  closed : ∀ x ∈ entries, x.1.dropLast = [] ∨ (x.1.dropLast, .dir) ∈ entries

namespace Tree

/-- What is at a path, from the root and without links. -/
def entry (t : Tree ν α) (p : List ν) : Option (Entry ν α) :=
  if p = [] then some .dir else (t.entries.find? fun x => x.1 = p).map Prod.snd

/-- Nothing is in the directory. -/
def Childless (t : Tree ν α) (p : List ν) : Prop := ∀ x ∈ t.entries, x.1.dropLast ≠ p

instance (t : Tree ν α) (p : List ν) : Decidable (t.Childless p) := inferInstanceAs (Decidable (∀ x ∈ _, _))

/-- The entry goes, unless it is a directory with entries. -/
def remove (t : Tree ν α) (p : List ν) : Tree ν α :=
  if h : t.Childless p then
    { entries := t.entries.filter fun x => x.1 ≠ p
      named := fun x hx => t.named x (List.mem_filter.1 hx).1
      nodup := t.nodup.sublist (List.filter_sublist.map _)
      closed := fun x hx => by
        have hx := (List.mem_filter.1 hx).1
        refine (t.closed x hx).imp_right fun hmem => List.mem_filter.2 ⟨hmem, ?_⟩
        exact decide_eq_true (h x hx) }
  else t

/-! ## Links -/

/-- A link that is followed counts against a limit. -/
def maxLinks : Nat := 40

/-- From a directory on; `follow` is what happens at a link. -/
def walkWith (t : Tree ν α) (follow : List ν → List (Option ν) → Option (List ν)) :
    List ν → List (Option ν) → Option (List ν)
  | cur, [] => some cur
  | cur, none :: steps => walkWith t follow cur.dropLast steps
  | cur, some n :: steps =>
    match t.entry (cur ++ [n]) with
    | none => none
    | some .dir => walkWith t follow (cur ++ [n]) steps
    | some (.link absolute target) => follow (if absolute then [] else cur) (target ++ steps)
    | some _ => if steps = [] then some (cur ++ [n]) else none

def walk (t : Tree ν α) : Nat → List ν → List (Option ν) → Option (List ν)
  | 0 => walkWith t fun _ _ => none
  | n + 1 => walkWith t (walk t n)

/-- Where a path leads. -/
def resolve (t : Tree ν α) (p : List ν) : Option (List ν) := walk t maxLinks [] (p.map some)

/-- The entry that a path names: the last name is not followed. -/
def place (t : Tree ν α) (p : List ν) : Option (List ν) :=
  match p.getLast? with
  | none => none
  | some n => (t.resolve p.dropLast).bind fun d => if t.entry d = some .dir then some (d ++ [n]) else none

/-! ## Tests and commands -/

/-- `[ -L p ]` -/
def isLink (t : Tree ν α) (p : List ν) : Bool :=
  match (t.place p).bind t.entry with
  | some (.link _ _) => true
  | _ => false

/-- `[ -d p ]` -/
def isDir (t : Tree ν α) (p : List ν) : Bool := (t.resolve p).bind t.entry = some .dir

/-- The content of a regular file. -/
def read (t : Tree ν α) (p : List ν) : Option α :=
  match (t.resolve p).bind t.entry with
  | some (.file content) => some content
  | _ => none

/-- `[ -f p ]` -/
def isFile (t : Tree ν α) (p : List ν) : Bool := (t.read p).isSome

/-- `rm -f p` -/
def unlink (t : Tree ν α) (p : List ν) : Tree ν α :=
  match t.place p with
  | none => t
  | some q => if t.entry q = some .dir then t else t.remove q

/-- `rmdir p` -/
def rmdir (t : Tree ν α) (p : List ν) : Tree ν α :=
  match t.place p with
  | none => t
  | some q => if t.entry q = some .dir then t.remove q else t

/-! ## Entries -/

variable {t t' : Tree ν α} {p q : List ν}

theorem entry_eq_some {e : Entry ν α} (hp : p ≠ []) : t.entry p = some e ↔ (p, e) ∈ t.entries := by
  rw [entry, if_neg hp]
  constructor
  · intro h
    obtain ⟨⟨p', e'⟩, hfind, rfl⟩ := Option.map_eq_some_iff.1 h
    obtain rfl : p' = p := by simpa using List.find?_some hfind
    exact List.mem_of_find?_eq_some hfind
  · intro h
    cases hfind : t.entries.find? fun x => x.1 = p with
    | none =>
      have := List.find?_eq_none.1 hfind _ h
      simp at this
    | some x =>
      have hx := List.mem_of_find?_eq_some hfind
      have hxp : x.1 = p := by simpa using List.find?_some hfind
      rw [Option.map_some, Option.some.injEq]
      exact congrArg Prod.snd (List.inj_on_of_nodup_map t.nodup hx h hxp)

theorem entry_nil (t : Tree ν α) : t.entry [] = some .dir := rfl

theorem exists_last {β : Type} {l : List β} (hl : l ≠ []) : ∃ d n, l = d ++ [n] :=
  ⟨l.dropLast, l.getLast hl, (List.dropLast_concat_getLast hl).symm⟩

/-- What has an entry in it is a directory. -/
theorem entry_dir {n : ν} {e : Entry ν α} (h : t.entry (p ++ [n]) = some e) : t.entry p = some .dir := by
  have hmem := (entry_eq_some (by simp)).1 h
  by_cases hp : p = []
  · rw [hp, entry_nil]
  · have hclosed := t.closed _ hmem
    simp only [List.dropLast_concat] at hclosed
    exact (entry_eq_some hp).2 (hclosed.resolve_left hp)

theorem entry_front {e : Entry ν α} (hq : q ≠ []) (h : t.entry (p ++ q) = some e) : t.entry p = some .dir := by
  induction q using List.reverseRecOn generalizing e with
  | nil => exact absurd rfl hq
  | append_singleton q n ih =>
    rw [← List.append_assoc] at h
    have hdir := entry_dir h
    by_cases hq : q = []
    · simpa [hq] using hdir
    · exact ih hq hdir

theorem entry_remove_of_not (h : ¬ t.Childless p) : t.remove p = t := dif_neg h

theorem entry_remove (h : t.Childless p) (hp : p ≠ []) (q : List ν) :
    (t.remove p).entry q = if q = p then none else t.entry q := by
  have hentries : (t.remove p).entries = t.entries.filter fun x => x.1 ≠ p := by rw [remove, dif_pos h]
  by_cases hq : q = []
  · rw [if_neg (hq ▸ Ne.symm hp), hq, entry_nil, entry_nil]
  · rw [entry, if_neg hq, hentries, entry, if_neg hq, List.find?_filter]
    split
    next heq =>
      rw [Option.map_eq_none_iff, List.find?_eq_none]
      rintro x -
      simp [heq]
    next hne =>
      congr 2
      funext x
      by_cases hx : x.1 = q <;> simp [hx, hne]

theorem entries_inj {t t' : Tree ν α} (h : t.entries = t'.entries) : t = t' := by
  cases t
  cases t'
  cases h
  rfl

theorem entry_eq_none_iff (hp : p ≠ []) : t.entry p = none ↔ ∀ e, (p, e) ∉ t.entries := by
  constructor
  · intro h e he
    rw [(entry_eq_some hp).2 he] at h
    cases h
  · intro h
    by_contra hsome
    obtain ⟨e, he⟩ := Option.ne_none_iff_exists'.1 hsome
    exact h e ((entry_eq_some hp).1 he)

theorem remove_missing (h : t.entry p = none) : t.remove p = t := by
  have hp : p ≠ [] := by
    rintro rfl
    cases h
  by_cases hchild : t.Childless p
  · apply entries_inj
    rw [remove, dif_pos hchild]
    refine List.filter_eq_self.2 fun x hx => decide_eq_true ?_
    rintro rfl
    exact (entry_eq_none_iff hp).1 h x.2 hx
  · exact entry_remove_of_not hchild

/-- No other entry goes. -/
theorem eq_of_removed {e : Entry ν α} (he : t.entry q = some e) (h : (t.remove p).entry q = none) : q = p := by
  by_contra hne
  have hq : q ≠ [] := by
    rintro rfl
    cases h
  refine (entry_eq_none_iff hq).1 h e ?_
  have hmem := (entry_eq_some hq).1 he
  unfold remove
  split
  · exact List.mem_filter.2 ⟨hmem, decide_eq_true hne⟩
  · exact hmem

theorem childless_iff : t.Childless p ↔ ∀ n, t.entry (p ++ [n]) = none := by
  constructor
  · intro h n
    refine (entry_eq_none_iff (by simp)).2 fun e he => h _ he ?_
    exact List.dropLast_concat
  · rintro h ⟨q, e⟩ hx rfl
    obtain ⟨d, n, rfl⟩ := exists_last (t.named _ hx)
    rw [List.dropLast_concat] at h
    exact (entry_eq_none_iff (by simp)).1 (h n) e hx

/-! ## What is left -/

/-- Every entry of `t'` is one of `t`. -/
def Sub (t' t : Tree ν α) : Prop := ∀ p e, t'.entry p = some e → t.entry p = some e

theorem Sub.refl (t : Tree ν α) : t.Sub t := fun _ _ h => h

theorem Sub.trans {t₁ t₂ t₃ : Tree ν α} (h : t₁.Sub t₂) (h' : t₂.Sub t₃) : t₁.Sub t₃ := fun p e he => h' p e (h p e he)

theorem Sub.entry_none (h : t'.Sub t) (hp : t.entry p = none) : t'.entry p = none := by
  by_contra hsome
  obtain ⟨e, he⟩ := Option.ne_none_iff_exists'.1 hsome
  rw [h p e he] at hp
  cases hp

theorem remove_sub (t : Tree ν α) (p : List ν) : (t.remove p).Sub t := by
  by_cases h : t.Childless p
  · by_cases hp : p = []
    · intro q e hq
      by_cases hqn : q = []
      · rwa [hqn] at hq ⊢
      · rw [entry_eq_some hqn] at hq ⊢
        rw [remove, dif_pos h] at hq
        exact (List.mem_filter.1 hq).1
    · intro q e hq
      rw [entry_remove h hp] at hq
      split at hq
      · cases hq
      · exact hq
  · rw [entry_remove_of_not h]
    exact Sub.refl t

theorem unlink_cases (t : Tree ν α) (p : List ν) :
    t.unlink p = t ∨ ∃ q, t.place p = some q ∧ t.entry q ≠ some .dir ∧ t.unlink p = t.remove q := by
  unfold unlink
  split
  · exact .inl rfl
  next q hq =>
    by_cases h : t.entry q = some .dir
    · exact .inl (if_pos h)
    · exact .inr ⟨q, hq, h, if_neg h⟩

theorem rmdir_cases (t : Tree ν α) (p : List ν) :
    t.rmdir p = t ∨ ∃ q, t.place p = some q ∧ t.entry q = some .dir ∧ t.rmdir p = t.remove q := by
  unfold rmdir
  split
  · exact .inl rfl
  next q hq =>
    by_cases h : t.entry q = some .dir
    · exact .inr ⟨q, hq, h, if_pos h⟩
    · exact .inl (if_neg h)

/-- A fold of steps each of which removes one entry at most: what is gone went at a step. -/
theorem foldl_removed {β : Type} {P : Tree ν α → β → List ν → Prop} {f : Tree ν α → β → Tree ν α}
    (hf : ∀ t b, f t b = t ∨ ∃ q, P t b q ∧ f t b = t.remove q) (bs : List β) (t : Tree ν α) :
    (bs.foldl f t).Sub t ∧
      ∀ q e, t.entry q = some e → (bs.foldl f t).entry q = none →
        ∃ b ∈ bs, ∃ t', t'.Sub t ∧ t'.entry q = some e ∧ P t' b q := by
  induction bs generalizing t with
  | nil =>
    refine ⟨.refl t, fun q e he hnone => ?_⟩
    rw [List.foldl_nil, he] at hnone
    cases hnone
  | cons b bs ih =>
    obtain ⟨hsub, hgone⟩ := ih (f t b)
    have hstep : (f t b).Sub t := by
      rcases hf t b with hsame | ⟨q, -, hremove⟩
      · rw [hsame]
        exact .refl t
      · rw [hremove]
        exact t.remove_sub q
    refine ⟨hsub.trans hstep, fun q e he hnone => ?_⟩
    cases hq : (f t b).entry q with
    | some e' =>
      obtain rfl : e = e' := Option.some.inj (he.symm.trans (hstep q e' hq))
      obtain ⟨b', hb', t', ht', het', hP⟩ := hgone q e hq hnone
      exact ⟨b', List.mem_cons_of_mem b hb', t', ht'.trans hstep, het', hP⟩
    | none =>
      rcases hf t b with hsame | ⟨q', hP, hremove⟩
      · rw [hsame, he] at hq
        cases hq
      · rw [hremove] at hq
        obtain rfl := eq_of_removed he hq
        exact ⟨b, List.mem_cons_self, t, .refl t, he, hP⟩

theorem place_ne_nil (h : t.place p = some q) : q ≠ [] := by
  unfold place at h
  split at h
  · cases h
  · obtain ⟨d, -, hd⟩ := Option.bind_eq_some_iff.1 h
    split at hd
    · obtain rfl := Option.some.inj hd
      simp
    · cases hd

/-! ## What a walk needs -/

/-- Directories and links are ways, the rest are ends. -/
inductive Way : Entry ν α → Prop
  | dir : Way .dir
  | link (absolute : Bool) (steps : List (Option ν)) : Way (.link absolute steps)

/-- What happens at a link when `n` more may be followed. -/
def follow (t : Tree ν α) : Nat → List ν → List (Option ν) → Option (List ν)
  | 0 => fun _ _ => none
  | n + 1 => t.walk n

theorem walk_eq (t : Tree ν α) (n : Nat) : t.walk n = t.walkWith (t.follow n) := by
  cases n <;> rfl

theorem walkWith_end {f : List ν → List (Option ν) → Option (List ν)} {cur : List ν} {n : ν} {e : Entry ν α}
    (he : t.entry (cur ++ [n]) = some e) (hway : ¬ Way e) (steps : List (Option ν)) :
    t.walkWith f cur (some n :: steps) = if steps = [] then some (cur ++ [n]) else none := by
  rw [walkWith, he]
  cases e with
  | dir => exact absurd .dir hway
  | link absolute target => exact absurd (.link absolute target) hway
  | file content => rfl
  | other => rfl

/-- A walk passes ways only. -/
theorem walkWith_keep {r : List ν} {f f' : List ν → List (Option ν) → Option (List ν)}
    (hkeep : ∀ q e, t.entry q = some e → Way e ∨ q = r → t'.entry q = some e)
    (hf : ∀ cur steps, f cur steps = some r → f' cur steps = some r) {cur : List ν} {steps : List (Option ν)}
    (h : t.walkWith f cur steps = some r) : t'.walkWith f' cur steps = some r := by
  induction steps generalizing cur with
  | nil => exact h
  | cons s steps ih =>
    cases s with
    | none => exact ih h
    | some n =>
      cases he : t.entry (cur ++ [n]) with
      | none =>
        rw [walkWith, he] at h
        cases h
      | some e =>
        by_cases hway : Way e
        · have he' := hkeep _ _ he (.inl hway)
          rw [walkWith, he] at h
          rw [walkWith, he']
          cases hway with
          | dir => exact ih h
          | link absolute target => exact hf _ _ h
        · rw [walkWith_end he hway] at h
          split at h
          next hsteps =>
            have he' := hkeep _ _ he (.inr (Option.some.inj h))
            rw [walkWith_end he' hway, if_pos hsteps, h]
          · cases h

theorem walk_keep {r : List ν} (hkeep : ∀ q e, t.entry q = some e → Way e ∨ q = r → t'.entry q = some e) {n : Nat}
    {cur : List ν} {steps : List (Option ν)} (h : t.walk n cur steps = some r) : t'.walk n cur steps = some r := by
  induction n generalizing cur steps with
  | zero => exact walkWith_keep hkeep (fun _ _ hnone => by cases hnone) h
  | succ n ih => exact walkWith_keep hkeep (fun _ _ => ih) h

theorem Sub.resolve (hsub : t'.Sub t) {r : List ν} (h : t'.resolve p = some r) : t.resolve p = some r :=
  walk_keep (fun _ _ he _ => hsub _ _ he) h

theorem Sub.read (hsub : t'.Sub t) {content : α} (h : t'.read p = some content) : t.read p = some content := by
  rw [Tree.read] at h ⊢
  cases hr : t'.resolve p with
  | none =>
    rw [hr] at h
    cases h
  | some r =>
    rw [hr, Option.bind_some] at h
    split at h
    next content' he =>
      rw [hsub.resolve hr, Option.bind_some, hsub _ _ he]
      exact h
    · cases h

theorem place_eq_some :
    t.place p = some q ↔ ∃ d n r, p = d ++ [n] ∧ t.resolve d = some r ∧ t.entry r = some .dir ∧ q = r ++ [n] := by
  constructor
  · intro h
    have hp : p ≠ [] := by
      rintro rfl
      cases h
    obtain ⟨d, n, rfl⟩ := exists_last hp
    rw [place, List.getLast?_concat, List.dropLast_concat] at h
    obtain ⟨r, hr, h⟩ := Option.bind_eq_some_iff.1 h
    split at h
    next hdir => exact ⟨d, n, r, rfl, hr, hdir, (Option.some.inj h).symm⟩
    · cases h
  · rintro ⟨d, n, r, rfl, hr, hdir, rfl⟩
    rw [place, List.getLast?_concat, List.dropLast_concat]
    simp only [hr, Option.bind_some, hdir, if_true]

theorem Sub.place (hsub : t'.Sub t) (h : t'.place p = some q) : t.place p = some q := by
  obtain ⟨d, n, r, hp, hr, hdir, hq⟩ := place_eq_some.1 h
  exact place_eq_some.2 ⟨d, n, r, hp, hsub.resolve hr, hsub _ _ hdir, hq⟩

/-- The ways are still there. -/
def Ways (t' t : Tree ν α) : Prop := ∀ q e, t.entry q = some e → Way e → t'.entry q = some e

theorem Ways.refl (t : Tree ν α) : t.Ways t := fun _ _ he _ => he

theorem Ways.trans {t₁ t₂ t₃ : Tree ν α} (h : t₁.Ways t₂) (h' : t₂.Ways t₃) : t₁.Ways t₃ :=
  fun q e he hway => h q e (h' q e he hway) hway

theorem Ways.resolve (hways : t'.Ways t) {r : List ν} (h : t.resolve p = some r) (hr : t'.entry r = t.entry r) :
    t'.resolve p = some r := by
  refine walk_keep (fun q e he hcase => ?_) h
  rcases hcase with hway | rfl
  · exact hways q e he hway
  · rw [hr, he]

theorem Ways.place (hways : t'.Ways t) (h : t.place p = some q) : t'.place p = some q := by
  obtain ⟨d, n, r, hp, hr, hdir, hq⟩ := place_eq_some.1 h
  have hdir' := hways r _ hdir .dir
  exact place_eq_some.2 ⟨d, n, r, hp, hways.resolve hr (hdir'.trans hdir.symm), hdir', hq⟩

theorem entry_dropLast {cur : List ν} (h : t.entry cur = some .dir) : t.entry cur.dropLast = some .dir := by
  by_cases hcur : cur = []
  · rw [hcur]
    rfl
  · obtain ⟨d, n, rfl⟩ := exists_last hcur
    rw [List.dropLast_concat]
    exact entry_dir h

/-- A walk over two parts goes on from the directory the first leads to. -/
theorem walk_append {n : Nat} {cur : List ν} {a b : List (Option ν)} (hcur : t.entry cur = some .dir) (hb : b ≠ []) :
    (∃ d m, t.walk n cur a = some d ∧ t.entry d = some .dir ∧ t.walk n cur (a ++ b) = t.walk m d b) ∨
      (∀ d, t.walk n cur a = some d → t.entry d ≠ some .dir) ∧ t.walk n cur (a ++ b) = none := by
  induction n using Nat.strongRecOn generalizing cur a with
  | _ n ihn =>
    induction a generalizing cur with
    | nil =>
      refine .inl ⟨cur, n, ?_, hcur, rfl⟩
      rw [walk_eq, walkWith]
    | cons s a iha =>
      rw [walk_eq, List.cons_append]
      rw [walk_eq] at iha
      cases s with
      | none => exact iha (entry_dropLast hcur)
      | some x =>
        cases he : t.entry (cur ++ [x]) with
        | none =>
          rw [walkWith, walkWith, he]
          exact .inr ⟨fun d hd => (by cases hd), rfl⟩
        | some e =>
          by_cases hway : Way e
          · rw [walkWith, walkWith, he]
            cases hway with
            | dir => exact iha he
            | link absolute target =>
              cases n with
              | zero => exact .inr ⟨fun d hd => (by cases hd), rfl⟩
              | succ n =>
                have hbase : t.entry (if absolute then [] else cur) = some .dir := by
                  split
                  · rfl
                  · exact hcur
                have h := ihn n (Nat.lt_succ_self n) (a := target ++ a) hbase
                rw [List.append_assoc] at h
                exact h
          · rw [walkWith_end he hway, walkWith_end he hway]
            refine .inr ⟨fun d hd => ?_, if_neg fun hnil => hb (List.append_eq_nil_iff.1 hnil).2⟩
            split at hd
            · obtain rfl := Option.some.inj hd
              rw [he]
              rintro heq
              exact hway (Option.some.inj heq ▸ .dir)
            · cases hd

/-- The last name of a walk. -/
theorem walk_single {n : Nat} {d : List ν} {x : ν} {e : Entry ν α} (he : t.entry (d ++ [x]) = some e)
    (hlink : ∀ absolute steps, e ≠ .link absolute steps) : t.walk n d [some x] = some (d ++ [x]) := by
  rw [walk_eq, walkWith, he]
  cases e with
  | link absolute steps => exact absurd rfl (hlink absolute steps)
  | dir => rfl
  | file content => rfl
  | other => rfl

/-- What is no link is where its path leads. -/
theorem resolve_of_place {e : Entry ν α} (h : t.place p = some q) (he : t.entry q = some e)
    (hlink : ∀ absolute steps, e ≠ .link absolute steps) : t.resolve p = some q := by
  obtain ⟨d, x, r, rfl, hr, hdir, rfl⟩ := place_eq_some.1 h
  rw [resolve, List.map_append, List.map_singleton]
  rcases walk_append (t := t) (n := maxLinks) (a := d.map some) (entry_nil t) (List.cons_ne_nil (some x) [])
    with ⟨d', m, hd', -, happend⟩ | ⟨hnot, -⟩
  · obtain rfl : r = d' := Option.some.inj (hr.symm.trans hd')
    rw [happend, walk_single he hlink]
  · exact absurd hdir (hnot r hr)

/-- A path that leads to something is there, as a link or as what it leads to. -/
theorem place_of_resolve {r : List ν} (hp : p ≠ []) (h : t.resolve p = some r) :
    ∃ q e, t.place p = some q ∧ t.entry q = some e ∧ ((∃ absolute steps, e = .link absolute steps) ∨ q = r) := by
  obtain ⟨d, x, rfl⟩ := exists_last hp
  rw [resolve, List.map_append, List.map_singleton] at h
  rcases walk_append (t := t) (n := maxLinks) (a := d.map some) (entry_nil t) (List.cons_ne_nil (some x) [])
    with ⟨d', m, hd', hdir, happend⟩ | ⟨-, hnone⟩
  · have hplace : t.place (d ++ [x]) = some (d' ++ [x]) := place_eq_some.2 ⟨d, x, d', rfl, hd', hdir, rfl⟩
    rw [happend] at h
    cases he : t.entry (d' ++ [x]) with
    | none =>
      rw [walk_eq, walkWith, he] at h
      cases h
    | some e =>
      refine ⟨d' ++ [x], e, hplace, he, ?_⟩
      by_cases hlink : ∃ absolute steps, e = .link absolute steps
      · exact .inl hlink
      · rw [walk_single he fun absolute steps heq => hlink ⟨absolute, steps, heq⟩] at h
        exact .inr (Option.some.inj h)
  · rw [hnone] at h
    cases h

/-! ## Paths without links -/

/-- No link stands on the way to the last name. -/
def Direct (t : Tree ν α) (p : List ν) : Prop :=
  ∀ q r, p = q ++ r → r ≠ [] → ∀ absolute steps, t.entry q ≠ some (.link absolute steps)

theorem Direct.sub (h : t.Direct p) (hsub : t'.Sub t) : t'.Direct p :=
  fun q r hp hr absolute steps hq => h q r hp hr absolute steps (hsub _ _ hq)

/-- Without links a walk ends where the names lead. -/
theorem walkWith_direct {follow : List ν → List (Option ν) → Option (List ν)} {names cur : List ν}
    (h : ∀ q r, names = q ++ r → ∀ absolute steps, t.entry (cur ++ q) ≠ some (.link absolute steps)) :
    t.walkWith follow cur (names.map some) =
      if names = [] ∨ (t.entry (cur ++ names)).isSome then some (cur ++ names) else none := by
  induction names generalizing cur with
  | nil => simp [walkWith]
  | cons n names ih =>
    have hbeyond : t.entry (cur ++ [n]) ≠ some .dir → names ≠ [] → t.entry (cur ++ n :: names) = none := by
      intro hdir hne
      by_contra hsome
      obtain ⟨e, he⟩ := Option.ne_none_iff_exists'.1 hsome
      have hsplit : cur ++ n :: names = (cur ++ [n]) ++ names := by simp
      exact hdir (entry_front hne (hsplit ▸ he))
    rw [List.map_cons]
    cases hentry : t.entry (cur ++ [n]) with
    | none =>
      rw [walkWith, hentry]
      by_cases hne : names = []
      · simp [hne, hentry]
      · simp [hbeyond (by simp [hentry]) hne]
    | some e =>
      by_cases hway : Way e
      · rw [walkWith, hentry]
        cases hway with
        | dir =>
          have hlinks : ∀ q r, names = q ++ r → ∀ absolute steps,
              t.entry ((cur ++ [n]) ++ q) ≠ some (.link absolute steps) := fun q r hqr absolute steps => by
            simpa using h (n :: q) r (by simp [hqr]) absolute steps
          have hrest := ih hlinks
          simp only [hrest]
          by_cases hne : names = [] <;> simp [hne, hentry]
        | link absolute steps => exact absurd hentry (h [n] names rfl absolute steps)
      · rw [walkWith_end hentry hway]
        have hdir : t.entry (cur ++ [n]) ≠ some .dir := fun hdir =>
          hway (Option.some.inj (hentry.symm.trans hdir) ▸ .dir)
        by_cases hne : names = []
        · simp [hne, hentry]
        · simp [hne, hbeyond hdir hne]

theorem resolve_direct (h : ∀ q r, p = q ++ r → ∀ absolute steps, t.entry q ≠ some (.link absolute steps)) :
    t.resolve p = if (t.entry p).isSome then some p else none := by
  have hwalk : t.resolve p = t.walkWith (t.walk 39) [] (p.map some) := rfl
  rw [hwalk, walkWith_direct (by simpa using h), List.nil_append]
  by_cases hp : p = []
  · simp [hp, entry_nil]
  · simp [hp]

/-- A path on which no link stands names the entry at itself, if that has a directory. -/
theorem place_direct {n : ν} {d : List ν} (h : t.Direct (d ++ [n])) :
    t.place (d ++ [n]) = if t.entry d = some .dir then some (d ++ [n]) else none := by
  have hd := resolve_direct (t := t) (p := d) fun q r hqr absolute steps =>
    h q (r ++ [n]) (by rw [hqr, List.append_assoc]) (by simp) absolute steps
  rw [place, List.getLast?_concat, List.dropLast_concat, hd]
  by_cases hdir : t.entry d = some .dir
  · simp [hdir]
  · cases hentry : t.entry d with
    | none => simp
    | some e =>
      rw [hentry] at hdir
      simp [hentry, hdir]

theorem Direct.place_eq (h : t.Direct p) (hq : t.place p = some q) : q = p := by
  obtain ⟨d, n, r, rfl, -, -, -⟩ := place_eq_some.1 hq
  rw [place_direct h] at hq
  split at hq
  · exact (Option.some.inj hq).symm
  · cases hq

theorem Direct.place (h : t.Direct p) (hp : p ≠ []) {e : Entry ν α} (he : t.entry p = some e) :
    t.place p = some p := by
  obtain ⟨d, n, rfl⟩ := exists_last hp
  rw [place_direct h, if_pos (entry_dir he)]

theorem Direct.isLink (h : t.Direct p) (hp : p ≠ []) :
    t.isLink p = true ↔ ∃ absolute steps, t.entry p = some (.link absolute steps) := by
  constructor
  · intro hlink
    rw [Tree.isLink] at hlink
    cases hq : t.place p with
    | none =>
      rw [hq] at hlink
      cases hlink
    | some q =>
      obtain rfl := h.place_eq hq
      rw [hq, Option.bind_some] at hlink
      split at hlink
      next absolute steps he => exact ⟨absolute, steps, he⟩
      · cases hlink
  · rintro ⟨absolute, steps, he⟩
    rw [Tree.isLink, h.place hp he, Option.bind_some, he]

/-- What is no link is where it is. -/
theorem Direct.resolve (h : t.Direct p) (hlink : ∀ absolute steps, t.entry p ≠ some (.link absolute steps)) :
    (t.resolve p).bind t.entry = t.entry p := by
  rw [resolve_direct]
  · cases he : t.entry p with
    | none => rfl
    | some e => simp [he]
  · intro q r hqr absolute steps
    by_cases hr : r = []
    · rw [hr, List.append_nil] at hqr
      exact hqr ▸ hlink absolute steps
    · exact h q r hqr hr absolute steps

/-! ## What a command does to a direct path -/

/-- What is no directory has nothing in it. -/
theorem childless_of_entry (h : t.entry p ≠ some .dir) : t.Childless p := by
  rintro ⟨q, e⟩ hx rfl
  have hq : q ≠ [] := t.named _ hx
  obtain ⟨d, n, rfl⟩ := exists_last hq
  rw [List.dropLast_concat] at h
  exact h (entry_dir ((entry_eq_some hq).2 hx))

/-- What has no directory is not there. -/
theorem entry_eq_none {n : ν} (h : t.entry p ≠ some .dir) : t.entry (p ++ [n]) = none := by
  by_contra hsome
  obtain ⟨e, he⟩ := Option.ne_none_iff_exists'.1 hsome
  exact h (entry_dir he)

theorem entry_unlink (h : t.Direct p) (hp : p ≠ []) (q : List ν) :
    (t.unlink p).entry q = if q = p ∧ t.entry p ≠ some .dir then none else t.entry q := by
  obtain ⟨d, n, rfl⟩ := exists_last hp
  by_cases hd : t.entry d = some .dir
  · have hunlink : t.unlink (d ++ [n]) = if t.entry (d ++ [n]) = some .dir then t else t.remove (d ++ [n]) := by
      rw [unlink, place_direct h, if_pos hd]
    by_cases hdir : t.entry (d ++ [n]) = some .dir
    · simp [hunlink, hdir]
    · rw [hunlink, if_neg hdir, entry_remove (childless_of_entry hdir) hp]
      simp only [hdir, ne_eq, not_false_eq_true, and_true]
  · have hunlink : t.unlink (d ++ [n]) = t := by rw [unlink, place_direct h, if_neg hd]
    rw [hunlink]
    split
    next hq => rw [hq.1, entry_eq_none hd]
    next => rfl

theorem entry_rmdir (h : t.Direct p) (hp : p ≠ []) (q : List ν) :
    (t.rmdir p).entry q = if q = p ∧ t.entry p = some .dir ∧ t.Childless p then none else t.entry q := by
  obtain ⟨d, n, rfl⟩ := exists_last hp
  by_cases hdir : t.entry (d ++ [n]) = some .dir
  · have hrmdir : t.rmdir (d ++ [n]) = t.remove (d ++ [n]) := by
      rw [rmdir, place_direct h, if_pos (entry_dir hdir)]
      exact if_pos hdir
    rw [hrmdir]
    by_cases hchild : t.Childless (d ++ [n])
    · simp [hdir, hchild, entry_remove hchild hp]
    · simp [hchild, entry_remove_of_not hchild]
  · have hrmdir : t.rmdir (d ++ [n]) = t := by
      rcases t.rmdir_cases (d ++ [n]) with hsame | ⟨q, hq, hqdir, -⟩
      · exact hsame
      · rw [place_direct h] at hq
        split at hq
        · obtain rfl := Option.some.inj hq
          exact absurd hqdir hdir
        · cases hq
    rw [hrmdir, if_neg fun hq => hdir hq.2.1]

end Tree

end Files
