import T2Sde.Lib.Run
import T2Sde.Bize.Remove
/-!
# Two ways to remove a package (`package/archiver/bize/bize.sh`, `scripts/Create-ErrList`)

`bize -r -f` asks for a link first and removes it, `uninstall_pkg` asks for a directory first. So a link to a directory
is taken for one, and `rmdir` does not remove it. And it passes the paths as they are, so one that starts with `-` is
taken for options.

| here | there |
| --- | --- |
| `uninstallBase`, `uninstallPkg` | `uninstall_pkg` (`Create-ErrList`) :28-35 |
| `bizeRemove _ false`            | `bize_remove` with `-f` |

* `removeBase_eq` — one path that is not spared.
* `uninstallers_agree` — **when the same is left**.
-/
namespace T2Sde.Bize
open Shell Files Lts

/-- What `rm` and `rmdir` take for options. -/
def IsOption (fn : Text) : Prop := fn.head? = some '-' ∧ fn ≠ ['-']

instance (fn : Text) : Decidable (IsOption fn) := inferInstanceAs (Decidable (_ ∧ _))

def uninstallBase (g : Target) (t : Root) (fn : Text) : Root :=
  if t.isDir (g.file fn) then if IsOption fn then t else t.rmdir (g.file fn)
  else if IsOption fn then t else t.unlink (g.file fn)

/-- `cut -d ' ' -f 2-` of the list, and `tac` -/
def uninstallPkg (g : Target) (t : Root) : Root :=
  match t.read g.list with
  | none => t
  | some list =>
    (logical ((lines list).map (cutRest ' ')).reverse).foldl (fun t m => uninstallBase g t (lastField m)) t

/-- A link that leads to a directory. -/
def LinkToDir (g : Target) (t : Root) (path : Text) : Prop :=
  t.isLink (g.file path) = true ∧ t.isDir (g.file path) = true

instance (g : Target) (t : Root) (path : Text) : Decidable (LinkToDir g t path) := inferInstanceAs (Decidable (_ ∧ _))

/-- It is there, and no directory with something in it. -/
def Removable (g : Target) (t : Root) (path : Text) : Prop :=
  ∃ q ∈ t.place (g.file path), t.entry q ≠ none ∧ (t.entry q = some .dir → t.Childless q)

instance (g : Target) (t : Root) (path : Text) : Decidable (Removable g t path) :=
  inferInstanceAs (Decidable (∃ q ∈ t.place _, _))

/-- `uninstall_pkg` leaves what `bize_remove` removes. -/
def Spared (g : Target) (t : Root) (path : Text) : Prop := LinkToDir g t path ∨ IsOption path ∧ Removable g t path

instance (g : Target) (t : Root) (path : Text) : Decidable (Spared g t path) := inferInstanceAs (Decidable (_ ∨ _))

variable {g : Target} {t : Root}

/-- No path is spared when it is its turn. -/
def NoneSpared (l : Listing g) (t : Root) : Prop :=
  Along (fun t path => some (removeBase false g t path)) (fun t path => ¬ Spared g t path) t l.paths.reverse

instance (l : Listing g) (t : Root) : Decidable (NoneSpared l t) := inferInstanceAs (Decidable (Along _ _ _ _))

/-! ## One path -/

/-- `uninstall_pkg` takes the paths in reverse order. -/
theorem uninstallPkg_eq (l : Listing g) (hlist : l.At t) :
    uninstallPkg g t = l.paths.reverse.foldl (uninstallBase g) t := by
  have hread : ∀ p ∈ l.paths.reverse, runsOn p = false := by
    intro p hp
    rw [runsOn, unescape_plain (l.plainPaths p (List.mem_reverse.1 hp)).backslash]
  have hlines := lines_flist l.pkg_line.2 fun p hp => (l.plainPaths p hp).line
  rw [uninstallPkg, hlist]
  simp only [hlines, map_cutRest l.pkg_line.1]
  rw [logical_alone hread, List.foldl_map]
  refine List.foldl_ext _ _ _ fun t p hp => ?_
  have hplain := l.plainPaths p (List.mem_reverse.1 hp)
  rw [unescape_plain hplain.backslash, lastField_trimmed hplain.trimmed]

theorem bizeRemove_eq (md5 : Text → Text) (l : Listing g) (hsorted : l.paths.Pairwise Before) (hlist : l.At t) :
    bizeRemove md5 false g t = l.paths.reverse.foldl (removeBase false g) t := by
  rw [← sortReverse_sorted hsorted]
  exact removeListed_eq false l hlist

/-- The two do the same to a path that is not spared. -/
theorem removeBase_eq {path : Text} (h : ¬ Spared g t path) : removeBase false g t path = uninstallBase g t path := by
  obtain ⟨hlinkdir, hremovable⟩ := not_or.1 h
  unfold uninstallBase
  by_cases hoption : IsOption path
  · rw [if_pos hoption, if_pos hoption, ite_self]
    rcases removeBase_cases false g t path with hsame | ⟨q, e, hq, he, -, hremove⟩
    · exact hsame
    · rw [hremove]
      refine Tree.entry_remove_of_not fun hchild => hremovable ⟨hoption, q, hq, ?_, fun _ => hchild⟩
      rw [he]
      exact Option.some_ne_none e
  · rw [if_neg hoption, if_neg hoption]
    unfold removeBase
    extract_lets file
    by_cases hlink : t.isLink file = true
    · have hdir : ¬ t.isDir file = true := fun hdir => hlinkdir ⟨hlink, hdir⟩
      rw [if_pos hlink, if_neg hdir]
    · have hnokeep : ¬ (false = true ∧ t.isFile file = true) := fun hkeep => Bool.false_ne_true hkeep.1
      rw [if_neg hlink, if_neg hnokeep, ite_self]

theorem uninstallBase_cases (path : Text) :
    uninstallBase g t path = t ∨
      ∃ q, t.place (g.file path) = some q ∧ uninstallBase g t path = t.remove q := by
  unfold uninstallBase
  split
  · split
    · exact .inl rfl
    · exact (t.rmdir_cases _).imp_right fun ⟨q, hq, _, hremove⟩ => ⟨q, hq, hremove⟩
  · split
    · exact .inl rfl
    · exact (t.unlink_cases _).imp_right fun ⟨q, hq, _, hremove⟩ => ⟨q, hq, hremove⟩

theorem removeBase_step (keep : Bool) (t : Root) (path : Text) :
    removeBase keep g t path = t ∨ ∃ q, t.place (g.file path) = some q ∧ removeBase keep g t path = t.remove q :=
  (removeBase_cases keep g t path).imp_right fun ⟨q, _, hq, _, _, hremove⟩ => ⟨q, hq, hremove⟩

theorem removeBase_sub (keep : Bool) (path : Text) : (removeBase keep g t path).Sub t :=
  (Tree.foldl_removed (removeBase_step keep) [path] t).1

/-- What is spared is removed by one and left by the other. -/
theorem spared_differs {path : Text} (hdirect : t.Direct (g.file path)) (h : Spared g t path) :
    (removeBase false g t path).entry (g.file path) = none ∧ uninstallBase g t path = t ∧
      t.entry (g.file path) ≠ none := by
  rw [removeBase_gone hdirect, Goes]
  rcases h with ⟨hlink, hdir⟩ | ⟨hoption, q, hq, hthere, hchild⟩
  · obtain ⟨absolute, steps, he⟩ := (hdirect.isLink (file_ne_nil path)).1 hlink
    rw [he]
    refine ⟨trivial, ?_, Option.some_ne_none _⟩
    rw [uninstallBase, if_pos hdir]
    split
    · rfl
    · rcases t.rmdir_cases (g.file path) with hsame | ⟨q, hq, hqdir, -⟩
      · exact hsame
      · obtain rfl := hdirect.place_eq hq
        rw [he] at hqdir
        cases hqdir
  · obtain rfl := hdirect.place_eq hq
    refine ⟨?_, ?_, hthere⟩
    · split
      next he => exact hchild he
      · exact fun hkeep => absurd hkeep Bool.false_ne_true
      · trivial
    · rw [uninstallBase, if_pos hoption, if_pos hoption, ite_self]

/-! ## All paths -/

theorem foldl_agree {paths : List Text} {t : Root}
    (h : Along (fun t path => some (removeBase false g t path)) (fun t path => ¬ Spared g t path) t paths) :
    paths.foldl (removeBase false g) t = paths.foldl (uninstallBase g) t := by
  induction paths generalizing t with
  | nil => rfl
  | cons p paths ih =>
    rw [List.foldl_cons, List.foldl_cons, ← removeBase_eq h.1]
    exact ih (h.2 _ rfl)

/-- What is spared once stays, for the other paths stand for other entries. -/
theorem along_of_agree {paths : List Text} {t : Root} (hdirect : ∀ p ∈ paths, t.Direct (g.file p))
    (hnodup : paths.Nodup) (h : paths.foldl (removeBase false g) t = paths.foldl (uninstallBase g) t) :
    Along (fun t path => some (removeBase false g t path)) (fun t path => ¬ Spared g t path) t paths := by
  induction paths generalizing t with
  | nil => trivial
  | cons p paths ih =>
    obtain ⟨hp, hrest⟩ := List.forall_mem_cons.1 hdirect
    obtain ⟨hnot, hnodup⟩ := List.nodup_cons.1 hnodup
    rw [List.foldl_cons, List.foldl_cons] at h
    by_cases hspared : Spared g t p
    · obtain ⟨hgone, hsame, hthere⟩ := spared_differs hp hspared
      obtain ⟨e, he⟩ := Option.ne_none_iff_exists'.1 hthere
      have hleft : (paths.foldl (uninstallBase g) t).entry (g.file p) = none := by
        rw [← hsame, ← h]
        by_contra hsome
        obtain ⟨e', he'⟩ := Option.ne_none_iff_exists'.1 hsome
        rw [(Tree.foldl_removed (removeBase_step false) paths _).1 _ _ he'] at hgone
        cases hgone
      obtain ⟨p', hp', t', hsub, -, hplace⟩ :=
        (Tree.foldl_removed (fun t path => uninstallBase_cases (t := t) path) paths t).2 _ _ he hleft
      have hfile := ((hrest p' hp').sub hsub).place_eq hplace
      exact absurd hp' (by rwa [← file_inj hfile])
    · refine ⟨hspared, fun t' ht' => ?_⟩
      obtain rfl := Option.some.inj ht'
      rw [← removeBase_eq hspared] at h
      exact ih (fun q hq => (hrest q hq).sub (removeBase_sub false p)) hnodup h

/-- **The same is left** if no path is spared when it is its turn; and only then, if no path goes through a link. -/
theorem uninstallers_agree (md5 : Text → Text) (l : Listing g) (hsorted : l.paths.Pairwise Before) (t : Root)
    (hlist : l.At t) :
    (NoneSpared l t → bizeRemove md5 false g t = uninstallPkg g t) ∧
      ((∀ p ∈ l.paths, t.Direct (g.file p)) → bizeRemove md5 false g t = uninstallPkg g t → NoneSpared l t) := by
  rw [bizeRemove_eq md5 l hsorted hlist, uninstallPkg_eq l hlist]
  refine ⟨foldl_agree, fun hdirect h => along_of_agree (fun p hp => hdirect p (List.mem_reverse.1 hp)) ?_ h⟩
  have hnodup : l.paths.Nodup := by
    apply hsorted.imp
    intro p q hlt heq
    subst q
    exact before_irrefl p hlt
  exact List.nodup_reverse.2 hnodup

/-! ## Concrete trees -/

/-- In `/`, the package `a`. -/
def target : Target := { root := [], pkg := "a".toList }

def listing : Listing target where
  paths := ["lib", "lib64"].map String.toList
  plainPaths := by decide +kernel
  pkgWord := by decide
  pkgPlain := by decide

def tree : Root where
  entries := [(["var".toList], .dir), (["var".toList, "adm".toList], .dir),
    (["var".toList, "adm".toList, "flists".toList], .dir),
    (["var".toList, "adm".toList, "flists".toList, "a".toList], .file (flist target.pkg listing.paths)),
    (["lib".toList], .dir), (["lib".toList, "x".toList], .file []), (["lib64".toList], .link false [some "lib".toList])]
  named := by decide
  nodup := by decide
  closed := by decide +kernel

theorem listing_at : listing.At tree := by decide +kernel

/-- The link `lib64` leads to `lib`, in which a file is. -/
theorem uninstallers_differ : listing.At tree ∧ (bizeRemove id false target tree).entry ["lib64".toList] = none ∧
    (uninstallPkg target tree).entry ["lib64".toList] = some (.link false [some "lib".toList]) := by
  rw [bizeRemove_eq id listing (by decide) listing_at, uninstallPkg_eq listing listing_at]
  exact ⟨listing_at, by decide +kernel, by decide +kernel⟩

/-- Without the link, both leave the file and its directory. -/
theorem uninstallers_agree_tree :
    bizeRemove id false target (tree.unlink ["lib64".toList]) = uninstallPkg target (tree.unlink ["lib64".toList]) := by
  have hlist : listing.At (tree.unlink ["lib64".toList]) := by decide +kernel
  exact (uninstallers_agree id listing (by decide) _ hlist).1 (by decide +kernel)

end T2Sde.Bize
