import Mathlib.Data.List.Find
import Mathlib.Data.List.Nodup
import T2Sde.Lib.Cut
import T2Sde.Lib.Joined
import T2Sde.Lib.Reach
import T2Sde.Lib.Sed
/-!
# Modules of the initrd (`package/base/mkinitrd/mkinitrd.sh`)

`add_depend` marks a module by the last part of its path, looks a name without a path up in the list of files, copies
the file and calls itself for the names that `modinfo` gives. Of a line of `softdep` it takes what is behind the last
`: `, so the names of `pre:` are not asked for where names of `post:` stand behind them.

| here | there |
| --- | --- |
| `base`         | `${1##*/}` :152 |
| `found`        | the address of `sed` :159 |
| `skipped`      | :168-200 |
| `dependNames`, `softNames` | :208-209 |
| `addDepend`    | :150-212 |
| `addModules`   | :216-218 |
| `Needs`        | one module asks for another one |

* `addDepend_visit` — the recursion is a visit of the names.
* `modules_iff` — **when the copied files are the ones within reach**.
-/
namespace T2Sde.Initrd
open Shell
open Pattern (run run_last run_one)

/-! ## The program -/

/-- What `modinfo` gives for a file; `softdep` by lines. -/
structure Info where
  depends : Text
  softdep : List Text
  firmware : Text

/-- What is behind the last slash. -/
def base (path : Text) : Text := (path.splitOn '/').getLast?.getD []

/-- `sed 's/,/ /g'`, then the words. -/
def dependNames (i : Info) : List Text := words (i.depends.map fun c => if c = ',' then ' ' else c)

/-- `sed 's/.*: //'`, then the words. -/
def softNames (i : Info) : List Text :=
  i.softdep.flatMap fun l => words ((substitute ".*: ".toList [] l).getD l)

/-- A character of a module's name, or the colon of `pre:` and `post:`. -/
def nameChar (c : Char) : Bool := c.isAlphanum || c == '_' || c == '-' || c == ':'

/-- The names that stand in the dependencies, all of them. -/
def Info.asked (i : Info) : List Text := dependNames i ++ i.softdep.flatMap words

structure Modules where
  /-- The paths, in the order of `find`. -/
  map : List Text
  info : Text → Info
  /-- `--firmware` -/
  firmware : Bool
  vital : Text → Bool
  optional : Text → Bool
  /-- Which files are in `lib/firmware`. -/
  present : Text → Bool
  slash : ∀ p ∈ map, '/' ∈ p
  once : (map.map base).Nodup
  plain : ∀ p ∈ map, ∀ w ∈ (info p).asked, ∀ c ∈ w, nameChar c = true

/-- A line has a match. In the backquotes one backslash of `\\.` goes, in the replacement the other: the dot of `.ko`
stays as it is, and stands for any character. -/
def found (x line : Text) : Bool := ((regex ("\\/".toList ++ x ++ ".*".toList)).bind (·.find line)).isSome

section
variable (M : Modules)

/-- The firmware is not there, or not asked for; `module` is the name that the call was for. -/
def skipped (module x : Text) : Bool :=
  if (M.info x).firmware = [] then false
  else if M.firmware || M.vital module then (words (M.info x).firmware).any fun fn => !M.present fn && !M.vital module
  else !M.optional module

structure Added where
  added : List Text
  copied : List Text

/-- One call, with at most `n` calls inside one another. -/
def addDepend : Nat → Added → Text → Option Added
  | 0, _, _ => none
  | n + 1, s, x =>
    let module := base x
    if module ∈ s.added then some s
    else
      match if x = module then M.map.find? (found x) else some x with
      | none => some { s with added := module :: s.added }
      | some x =>
        if skipped M module x then some { s with added := module :: s.added }
        else
          (dependNames (M.info x) ++ softNames (M.info x)).foldlM (fun s fn => addDepend n s (fn ++ ".ko".toList))
            ⟨module :: s.added, s.copied ++ [x]⟩

def addModules (n : Nat) (selected : List Text) : Option Added := selected.foldlM (addDepend M n) ⟨[], []⟩

end

/-! ## What is to be copied -/

/-- The file of a module. -/
def Modules.file (M : Modules) (x : Text) : Option Text := M.map.find? fun p => base p = x

def Modules.skips (M : Modules) (p : Text) : Bool := skipped M (base p) p

/-- A module that is not skipped asks for another one that there is. -/
def Needs (M : Modules) (p q : Text) : Prop :=
  M.skips p = false ∧ ∃ n ∈ (M.info p).asked, M.file (n ++ ".ko".toList) = some q

/-- Within reach of the selected files, and not skipped. -/
def Wanted (M : Modules) (selected : List Text) (q : Text) : Prop :=
  (∃ p ∈ selected, Relation.ReflTransGen (Needs M) p q) ∧ M.skips q = false

/-- The words that are taken from the dependencies of a file. -/
def Modules.taken (M : Modules) (p : Text) : List Text := dependNames (M.info p) ++ softNames (M.info p)

/-- A module that is not skipped has another one behind it in the words that are taken. -/
def Takes (M : Modules) (p q : Text) : Prop :=
  M.skips p = false ∧ ∃ n ∈ M.taken p, M.file (n ++ ".ko".toList) = some q

/-- Within reach of the selected files by the words that are taken. -/
def Reached (M : Modules) (selected : List Text) (q : Text) : Prop :=
  ∃ p ∈ selected, Relation.ReflTransGen (Takes M) p q

/-- Each look-up that is made finds a file of that name first, or nothing. None is made for a selected file that has its
turn before a file within reach of the ones in front of it asks for it. -/
def Unmistaken (M : Modules) (selected : List Text) : Prop :=
  ∀ q, Reached M selected q → M.skips q = false → ∀ n ∈ M.taken q,
    (∀ pre p post, selected = pre ++ p :: post → base p = n ++ ".ko".toList → Reached M pre p) →
      ∀ p, M.map.find? (found (n ++ ".ko".toList)) = some p → base p = n ++ ".ko".toList

/-- What a softdep asks for and `sed` takes off is within reach without it, or is skipped. -/
def Otherwise (M : Modules) (selected : List Text) : Prop :=
  ∀ p q, Reached M selected p → Needs M p q → M.skips q = false → Reached M selected q

/-! ## Names -/

theorem behindLast_split {w s t : Text} (h : behindLast w s = some t) : ∃ u, s = u ++ w ++ t := by
  induction s with
  | nil =>
    rw [behindLast] at h
    split at h
    next hw => exact ⟨[], by simp [hw, ← Option.some.inj h]⟩
    · cases h
  | cons c s ih =>
    rw [behindLast] at h
    split at h
    next t' ht' =>
      obtain rfl := Option.some.inj h
      obtain ⟨u, hu⟩ := ih ht'
      exact ⟨c :: u, by rw [hu]; rfl⟩
    · split at h
      next hp =>
        obtain rfl := Option.some.inj h
        exact ⟨[], (List.prefix_iff_eq_append.1 hp).symm⟩
      · cases h

theorem softNames_eq (i : Info) :
    softNames i = i.softdep.flatMap fun l => words ((behindLast ": ".toList l).getD l) := by
  refine congrArg (fun f => i.softdep.flatMap f) (funext fun l => ?_)
  rw [show (".*: ".toList : Text) = ".*".toList ++ ": ".toList from rfl, substitute_behindLast (by decide),
    Option.getD_some]

/-- The names that are taken stand in the dependencies. -/
theorem taken_asked {M : Modules} {p n : Text} (h : n ∈ M.taken p) : n ∈ (M.info p).asked := by
  rw [Modules.taken, softNames_eq] at h
  rcases List.mem_append.1 h with h | h
  · exact List.mem_append_left _ h
  · obtain ⟨l, hl, hn⟩ := List.mem_flatMap.1 h
    refine List.mem_append_right _ (List.mem_flatMap.2 ⟨l, hl, ?_⟩)
    cases hb : behindLast ": ".toList l with
    | none => rwa [hb] at hn
    | some t =>
      obtain ⟨u, hu⟩ := behindLast_split hb
      rw [hb, Option.getD_some] at hn
      rw [hu, show u ++ ": ".toList ++ t = (u ++ [':']) ++ ' ' :: t by simp, words_append_blank rfl]
      exact List.mem_append_right _ hn

theorem takes_needs {M : Modules} {p q : Text} (h : Takes M p q) : Needs M p q := by
  obtain ⟨hs, n, hn, hq⟩ := h
  exact ⟨hs, n, taken_asked hn, hq⟩

/-- A line with `pre:` and `post:` loses the names of `pre:`. -/
theorem softNames_post (pre : List Text) {post : List Text} (hpost : ∀ n ∈ post, IsWord n) (hne : post ≠ [])
    (hcolon : ∀ n ∈ post, ':' ∉ n) (depends firmware : Text) :
    softNames ⟨depends, ["pre: ".toList ++ [' '].intercalate pre ++ " post: ".toList ++ [' '].intercalate post],
      firmware⟩ = post := by
  obtain ⟨n, post, rfl⟩ := List.exists_cons_of_ne_nil hne
  have hlast : ∀ u t : Text, ':' ∉ t → behindLast ": ".toList (u ++ ": ".toList ++ t) = some t := by
    intro u t ht
    have hnone : ∀ v : Text, ':' ∉ v → behindLast ": ".toList v = none := by
      intro v hv
      cases h : behindLast ": ".toList v with
      | none => rfl
      | some t =>
        obtain ⟨u, hu⟩ := behindLast_split h
        exact absurd (by rw [hu]; simp) hv
    induction u with
    | nil =>
      have hspace : behindLast ": ".toList (' ' :: t) = none := hnone _ (by simpa using ht)
      change behindLast _ (':' :: ' ' :: t) = _
      rw [behindLast, hspace]
      exact if_pos ⟨t, rfl⟩
    | cons c u ih =>
      rw [List.cons_append, List.cons_append, behindLast, ih]
  have hjoined : ':' ∉ [' '].intercalate (n :: post) := by
    rw [mem_intercalate (by decide)]
    rintro ⟨w, hw, hc⟩
    exact hcolon w hw hc
  rw [softNames_eq, List.flatMap_singleton]
  have hline : "pre: ".toList ++ [' '].intercalate pre ++ " post: ".toList ++ [' '].intercalate (n :: post) =
      ("pre: ".toList ++ [' '].intercalate pre ++ " post".toList) ++ ": ".toList ++ [' '].intercalate (n :: post) := by
    simp
  rw [hline, hlast _ _ hjoined, Option.getD_some, words_intercalate rfl hpost]

/-! ## Files -/

section
variable {M : Modules}

theorem base_slash (p : Text) : '/' ∉ base p := by
  intro h
  rw [base] at h
  cases hl : (p.splitOn '/').getLast? with
  | none => simp [hl] at h
  | some x =>
    rw [hl, Option.getD_some] at h
    exact splitOn_parts '/' p x (List.mem_of_getLast? hl) h

theorem base_of_not_mem {x : Text} (h : '/' ∉ x) : base x = x := by
  rw [base, splitOn_single h]
  rfl

theorem base_split {p : Text} (h : '/' ∈ p) : ∃ u, p = u ++ '/' :: base p := by
  obtain ⟨init, x, hx⟩ := List.eq_nil_or_concat' (p.splitOn '/') |>.resolve_left (List.splitOn_ne_nil '/' p)
  have hp : ['/'].intercalate (p.splitOn '/') = p := List.intercalate_splitOn '/'
  have hbase : base p = x := by rw [base, hx, List.getLast?_concat, Option.getD_some]
  rw [hx] at hp
  by_cases hinit : init = []
  · subst hinit
    rw [List.nil_append, List.intercalate_singleton] at hp
    exact absurd (hp ▸ h) (hbase ▸ base_slash p)
  · rw [intercalate_append hinit (by simp), List.intercalate_singleton, List.append_assoc] at hp
    exact ⟨['/'].intercalate init, by rw [hbase]; exact hp.symm⟩

theorem file_some {x p : Text} (h : M.file x = some p) : p ∈ M.map ∧ base p = x :=
  ⟨List.mem_of_find?_eq_some h, by simpa using List.find?_some h⟩

/-- The files have different names. -/
theorem file_base {p : Text} (hp : p ∈ M.map) : M.file (base p) = some p := by
  cases h : M.file (base p) with
  | none =>
    have hnone := List.find?_eq_none.1 h p hp
    simp at hnone
  | some q =>
    obtain ⟨hq, hbase⟩ := file_some h
    rw [List.inj_on_of_nodup_map M.once hq hp hbase]

theorem plain_name {w : Text} (hw : ∀ c ∈ w, nameChar c = true) : PlainPattern w ∧ '/' ∉ w := by
  have hspecial : ∀ d ∈ special, nameChar d = false := by decide
  refine ⟨fun c hc => ?_, fun h => ?_⟩
  · rw [List.contains_eq_mem, decide_eq_false_iff_not]
    intro hmem
    have hno := hspecial c hmem
    rw [hw c hc] at hno
    cases hno
  · have hno := hspecial '/' (by decide)
    rw [hw '/' h] at hno
    cases hno

/-- A file with the name has a match. -/
theorem found_of_base {n p : Text} (hn : ∀ c ∈ n, nameChar c = true) (hp : '/' ∈ p)
    (hbase : base p = n ++ ".ko".toList) : found (n ++ ".ko".toList) p = true := by
  obtain ⟨u, hu⟩ := base_split hp
  rw [hbase] at hu
  have hregex : regex ("\\/".toList ++ (n ++ ".ko".toList) ++ ".*".toList) =
      some ⟨false, ('/' :: n).map literal ++ (.chr (fun _ => true) .one :: "ko".toList.map literal ++
        [.chr (fun _ => true) .star])⟩ := by
    have hplain := (plain_name hn).1
    have hlen : ("\\/".toList ++ (n ++ ".ko".toList) ++ ".*".toList).length = (n.length + 6) + 1 := by simp
    have hstar : (n ++ ".ko.*".toList).head? ≠ some '*' := by
      cases n with
      | nil => decide
      | cons d n =>
        intro h
        have hd := hn d List.mem_cons_self
        obtain rfl : d = '*' := by simpa using h
        revert hd
        decide
    have hdrop : (n ++ ".ko.*".toList).dropWhile (· == '*') = n ++ ".ko.*".toList := by
      cases h : n ++ ".ko.*".toList with
      | nil => rfl
      | cons d v =>
        rw [h] at hstar
        exact List.dropWhile_cons_of_neg (by simpa using hstar)
    have htext : "\\/".toList ++ (n ++ ".ko".toList) ++ ".*".toList = '\\' :: '/' :: (n ++ ".ko.*".toList) := by simp
    have hatom : atom ('\\' :: '/' :: (n ++ ".ko.*".toList)) = some ((· == '/'), n ++ ".ko.*".toList) := rfl
    rw [regex, if_neg (by rw [htext]; simp), hlen, htext, regexUpTo, if_neg (by simp), if_neg (by simp), hatom]
    simp only [if_neg hstar, hdrop, regexUpTo_append hplain (t := ".ko.*".toList) (by decide) 6]
    rfl
  rw [found, hregex, Option.bind_some, Regex.find, if_neg (by simp)]
  have herr : ∀ t, run p (('/' :: n).map literal ++ (.chr (fun _ => true) .one :: "ko".toList.map literal ++
      [.chr (fun _ => true) .star])) [] t ≠ .error := by
    intro t
    rw [run_literal]
    split
    · cases hd : t.drop ('/' :: n).length with
      | nil => simp
      | cons c s =>
        rw [List.cons_append, run_one, if_pos rfl, run_literal]
        split
        · rw [run_last]
          simp
        · simp
    · simp
  have hok : run p (('/' :: n).map literal ++ (.chr (fun _ => true) .one :: "ko".toList.map literal ++
      [.chr (fun _ => true) .star])) [] ('/' :: n ++ ".ko".toList) = .ok ([], []) := by
    rw [run_literal, if_pos (List.prefix_append _ _), List.drop_left]
    rfl
  obtain ⟨hit, hhit⟩ := search_finds herr hok u
  have hline : u ++ ('/' :: n ++ ".ko".toList) = p := by rw [hu]; rfl
  rw [hline] at hhit
  rw [hhit]
  rfl

/-- A look-up that finds no other file gives the file of the name. -/
theorem lookup_eq {q n : Text} (hq : q ∈ M.map) (hn : n ∈ (M.info q).asked)
    (hname : ∀ p, M.map.find? (found (n ++ ".ko".toList)) = some p → base p = n ++ ".ko".toList) :
    M.map.find? (found (n ++ ".ko".toList)) = M.file (n ++ ".ko".toList) := by
  cases hfind : M.map.find? (found (n ++ ".ko".toList)) with
  | some p =>
    rw [← hname p hfind]
    exact (file_base (List.mem_of_find?_eq_some hfind)).symm
  | none =>
    refine (List.find?_eq_none.2 fun p hp hbase => ?_).symm
    exact List.find?_eq_none.1 hfind p hp
      (found_of_base (M.plain q hq n hn) (M.slash p hp) (of_decide_eq_true hbase))

/-! ## The recursion as a visit -/

variable (M) in
/-- The names behind a name: those that are taken from its file, if that is not skipped. -/
def nextNames (k : Text) : List Text :=
  match M.file k with
  | none => []
  | some p => if M.skips p then [] else (M.taken p).map (· ++ ".ko".toList)

variable (M) in
/-- The files that are copied for the marked names, the last one first. -/
def copies (seen : List Text) : List Text := seen.reverse.filterMap fun k => (M.file k).filter fun p => !M.skips p

/-- What `add_depend` is called for: a file, or a name that is asked for. -/
def Argument (M : Modules) (x : Text) : Prop :=
  x ∈ M.map ∨ ∃ q ∈ M.map, ∃ n ∈ (M.info q).asked, x = n ++ ".ko".toList

/-- Either way the file of its last part is taken. -/
theorem resolve_argument {x : Text} (hx : Argument M x)
    (hname : x = base x → ∀ p, M.map.find? (found x) = some p → base p = x) :
    (if x = base x then M.map.find? (found x) else some x) = M.file (base x) := by
  rcases hx with hx | ⟨q, hq, n, hn, rfl⟩
  · rw [if_neg, file_base hx]
    intro h
    exact base_slash x (h ▸ M.slash x hx)
  · have hbase : base (n ++ ".ko".toList) = n ++ ".ko".toList :=
      base_of_not_mem (by rw [List.mem_append, not_or]; exact ⟨(plain_name (M.plain q hq n hn)).2, by decide⟩)
    rw [hbase, if_pos rfl, lookup_eq hq hn (hname hbase.symm)]

/-- What a module takes, as names of files. -/
theorem nextNames_file {k p : Text} (hfile : M.file k = some p) (hs : M.skips p = false) :
    nextNames M k = (M.taken p).map (· ++ ".ko".toList) := by
  rw [nextNames, hfile]
  exact if_neg (by simp [hs])

/-- **The recursion is a visit of the names**: what is copied follows what is marked. Behind the argument each name is
marked before, or its look-up is right. -/
theorem addDepend_visit {n : Nat} {start seen : List Text} {x : Text} (hx : Argument M x)
    (hname : x = base x → base x ∉ seen → ∀ p, M.map.find? (found x) = some p → base p = x)
    (hstart : ∀ k ∈ start, k ∈ base x :: seen)
    (hbehind : ∀ k, Relation.TransGen (Search.Behind (nextNames M)) (base x) k → k ∉ start →
      ∀ p, M.map.find? (found k) = some p → base p = k) :
    addDepend M n ⟨seen, copies M seen⟩ x =
      (Search.visit (nextNames M) n seen (base x)).map fun seen => ⟨seen, copies M seen⟩ := by
  induction n generalizing seen x with
  | zero => rfl
  | succ n ih =>
    rw [addDepend, Search.visit]
    by_cases hk : base x ∈ seen
    · rw [if_pos hk, if_pos hk]
      rfl
    simp only [if_neg hk, resolve_argument hx fun h => hname h hk]
    have hcopies : copies M (base x :: seen) =
        copies M seen ++ ((M.file (base x)).filter fun p => !M.skips p).toList := by
      rw [copies, List.reverse_cons, List.filterMap_append, copies, List.filterMap_cons]
      cases (M.file (base x)).filter fun p => !M.skips p <;> rfl
    cases hfile : M.file (base x) with
    | none =>
      have hnext : nextNames M (base x) = [] := by rw [nextNames, hfile]
      rw [hnext, List.foldlM_nil]
      rw [hfile] at hcopies
      simp [hcopies]
    | some p =>
      have hp := (file_some hfile).1
      have hmodule : skipped M (base x) p = M.skips p := by rw [Modules.skips, (file_some hfile).2]
      simp only [hmodule]
      by_cases hs : M.skips p = true
      · have hnext : nextNames M (base x) = [] := by
          rw [nextNames, hfile]
          exact if_pos hs
        rw [if_pos hs, hnext, List.foldlM_nil]
        rw [hfile] at hcopies
        simp [hcopies, hs]
      · have hnext := nextNames_file hfile (by simpa using hs)
        have hcopied : copies M (base x :: seen) = copies M seen ++ [p] := by
          rw [hcopies, hfile]
          simp [hs]
        rw [if_neg hs, hnext, ← hcopied]
        -- the names that are left, with what is marked by now
        suffices hgo : ∀ ns : List Text, (∀ a ∈ ns, a ∈ M.taken p) → ∀ mid : List Text,
            (∀ k ∈ base x :: seen, k ∈ mid) →
            ns.foldlM (fun s fn => addDepend M n s (fn ++ ".ko".toList)) ⟨mid, copies M mid⟩ =
              ((ns.map (· ++ ".ko".toList)).foldlM (Search.visit (nextNames M) n) mid).map
                fun seen => (⟨seen, copies M seen⟩ : Added) from
          hgo _ (fun a ha => ha) _ fun k hk => hk
        intro ns
        induction ns with
        | nil => intro _ mid _; rfl
        | cons a ns ihns =>
          intro hns mid hmid
          obtain ⟨ha, hns⟩ := List.forall_mem_cons.1 hns
          have hasked := taken_asked ha
          have hbase : base (a ++ ".ko".toList) = a ++ ".ko".toList :=
            base_of_not_mem (by
              rw [List.mem_append, not_or]
              exact ⟨(plain_name (M.plain p hp a hasked)).2, by decide⟩)
          have hedge : Search.Behind (nextNames M) (base x) (a ++ ".ko".toList) := by
            rw [Search.Behind, hnext]
            exact List.mem_map.2 ⟨a, ha, rfl⟩
          have hcall := @ih mid (a ++ ".ko".toList) (.inr ⟨p, hp, a, hasked, rfl⟩)
            (fun _ hnew => hbehind _ (.single hedge) fun hin => hnew (hbase.symm ▸ hmid _ (hstart _ hin)))
            (fun k hk => List.mem_cons_of_mem _ (hmid k (hstart k hk)))
            (fun k hk => hbehind k (.head (hbase.symm ▸ hedge) hk))
          rw [List.foldlM_cons, List.map_cons, List.foldlM_cons, hcall, hbase]
          cases hvisit : Search.visit (nextNames M) n mid (a ++ ".ko".toList) with
          | none => rfl
          | some mid' => exact ihns hns mid' fun k hk => (Search.visit_spec hvisit).keeps k (hmid k hk)

/-! ## Within reach -/

theorem mem_copies {seen : List Text} {q : Text} :
    q ∈ copies M seen ↔ q ∈ M.map ∧ base q ∈ seen ∧ M.skips q = false := by
  rw [copies, List.mem_filterMap]
  constructor
  · rintro ⟨k, hk, h⟩
    obtain ⟨hfile, hs⟩ := Option.filter_eq_some_iff.1 h
    obtain ⟨hmem, rfl⟩ := file_some hfile
    exact ⟨hmem, List.mem_reverse.1 hk, by simpa using hs⟩
  · rintro ⟨hmem, hseen, hs⟩
    exact ⟨base q, List.mem_reverse.2 hseen, by rw [file_base hmem]; simp [hs]⟩

theorem takes_mem {p q : Text} (h : Takes M p q) : q ∈ M.map := by
  obtain ⟨-, n, -, hq⟩ := h
  exact (file_some hq).1

theorem behind_of_takes {p q : Text} (hp : p ∈ M.map) (h : Takes M p q) :
    Search.Behind (nextNames M) (base p) (base q) := by
  obtain ⟨hs, n, hn, hq⟩ := h
  rw [Search.Behind, nextNames, file_base hp, (file_some hq).2]
  simp only [hs, Bool.false_eq_true, if_false]
  exact List.mem_map.2 ⟨n, hn, rfl⟩

theorem takes_of_behind {k : Text} {q : Text} {l : Text} (h : Search.Behind (nextNames M) k l)
    (hq : M.file l = some q) : ∃ p, M.file k = some p ∧ Takes M p q := by
  rw [Search.Behind, nextNames] at h
  cases hp : M.file k with
  | none => simp [hp] at h
  | some p =>
    simp only [hp] at h
    by_cases hs : M.skips p = true
    · simp [hs] at h
    · rw [if_neg hs] at h
      obtain ⟨n, hn, rfl⟩ := List.mem_map.1 h
      exact ⟨p, rfl, by simpa using hs, n, hn, hq⟩

/-- Within reach by names is within reach by files. -/
theorem reach_names_iff {p q : Text} (hp : p ∈ M.map) (hq : q ∈ M.map) :
    Relation.ReflTransGen (Search.Behind (nextNames M)) (base p) (base q) ↔ Relation.ReflTransGen (Takes M) p q := by
  constructor
  · intro h
    suffices hgo : ∀ k, Relation.ReflTransGen (Search.Behind (nextNames M)) (base p) k → ∀ r, M.file k = some r →
        Relation.ReflTransGen (Takes M) p r from hgo _ h q (file_base hq)
    intro k hk
    induction hk with
    | refl =>
      intro r hr
      rw [file_base hp] at hr
      rw [Option.some.inj hr]
    | tail _ hlast ih =>
      intro r hr
      obtain ⟨m, hm, htakes⟩ := takes_of_behind hlast hr
      exact (ih m hm).tail htakes
  · intro h
    have hgo : q ∈ M.map ∧ Relation.ReflTransGen (Search.Behind (nextNames M)) (base p) (base q) := by
      clear hq
      induction h with
      | refl => exact ⟨hp, .refl⟩
      | tail _ hlast ih => exact ⟨takes_mem hlast, ih.2.tail (behind_of_takes ih.1 hlast)⟩
    exact hgo.2

variable (M) in
/-- All names that can be asked for. -/
def allNames (selected : List Text) : List Text :=
  selected.map base ++ M.map.flatMap fun q => (M.info q).asked.map (· ++ ".ko".toList)

theorem nextNames_allNames (selected : List Text) : ∀ k ∈ allNames M selected, ∀ l ∈ nextNames M k,
    l ∈ allNames M selected := by
  intro k _ l hl
  rw [nextNames] at hl
  cases hp : M.file k with
  | none => simp [hp] at hl
  | some p =>
    simp only [hp] at hl
    split at hl
    · cases hl
    · obtain ⟨n, hn, rfl⟩ := List.mem_map.1 hl
      refine List.mem_append_right _ (List.mem_flatMap.2 ⟨p, (file_some hp).1, ?_⟩)
      exact List.mem_map.2 ⟨n, taken_asked hn, rfl⟩

/-- At its turn, a selected file has nothing behind it whose look-up is made and wrong. -/
theorem unmistaken_turn {selected : List Text} (hun : Unmistaken M selected) (hsel : ∀ p ∈ selected, p ∈ M.map)
    {pre post : List Text} {p : Text} (hsplit : selected = pre ++ p :: post) {k : Text}
    (hk : Relation.TransGen (Search.Behind (nextNames M)) (base p) k) (hnew : k ∉ (pre ++ [p]).map base) :
    ∀ f, M.map.find? (found k) = some f → base f = k := by
  have hp : p ∈ M.map := hsel p (by simp [hsplit])
  obtain ⟨m, hm, hlast⟩ := Relation.TransGen.tail'_iff.1 hk
  obtain ⟨q, hq, hskips, n, hn, rfl⟩ : ∃ q, M.file m = some q ∧ M.skips q = false ∧
      ∃ n ∈ M.taken q, n ++ ".ko".toList = k := by
    rw [Search.Behind, nextNames] at hlast
    cases hfile : M.file m with
    | none => simp [hfile] at hlast
    | some q =>
      rw [hfile] at hlast
      by_cases hs : M.skips q = true
      · simp [hs] at hlast
      · exact ⟨q, rfl, by simpa using hs, by simpa [hs] using hlast⟩
  obtain ⟨hqmem, rfl⟩ := file_some hq
  have hreach : Relation.ReflTransGen (Takes M) p q := (reach_names_iff hp hqmem).1 hm
  refine hun q ⟨p, by simp [hsplit], hreach⟩ hskips n hn fun pre' p' post' hsplit' hbase => ?_
  have hp' : p' ∈ M.map := hsel p' (by simp [hsplit'])
  -- `p'` has its turn behind `p`, and so behind the file that asks for it
  have hfront : pre ++ [p] <+: selected := ⟨post, by simp [hsplit]⟩
  have hfront' : pre' ++ [p'] <+: selected := ⟨post', by simp [hsplit']⟩
  have hlater : pre ++ [p] <+: pre' := by
    rcases List.prefix_or_prefix_of_prefix hfront hfront' with h | h
    · rcases List.prefix_concat_iff.1 h with heq | h
      · exact absurd (hbase ▸ List.mem_map_of_mem (heq ▸ List.mem_append_right _ List.mem_cons_self)) hnew
      · exact h
    · exact absurd (hbase ▸ List.mem_map_of_mem (h.subset (List.mem_append_right _ List.mem_cons_self))) hnew
  exact ⟨p, hlater.subset (by simp), hreach.tail ⟨hskips, n, hn, hbase ▸ file_base hp'⟩⟩

/-- **What is copied**: the recursion returns, and the files are those within reach by the words that are taken. -/
theorem addModules_spec {selected : List Text} (hun : Unmistaken M selected) (hsel : ∀ p ∈ selected, p ∈ M.map)
    {n : Nat} (hn : (allNames M selected).length < n) : ∃ s, addModules M n selected = some s ∧ ∀ q, q ∈ s.copied ↔
      Reached M selected q ∧ M.skips q = false := by
  have hstart : ∀ k ∈ selected.map base, k ∈ allNames M selected := fun k hk => List.mem_append_left _ hk
  obtain ⟨seen, hseen, hmem⟩ := Search.visitAll_iff (nextNames_allNames selected) hstart hn
  have hfold : ∀ (post pre : List Text), selected = pre ++ post → ∀ seen : List Text, (∀ p ∈ pre, base p ∈ seen) →
      post.foldlM (addDepend M n) ⟨seen, copies M seen⟩ =
        ((post.map base).foldlM (Search.visit (nextNames M) n) seen).map
          fun seen => (⟨seen, copies M seen⟩ : Added) := by
    intro post
    induction post with
    | nil => intro pre _ seen _; rfl
    | cons p post ih =>
      intro pre hsplit seen hpre
      have hp : p ∈ M.map := hsel p (by simp [hsplit])
      have hcall := @addDepend_visit M n ((pre ++ [p]).map base) seen p (.inl hp)
        (fun h => absurd (h ▸ M.slash p hp) (base_slash p))
        (fun k hk => by
          obtain ⟨r, hr, rfl⟩ := List.mem_map.1 hk
          rcases List.mem_append.1 hr with hr | hr
          · exact List.mem_cons_of_mem _ (hpre r hr)
          · rw [List.mem_singleton.1 hr]
            exact List.mem_cons_self)
        (fun k hk hnew => unmistaken_turn hun hsel hsplit hk hnew)
      rw [List.foldlM_cons, List.map_cons, List.foldlM_cons, hcall]
      cases hvisit : Search.visit (nextNames M) n seen (base p) with
      | none => rfl
      | some mid =>
        have hspec := Search.visit_spec hvisit
        refine ih (pre ++ [p]) (by simp [hsplit]) mid fun r hr => ?_
        rcases List.mem_append.1 hr with hr | hr
        · exact hspec.keeps _ (hpre r hr)
        · rw [List.mem_singleton.1 hr]
          exact hspec.marks _ List.mem_cons_self
  have hrun := hfold selected [] rfl [] (by simp)
  rw [hseen] at hrun
  refine ⟨_, hrun, fun q => ?_⟩
  change q ∈ copies M seen ↔ _
  rw [mem_copies, hmem]
  constructor
  · rintro ⟨hq, ⟨k, hk, hreach⟩, hs⟩
    obtain ⟨p, hp, rfl⟩ := List.mem_map.1 hk
    exact ⟨⟨p, hp, (reach_names_iff (hsel p hp) hq).1 hreach⟩, hs⟩
  · rintro ⟨⟨p, hp, hreach⟩, hs⟩
    have hq : q ∈ M.map := by
      rcases Relation.ReflTransGen.cases_tail hreach with rfl | ⟨m, -, hlast⟩
      · exact hsel _ hp
      · exact takes_mem hlast
    exact ⟨hq, ⟨base p, List.mem_map.2 ⟨p, hp, rfl⟩, (reach_names_iff (hsel p hp) hq).2 hreach⟩, hs⟩

/-- **When the copied files are the ones within reach**: where no look-up finds another file, exactly if what `sed`
takes off a softdep is within reach without it, or is skipped. -/
theorem modules_iff {selected : List Text} (hun : Unmistaken M selected) (hsel : ∀ p ∈ selected, p ∈ M.map) :
    ∃ N, ∀ n, N < n → ∃ s, addModules M n selected = some s ∧
      ((∀ q, q ∈ s.copied ↔ Wanted M selected q) ↔ Otherwise M selected) := by
  refine ⟨(allNames M selected).length, fun n hn => ?_⟩
  obtain ⟨s, hrun, hcopied⟩ := addModules_spec hun hsel hn
  refine ⟨s, hrun, ?_⟩
  constructor
  · rintro h p q ⟨r, hr, hreach⟩ hneeds hs
    have hwanted : Wanted M selected q := by
      refine ⟨⟨r, hr, ?_⟩, hs⟩
      exact (hreach.lift id fun _ _ => takes_needs).tail hneeds
    exact ((hcopied q).1 ((h q).2 hwanted)).1
  · intro h q
    rw [hcopied q]
    constructor
    · rintro ⟨⟨r, hr, hreach⟩, hs⟩
      exact ⟨⟨r, hr, hreach.lift id fun _ _ => takes_needs⟩, hs⟩
    · rintro ⟨⟨r, hr, hreach⟩, hs⟩
      refine ⟨?_, hs⟩
      -- the last module of the way may be skipped, those in front of it are not
      induction hreach with
      | refl => exact ⟨r, hr, .refl⟩
      | tail _ hlast ih => exact h _ _ (ih hlast.1) hlast hs

end

def ext4 : Text := "/lib/modules/6/fs/ext4.ko".toList
def jbd2 : Text := "/lib/modules/6/fs/jbd2.ko".toList
def crc32c : Text := "/lib/modules/6/crypto/crc32c.ko".toList

/-- The dependencies go round, and one name has no file. -/
def round : Modules where
  map := [jbd2, ext4, crc32c]
  info p :=
    if p = ext4 then ⟨"jbd2,mbcache".toList, ["pre: crc32c".toList], []⟩
    else if p = jbd2 then ⟨"ext4".toList, [], []⟩
    else ⟨[], [], []⟩
  firmware := false
  vital _ := false
  optional _ := false
  present _ := false
  slash := by decide
  once := by decide +kernel
  plain := by decide +kernel

/-- `pre:` and `post:` in one line. -/
def twoKinds : Modules where
  map := [jbd2, ext4, crc32c]
  info p := if p = ext4 then ⟨[], ["pre: crc32c post: jbd2".toList], []⟩ else ⟨[], [], []⟩
  firmware := false
  vital _ := false
  optional _ := false
  present _ := false
  slash := by decide
  once := by decide +kernel
  plain := by decide +kernel

theorem unmistaken_round : Unmistaken round [ext4] := by
  have hall : ∀ q ∈ round.map, ∀ n ∈ round.taken q, ∀ p ∈ round.map,
      found (n ++ ".ko".toList) p = true → base p = n ++ ".ko".toList := by decide +kernel
  rintro q hq - n hn - p hp
  have hmem : q ∈ round.map := by
    obtain ⟨r, hr, hreach⟩ := hq
    rcases Relation.ReflTransGen.cases_tail hreach with rfl | ⟨m, -, hlast⟩
    · rw [List.mem_singleton.1 hr]
      decide
    · exact takes_mem hlast
  exact hall q hmem n hn p (List.mem_of_find?_eq_some hp) (List.find?_some hp)

theorem modules_round : ∃ N, ∀ n, N < n → ∃ s, addModules round n [ext4] = some s ∧
    ((∀ q, q ∈ s.copied ↔ Wanted round [ext4] q) ↔ Otherwise round [ext4]) :=
  modules_iff (M := round) unmistaken_round (by decide)

example : (addModules round 9 [ext4]).map Added.copied = some [ext4, jbd2, crc32c] := by decide +kernel

/-- The module of `pre:` is asked for, and not copied. -/
theorem pre_left : (addModules twoKinds 9 [ext4]).map Added.copied = some [ext4, jbd2] ∧
    Wanted twoKinds [ext4] crc32c ∧ crc32c ∉ [ext4, jbd2] := by
  have hneeds : Needs twoKinds ext4 crc32c :=
    ⟨by decide +kernel, "crc32c".toList, by decide +kernel, by decide +kernel⟩
  refine ⟨by decide +kernel, ⟨⟨ext4, List.mem_cons_self, .single hneeds⟩, by decide +kernel⟩, by decide⟩

end T2Sde.Initrd
