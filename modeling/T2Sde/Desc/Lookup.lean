import T2Sde.Desc.Overlay
/-!
# The fast lookup (`scripts/Emerge-Pkg`)

`get_desc` takes the last line of all the files that is written `[k]`, as it stands. The variable of `parse_desc` ends
with the last line that is read under `k`. They agree if the last line under `k` is written `[k]`, no line before
runs into it, and its value is plain.

| here | there |
| --- | --- |
| `getDesc`  | `get_desc` :106-112 |
| `recorded` | the version in `/var/adm/packages` (`scripts/Build-Pkg`) :871 |

* `lastExact_eq_lastRead` — one letter.
* `recorded_eq` — the version that is built.
* `getDesc_agrees` — **when lookup and parser agree**.
-/
namespace T2Sde.Desc
open Shell

/-- The names of the files on the command line of `grep`. -/
structure Paths where
  package : Text
  architecture : Text
  target : Text
  noSpace : ' ' ∉ package ∧ ' ' ∉ architecture ∧ ' ' ∉ target

/-- `grep -a "^\[$tag\] "` of one of several files -/
def grepTag (tag path : Text) (f : File) : List Text :=
  (f.lines.filter fun l => (bracketed tag ++ [' ']).isPrefixOf l).map fun l => path ++ ':' :: l

def getDesc (tag : Text) (p : Paths) (o : Overlays) : Text :=
  let lines := grepTag tag p.package o.package ++
    (o.architecture.toList.flatMap (grepTag tag p.architecture) ++ o.target.toList.flatMap (grepTag tag p.target))
  -- cut -f2- -d' ' | tail -n 1
  (lines.map behindSpace).getLast?.getD []

/-- `$ver${extraver:+ $extraver}` -/
def recorded (v : Vars) : Text := v.ver ++ if v.extraver = [] then [] else ' ' :: v.extraver

/-- The lookup of each letter gives the last line of its variable, and that of `V` the version that is built. -/
def Agrees (p : Paths) (o : Overlays) : Prop :=
  ∃ v, parseDesc o.files = some v ∧
    (∀ c : Char, Lua.isUpper c = true → getDesc [c] p o = lastLine ((v.desc [c]).getD [])) ∧
    getDesc ['V'] p o = recorded v

/-! ## The last line -/

/-- The values of the lines that are written with the tag. -/
def exactFrom (tag : Text) (lines : List Text) : List Text :=
  lines.filterMap fun l => (tagLine l).bind fun x => if x.1 = tag then some x.2 else none

def lastExact (tag : Text) (files : List File) : Option Text := (files.flatMap fun f => exactFrom tag f.tagged).getLast?

def lastRead (k : Text) (files : List File) : Option Text := (lastReads k files).bind List.getLast?

/-- The last line under a key: whether a line runs into it, the line, and the lines behind. -/
def lastUnder (k : Text) : Bool → List Text → Option (Bool × Text × List Text)
  | _, [] => none
  | into, l :: ls =>
    (lastUnder k (runsOn l) ls).or
      (if ((tagLine l).bind fun x => key x.1) = some k then some (into, l, ls) else none)

/-- The last line under the letter is written with it, stands on its own, and is plain. -/
def Straight (k : Text) (files : List File) : Prop :=
  ∃ f l ls v, lastWith k files = some f ∧ lastUnder k false f.tagged = some (false, l, ls) ∧ tagLine l = some (k, v) ∧
    PlainValue v

/-- The last line under the letter has a longer tag, or it is lost. -/
def Odd (k : Text) (files : List File) : Prop :=
  ∃ f into l ls t v, lastWith k files = some f ∧ lastUnder k false f.tagged = some (into, l, ls) ∧
    tagLine l = some (t, v) ∧ (t ≠ k ∨ into = true ∨ joined l ls = none)

/-- There is no line under the letter, or the last one is straight, or it is odd and others say the same. -/
def Regular (k : Text) (files : List File) : Prop :=
  lastWith k files = none ∨ Straight k files ∨
    Odd k files ∧ (lastExact k files).getD [] = (lastRead k files).getD []

theorem key_letter {c : Char} : key [c] = some [c] := by
  simp [key]

theorem lastUnder_none {k : Text} {lines : List Text} {into : Bool} (htag : ∀ l ∈ lines, (tagLine l).isSome = true)
    (h : lastUnder k into lines = none) : valuesFrom k lines = [] := by
  induction lines generalizing into with
  | nil => rfl
  | cons l ls ih =>
    obtain ⟨hl, hls⟩ := List.forall_mem_cons.1 htag
    obtain ⟨⟨t, v⟩, ht⟩ := Option.isSome_iff_exists.1 hl
    rw [lastUnder, Option.or_eq_none_iff] at h
    have hk : key t ≠ some k := by simpa [ht] using h.2
    have hrest := ih hls h.1
    unfold valuesFrom at hrest ⊢
    simp [ht, hk, hrest]

theorem exactFrom_nil {k : Text} (hk : key k = some k) {lines : List Text} (h : valuesFrom k lines = []) :
    exactFrom k lines = [] := by
  unfold valuesFrom at h
  unfold exactFrom
  rw [List.filterMap_eq_nil_iff] at h ⊢
  intro l hl
  have hl := h l hl
  cases ht : tagLine l with
  | none => rfl
  | some x =>
    have hne : x.1 ≠ k := by
      rintro rfl
      simp [ht, hk] at hl
    simp [hne]

/-- The last line under the key, read from its place. -/
theorem lastUnder_some {k : Text} (hk : key k = some k) {lines : List Text} {into into' : Bool} {l : Text}
    {ls : List Text} (htag : ∀ l ∈ lines, (tagLine l).isSome = true)
    (h : lastUnder k into lines = some (into', l, ls)) :
    l ∈ lines ∧ (∀ l' ∈ ls, l' ∈ lines) ∧ ((tagLine l).bind fun x => key x.1) = some k ∧
      (∀ t v, tagLine l = some (t, v) → t = k → (exactFrom k lines).getLast? = some v) ∧
      ∀ w, into' = false → (joined l ls).bind (fun m => (filed m).bind fun x => if x.1 = k then some x.2 else none) =
        some w → (readsFrom k into lines).getLast? = some w := by
  induction lines generalizing into with
  | nil => simp [lastUnder] at h
  | cons x xs ih =>
    obtain ⟨hx, hxs⟩ := List.forall_mem_cons.1 htag
    have hexact : exactFrom k (x :: xs) =
        ((tagLine x).bind fun y => if y.1 = k then some y.2 else none).toList ++ exactFrom k xs := by
      unfold exactFrom
      rw [List.filterMap_cons]
      split <;> simp_all
    have hreads : ∃ vs, readsFrom k into (x :: xs) = vs ++ readsFrom k (runsOn x) xs ∧
        ∀ w, into = false → (joined x xs).bind (fun m => (filed m).bind fun y => if y.1 = k then some y.2 else none) =
          some w → vs = [w] := by
      cases into with
      | true => exact ⟨[], rfl, by simp⟩
      | false =>
        refine ⟨((joined x xs).bind fun m => (filed m).bind fun y => if y.1 = k then some y.2 else none).toList, ?_,
          fun w _ hw => by simp [hw]⟩
        rw [readsFrom, starts, if_neg (by simp), List.filterMap_cons]
        split <;> simp_all [readsFrom]
    obtain ⟨vs, hvs, hvs_one⟩ := hreads
    rw [lastUnder] at h
    cases hrest : lastUnder k (runsOn x) xs with
    | some y =>
      rw [hrest, Option.some_or, Option.some.injEq] at h
      subst h
      obtain ⟨hmem, hls, hkey, hlast, hread⟩ := ih hxs hrest
      refine ⟨List.mem_cons_of_mem _ hmem, fun l' hl' => List.mem_cons_of_mem _ (hls l' hl'), hkey, ?_, ?_⟩
      · intro t v ht htk
        rw [hexact, List.getLast?_append, hlast t v ht htk, Option.some_or]
      · intro w hinto hw
        rw [hvs, List.getLast?_append, hread w hinto hw, Option.some_or]
    | none =>
      rw [hrest, Option.none_or] at h
      split at h
      next hkey =>
        simp only [Option.some.injEq, Prod.mk.injEq] at h
        obtain ⟨rfl, rfl, rfl⟩ := h
        have hnone := lastUnder_none hxs hrest
        refine ⟨List.mem_cons_self, fun l' hl' => List.mem_cons_of_mem _ hl', hkey, ?_, ?_⟩
        · intro t v ht htk
          rw [hexact, exactFrom_nil hk hnone]
          simp [ht, htk]
        · intro w hinto hw
          have hnil : readsFrom k (runsOn x) xs = [] := by
            have hlen := (readsFrom_eq (k := k) hxs (runsOn x)).1
            rw [hnone] at hlen
            exact List.eq_nil_of_length_eq_zero (by simpa using hlen)
          rw [hvs, hnil, hvs_one w hinto hw]
          rfl
      · simp at h

/-! ## The last file -/

theorem lastExact_cons (k : Text) (f : File) (files : List File) :
    lastExact k (f :: files) = (lastExact k files).or (exactFrom k f.tagged).getLast? := by
  rw [lastExact, List.flatMap_cons, List.getLast?_append]
  rfl

theorem lastExact_of_lastWith {k : Text} (hk : key k = some k) (files : List File) :
    (lastWith k files = none → lastExact k files = none) ∧
      ∀ f v, lastWith k files = some f → (exactFrom k f.tagged).getLast? = some v → lastExact k files = some v := by
  induction files with
  | nil => exact ⟨fun _ => rfl, fun f v hf => by simp [lastWith] at hf⟩
  | cons g files ih =>
    rw [lastWith_cons, lastExact_cons]
    cases hw : lastWith k files with
    | some f =>
      refine ⟨by simp, fun f' v hf' hv => ?_⟩
      obtain rfl : f = f' := by simpa using hf'
      rw [ih.2 f v hw hv]
      rfl
    | none =>
      rw [ih.1 hw, Option.none_or, Option.none_or]
      by_cases hvalues : values k g = []
      · have hnil := exactFrom_nil hk (values_eq k g ▸ hvalues)
        simp [hvalues, hnil]
      · refine ⟨by simp [hvalues], fun f v hf hv => ?_⟩
        obtain rfl : g = f := by simpa [hvalues] using hf
        exact hv

/-- **One letter**: the last line that is written with it is the last line read under it exactly if it is straight, or
odd and repeated. -/
theorem lastExact_eq_lastRead {k : Text} (hk : key k = some k) (files : List File) :
    (lastExact k files).getD [] = (lastRead k files).getD [] ↔ Regular k files := by
  obtain ⟨hexact_none, hexact⟩ := lastExact_of_lastWith hk files
  obtain ⟨hreads_none, hreads⟩ := lastReads_of_lastWith k files
  unfold Regular
  cases hw : lastWith k files with
  | none => simp [hexact_none hw, lastRead, hreads_none hw]
  | some f =>
    have htag : ∀ l ∈ f.tagged, (tagLine l).isSome = true := fun l => tagged_isSome
    obtain ⟨⟨into, l, ls⟩, hlast⟩ : ∃ x, lastUnder k false f.tagged = some x := by
      rw [← Option.isSome_iff_exists, Option.isSome_iff_ne_none]
      intro hnone
      exact (values_lastWith hw).2 ((values_eq k f).trans (lastUnder_none htag hnone))
    obtain ⟨hmem, hls, hkey, hlastExact, hlastRead⟩ := lastUnder_some hk htag hlast
    obtain ⟨⟨t, v⟩, ht⟩ := Option.isSome_iff_exists.1 (htag l hmem)
    by_cases hodd : t ≠ k ∨ into = true ∨ joined l ls = none
    · have hOdd : Odd k files := ⟨f, into, l, ls, t, v, hw, hlast, ht, hodd⟩
      have hnot : ¬ Straight k files := by
        rintro ⟨f', l', ls', v', hf', hlast', ht', hplain⟩
        obtain rfl : f = f' := by simpa [hw] using hf'
        obtain ⟨rfl, rfl, rfl⟩ : into = false ∧ l = l' ∧ ls = ls' := by simpa [hlast] using hlast'
        obtain ⟨rfl, rfl⟩ : t = k ∧ v = v' := by simpa [ht] using ht'
        have hjoined := joined_alone ((runsOn_tagged ht).trans hplain.runsOn) ls
        simp [hjoined] at hodd
      simp [hOdd, hnot]
    · obtain ⟨rfl, hinto, hjoined⟩ : t = k ∧ into = false ∧ joined l ls ≠ none := by
        simpa [not_or] using hodd
      subst hinto
      have hnotOdd : ¬ Odd t files := by
        rintro ⟨f', into', l', ls', t', v', hf', hlast', ht', hodd'⟩
        obtain rfl : f = f' := by simpa [hw] using hf'
        obtain ⟨rfl, rfl, rfl⟩ : false = into' ∧ l = l' ∧ ls = ls' := by simpa [hlast] using hlast'
        obtain ⟨rfl, rfl⟩ : t = t' ∧ v = v' := by simpa [ht] using ht'
        exact hodd hodd'
      have hstraight : Straight t files ↔ PlainValue v := by
        constructor
        · rintro ⟨f', l', ls', v', hf', hlast', ht', hplain⟩
          obtain rfl : f = f' := by simpa [hw] using hf'
          obtain ⟨rfl, rfl⟩ : l = l' ∧ ls = ls' := by simpa [hlast] using hlast'
          obtain rfl : v = v' := by simpa [ht] using ht'
          exact hplain
        · exact fun h => ⟨f, l, ls, v, hw, hlast, ht, h⟩
      obtain ⟨m, hm⟩ := Option.ne_none_iff_exists'.1 hjoined
      obtain ⟨z, -, hfiled⟩ := filed_joined ht (fun l' hl' => htag l' (hls l' hl')) hm
      have hread := read_line ht hk fun l' (hl' : l' ∈ ls) => htag l' (hls l' hl')
      rw [hm, Option.bind_some, hfiled, hk, Option.map_some, Option.bind_some, if_pos rfl, Option.some.injEq] at hread
      have hw' := hlastRead (valueOf t ((unescape v).1 ++ z)) rfl (by simp [hm, hfiled, hk])
      have hlastReads : lastRead t files = some (valueOf t ((unescape v).1 ++ z)) := by
        rw [← reads_eq_readsFrom] at hw'
        have hne : reads t f ≠ [] := by
          intro hnil
          simp [hnil] at hw'
        rw [lastRead, hreads f hw hne]
        exact hw'
      rw [hexact f v hw (hlastExact t v ht rfl), hlastReads, hstraight, ← hread]
      simp [hnotOdd, eq_comm]

/-! ## The lookup -/

theorem isPrefixOf_tag {tag l : Text} (htag : ∀ c ∈ tag, Lua.isUpper c = true) :
    (bracketed tag ++ [' ']).isPrefixOf l = true ↔ ∃ v, tagLine l = some (tag, v) := by
  rw [List.isPrefixOf_iff_prefix]
  constructor
  · rintro ⟨v, rfl⟩
    refine ⟨v, ?_⟩
    have hl : bracketed tag ++ [' '] ++ v = '[' :: (tag ++ ']' :: ' ' :: v) := by simp [bracketed]
    have hstop : ¬ Lua.isUpper ']' = true := by decide
    rw [hl, tagLine, List.dropWhile_append_of_pos htag, List.dropWhile_cons_of_neg hstop,
      List.takeWhile_append_of_pos htag, List.takeWhile_cons_of_neg hstop, List.append_nil]
    rfl
  · rintro ⟨v, hv⟩
    refine ⟨v, ?_⟩
    rw [(tagLine_eq hv).1]
    simp [bracketed]

theorem behindSpace_append {u : Text} (hu : ' ' ∉ u) (v : Text) : behindSpace (u ++ ' ' :: v) = v := by
  have hne : ∀ c ∈ u, (c != ' ') = true := by
    intro c hc
    rw [bne_iff_ne]
    rintro rfl
    exact hu hc
  rw [behindSpace, if_pos (by simp), List.dropWhile_append_of_pos hne, List.dropWhile_cons_of_neg (by simp)]
  rfl

/-- What `cut` leaves of the lines that `grep` prints. -/
theorem cut_grepTag {tag path : Text} (htag : ∀ c ∈ tag, Lua.isUpper c = true) (hpath : ' ' ∉ path) (f : File) :
    (grepTag tag path f).map behindSpace = exactFrom tag f.tagged := by
  have hbracket : ' ' ∉ bracketed tag := by
    intro hc
    have := (isWord_bracketed htag).2 _ hc
    simp [isBlank] at this
  unfold grepTag File.tagged
  induction f.lines with
  | nil => rfl
  | cons l ls ih =>
    by_cases hl : (bracketed tag ++ [' ']).isPrefixOf l = true
    · obtain ⟨v, hv⟩ := (isPrefixOf_tag htag).1 hl
      have hcut : behindSpace (path ++ ':' :: l) = v := by
        have hline : path ++ ':' :: l = (path ++ ':' :: bracketed tag) ++ ' ' :: v := by
          rw [(tagLine_eq hv).1]
          simp [bracketed]
        rw [hline, behindSpace_append]
        simp [hpath, hbracket]
      rw [List.filter_cons_of_pos hl, List.filter_cons_of_pos (by simp [hv]), List.map_cons, List.map_cons, hcut, ih]
      simp [exactFrom, hv]
    · rw [List.filter_cons_of_neg hl, ih]
      by_cases ht : (tagLine l).isSome = true
      · obtain ⟨⟨t, v⟩, ht'⟩ := Option.isSome_iff_exists.1 ht
        have hne : t ≠ tag := by
          rintro rfl
          exact hl ((isPrefixOf_tag htag).2 ⟨v, ht'⟩)
        simp [exactFrom, ht', hne]
      · simp [ht]

/-- **The lookup** gives the last line that is written with the tag. -/
theorem getDesc_eq {tag : Text} (htag : ∀ c ∈ tag, Lua.isUpper c = true) (p : Paths) (o : Overlays) :
    getDesc tag p o = (lastExact tag o.files).getD [] := by
  obtain ⟨h1, h2, h3⟩ := p.noSpace
  unfold getDesc lastExact Overlays.files
  simp only [List.map_append, cut_grepTag htag h1, List.flatMap_cons, List.flatMap_append]
  cases o.architecture <;> cases o.target <;>
    simp [cut_grepTag htag h2, cut_grepTag htag h3]

/-- The last line of a variable is the last line that is read under its key. -/
theorem lastLine_desc (k : Text) (files : List File) :
    lastLine (((lastReads k files).map (appendAll [])).getD []) = (lastRead k files).getD [] := by
  unfold lastRead
  cases hr : lastReads k files with
  | none => rfl
  | some vs =>
    obtain ⟨-, f, -, rfl⟩ := lastReads_some hr
    rw [Option.map_some, Option.getD_some, appendAll_reads, lastLine_intercalate fun v hv => (mem_reads hv).2.1]
    rfl

theorem lastRead_some {k : Text} {files : List File} {v : Text} (h : lastRead k files = some v) :
    v ≠ [] ∧ '\n' ∉ v ∧ trimEnd v = v := by
  obtain ⟨vs, hvs, hlast⟩ := Option.bind_eq_some_iff.1 h
  obtain ⟨-, f, -, rfl⟩ := lastReads_some hvs
  exact mem_reads (List.mem_of_getLast? hlast)

/-- **The version** that is recorded is the last line of `desc_V` exactly if its first word takes itself off. -/
theorem recorded_eq {s v : Text} (hs : lastLine s = v) (htrim : trimEnd v = v) :
    (version s).1 ++ (if (version s).2 = [] then [] else ' ' :: (version s).2) = v ↔ TakesOff v := by
  obtain ⟨r, hsplit, hr⟩ := space_split v
  have hdrop := congrArg (List.drop (upToSpace v).length) hsplit
  rw [List.drop_left] at hdrop
  have hcancel : ∀ u, upToSpace v ++ u = v ↔ u = r := fun u =>
    ⟨fun h => List.append_cancel_left (h.trans hsplit), fun h => h ▸ hsplit.symm⟩
  have hrest : ∀ r', r = ' ' :: r' → r' ≠ [] := by
    rintro r' rfl rfl
    have hv : trimEnd v = trimEnd (upToSpace v) := by
      conv_lhs => rw [hsplit]
      rw [trimEnd_append, if_pos (by decide)]
    have hle : (trimEnd (upToSpace v)).length ≤ (upToSpace v).length :=
      (List.rdropWhile_prefix (p := isBlank) (upToSpace v)).length_le
    have hlen := congrArg List.length hsplit
    have hlen' := congrArg List.length (htrim.symm.trans hv)
    rw [List.length_append, List.length_singleton] at hlen
    omega
  simp only [version, TakesOff, hs, hdrop, hcancel]
  constructor
  · intro h
    by_cases hx : (stripPrefix (upToSpace v) v).head? = some ' '
    · obtain ⟨x, hxs⟩ : ∃ x, stripPrefix (upToSpace v) v = ' ' :: x := by
        cases hxs : stripPrefix (upToSpace v) v with
        | nil => simp [hxs] at hx
        | cons c x => exact ⟨x, by simpa [hxs] using hx⟩
      simp only [hxs, List.head?_cons, if_true, List.drop_one, List.tail_cons] at h
      by_cases hnil : x = []
      · -- only a blank would be left, and nothing is behind the word
        rw [if_pos hnil] at h
        have hmem : ' ' ∈ v := (stripPrefix_suffix (upToSpace v) v).subset (by simp [hxs])
        rw [hsplit, ← h, List.append_nil] at hmem
        simpa using List.mem_takeWhile_imp hmem
      · rw [if_neg hnil] at h
        exact .inl (hxs.trans h)
    · rw [if_neg hx] at h
      by_cases hnil : stripPrefix (upToSpace v) v = []
      · rw [if_pos hnil] at h
        exact .inl (hnil.trans h)
      · rw [if_neg hnil] at h
        refine .inr ⟨?_, ?_⟩
        · rw [← h]
          rfl
        · rw [← h]
          exact hx
  · rintro (h | ⟨h, hhead⟩)
    · rcases hr with rfl | ⟨r', rfl⟩
      · simp [h]
      · simp [h, hrest r' rfl]
    · rcases hr with rfl | ⟨r', rfl⟩
      · simp [h]
      · have hhead : r'.head? ≠ some ' ' := hhead
        simp [h, hhead, hrest r' rfl]

/-! ## Agreement -/

/-- How the files must be written. -/
structure LookupWritten (files : List File) : Prop where
  /-- No line with empty brackets is read. -/
  named : ∀ f ∈ files, reads [] f = []
  regular : ∀ c : Char, Lua.isUpper c = true → Regular [c] files
  takesOff : TakesOff ((lastExact ['V'] files).getD [])

theorem upper_letter {c : Char} (h : Lua.isUpper c = true) : ∀ d ∈ [c], Lua.isUpper d = true := by
  simpa using h

/-- **Lookup and parser** agree exactly if, for each letter, the last line under it is written with the letter, stands
on its own and is plain (or is odd, and another one says the same), and the version takes itself off. -/
theorem getDesc_agrees (p : Paths) (o : Overlays) : Agrees p o ↔ LookupWritten o.files := by
  by_cases hnamed : ∀ f ∈ o.files, reads [] f = []
  · obtain ⟨v, hv, hdesc, hversion⟩ := parseDesc_eq hnamed
    have hletter : ∀ c : Char, Lua.isUpper c = true →
        (getDesc [c] p o = lastLine ((v.desc [c]).getD []) ↔ Regular [c] o.files) := fun c hc => by
      rw [getDesc_eq (upper_letter hc), hdesc, lastLine_desc, lastExact_eq_lastRead key_letter]
    have hrecorded : Regular ['V'] o.files →
        (getDesc ['V'] p o = recorded v ↔ TakesOff ((lastExact ['V'] o.files).getD [])) := by
      intro hreg
      have hsame := (lastExact_eq_lastRead key_letter o.files).2 hreg
      have hlast : lastLine ((v.desc ['V']).getD []) = (lastExact ['V'] o.files).getD [] := by
        rw [hdesc, lastLine_desc, hsame]
      have htrim : trimEnd ((lastExact ['V'] o.files).getD []) = (lastExact ['V'] o.files).getD [] := by
        rw [hsame]
        cases hr : lastRead ['V'] o.files with
        | none => rfl
        | some w => exact (lastRead_some hr).2.2
      have hrec := recorded_eq hlast htrim
      rw [← hversion] at hrec
      rw [getDesc_eq (upper_letter (by decide)), recorded, eq_comm, hrec]
    constructor
    · rintro ⟨v', hv', hagree, hver⟩
      obtain rfl : v = v' := Option.some.inj (hv.symm.trans hv')
      have hreg : ∀ c : Char, Lua.isUpper c = true → Regular [c] o.files := fun c hc => (hletter c hc).1 (hagree c hc)
      exact ⟨hnamed, hreg, (hrecorded (hreg 'V' (by decide))).1 hver⟩
    · intro h
      exact ⟨v, hv, fun c hc => (hletter c hc).2 (h.regular c hc),
        (hrecorded (h.regular 'V' (by decide))).2 h.takesOff⟩
  · constructor
    · rintro ⟨v, hv, -⟩
      simp only [not_forall] at hnamed
      obtain ⟨f, hf, hr⟩ := hnamed
      rw [parseDesc_none hf hr] at hv
      simp at hv
    · intro h
      exact absurd h.named hnamed

/-- A package whose overlay has the version under its longer name. -/
def renamedDesc : Overlays :=
  ⟨⟨["[V] 1.0".toList], by decide⟩, some ⟨["[VER] 2.0".toList], by decide⟩, none⟩

def renamedPaths : Paths :=
  ⟨"package/base/zlib/zlib.desc".toList, "architecture/x86/package/zlib/zlib.desc".toList, [], by decide⟩

/-- The lookup gives the version of the package file, the parser that of the overlay. -/
theorem getDesc_renamed :
    getDesc ['V'] renamedPaths renamedDesc = "1.0".toList ∧
      (parseDesc renamedDesc.files).map recorded = some "2.0".toList ∧ ¬ Agrees renamedPaths renamedDesc := by
  have hget : getDesc ['V'] renamedPaths renamedDesc = "1.0".toList := by decide +kernel
  have hparse : (parseDesc renamedDesc.files).map recorded = some "2.0".toList := by decide +kernel
  refine ⟨hget, hparse, ?_⟩
  rintro ⟨v, hv, -, hver⟩
  rw [hv, Option.map_some, ← hver, hget] at hparse
  revert hparse
  decide

end T2Sde.Desc
