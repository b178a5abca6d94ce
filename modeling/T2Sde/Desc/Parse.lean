import T2Sde.Lib.Read
import T2Sde.Lib.Glob
/-!
# `parse_desc` (`scripts/functions.in`)

The lines of the `.desc` file of a package, then those of its architecture and of its target, are filed under the
key of their tag. The first line under a key in a file clears what the files before have left.

| here | there |
| --- | --- |
| `tagLine`    | `grep '^\[[A-Z]*\] '` :388 |
| `key`        | the `case` on the tag :380-384 |
| `varAppend`  | `var_append` (`scripts/core-functions.in`) :90-93 |
| `Parse.line` | the body of `while read line` :377-387 |
| `parseDesc`  | `parse_desc` :367-397 |

* `parseDesc_eq` — a variable holds the lines read under its key from the last file that has one (`reads`).
-/
namespace T2Sde.Desc
open Shell

/-- A `.desc` file. -/
structure File where
  lines : List Text
  lineEnd : ∀ l ∈ lines, '\n' ∉ l

/-- The file of a package and its optional overlays. -/
structure Overlays where
  package : File
  architecture : Option File
  target : Option File

/-- `$descs` -/
def Overlays.files (o : Overlays) : List File := o.package :: (o.architecture.toList ++ o.target.toList)

/-! ## Lines -/

/-- The tag and the value of a line, if it has a tag and a blank. -/
def tagLine : Text → Option (Text × Text)
  | '[' :: s =>
    match s.dropWhile Lua.isUpper with
    | ']' :: ' ' :: value => some (s.takeWhile Lua.isUpper, value)
    | _ => none
  | _ => none

def File.tagged (f : File) : List Text := f.lines.filter fun l => (tagLine l).isSome

/-- `${s%% *}` -/
def upToSpace (s : Text) : Text := s.takeWhile (· != ' ')

/-- `${s#* }` -/
def behindSpace (s : Text) : Text := if ' ' ∈ s then (s.dropWhile (· != ' ')).drop 1 else s

/-- `${k#\[}`, then `${k%\]}` -/
def untag (k : Text) : Text :=
  let k := if k.head? = some '[' then k.drop 1 else k
  if k.getLast? = some ']' then k.dropLast else k

/-- What a tag is filed under; `none` if it is passed over. -/
def key (k : Text) : Option Text :=
  if "CV-".toList.isPrefixOf k || k = "COPY".toList then none
  else if k = "DEP".toList then some ['E']
  else if k = "SRC".toList then some k
  else some (k.take 1)

/-- `${s##*⏎}` -/
def lastLine (s : Text) : Text := (s.splitOn '\n').getLast?.getD []

def varAppend (old sep new : Text) : Text := (if old = [] then old else old ++ sep) ++ new

/-! ## Files -/

structure Parse where
  /-- The variables `desc_*`. -/
  desc : Text → Option Text
  /-- The keys seen in this file. -/
  tags : List Text

/-- A value is appended; the first one under a key in a file clears it. -/
def Parse.put (s : Parse) (k v : Text) : Parse :=
  let desc := if k ∈ s.tags then s.desc else upd s.desc k (some [])
  { desc := upd desc k (some (varAppend ((desc k).getD []) ['\n'] v))
    tags := if k ∈ s.tags then s.tags else k :: s.tags }

/-- One line; an empty subscript ends the whole command. -/
def Parse.line (s : Parse) (m : List ReadChar) : Option Parse :=
  let line := lastField m
  match key (untag (upToSpace line)) with
  | none => some s
  | some [] => none
  | some k => some (s.put k (behindSpace line))

def Parse.lines (s : Parse) : List (List ReadChar) → Option Parse
  | [] => some s
  | m :: ms => (s.line m).bind (·.lines ms)

def Parse.file (s : Parse) (f : File) : Option Parse := { s with tags := [] }.lines (logical f.tagged)

def Parse.files (s : Parse) : List File → Option Parse
  | [] => some s
  | f :: fs => (s.file f).bind (·.files fs)

structure Vars where
  desc : Text → Option Text
  ver : Text
  extraver : Text

/-- `ver` and `extraver` from the last line of `desc_V` -/
def version (desc_V : Text) : Text × Text :=
  let ver := upToSpace (lastLine desc_V)
  let extraver := stripPrefix ver (lastLine desc_V)
  (ver, if extraver.head? = some ' ' then extraver.drop 1 else extraver)

def parseDesc (files : List File) : Option Vars :=
  (Parse.files ⟨fun _ => none, []⟩ files).map fun s =>
    let v := version ((s.desc ['V']).getD [])
    ⟨s.desc, v.1, v.2⟩

/-! ## What is filed -/

/-- The key and the value of a line that is read. -/
def filed (m : List ReadChar) : Option (Text × Text) :=
  (key (untag (upToSpace (lastField m)))).map (·, behindSpace (lastField m))

/-- The values of a list of lines under a key. -/
def under (k : Text) (ms : List (List ReadChar)) : List Text :=
  ms.filterMap fun m => (filed m).bind fun x => if x.1 = k then some x.2 else none

/-- The values of a file under a key. -/
def reads (k : Text) (f : File) : List Text := under k (logical f.tagged)

def appendAll (w : Text) (vs : List Text) : Text := vs.foldl (varAppend · ['\n'] ·) w

@[simp] theorem appendAll_nil (w : Text) : appendAll w [] = w := rfl

@[simp] theorem appendAll_cons (w v : Text) (vs : List Text) :
    appendAll w (v :: vs) = appendAll (varAppend w ['\n'] v) vs := rfl

theorem Parse.line_none {s : Parse} {m : List ReadChar} (h : filed m = none) : s.line m = some s := by
  rw [filed, Option.map_eq_none_iff] at h
  rw [Parse.line, h]

theorem Parse.line_nil {s : Parse} {m : List ReadChar} {v : Text} (h : filed m = some ([], v)) : s.line m = none := by
  obtain ⟨k, hk, hkv⟩ := Option.map_eq_some_iff.1 h
  obtain ⟨rfl, -⟩ := Prod.mk.inj hkv
  rw [Parse.line, hk]

theorem Parse.line_some {s : Parse} {m : List ReadChar} {k v : Text} (h : filed m = some (k, v)) (hk : k ≠ []) :
    s.line m = some (s.put k v) := by
  obtain ⟨k', hk', hkv⟩ := Option.map_eq_some_iff.1 h
  obtain ⟨rfl, rfl⟩ := Prod.mk.inj hkv
  obtain ⟨c, cs, rfl⟩ := List.exists_cons_of_ne_nil hk
  rw [Parse.line, hk']

theorem Parse.put_same (s : Parse) (k v : Text) :
    (s.put k v).desc k = some (varAppend (if k ∈ s.tags then (s.desc k).getD [] else []) ['\n'] v) := by
  by_cases ht : k ∈ s.tags <;> simp [Parse.put, ht]

theorem Parse.put_ne (s : Parse) {k x : Text} (v : Text) (h : x ≠ k) : (s.put k v).desc x = s.desc x := by
  by_cases ht : k ∈ s.tags <;> simp [Parse.put, ht, h]

theorem Parse.mem_put_tags (s : Parse) (k x v : Text) : x ∈ (s.put k v).tags ↔ x = k ∨ x ∈ s.tags := by
  by_cases ht : k ∈ s.tags
  · simp only [Parse.put, ht, if_true]
    exact ⟨.inr, fun h => h.elim (fun h => h ▸ ht) id⟩
  · simp [Parse.put, ht]

/-- **The lines of a file**: what is filed under a key that the file has is what its lines append. -/
theorem Parse.lines_eq {s : Parse} {ms : List (List ReadChar)} (hms : under [] ms = []) :
    ∃ s', s.lines ms = some s' ∧ ∀ k, s'.desc k =
      if under k ms = [] then s.desc k
      else some (appendAll (if k ∈ s.tags then (s.desc k).getD [] else []) (under k ms)) := by
  induction ms generalizing s with
  | nil => exact ⟨s, rfl, fun k => by simp [under]⟩
  | cons m ms ih =>
    cases hr : filed m with
    | none =>
      have hunder : ∀ k, under k (m :: ms) = under k ms := fun k => by simp [under, hr]
      obtain ⟨s', hs', hdesc⟩ := ih (s := s) (by rwa [hunder] at hms)
      refine ⟨s', by simp [Parse.lines, Parse.line_none hr, hs'], fun k => ?_⟩
      rw [hdesc, hunder]
    | some x =>
      obtain ⟨k₀, v⟩ := x
      have hk₀ : k₀ ≠ [] := by
        rintro rfl
        simp [under, hr] at hms
      have hsame : under k₀ (m :: ms) = v :: under k₀ ms := by simp [under, hr]
      have hother : ∀ k, k ≠ k₀ → under k (m :: ms) = under k ms := fun k hk => by
        simp [under, hr, Ne.symm hk]
      obtain ⟨s', hs', hdesc⟩ := ih (s := s.put k₀ v) (by rwa [hother [] (Ne.symm hk₀)] at hms)
      refine ⟨s', by simp [Parse.lines, Parse.line_some hr hk₀, hs'], fun k => ?_⟩
      rw [hdesc]
      by_cases hk : k = k₀
      · subst hk
        rw [hsame, if_neg (List.cons_ne_nil _ _), Parse.put_same, appendAll_cons]
        by_cases hnil : under k ms = []
        · simp [hnil]
        · rw [if_neg hnil, if_pos ((s.mem_put_tags k k v).2 (.inl rfl))]
          rfl
      · rw [hother k hk, Parse.put_ne s v hk]
        simp only [Parse.mem_put_tags, hk, false_or]

/-- An empty key ends the command. -/
theorem Parse.lines_none {s : Parse} {ms : List (List ReadChar)} (hms : under [] ms ≠ []) : s.lines ms = none := by
  induction ms generalizing s with
  | nil => exact absurd rfl hms
  | cons m ms ih =>
    cases hr : filed m with
    | none =>
      rw [Parse.lines, Parse.line_none hr]
      exact ih (by simpa [under, hr] using hms)
    | some x =>
      obtain ⟨k₀, v⟩ := x
      rw [Parse.lines]
      by_cases hk₀ : k₀ = []
      · subst hk₀
        rw [Parse.line_nil hr]
        rfl
      · rw [Parse.line_some hr hk₀]
        exact ih (by simpa [under, hr, hk₀] using hms)

/-- The last of the files that has a line under a key. -/
def lastReads (k : Text) (files : List File) : Option (List Text) :=
  ((files.map (reads k)).filter (· ≠ [])).getLast?

theorem lastReads_cons (k : Text) (f : File) (files : List File) :
    lastReads k (f :: files) = (lastReads k files).or (if reads k f = [] then none else some (reads k f)) := by
  unfold lastReads
  rw [List.map_cons]
  by_cases h : reads k f = []
  · rw [List.filter_cons_of_neg (by simp [h]), if_pos h, Option.or_none]
  · rw [List.filter_cons_of_pos (by simp [h]), if_neg h, List.getLast?_cons]
    cases ((files.map (reads k)).filter (· ≠ [])).getLast? <;> rfl

theorem Parse.file_eq (s : Parse) {f : File} (h : reads [] f = []) :
    ∃ s', s.file f = some s' ∧
      ∀ k, s'.desc k = if reads k f = [] then s.desc k else some (appendAll [] (reads k f)) := by
  obtain ⟨s', hs', hdesc⟩ := Parse.lines_eq (s := { s with tags := [] }) h
  refine ⟨s', hs', fun k => ?_⟩
  rw [hdesc]
  rfl

theorem Parse.files_eq {s : Parse} {files : List File} (h : ∀ f ∈ files, reads [] f = []) :
    ∃ s', s.files files = some s' ∧ ∀ k, s'.desc k = ((lastReads k files).map (appendAll [])).or (s.desc k) := by
  induction files generalizing s with
  | nil => exact ⟨s, rfl, fun k => by simp [lastReads]⟩
  | cons f files ih =>
    obtain ⟨s₁, hs₁, h₁⟩ := s.file_eq (h f List.mem_cons_self)
    obtain ⟨s', hs', hdesc⟩ := ih (s := s₁) fun g hg => h g (List.mem_cons_of_mem _ hg)
    refine ⟨s', by simp [Parse.files, hs₁, hs'], fun k => ?_⟩
    rw [hdesc, h₁, lastReads_cons]
    by_cases hnil : reads k f = []
    · rw [if_pos hnil, if_pos hnil, Option.or_none]
    · rw [if_neg hnil, if_neg hnil]
      cases lastReads k files <;> simp

theorem Parse.files_none {s : Parse} {files : List File} {f : File} (hf : f ∈ files) (h : reads [] f ≠ []) :
    s.files files = none := by
  induction files generalizing s with
  | nil => simp at hf
  | cons g files ih =>
    rw [Parse.files]
    by_cases hg : reads [] g = []
    · have hmem : f ∈ files := (List.mem_cons.1 hf).resolve_left fun he => h (he ▸ hg)
      cases s.file g with
      | none => rfl
      | some s' => exact ih hmem
    · rw [Parse.file, Parse.lines_none hg]
      rfl

/-- **`parse_desc`**: no line has an empty key, and a variable holds the lines of the last file that has one. -/
theorem parseDesc_eq {files : List File} (h : ∀ f ∈ files, reads [] f = []) :
    ∃ v, parseDesc files = some v ∧ (∀ k, v.desc k = (lastReads k files).map (appendAll [])) ∧
      (v.ver, v.extraver) = version ((v.desc ['V']).getD []) := by
  obtain ⟨s, hs, hdesc⟩ := Parse.files_eq (s := ⟨fun _ => none, []⟩) h
  exact ⟨_, by rw [parseDesc, hs]; rfl, fun k => (hdesc k).trans Option.or_none, rfl⟩

theorem parseDesc_none {files : List File} {f : File} (hf : f ∈ files) (h : reads [] f ≠ []) :
    parseDesc files = none := by
  rw [parseDesc, Parse.files_none hf h]
  rfl

/-! ## What a tagged line becomes -/

theorem tagLine_eq {l t v : Text} (h : tagLine l = some (t, v)) :
    l = '[' :: (t ++ ']' :: ' ' :: v) ∧ ∀ c ∈ t, Lua.isUpper c = true := by
  unfold tagLine at h
  split at h
  · split at h
    next s v' hd =>
      simp only [Option.some.injEq, Prod.mk.injEq] at h
      obtain ⟨rfl, rfl⟩ := h
      refine ⟨?_, fun c hc => List.mem_takeWhile_imp hc⟩
      rw [← hd, List.takeWhile_append_dropWhile]
    · simp at h
  · simp at h

/-- `[t]` -/
def bracketed (t : Text) : Text := '[' :: (t ++ [']'])

theorem tagLine_bracketed {t : Text} (ht : ∀ c ∈ t, Lua.isUpper c = true) (rest : Text) :
    tagLine (bracketed t ++ rest) = if rest.head? = some ' ' then some (t, rest.drop 1) else none := by
  have hl : bracketed t ++ rest = '[' :: (t ++ ']' :: rest) := by simp [bracketed]
  have hstop : ¬ Lua.isUpper ']' = true := by decide
  rw [hl, tagLine, List.dropWhile_append_of_pos ht, List.dropWhile_cons_of_neg hstop,
    List.takeWhile_append_of_pos ht, List.takeWhile_cons_of_neg hstop, List.append_nil]
  cases rest with
  | nil => rfl
  | cons c rest =>
    by_cases hc : c = ' '
    · subst hc
      rfl
    · simp [hc]

theorem not_upper_of_blank {c : Char} (h : isBlank c = true) : Lua.isUpper c = false := by
  have hc : c = ' ' ∨ c = '\t' ∨ c = '\n' := by
    simpa [isBlank, or_assoc, or_iff_not_imp_left] using h
  rcases hc with rfl | rfl | rfl <;> decide

theorem isWord_bracketed {t : Text} (ht : ∀ c ∈ t, Lua.isUpper c = true) : IsWord (bracketed t) := by
  refine ⟨by simp [bracketed], fun c hc => ?_⟩
  by_contra hb
  simp only [bracketed, List.mem_cons, List.mem_append, List.not_mem_nil, or_false] at hc
  rcases hc with rfl | hc | rfl
  · revert hb; decide
  · have := not_upper_of_blank (by simpa using hb)
    simp [ht c hc] at this
  · revert hb; decide

/-- The value of a line; a line with nothing behind its tag is its own value. -/
def valueOf (t : Text) (m : List ReadChar) : Text :=
  if trimEnd (text m) = [] then bracketed t else trimEnd (text m)

theorem untag_bracketed (t : Text) : untag (bracketed t) = t := by
  simp [untag, bracketed]

theorem filed_word {t : Text} (ht : ∀ c ∈ t, Lua.isUpper c = true) (m : List ReadChar) :
    filed (plain (bracketed t) ++ (' ', false) :: m) = (key t).map (·, valueOf t m) := by
  have hword := isWord_bracketed ht
  have hns : ∀ c ∈ bracketed t, (c != ' ') = true := by
    intro c hc
    have := hword.2 c hc
    rw [bne_iff_ne]
    rintro rfl
    simp [isBlank] at this
  have hnot : ' ' ∉ bracketed t := fun h => by simpa using hns _ h
  rw [filed, lastField_word hword]
  unfold valueOf
  split
  · rw [upToSpace, List.takeWhile_eq_self_iff.2 hns, untag_bracketed, behindSpace, if_neg hnot]
  · rw [upToSpace, List.takeWhile_append_of_pos hns, List.takeWhile_cons_of_neg (by simp), List.append_nil,
      untag_bracketed, behindSpace, if_pos (by simp), List.dropWhile_append_of_pos hns,
      List.dropWhile_cons_of_neg (by simp)]
    rfl

theorem not_mem_bracketed {t : Text} (ht : ∀ c ∈ t, Lua.isUpper c = true) : '\\' ∉ bracketed t := by
  simp only [bracketed, List.mem_cons, List.mem_append, List.not_mem_nil, or_false, not_or]
  refine ⟨by decide, fun hc => ?_, by decide⟩
  have := ht _ hc
  revert this; decide

theorem unescape_tagged {l t v : Text} (h : tagLine l = some (t, v)) :
    unescape l = (plain (bracketed t) ++ (' ', false) :: (unescape v).1, (unescape v).2) := by
  obtain ⟨rfl, ht⟩ := tagLine_eq h
  have hback : '\\' ∉ bracketed t ++ [' '] := by
    rw [List.mem_append, not_or]
    exact ⟨not_mem_bracketed ht, by decide⟩
  have hl : '[' :: (t ++ ']' :: ' ' :: v) = (bracketed t ++ [' ']) ++ v := by simp [bracketed]
  rw [hl, unescape_append hback, plain_append]
  simp

theorem filed_tagged {l t v : Text} (h : tagLine l = some (t, v)) (z : List ReadChar) :
    filed ((unescape l).1 ++ z) = (key t).map (·, valueOf t ((unescape v).1 ++ z)) := by
  rw [unescape_tagged h]
  simpa using filed_word (tagLine_eq h).2 ((unescape v).1 ++ z)

/-- **A tagged line** with what is joined to it. -/
theorem filed_joined {l t v : Text} {ls : List Text} {m : List ReadChar} (h : tagLine l = some (t, v))
    (hls : ∀ l' ∈ ls, (tagLine l').isSome = true) (hm : joined l ls = some m) :
    ∃ z, (z = [] ∨ z.head? = some ('[', false)) ∧ filed m = (key t).map (·, valueOf t ((unescape v).1 ++ z)) := by
  have hhead : ∀ l' ∈ ls, l'.head? = some '[' := by
    intro l' hl'
    obtain ⟨⟨t', v'⟩, hl'⟩ := Option.isSome_iff_exists.1 (hls l' hl')
    rw [(tagLine_eq hl').1]
    rfl
  obtain ⟨z, rfl, hz⟩ := joined_some (by decide) hhead hm
  exact ⟨z, hz, filed_tagged h z⟩

/-- The lines that are read, one by one. -/
theorem reads_eq (k : Text) (f : File) :
    reads k f = (starts false f.tagged).filterMap fun x =>
      (joined x.1 x.2).bind fun m => (filed m).bind fun x => if x.1 = k then some x.2 else none := by
  rw [reads, under, logical_eq, List.filterMap_filterMap]

theorem tagged_isSome {f : File} {l : Text} (h : l ∈ f.tagged) : (tagLine l).isSome = true := (List.mem_filter.1 h).2

theorem valueOf_ne (t : Text) (m : List ReadChar) : valueOf t m ≠ [] := by
  unfold valueOf
  split
  · simp [bracketed]
  · assumption

theorem trimEnd_valueOf {t : Text} (ht : ∀ c ∈ t, Lua.isUpper c = true) (m : List ReadChar) :
    trimEnd (valueOf t m) = valueOf t m := by
  unfold valueOf
  split
  · simpa using trimEnd_append_word (s := []) (isWord_bracketed ht)
  · exact List.rdropWhile_idempotent _ _

/-- No value is empty, none has a line end, and none ends with a blank. -/
theorem mem_reads {k v : Text} {f : File} (h : v ∈ reads k f) : v ≠ [] ∧ '\n' ∉ v ∧ trimEnd v = v := by
  rw [reads_eq, List.mem_filterMap] at h
  obtain ⟨⟨l, ls⟩, hx, h⟩ := h
  obtain ⟨m, hm, h⟩ := Option.bind_eq_some_iff.1 h
  obtain ⟨⟨k', v'⟩, hr, h⟩ := Option.bind_eq_some_iff.1 h
  obtain ⟨rfl, rfl⟩ : k' = k ∧ v' = v := by simpa using h
  obtain ⟨hl, hls⟩ := mem_starts hx
  obtain ⟨⟨t, e⟩, ht⟩ := Option.isSome_iff_exists.1 (tagged_isSome hl)
  have hvalue : ∃ m', v' = valueOf t m' := by
    obtain ⟨z, -, hrec⟩ := filed_joined ht (fun l' hl' => tagged_isSome (hls l' hl')) hm
    rw [hr] at hrec
    obtain ⟨_, -, he⟩ := Option.map_eq_some_iff.1 hrec.symm
    exact ⟨_, (Prod.mk.inj he).2.symm⟩
  obtain ⟨m', hm'⟩ := hvalue
  refine ⟨hm' ▸ valueOf_ne t m', fun hv => ?_, hm' ▸ trimEnd_valueOf (tagLine_eq ht).2 m'⟩
  obtain ⟨_, -, he⟩ := Option.map_eq_some_iff.1 hr
  rw [← (Prod.mk.inj he).2] at hv
  have hfield : '\n' ∈ lastField m := by
    unfold behindSpace at hv
    split at hv
    · exact (List.dropWhile_sublist _).subset ((List.drop_sublist _ _).subset hv)
    · exact hv
  obtain ⟨l', hl', hc⟩ := mem_joined hm (mem_lastField hfield)
  have hmem : l' ∈ f.tagged := by
    rcases List.mem_cons.1 hl' with rfl | hl'
    · exact hl
    · exact hls l' hl'
  exact f.lineEnd l' (List.mem_filter.1 hmem).1 hc

theorem intercalate_eq (v : Text) (vs : List Text) :
    ['\n'].intercalate (v :: vs) = v ++ vs.flatMap ('\n' :: ·) := by
  induction vs generalizing v with
  | nil => simp
  | cons w vs ih => rw [List.intercalate_cons_cons, ih]; simp

/-- A list of values as the variable has it. -/
theorem appendAll_eq {vs : List Text} (hvs : ∀ w ∈ vs, w ≠ []) : appendAll [] vs = ['\n'].intercalate vs := by
  have hfold : ∀ (vs : List Text) (w : Text), w ≠ [] → (∀ w ∈ vs, w ≠ []) →
      appendAll w vs = w ++ vs.flatMap ('\n' :: ·) := by
    intro vs
    induction vs with
    | nil => simp
    | cons u vs ih =>
      intro w hw hvs
      rw [appendAll_cons, varAppend, if_neg hw, ih _ (by simp) fun x hx => hvs x (List.mem_cons_of_mem _ hx)]
      simp
  cases vs with
  | nil => rfl
  | cons v vs =>
    obtain ⟨hv, hvs⟩ := List.forall_mem_cons.1 hvs
    rw [appendAll_cons, varAppend, if_pos rfl, List.nil_append, hfold vs v hv hvs, intercalate_eq]

theorem lastLine_intercalate {vs : List Text} (hvs : ∀ v ∈ vs, '\n' ∉ v) :
    lastLine (['\n'].intercalate vs) = vs.getLast?.getD [] := by
  cases vs with
  | nil => rfl
  | cons v vs => rw [lastLine, List.splitOn_intercalate '\n' hvs (List.cons_ne_nil _ _)]

theorem intercalate_inj {vs ws : List Text} (hvs : ∀ v ∈ vs, '\n' ∉ v) (hws : ∀ w ∈ ws, '\n' ∉ w) (hv : vs ≠ [])
    (hw : ws ≠ []) : ['\n'].intercalate vs = ['\n'].intercalate ws ↔ vs = ws := by
  refine ⟨fun h => ?_, fun h => h ▸ rfl⟩
  rw [← List.splitOn_intercalate '\n' hvs hv, ← List.splitOn_intercalate '\n' hws hw, h]

end T2Sde.Desc
