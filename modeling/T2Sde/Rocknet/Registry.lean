import Mathlib.Data.List.DropRight
import T2Sde.Lib.Cut
import T2Sde.Lib.Glob
import T2Sde.Lib.Run
/-!
# Active interfaces (`package/network/rocknet`)

One text has all entries, each with a comma behind it. An entry is taken out, and looked for, as a piece of this text
with its comma: what stands in front of it is not asked. So `lan(home)` is found in `wlan(home),`, and to unregister it
leaves a `w` in front of the next entry.

| here | there |
| --- | --- |
| `register`, `unregister` | rocknet.sh :80-88 |
| `varContains`            | ifup.sh :11-16 |
| `refused`                | the sanity checks :42-58, also as ifdown |

* `replaceAll_entries` — what `//` makes of the entries.
* `registry_iff` — **when the file lists the entries and every check is right**.
-/
namespace T2Sde.Rocknet
open Shell Lts

/-! ## The program -/

/-- `echo -n "$x"` -/
def echoN (x : Text) : Text :=
  if x.head? = some '-' ∧ x.tail ≠ [] ∧ ∀ c ∈ x.tail, c ∈ "neE".toList then [] else x

/-- What `cat` gives, without the newlines at the end; nothing if there is no file. -/
def content (file : Option Text) : Text := (file.getD []).rdropWhile (· == '\n')

def register (file : Option Text) (arg : Text) : Option Text := some (file.getD [] ++ echoN (arg ++ [',']))

def unregister (file : Option Text) (arg : Text) : Option Text :=
  some (echoN (replaceAll (arg ++ [',']) [] (content file)))

def varContains (tmp delimiter value : Text) : Bool := replaceOnce (value ++ delimiter) [] tmp != tmp

/-- Whether `if$action` ends without a call of `rocknet`. -/
def refused (action : Text) (force : Bool) (file : Option Text) (entry : Text) : Bool :=
  !force && ((action == "up".toList && varContains (content file) [','] entry) ||
    (action == "down".toList && !varContains (content file) [','] entry))

/-! ## Entries -/

def nameChar (c : Char) : Bool := c.isAlphanum || "._:-".toList.contains c

structure Entry where
  iface : Text
  profile : Text
  plain : ∀ c ∈ iface ++ profile, nameChar c = true
  deriving DecidableEq

/-- `interface(profile)` -/
def Entry.text (e : Entry) : Text := e.iface ++ '(' :: e.profile ++ [')']

inductive Op where
  | register (e : Entry)
  | unregister (e : Entry)
  | check (e : Entry)

/-- The file, and the entries that are registered and not unregistered since, in this order. -/
structure World where
  file : Option Text
  active : List Entry

def World.apply (w : World) : Op → World
  | .register e => ⟨Rocknet.register w.file e.text, w.active ++ [e]⟩
  | .unregister e => ⟨Rocknet.unregister w.file e.text, w.active.filter (· ≠ e)⟩
  | .check _ => w

def step (w : World) (op : Op) : Option World := some (w.apply op)

def start : World := ⟨none, []⟩

/-- The texts of the file that have a comma behind them. -/
def listed (file : Option Text) : List Text := ((content file).splitOn ',').dropLast

/-- The file lists what is active; the check succeeds for what is active. -/
def Right (w : World) (op : Op) : Prop :=
  listed (w.apply op).file = (w.apply op).active.map Entry.text ∧
    ∀ e, op = .check e → (varContains (content w.file) [','] e.text = true ↔ e ∈ w.active)

/-- The text of `e` is at the end of that of `f`. -/
def Entry.Ends (e f : Entry) : Prop := e.iface <:+ f.iface ∧ e.profile = f.profile

/-- Nothing but the entry itself ends like it. -/
def Fair (w : World) : Op → Prop
  | .register _ => True
  | .unregister e => ∀ f ∈ w.active, e.Ends f → f = e
  | .check e => e ∈ w.active ∨ ∀ f ∈ w.active, ¬ e.Ends f

/-! ## The texts of entries -/

/-- All entries, each with its comma. -/
def entries (es : List Entry) : Text := es.flatMap fun e => e.text ++ [',']

section
variable {e f : Entry} {es : List Entry} {s : Text}

theorem nameChar_plain {c : Char} (h : nameChar c = true) : c ≠ ',' ∧ c ≠ '(' ∧ verbatimChar c = true := by
  have hother : ∀ d ∈ ",(*?[\\".toList, nameChar d = false := by decide
  have hne : ∀ d ∈ ",(*?[\\".toList, c ≠ d := by
    rintro d hd rfl
    rw [hother c hd] at h
    exact absurd h (by decide)
  refine ⟨hne _ (by decide), hne _ (by decide), ?_⟩
  simp [verbatimChar, hne '*' (by decide), hne '?' (by decide), hne '[' (by decide), hne '\\' (by decide)]

theorem Entry.mem_text {c : Char} (h : c ∈ e.text) : nameChar c = true ∨ c = '(' ∨ c = ')' := by
  have hplain := e.plain c
  simp only [text, List.mem_append, List.mem_cons, List.not_mem_nil, or_false] at h hplain
  tauto

theorem Entry.comma (e : Entry) : ',' ∉ e.text := by
  intro h
  rcases mem_text h with h | h | h
  · exact (nameChar_plain h).1 rfl
  · exact absurd h (by decide)
  · exact absurd h (by decide)

theorem Entry.verbatim (e : Entry) : Verbatim (e.text ++ [',']) := by
  intro c hc
  rcases List.mem_append.1 hc with hc | hc
  · rcases mem_text hc with h | rfl | rfl
    · exact (nameChar_plain h).2.2
    · decide
    · decide
  · rw [List.mem_singleton.1 hc]
    decide

theorem Entry.ends_iff : e.Ends f ↔ e.text <:+ f.text := by
  constructor
  · rintro ⟨⟨t, ht⟩, hprofile⟩
    exact ⟨t, by rw [text, text, ← ht, hprofile]; simp⟩
  · rintro ⟨t, ht⟩
    have hparen : ∀ e : Entry, '(' ∉ (e.profile ++ [')']).reverse := by
      intro e h
      rw [List.mem_reverse, List.mem_append] at h
      rcases h with h | h
      · exact (nameChar_plain (e.plain _ (List.mem_append_right _ h))).2.1 rfl
      · exact absurd (List.mem_singleton.1 h) (by decide)
    -- read from the end, the profiles go up to the first parenthesis
    have hrev : (e.profile ++ [')']).reverse ++ '(' :: (t ++ e.iface).reverse =
        (f.profile ++ [')']).reverse ++ '(' :: f.iface.reverse := by
      have h := congrArg List.reverse ht
      simp only [text, List.reverse_append, List.reverse_cons, List.append_assoc] at h ⊢
      exact h
    obtain ⟨hprofile, hiface⟩ := delim_inj (hparen e) (hparen f) hrev
    exact ⟨⟨t, List.reverse_injective hiface⟩, List.append_cancel_right (List.reverse_injective hprofile)⟩

theorem Entry.ends_antisymm (h : e.Ends f) (h' : f.Ends e) : e = f := by
  obtain ⟨iface, profile, _⟩ := e
  obtain ⟨iface', profile', _⟩ := f
  have hiface : iface = iface' := h.1.eq_of_length_le h'.1.length_le
  have hprofile : profile = profile' := h.2
  subst hiface
  subst hprofile
  rfl

theorem Entry.text_inj (h : e.text = f.text) : e = f :=
  ends_antisymm (ends_iff.2 (by rw [h])) (ends_iff.2 (by rw [h]))

theorem Entry.ends_self (e : Entry) : e.Ends e := ⟨List.suffix_refl _, rfl⟩

/-! ## The file -/

theorem entries_append (es fs : List Entry) : entries (es ++ fs) = entries es ++ entries fs := List.flatMap_append

theorem entries_cons (e : Entry) (es : List Entry) : entries (e :: es) = e.text ++ ',' :: entries es := by
  simp [entries]

theorem splitOn_entries (es : List Entry) : (entries es).splitOn ',' = es.map Entry.text ++ [[]] := by
  induction es with
  | nil => rfl
  | cons e es ih => rw [entries_cons, splitOn_cons e.comma, ih, List.map_cons, List.cons_append]

theorem content_entries (es : List Entry) : content (some (entries es)) = entries es := by
  rw [content]
  rcases List.eq_nil_or_concat es with rfl | ⟨es, e, rfl⟩
  · rfl
  · have hlast : entries (es ++ [e]) = entries es ++ e.text ++ [','] := by
      rw [entries_append, List.append_assoc]
      simp [entries]
    rw [Option.getD_some, List.concat_eq_append, hlast, List.rdropWhile_concat_neg _ _ _ (by decide)]

theorem listed_entries (es : List Entry) : listed (some (entries es)) = es.map Entry.text := by
  rw [listed, content_entries, splitOn_entries, List.dropLast_concat]

/-- A text with a comma is no option. -/
theorem echoN_comma (h : ',' ∈ s) : echoN s = s := by
  refine if_neg ?_
  rintro ⟨hhead, -, htail⟩
  cases s with
  | nil => simp at hhead
  | cons c t =>
    rcases List.mem_cons.1 h with rfl | h
    · simp at hhead
    · exact absurd (htail _ h) (by decide)

theorem echoN_entries (es : List Entry) : echoN (entries es) = entries es := by
  cases es with
  | nil => rfl
  | cons e es => exact echoN_comma (by rw [entries_cons]; exact List.mem_append_right _ List.mem_cons_self)

/-- An entry with its comma stands in front exactly if it is all that stands in front of the comma. -/
theorem prefix_iff {u : Text} (hu : ',' ∉ u) : e.text ++ [','] <+: u ++ ',' :: s ↔ e.text = u := by
  constructor
  · rintro ⟨y, hy⟩
    rw [List.append_assoc] at hy
    exact (delim_inj e.comma hu hy).1
  · rintro rfl
    exact ⟨s, by simp⟩

theorem infix_iff {u : Text} (hu : ',' ∉ u) :
    e.text ++ [','] <:+: u ++ ',' :: s ↔ e.text <:+ u ∨ e.text ++ [','] <:+: s := by
  induction u with
  | nil =>
    have hfront := prefix_iff (e := e) (s := s) List.not_mem_nil
    rw [List.nil_append] at hfront ⊢
    rw [List.infix_cons_iff, hfront, List.suffix_nil]
  | cons c u ih =>
    have hfront := prefix_iff (e := e) (s := s) hu
    rw [List.cons_append] at hfront ⊢
    rw [List.infix_cons_iff, hfront, ih fun h => hu (List.mem_cons_of_mem c h), List.suffix_cons_iff, or_assoc]

theorem infix_entries (e : Entry) (es : List Entry) : e.text ++ [','] <:+: entries es ↔ ∃ f ∈ es, e.Ends f := by
  induction es with
  | nil => simp [entries]
  | cons f es ih => rw [entries_cons, infix_iff f.comma, ih, List.exists_mem_cons_iff, Entry.ends_iff]

theorem varContains_entries (e : Entry) (es : List Entry) :
    varContains (entries es) [','] e.text = true ↔ ∃ f ∈ es, e.Ends f := by
  rw [varContains, bne_iff_ne, ne_eq, replaceOnce_eq_self_iff e.verbatim (by simp), not_not, infix_entries]

/-- What is left of `f` when `e` is taken out. -/
def rest (e f : Entry) : Text :=
  if e.text <:+ f.text then f.text.take (f.text.length - e.text.length) else f.text ++ [',']

theorem replaceAll_entries (e : Entry) (es : List Entry) :
    replaceAll (e.text ++ [',']) [] (entries es) = es.flatMap (rest e) := by
  have hne : e.text ++ [','] ≠ [] := List.append_ne_nil_of_right_ne_nil _ (List.cons_ne_nil _ _)
  induction es with
  | nil => rfl
  | cons f es ih =>
    rw [entries_cons, List.flatMap_cons, rest]
    split
    next h =>
      obtain ⟨t, ht⟩ := h
      have hskip : ∀ u, u <:+ t → u ≠ [] → ¬ e.text ++ [','] <+: u ++ (e.text ++ [','] ++ entries es) := by
        rintro u ⟨x, rfl⟩ hu hpre
        have hcomma : ',' ∉ u ++ e.text := by
          intro h
          rw [List.append_assoc] at ht
          exact f.comma (ht ▸ List.mem_append_right x h)
        have hwhole : u ++ (e.text ++ [','] ++ entries es) = (u ++ e.text) ++ ',' :: entries es := by simp
        rw [hwhole, prefix_iff hcomma] at hpre
        exact hu (List.self_eq_append_left.1 hpre)
      have hf : f.text ++ ',' :: entries es = t ++ (e.text ++ [','] ++ entries es) := by
        rw [← ht]
        simp
      rw [hf, replaceAll_skip e.verbatim hskip, replaceAll_match e.verbatim hne, ih, ← ht, List.length_append,
        Nat.add_sub_cancel, List.take_left]
      rfl
    next h =>
      have hskip : ∀ u, u <:+ f.text ++ [','] → u ≠ [] → ¬ e.text ++ [','] <+: u ++ entries es := by
        intro u hu hne hpre
        rcases List.suffix_concat_iff.1 hu with rfl | ⟨t, rfl, ht⟩
        · exact hne rfl
        · have hcomma : ',' ∉ t := fun h => f.comma (ht.subset h)
          rw [List.append_assoc] at hpre
          exact h ((prefix_iff hcomma).1 hpre ▸ ht)
      have hf : f.text ++ ',' :: entries es = f.text ++ [','] ++ entries es := by simp
      rw [hf, replaceAll_skip e.verbatim hskip, ih]

/-! ## A step -/

/-- As many commas are left as entries that do not end like `e`. -/
theorem count_rest (e : Entry) (es : List Entry) :
    (es.flatMap (rest e)).count ',' = (es.filter fun f => ¬ e.text <:+ f.text).length := by
  induction es with
  | nil => rfl
  | cons f es ih =>
    rw [List.flatMap_cons, List.count_append, ih, rest]
    have hf : f.text.count ',' = 0 := List.count_eq_zero.2 f.comma
    split
    next h =>
      have htake : (f.text.take (f.text.length - e.text.length)).count ',' = 0 :=
        List.count_eq_zero.2 fun hmem => f.comma (List.mem_of_mem_take hmem)
      rw [htake, List.filter_cons_of_neg (by simpa using h), Nat.zero_add]
    next h =>
      rw [List.count_append, hf, List.filter_cons_of_pos (by simpa using h), List.length_cons]
      simp [Nat.add_comm]

/-- The file lists no more texts than `echo` is given commas. -/
theorem length_listed (s : Text) : (listed (some (echoN s))).length ≤ s.count ',' := by
  have hsub : (content (some (echoN s))).Sublist s := by
    refine (List.rdropWhile_prefix _ _).sublist.trans ?_
    rw [Option.getD_some, echoN]
    split
    · exact List.nil_sublist s
    · exact List.Sublist.refl s
  rw [listed, List.length_dropLast, length_splitOn, Nat.add_sub_cancel]
  exact hsub.count_le ','

/-- What is taken out takes nothing with it. -/
theorem rest_of_fair (h : ∀ f ∈ es, e.Ends f → f = e) : es.flatMap (rest e) = entries (es.filter (· ≠ e)) := by
  induction es with
  | nil => rfl
  | cons f es ih =>
    rw [List.flatMap_cons, ih fun g hg => h g (List.mem_cons_of_mem f hg), rest]
    by_cases hf : f = e
    · subst hf
      rw [if_pos (List.suffix_refl _), List.filter_cons_of_neg (by simp), Nat.sub_self]
      rfl
    · have hno : ¬ e.text <:+ f.text := fun hends => hf (h f List.mem_cons_self (Entry.ends_iff.2 hends))
      rw [if_neg hno, List.filter_cons_of_pos (by simpa using hf), entries_cons]
      simp

/-- What is taken with it is missing. -/
theorem fair_of_listed (h : listed (some (echoN (es.flatMap (rest e)))) = (es.filter (· ≠ e)).map Entry.text) :
    ∀ f ∈ es, e.Ends f → f = e := by
  intro f hf hends
  by_contra hne
  have hcount := length_listed (es.flatMap (rest e))
  rw [h, List.length_map, count_rest] at hcount
  have hfilter : (es.filter fun f => ¬ e.text <:+ f.text) =
      (es.filter (· ≠ e)).filter fun f => ¬ e.text <:+ f.text := by
    rw [List.filter_filter]
    refine List.filter_congr fun g _ => ?_
    by_cases hg : e.text <:+ g.text
    · simp [hg]
    · have hne : g ≠ e := fun heq => hg (by rw [heq])
      simp [hg, hne]
  have hlt : ((es.filter (· ≠ e)).filter fun f => ¬ e.text <:+ f.text).length < (es.filter (· ≠ e)).length :=
    List.length_filter_lt_length_iff_exists.2
      ⟨f, List.mem_filter.2 ⟨hf, by simpa using hne⟩, by simpa using Entry.ends_iff.1 hends⟩
  rw [hfilter] at hcount
  omega

end

/-- What the file has to be. -/
def World.Ok (w : World) : Prop := w.file.getD [] = entries w.active

section
variable {w : World} {op : Op} {e : Entry}

theorem World.Ok.content_eq (h : w.Ok) : content w.file = entries w.active := by
  have hfile := content_entries w.active
  rw [content, Option.getD_some] at hfile
  rw [content, h, hfile]

theorem World.Ok.listed_eq (h : w.Ok) : listed w.file = w.active.map Entry.text := by
  rw [listed, h.content_eq, splitOn_entries, List.dropLast_concat]

theorem World.Ok.register (h : w.Ok) : (w.apply (.register e)).Ok := by
  have hecho : echoN (e.text ++ [',']) = e.text ++ [','] :=
    echoN_comma (List.mem_append_right _ (List.mem_singleton_self _))
  change w.file.getD [] ++ echoN (e.text ++ [',']) = entries (w.active ++ [e])
  rw [h, hecho, entries_append]
  simp [entries]

theorem World.Ok.unregister_file (h : w.Ok) :
    (w.apply (.unregister e)).file = some (echoN (w.active.flatMap (rest e))) := by
  change some (echoN (replaceAll (e.text ++ [',']) [] (content w.file))) = _
  rw [h.content_eq, replaceAll_entries]

theorem World.Ok.apply (h : w.Ok) (hfair : Fair w op) : (w.apply op).Ok := by
  cases op with
  | register e => exact h.register
  | unregister e =>
    rw [Ok, h.unregister_file, rest_of_fair hfair, Option.getD_some, echoN_entries]
    rfl
  | check e => exact h

/-- **A step is right** exactly if it is fair. -/
theorem fair_iff_right (h : w.Ok) : Fair w op ↔ Right w op := by
  constructor
  · intro hfair
    refine ⟨(h.apply hfair).listed_eq, ?_⟩
    rintro e rfl
    rw [h.content_eq, varContains_entries]
    constructor
    · rintro ⟨f, hf, hends⟩
      exact hfair.resolve_right fun hno => hno f hf hends
    · exact fun he => ⟨e, he, e.ends_self⟩
  · rintro ⟨hlisted, hcheck⟩
    cases op with
    | register e => trivial
    | unregister e =>
      rw [h.unregister_file] at hlisted
      exact fair_of_listed hlisted
    | check e =>
      by_cases he : e ∈ w.active
      · exact .inl he
      · refine .inr fun f hf hends => he ?_
        refine (hcheck e rfl).1 ?_
        rw [h.content_eq, varContains_entries]
        exact ⟨f, hf, hends⟩

/-- Without `-force`, `ifup` ends at once for what is active and `ifdown` for what is not. -/
theorem refused_iff (h : w.Ok) (hfair : Fair w (.check e)) :
    (refused "up".toList false w.file e.text = true ↔ e ∈ w.active) ∧
      (refused "down".toList false w.file e.text = true ↔ e ∉ w.active) := by
  have hcheck := (fair_iff_right h).1 hfair |>.2 e rfl
  constructor
  · simp [refused, hcheck]
  · rw [← hcheck]
    simp [refused]

end

/-! ## All steps -/

/-- **The registry is right** after every step exactly if nothing else that is active ends like what is taken out, and
nothing that is active ends like what is looked for and is not there. -/
theorem registry_iff (ops : List Op) : Along step Right start ops ↔ Along step Fair start ops := by
  have hstart : start.Ok := rfl
  have hkeep : ∀ w op w', World.Ok w → Fair w op → step w op = some w' → World.Ok w' := by
    intro w op w' h hfair hstep
    obtain rfl := Option.some.inj hstep
    exact h.apply hfair
  exact (along_iff (I := World.Ok) (C := Fair) (D := Right) hkeep (fun w op h => fair_iff_right h) hstart ops).symm

def lan : Entry := ⟨"lan".toList, "home".toList, by decide⟩
def wlan : Entry := ⟨"wlan".toList, "home".toList, by decide⟩

/-- The interface `wlan` is no longer listed, and `lan` is found although it is not there. -/
theorem wlan_cut :
    ¬ Along step Right start [.register wlan, .register lan, .unregister lan] ∧
      (((start.apply (.register wlan)).apply (.register lan)).apply (.unregister lan)).file = some ['w'] ∧
      ¬ Along step Right start [.register wlan, .check lan] ∧
      varContains (content (start.apply (.register wlan)).file) [','] lan.text = true := by
  have hends : lan.Ends wlan := ⟨⟨['w'], rfl⟩, rfl⟩
  refine ⟨fun h => ?_, by decide +kernel, fun h => ?_, by decide +kernel⟩
  · have hright := (h.2 _ rfl).2 _ rfl
    exact absurd hright.1.1 (by decide +kernel)
  · have hright := (h.2 _ rfl).1
    exact absurd ((hright.2 lan rfl).1 (by decide +kernel)) (by decide)

end T2Sde.Rocknet
