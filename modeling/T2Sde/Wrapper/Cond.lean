import T2Sde.Wrapper.Args
/-!
# Conditional arguments (`misc/tools-source/cmd_wrapper.c`)

`eval_cond_arg` cuts the token that `strtok` has just cut out, and calls itself with what is behind the colon. The
pointer of a call is always further on in the text than the one before, so that the calls come to an end wherever the
first pointer is.

| here | there |
| --- | --- |
| `cutColon` | `rhs` :104-107 |
| `call`    | the body of `eval_cond_arg` :88-126 |
| `Returns` | the call, with the calls that it makes |

* `returns_unique` — every call returns, with one result.
* `returns_token` — what it returns for a token, and what it does to the text around it.
* `cond_arg_reading` — **conditional arguments are what they read as**, in the loops over the tokens too.
-/
namespace T2Sde.Wrapper
open Shell

/-- The colon behind `lhs` becomes a zero: what `rhs` points to, and the buffer. -/
def cutColon (buf : Text) (lhs : Nat) : Nat × Text :=
  let c := scan ':' buf lhs
  if charAt buf c = ':' then (c + 1, buf.set c nul) else (c, buf)

section
variable (fnmatch : Text → Text → Bool) (argv : List Text)

/-- One call: it returns a pointer, or calls itself with one; and the buffer. -/
def call (buf : Text) (arg : Nat) : (Nat × Text) ⊕ (Nat × Text) :=
  let c := scan '?' buf arg
  if charAt buf c ≠ '?' then .inl (arg, buf)
  else
    let lhs := c + 1
    let x := cutColon (buf.set c nul) lhs
    if argv.any (fnmatch (cstr (x.2.drop arg))) then .inl (lhs, x.2) else .inr x

/-- The call with this buffer and pointer returns. -/
inductive Returns : Text → Nat → Nat × Text → Prop
  | here {buf : Text} {arg : Nat} {r : Nat × Text} (h : call fnmatch argv buf arg = .inl r) : Returns buf arg r
  | there {buf : Text} {arg : Nat} {c r : Nat × Text} (h : call fnmatch argv buf arg = .inr c)
      (hr : Returns c.2 c.1 r) : Returns buf arg r

end

section
variable {fnmatch : Text → Text → Bool} {argv : List Text}

theorem evalCondArg_call (n : Nat) (buf : Text) (arg : Nat) :
    evalCondArg fnmatch argv (n + 1) buf arg =
      (call fnmatch argv buf arg).elim id fun c => evalCondArg fnmatch argv n c.2 c.1 := by
  rw [evalCondArg, call]
  by_cases hc : charAt buf (scan '?' buf arg) ≠ '?'
  · rw [if_pos hc, if_pos hc]
    rfl
  · rw [if_neg hc, if_neg hc]
    simp only [cutColon]
    split_ifs <;> rfl

theorem le_scan (d : Char) (buf : Text) (p : Nat) : p ≤ scan d buf p := Nat.le_add_right _ _

theorem cutColon_forward (buf : Text) (lhs : Nat) :
    lhs ≤ (cutColon buf lhs).1 ∧ (cutColon buf lhs).2.length = buf.length := by
  have hle := le_scan ':' buf lhs
  rw [cutColon]
  split
  · exact ⟨Nat.le_succ_of_le hle, List.length_set⟩
  · exact ⟨hle, rfl⟩

/-- A call goes on behind its argument, in a buffer of the same length. -/
theorem call_forward {buf : Text} {arg : Nat} {c : Nat × Text} (h : call fnmatch argv buf arg = .inr c) :
    arg < c.1 ∧ arg < buf.length ∧ c.2.length = buf.length := by
  rw [call] at h
  split at h
  · cases h
  next hc =>
    have hfirst := le_scan '?' buf arg
    have hsecond := cutColon_forward (buf.set (scan '?' buf arg) nul) (scan '?' buf arg + 1)
    have hlt : scan '?' buf arg < buf.length := by
      by_contra hge
      apply hc
      rw [charAt, List.getD_eq_getElem?_getD, List.getElem?_eq_none (not_lt.1 hge)]
      decide
    simp only at h
    split at h
    · cases h
    · obtain rfl := Sum.inr.inj h
      rw [List.length_set] at hsecond
      exact ⟨by omega, by omega, hsecond.2⟩

/-- **Every call returns.** -/
theorem exists_returns (buf : Text) (arg : Nat) : ∃ r, Returns fnmatch argv buf arg r := by
  induction hk : buf.length - arg using Nat.strongRecOn generalizing buf arg with
  | _ k ih =>
    cases hc : call fnmatch argv buf arg with
    | inl r => exact ⟨r, .here hc⟩
    | inr c =>
      obtain ⟨hforward, hlt, hlen⟩ := call_forward hc
      obtain ⟨r, hr⟩ := ih (c.2.length - c.1) (by omega) c.2 c.1 rfl
      exact ⟨r, .there hc hr⟩

/-- With enough calls allowed the result is the one that is returned. -/
theorem Returns.evalCondArg_eq {buf : Text} {arg : Nat} {r : Nat × Text} (h : Returns fnmatch argv buf arg r) :
    ∃ k, ∀ n, k ≤ n → evalCondArg fnmatch argv n buf arg = r := by
  induction h with
  | here h =>
    refine ⟨1, fun n hn => ?_⟩
    obtain ⟨n, rfl⟩ := Nat.exists_eq_add_of_le' hn
    rw [evalCondArg_call, h]
    rfl
  | there h _ ih =>
    obtain ⟨k, hk⟩ := ih
    refine ⟨k + 1, fun n hn => ?_⟩
    obtain ⟨m, rfl⟩ := Nat.exists_eq_add_of_le' hn
    rw [← Nat.add_assoc, evalCondArg_call, h]
    exact hk (m + k) (Nat.le_add_left k m)

theorem returns_unique (buf : Text) (arg : Nat) : ∃! r, Returns fnmatch argv buf arg r := by
  obtain ⟨r, hr⟩ := @exists_returns fnmatch argv buf arg
  refine ⟨r, hr, fun r' hr' => ?_⟩
  obtain ⟨k, hk⟩ := hr.evalCondArg_eq
  obtain ⟨k', hk'⟩ := hr'.evalCondArg_eq
  rw [← hk (max k k') (le_max_left _ _), hk' (max k k') (le_max_right _ _)]

/-- What is returned for a token: a pointer to what it reads as; nothing has changed around the token. -/
theorem returns_token {t : Text} (ht : nul ∉ t) (pre post : Text) :
    ∃ p t', Returns fnmatch argv (pre ++ t ++ nul :: post) pre.length (p, pre ++ t' ++ nul :: post) ∧
      t'.length = t.length ∧ cstr ((pre ++ t' ++ nul :: post).drop p) = evalCond fnmatch argv t := by
  obtain ⟨r, hr⟩ := @exists_returns fnmatch argv (pre ++ t ++ nul :: post) pre.length
  obtain ⟨k, hk⟩ := hr.evalCondArg_eq
  obtain ⟨p, t', heq, hlen, -, htext⟩ :=
    @evalCondArg_spec fnmatch argv (max k (t.length + 1)) t (by omega) ht pre post
  rw [hk _ (le_max_left _ _)] at heq
  exact ⟨p, t', heq ▸ hr, hlen, htext⟩

/-- **Conditional arguments are what they read as**: each call returns, for a token with a pointer to what it denotes,
and the loops go on with the tokens of the text as it was. -/
theorem cond_arg_reading (fnmatch : Text → Text → Bool) (argv : List Text) :
    (∀ buf arg, ∃! r, Returns fnmatch argv buf arg r) ∧
      (∀ t pre post, nul ∉ t → ∃ p t',
        Returns fnmatch argv (pre ++ t ++ nul :: post) pre.length (p, pre ++ t' ++ nul :: post) ∧
          t'.length = t.length ∧ cstr ((pre ++ t' ++ nul :: post).drop p) = evalCond fnmatch argv t) ∧
      (∀ value arg, nul ∉ value → isRemoved fnmatch argv arg (copy value).length (copy value) 0 =
        (((tokens value).map (evalCond fnmatch argv)).filter (· ≠ [])).any (fnmatch · arg)) ∧
      ∀ value into a ps, nul ∉ value → Holds a ps → ∃ (qs : List Nat) (buf : Text) (a' : NewArgv),
        insertOptions fnmatch argv into (copy value).length (copy value) 0 a = some (buf, a') ∧
          Holds a' (ps ++ qs.map into) ∧
            qs.map (fun q => cstr (buf.drop q)) = ((tokens value).map (evalCond fnmatch argv)).filter (· ≠ []) := by
  refine ⟨returns_unique, fun t pre post ht => returns_token ht pre post, fun value arg hz => ?_,
    fun value into a ps hz ha => ?_⟩
  · exact isRemoved_spec arg (by simp [copy]) hz []
  · exact insertOptions_spec into (by simp [copy]) hz [] ha

/-- A condition behind a condition. -/
theorem cond_arg_reading_nested :
    ∃ p t', Returns (fun c w => decide (c = w)) ["gcc".toList, "-c".toList]
        ([] ++ "-E?-P:-c?-O2".toList ++ nul :: []) 0 (p, [] ++ t' ++ nul :: []) ∧
      t'.length = "-E?-P:-c?-O2".toList.length ∧ cstr (([] ++ t' ++ nul :: []).drop p) =
        evalCond (fun c w => decide (c = w)) ["gcc".toList, "-c".toList] "-E?-P:-c?-O2".toList :=
  (cond_arg_reading (fun c w => decide (c = w)) ["gcc".toList, "-c".toList]).2.1 _ [] [] (by decide)

end

end T2Sde.Wrapper
