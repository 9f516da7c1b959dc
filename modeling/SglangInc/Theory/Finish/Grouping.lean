import SglangInc.Core.Finishing

/-!
# Tokens in Groups

Whether the end of a request depends on how its tokens arrive.

One token at a time, the request ends at the first token that brings one of four
reasons: the length, a stop token, an id out of the vocabulary, or a stop string
in the text. With groups the same checks are made once for a group. The length
is then that of the whole group, so it wins over a stop token further in front.
Stop tokens are looked for in the whole group before ids out of the vocabulary.
And a stop string is looked for at the end of the group, with no position, so
what follows it in the group stays in the output.

`CleanCut` is what this leaves: in the group with the token that ends the
request, either this is the last token, or it is the length that is reached
there, or the group stays below the maximal length and the reason is a stop
token, or an id out of the vocabulary with no stop token behind it. Groups give
the outcome of single tokens exactly then (`feed_eq_feedEach_iff`). After any
other cut the outcomes differ for good: either the reasons differ, or the groups
have more output (`length_lt_through_of_late`).

## Theorems

* `feedEach_quiet`, `feedEach_ends`: Single tokens.
* `outcome_grouped_iff`: Any two ways to cut.
-/

namespace SglangInc.Finish

open List Option

namespace Req

/-- Not finished, and nothing is going to finish it but its own tokens. -/
structure Idle (req : Req) : Prop where
  finishedReason : req.finishedReason = none
  toFinish : req.toFinish = none
  finishedLen : req.finishedLen = none

/-- A stop token, for a request that minds them. -/
def isStop (req : Req) (tokenId : Int) : Bool :=
  !req.samplingParams.ignoreEos && req.matchedEos tokenId

/-- The stop string or regex that is found in the tail of the output. -/
def strMatch (req : Req) : Option FinishReason :=
  if req.hasStopStrs then req.matchIn req.tailStr else none

/-- The token ends the request when it arrives alone. -/
def Ends (req : Req) (t : Int) : Prop :=
  req.samplingParams.maxNewTokens ≤ req.outputIds.length + 1 ∨ req.isStop t = true ∨
    req.outOfVocab t = true ∨ (req.append [t]).strMatch.isSome = true

/-- None of the tokens ends the request when they arrive one by one. -/
def Quiet (req : Req) : List Int → Prop
  | [] => True
  | t :: ts => ¬req.Ends t ∧ (req.append [t]).Quiet ts

variable {req : Req}

theorem append_append (req : Req) (xs ys : List Int) :
    (req.append xs).append ys = req.append (xs ++ ys) := by
  simp [append]

theorem append_nil (req : Req) : req.append [] = req := by
  simp [append]

theorem Idle.append (h : req.Idle) (ts : List Int) : (req.append ts).Idle :=
  ⟨h.finishedReason, h.toFinish, h.finishedLen⟩

theorem Idle.not_finished (h : req.Idle) : req.finished = false := by
  rw [finished, h.finishedReason]
  rfl

theorem isStop_append (ts : List Int) : (req.append ts).isStop = req.isStop := rfl

theorem outOfVocab_append (ts : List Int) : (req.append ts).outOfVocab = req.outOfVocab := rfl

theorem quiet_append {xs ys : List Int} :
    req.Quiet (xs ++ ys) ↔ req.Quiet xs ∧ (req.append xs).Quiet ys := by
  induction xs generalizing req with
  | nil => simp [Quiet, append_nil]
  | cons t xs ih =>
    simp [Quiet, ih, and_assoc, append_append]

/-- The first token that ends the request is in one place. -/
theorem split_unique {pre pre' post post' : List Int} {t t' : Int} (hq : req.Quiet pre)
    (ht : (req.append pre).Ends t) (hq' : req.Quiet pre') (ht' : (req.append pre').Ends t')
    (heq : pre ++ t :: post = pre' ++ t' :: post') : pre = pre' ∧ t = t' ∧ post = post' := by
  rcases append_eq_append_iff.mp heq with ⟨mid, rfl, hmid⟩ | ⟨mid, rfl, hmid⟩
  · cases mid with
    | nil => exact ⟨(List.append_nil _).symm, List.cons.inj hmid⟩
    | cons x mid =>
      obtain ⟨rfl, -⟩ := List.cons.inj hmid
      exact absurd ht (quiet_append.mp hq').2.1
  cases mid with
  | nil =>
    obtain ⟨h1, h2⟩ := List.cons.inj hmid
    exact ⟨List.append_nil _, h1.symm, h2.symm⟩
  | cons x mid =>
    obtain ⟨rfl, -⟩ := List.cons.inj hmid
    exact absurd ht' (quiet_append.mp hq).2.1

variable {ts g : List Int} {p : Int → Bool}

/-- Quiet tokens are no stop tokens and in the vocabulary. -/
theorem Quiet.not_mem (h : req.Quiet ts) :
    ∀ t ∈ ts, req.isStop t = false ∧ req.outOfVocab t = false := by
  induction ts generalizing req with
  | nil => simp
  | cons x ts ih =>
    have hx := h.1
    simp only [Ends, not_or, Bool.not_eq_true] at hx
    exact forall_mem_cons.mpr ⟨⟨hx.2.1, hx.2.2.1⟩, fun t ht => ih h.2 t ht⟩

/-- After quiet tokens, the length is not reached and no stop string is found. -/
theorem Quiet.last (h : req.Quiet ts) (hne : ts ≠ []) :
    req.outputIds.length + ts.length < req.samplingParams.maxNewTokens ∧
      (req.append ts).strMatch = none := by
  induction ts generalizing req with
  | nil => exact absurd rfl hne
  | cons x ts ih =>
    have hx := h.1
    simp only [Ends, not_or, Nat.not_le, Bool.not_eq_true, isSome_eq_false_iff,
      isNone_iff_eq_none] at hx
    cases ts with
    | nil => exact ⟨hx.1, hx.2.2.2⟩
    | cons y ts =>
      obtain ⟨hlen, hstr⟩ := ih h.2 (by simp)
      refine ⟨?_, by rwa [append_append] at hstr⟩
      simp only [Req.append, length_append, length_cons, length_nil] at hlen ⊢
      omega

/-- Either all tokens are quiet, or there is a first one that ends the
    request. -/
theorem quiet_or_ends (req : Req) (ts : List Int) : req.Quiet ts ∨
      ∃ pre t post, ts = pre ++ t :: post ∧ req.Quiet pre ∧ (req.append pre).Ends t := by
  induction ts generalizing req with
  | nil => exact .inl trivial
  | cons x ts ih =>
    by_cases hx : req.Ends x
    · exact .inr ⟨[], x, ts, rfl, trivial, by rwa [append_nil]⟩
    · rcases ih (req.append [x]) with h | ⟨pre, t, post, rfl, hq, ht⟩
      · exact .inl ⟨hx, h⟩
      · exact .inr ⟨x :: pre, t, post, rfl, ⟨hx, hq⟩, by rwa [append_append] at ht⟩

/-- The end by the length. -/
def endLength (req : Req) : Req :=
  { req with
    finishedReason := some (.length req.samplingParams.maxNewTokens)
    finishedLen := some req.samplingParams.maxNewTokens }

/-- The end by the stop token at position `i` of the output. -/
def endToken (req : Req) (i : Nat) (t : Int) : Req :=
  { req with finishedReason := some (.matchedToken t), finishedLen := some (i + 1) }

/-- The end by an id out of the vocabulary at position `i` of the output. -/
def endVocab (req : Req) (i : Nat) : Req :=
  { req with
    outputIds := overwrite (overwrite req.outputIds i req.samplingParams.stopTokenIds) i
      req.eosTokenIds
    finishedReason := some (.matchedStr "NaN happened".toList)
    finishedLen := some (i + 1) }

/-- The end by what is found in the text. -/
def endStr (req : Req) (reason : FinishReason) : Req :=
  { req with finishedReason := some reason }

theorem lastOutputIds_append (req : Req) (hne : g ≠ []) :
    (req.append g).lastOutputIds g.length = g := by
  have hlen : g.length ≠ 0 := by simpa using hne
  simp [lastOutputIds, hlen, append]

/-- The first stop token of a group ends the request there. -/
theorem checkTokenBasedFinish_append (req : Req) (g : List Int) :
    (req.append g).checkTokenBasedFinish g = (g.findIdx? req.isStop).bind fun i =>
      g[i]?.map fun t => (req.append g).endToken (req.outputIds.length + i) t := by
  unfold checkTokenBasedFinish
  by_cases hign : req.samplingParams.ignoreEos = true
  · have hnone : g.findIdx? req.isStop = none := by
      rw [findIdx?_eq_none_iff]
      intro t _
      simp [isStop, hign]
    simp [append, hign, hnone]
  have hfun : req.matchedEos = req.isStop := by
    funext t
    simp [isStop, Bool.eq_false_iff.mpr hign]
  have hmatched : (req.append g).matchedEos = req.matchedEos := rfl
  have hign' : (req.append g).samplingParams.ignoreEos = false := Bool.eq_false_iff.mpr hign
  rw [hign', hmatched, hfun]
  cases hi : g.findIdx? req.isStop with
  | none => rfl
  | some i =>
    obtain ⟨hlt, -⟩ := findIdx?_eq_some_iff_getElem.mp hi
    simp [getElem?_eq_getElem hlt, append, endToken]

theorem checkVocabBoundaryFinish_append (req : Req) (g : List Int) :
    (req.append g).checkVocabBoundaryFinish g = (g.findIdx? req.outOfVocab).map fun i =>
        (req.append g).endVocab (req.outputIds.length + i) := by
  unfold checkVocabBoundaryFinish
  rw [outOfVocab_append]
  cases g.findIdx? req.outOfVocab with
  | none => rfl
  | some i =>
    simp [endVocab, append]

theorem checkStrBasedFinish_eq (req : Req) :
    req.checkStrBasedFinish = req.strMatch.map req.endStr := by
  unfold checkStrBasedFinish strMatch
  split
  · rfl
  · rfl

/-- The checks after a group, in their order. -/
theorem checkFinished_append (h : req.Idle) (hne : g ≠ []) : (req.append g).checkFinished g.length =
      if req.samplingParams.maxNewTokens ≤ req.outputIds.length + g.length then
        (req.append g).endLength else (((g.findIdx? req.isStop).bind fun i =>
          g[i]?.map fun t => (req.append g).endToken (req.outputIds.length + i) t).or
        (((g.findIdx? req.outOfVocab).map fun i =>
            (req.append g).endVocab (req.outputIds.length + i)).or
          ((req.append g).strMatch.map (req.append g).endStr))).getD (req.append g) := by
  have hidle := h.append g
  have hlen : (req.append g).outputIds.length = req.outputIds.length + g.length := by
    simp [append]
  unfold checkFinished
  rw [if_neg (by rw [hidle.not_finished]; exact Bool.false_ne_true)]
  split
  · next reason hto => cases hidle.toFinish.symm.trans hto
  · rw [lastOutputIds_append req hne, hlen]
    simp only [checkTokenBasedFinish_append, checkVocabBoundaryFinish_append,
      checkStrBasedFinish_eq]
    rfl

/-- The five ways a group can end, each with what it says about the group. -/
inductive Checked (req : Req) (g : List Int) : Req → Prop
  | length (hlen : req.samplingParams.maxNewTokens ≤ req.outputIds.length + g.length) :
      Checked req g (req.append g).endLength
  | token {pre t post} (hlen : req.outputIds.length + g.length < req.samplingParams.maxNewTokens)
      (hg : g = pre ++ t :: post) (hpre : ∀ x ∈ pre, req.isStop x = false)
      (ht : req.isStop t = true) :
      Checked req g ((req.append g).endToken (req.outputIds.length + pre.length) t)
  | vocab {pre t post} (hlen : req.outputIds.length + g.length < req.samplingParams.maxNewTokens)
      (hstop : ∀ x ∈ g, req.isStop x = false) (hg : g = pre ++ t :: post)
      (hpre : ∀ x ∈ pre, req.outOfVocab x = false) (ht : req.outOfVocab t = true) :
      Checked req g ((req.append g).endVocab (req.outputIds.length + pre.length))
  | str {reason} (hlen : req.outputIds.length + g.length < req.samplingParams.maxNewTokens)
      (hstop : ∀ x ∈ g, req.isStop x = false) (hvocab : ∀ x ∈ g, req.outOfVocab x = false)
      (hstr : (req.append g).strMatch = some reason) :
      Checked req g ((req.append g).endStr reason)
  | go (hlen : req.outputIds.length + g.length < req.samplingParams.maxNewTokens)
      (hstop : ∀ x ∈ g, req.isStop x = false) (hvocab : ∀ x ∈ g, req.outOfVocab x = false)
      (hstr : (req.append g).strMatch = none) : Checked req g (req.append g)

/-- A first element with a property, as a split of the list. -/
theorem split_of_findIdx? {i : Nat} (h : g.findIdx? p = some i) :
    ∃ pre t post, g = pre ++ t :: post ∧ pre.length = i ∧ (∀ x ∈ pre, p x = false) ∧
      p t = true := by
  obtain ⟨hlt, hp, hpre⟩ := findIdx?_eq_some_iff_getElem.mp h
  refine ⟨g.take i, g[i], g.drop (i + 1), ?_, ?_, ?_, hp⟩
  · rw [← drop_eq_getElem_cons hlt, take_append_drop]
  · rw [length_take, Nat.min_eq_left hlt.le]
  · intro x hx
    obtain ⟨j, hj, rfl⟩ := mem_iff_getElem.mp hx
    rw [length_take] at hj
    simpa using hpre j (by omega)

theorem findIdx?_of_split {pre post : List Int} {t : Int} (hpre : ∀ x ∈ pre, p x = false)
    (ht : p t = true) : (pre ++ t :: post).findIdx? p = some pre.length := by
  rw [findIdx?_append, findIdx?_eq_none_iff.mpr hpre, findIdx?_cons]
  simp [ht]

theorem feed_finished (h : req.finished = true) (gs : List (List Int)) : req.feed gs = req := by
  cases gs with
  | nil => rfl
  | cons g gs => rw [feed, if_pos h]

section

variable (h : req.Idle) {t : Int}
include h

/-- What one check can find. -/
theorem checked (hne : g ≠ []) : Checked req g ((req.append g).checkFinished g.length) := by
  rw [checkFinished_append h hne]
  split
  · next hlen => exact .length hlen
  next hlen =>
    rw [Nat.not_le] at hlen
    cases hs : g.findIdx? req.isStop with
    | some i =>
      obtain ⟨pre, t, post, rfl, rfl, hpre, ht⟩ := split_of_findIdx? hs
      simpa using Checked.token hlen rfl hpre ht
    | none =>
      rw [findIdx?_eq_none_iff] at hs
      cases hv : g.findIdx? req.outOfVocab with
      | some i =>
        obtain ⟨pre, t, post, rfl, rfl, hpre, ht⟩ := split_of_findIdx? hv
        exact .vocab hlen hs rfl hpre ht
      | none =>
        rw [findIdx?_eq_none_iff] at hv
        cases hstr : (req.append g).strMatch with
        | some reason => exact .str hlen hs hv hstr
        | none => exact .go hlen hs hv hstr

theorem checkFinished_length (hne : g ≠ [])
    (hlen : req.samplingParams.maxNewTokens ≤ req.outputIds.length + g.length) :
    (req.append g).checkFinished g.length = (req.append g).endLength := by
  rw [checkFinished_append h hne, if_pos hlen]

theorem checkFinished_token {pre post : List Int}
    (hlen : req.outputIds.length + (pre ++ t :: post).length < req.samplingParams.maxNewTokens)
    (hpre : ∀ x ∈ pre, req.isStop x = false) (ht : req.isStop t = true) :
    (req.append (pre ++ t :: post)).checkFinished (pre ++ t :: post).length =
      (req.append (pre ++ t :: post)).endToken (req.outputIds.length + pre.length) t := by
  rw [checkFinished_append h (by simp), if_neg hlen.not_ge, findIdx?_of_split hpre ht]
  simp

theorem checkFinished_vocab {pre post : List Int}
    (hlen : req.outputIds.length + (pre ++ t :: post).length < req.samplingParams.maxNewTokens)
    (hstop : ∀ x ∈ pre ++ t :: post, req.isStop x = false)
    (hpre : ∀ x ∈ pre, req.outOfVocab x = false) (ht : req.outOfVocab t = true) :
    (req.append (pre ++ t :: post)).checkFinished (pre ++ t :: post).length =
      (req.append (pre ++ t :: post)).endVocab (req.outputIds.length + pre.length) := by
  rw [checkFinished_append h (by simp), if_neg hlen.not_ge,
    findIdx?_eq_none_iff.mpr hstop, findIdx?_of_split hpre ht]
  rfl

theorem checkFinished_quiet (hne : g ≠ []) (hq : req.Quiet g) :
    (req.append g).checkFinished g.length = req.append g := by
  obtain ⟨hlen, hstr⟩ := hq.last hne
  rw [checkFinished_append h hne, if_neg hlen.not_ge,
    findIdx?_eq_none_iff.mpr fun x hx => (hq.not_mem x hx).1,
    findIdx?_eq_none_iff.mpr fun x hx => (hq.not_mem x hx).2, hstr]
  rfl

/-- A token that ends the request alone leaves it finished. -/
theorem finished_of_ends (ht : req.Ends t) :
    ((req.append [t]).checkFinished 1).finished = true := by
  have hc := checked h (cons_ne_nil t [])
  generalize (req.append [t]).checkFinished [t].length = after at hc ⊢
  cases hc with
  | length | token | vocab | str => rfl
  | go hlen hstop hvocab hstr =>
    rcases ht with ht | ht | ht | ht
    · exact absurd ht hlen.not_ge
    · cases (hstop t mem_cons_self).symm.trans ht
    · cases (hvocab t mem_cons_self).symm.trans ht
    · rw [hstr] at ht; cases ht

theorem feed_cons (g : List Int) (gs : List (List Int)) :
    req.feed (g :: gs) = ((req.append g).checkFinished g.length).feed gs := by
  rw [feed, if_neg (by rw [h.not_finished]; exact Bool.false_ne_true)]

theorem feedEach_quiet (hq : req.Quiet ts) (rest : List Int) :
    req.feedEach (ts ++ rest) = (req.append ts).feedEach rest := by
  induction ts generalizing req with
  | nil => rw [append_nil, nil_append]
  | cons t ts ih =>
    have hstep : (req.append [t]).checkFinished 1 = req.append [t] :=
      checkFinished_quiet h (cons_ne_nil t []) ⟨hq.1, trivial⟩
    have hcons : req.feedEach (t :: (ts ++ rest)) = (req.append [t]).feedEach (ts ++ rest) := by
      rw [feedEach, map_cons, feed_cons h, length_singleton, hstep]
      rfl
    rw [cons_append, hcons, ih (h.append [t]) hq.2, append_append]
    rfl

theorem feedEach_ends (ht : req.Ends t) (rest : List Int) :
    req.feedEach (t :: rest) = (req.append [t]).checkFinished 1 := by
  rw [feedEach, map_cons, feed_cons h, length_singleton, feed_finished (finished_of_ends h ht)]

end

/-- What may stand behind the token that ends the request, in its group. -/
def Safe (req : Req) (pre : List Int) (t : Int) (post : List Int) : Prop :=
  post = [] ∨
  req.samplingParams.maxNewTokens ≤ req.outputIds.length + pre.length + 1 ∨
  (req.outputIds.length + (pre ++ t :: post).length < req.samplingParams.maxNewTokens ∧
    (req.isStop t = true ∨ (req.outOfVocab t = true ∧ ∀ x ∈ post, req.isStop x = false)))

section Group

variable {pre post : List Int} {t : Int} {n : Nat}

/-- The last token of a group ends the request as it would alone. -/
theorem checkFinished_last (h : req.Idle) (hq : req.Quiet pre) :
    (req.append (pre ++ [t])).checkFinished (pre ++ [t]).length =
      ((req.append pre).append [t]).checkFinished 1 := by
  have hstop : pre.findIdx? req.isStop = none :=
    findIdx?_eq_none_iff.mpr fun x hx => (hq.not_mem x hx).1
  have hvocab : pre.findIdx? req.outOfVocab = none :=
    findIdx?_eq_none_iff.mpr fun x hx => (hq.not_mem x hx).2
  have hone := checkFinished_append (h.append pre) (cons_ne_nil t [])
  rw [length_singleton] at hone
  rw [hone, checkFinished_append h (by simp), append_append, isStop_append, outOfVocab_append,
    findIdx?_append, findIdx?_append, hstop, hvocab]
  simp only [append, length_append, length_singleton, Nat.add_assoc, Option.none_or,
    findIdx?_singleton]
  cases req.isStop t <;> cases req.outOfVocab t <;> simp

theorem overwrite_append {out : List Int} {i : Nat} (rest ids : List Int) (hi : i < out.length) :
    (overwrite (out ++ rest) i ids) = overwrite out i ids ++ rest := by
  cases ids with
  | nil => rfl
  | cons id ids => simp [overwrite, set_append_left _ _ hi]

theorem length_overwrite (out : List Int) (i : Nat) (ids : List Int) :
    (overwrite out i ids).length = out.length := by
  cases ids with
  | nil => rfl
  | cons id ids => simp [overwrite]

/-- A prefix of the output is not changed by what follows it in the group. -/
theorem take_output (req : Req) (pre post : List Int) (t : Int)
    (hn : n ≤ req.outputIds.length + pre.length + 1) :
    (req.append (pre ++ t :: post)).outputIds.take n =
      (req.append (pre ++ [t])).outputIds.take n := by
  have hsplit : (req.append (pre ++ t :: post)).outputIds =
      (req.append (pre ++ [t])).outputIds ++ post := by
    simp [append]
  rw [hsplit, take_append_of_le_length]
  simp only [append, length_append, length_singleton]
  omega

theorem outcome_endVocab :
    ((req.append (pre ++ t :: post)).endVocab (req.outputIds.length + pre.length)).outcome =
      ((req.append (pre ++ [t])).endVocab (req.outputIds.length + pre.length)).outcome := by
  have hsplit : req.outputIds ++ (pre ++ t :: post) = (req.outputIds ++ (pre ++ [t])) ++ post := by
    simp
  have hcount : (req.outputIds ++ (pre ++ [t])).length = req.outputIds.length + pre.length + 1 := by
    simp [Nat.add_assoc]
  simp only [outcome, endVocab, outputIdsThroughStop, append]
  rw [hsplit, overwrite_append _ _ (by rw [hcount]; omega),
    overwrite_append _ _ (by rw [length_overwrite, hcount]; omega), take_append_of_le_length]
  rw [length_overwrite, length_overwrite]
  exact hcount.symm.le

/-- A safe group ends the request as its tokens would one by one. -/
theorem outcome_eq_of_safe (h : req.Idle) (hq : req.Quiet pre) (hs : req.Safe pre t post) :
    ((req.append (pre ++ t :: post)).checkFinished (pre ++ t :: post).length).outcome =
      (((req.append pre).append [t]).checkFinished 1).outcome := by
  by_cases hpost : post = []
  · subst hpost
    rw [checkFinished_last h hq]
  have hne : pre ++ t :: post ≠ [] := by simp
  have hstops : ∀ x ∈ pre, req.isStop x = false := fun x hx => (hq.not_mem x hx).1
  have hvocabs : ∀ x ∈ pre, req.outOfVocab x = false := fun x hx => (hq.not_mem x hx).2
  rw [← checkFinished_last h hq]
  by_cases hlen : req.samplingParams.maxNewTokens ≤ req.outputIds.length + pre.length + 1
  · -- The length was reached before the group went on.
    rw [checkFinished_length h hne (by simp only [length_append, length_cons]; omega),
      checkFinished_length h (by simp)
        (by simp only [length_append, length_cons, length_nil]; omega)]
    have htake := take_output req pre post t hlen
    simp only [outcome, endLength, outputIdsThroughStop]
    rw [show (req.append (pre ++ t :: post)).samplingParams = req.samplingParams from rfl,
      show (req.append (pre ++ [t])).samplingParams = req.samplingParams from rfl, htake]
  obtain ⟨hlong, hreason⟩ := (hs.resolve_left hpost).resolve_left hlen
  have hshort : req.outputIds.length + (pre ++ [t]).length < req.samplingParams.maxNewTokens := by
    simp only [length_append, length_cons, length_nil] at hlong ⊢
    omega
  by_cases hstop : req.isStop t = true
  · rw [checkFinished_token h hlong hstops hstop, checkFinished_token h hshort hstops hstop]
    simp [outcome, endToken, outputIdsThroughStop, take_output req pre post t le_rfl]
  obtain ⟨hvocab, hafter⟩ := hreason.resolve_left hstop
  have hnone : ∀ x ∈ pre ++ t :: post, req.isStop x = false := forall_mem_append.mpr
    ⟨hstops, forall_mem_cons.mpr ⟨Bool.eq_false_iff.mpr hstop, hafter⟩⟩
  have hnone' : ∀ x ∈ pre ++ [t], req.isStop x = false := forall_mem_append.mpr
    ⟨hstops, forall_mem_singleton.mpr (Bool.eq_false_iff.mpr hstop)⟩
  rw [checkFinished_vocab h hlong hnone hvocabs hvocab,
    checkFinished_vocab h hshort hnone' hvocabs hvocab, outcome_endVocab]

/-- A group with no stop token and no id out of the vocabulary among its first
    tokens leaves more output than these, if what comes after the group leaves
    what is in it. -/
theorem length_lt_through (h : req.Idle) (pre : List Int) (hpost : post ≠ [])
    (hlen : req.outputIds.length + pre.length < req.samplingParams.maxNewTokens)
    (hstop : ∀ x ∈ pre, req.isStop x = false) (hvocab : ∀ x ∈ pre, req.outOfVocab x = false)
    {gs : List (List Int)}
    (hrest : req.outputIds.length + (pre ++ post).length < req.samplingParams.maxNewTokens →
      (req.append (pre ++ post)).outputIds.length ≤
        ((req.append (pre ++ post)).feed gs).outputIdsThroughStop.length) :
    req.outputIds.length + pre.length < (((req.append (pre ++ post)).checkFinished
      (pre ++ post).length).feed gs).outputIdsThroughStop.length := by
  have hposlen : 0 < post.length := length_pos_iff.mpr hpost
  have hc := checked h (show pre ++ post ≠ [] by simp [hpost])
  -- A first match splits the group behind `pre`.
  have hbehind : ∀ {p : Int → Bool} {pre' post' : List Int} {t' : Int}, (∀ x ∈ pre, p x = false) →
      pre ++ post = pre' ++ t' :: post' → p t' = true → pre.length ≤ pre'.length := by
    intro p pre' post' t' hp hg ht
    by_contra hlt
    rw [Nat.not_le] at hlt
    have hget := congrArg (fun l => l[pre'.length]?) hg
    simp only [getElem?_append_left hlt, getElem?_append_right le_rfl,
      Nat.sub_self, getElem?_cons_zero] at hget
    rw [hp t' (mem_of_getElem? hget)] at ht
    exact Bool.false_ne_true ht
  generalize hafter : (req.append (pre ++ post)).checkFinished (pre ++ post).length = after at hc ⊢
  cases hc with
  | length hl =>
    rw [feed_finished rfl]
    simp only [endLength, outputIdsThroughStop, append, length_take, length_append]
    omega
  | token hl hg hpre ht =>
    have hle := hbehind hstop hg ht
    rw [feed_finished rfl]
    simp only [endToken, outputIdsThroughStop, append, hg, length_take, length_append, length_cons]
    omega
  | vocab hl hs hg hpre ht =>
    have hle := hbehind hvocab hg ht
    rw [feed_finished rfl]
    simp only [endVocab, outputIdsThroughStop, append, hg, length_take,
      length_overwrite, length_append, length_cons]
    omega
  | str hl hs hv hstr =>
    rw [feed_finished rfl]
    simp only [endStr, outputIdsThroughStop, append, h.finishedLen, length_append]
    omega
  | go hl hs hv hstr =>
    have hrest := hrest hl
    simp only [append, length_append] at hrest ⊢
    omega

/-- Groups that start before the maximal length leave at least the output that
    was there. -/
theorem length_le_through (h : req.Idle)
    (hlen : req.outputIds.length < req.samplingParams.maxNewTokens) (gs : List (List Int))
    (hne : ∀ g ∈ gs, g ≠ []) :
    req.outputIds.length ≤ (req.feed gs).outputIdsThroughStop.length := by
  induction gs generalizing req with
  | nil =>
    simp only [feed, outputIdsThroughStop, h.finishedLen]
    exact le_rfl
  | cons g gs ih =>
    rw [feed_cons h]
    refine (length_lt_through h [] (hne g mem_cons_self) hlen (by simp) (by simp) fun hl => ?_).le
    exact ih (h.append g) (by simpa [append] using hl) (forall_mem_cons.mp hne).2

/-- What is found in the text is a stop string or a regex. -/
theorem strMatch_reason {reason : FinishReason} (h : req.strMatch = some reason) :
    (∃ stopStr, reason = .matchedStr stopStr) ∨ ∃ stopRegex, reason = .matchedRegex stopRegex := by
  unfold strMatch matchIn at h
  split at h
  · split at h
    · next stopStr _ => exact .inl ⟨stopStr, (some.inj h).symm⟩
    · obtain ⟨stopRegex, -, hr⟩ := map_eq_some_iff.mp h
      exact .inr ⟨stopRegex, hr.symm⟩
  · cases h

/-- A single token that does not reach the length has another reason. -/
theorem reason_ne_length {after : Req} (h : req.Idle) (hc : Checked req [t] after)
    (hlen : req.outputIds.length + 1 < req.samplingParams.maxNewTokens) :
    after.finishedReason ≠ some (.length n) := by
  cases hc with
  | length hl => rw [length_singleton] at hl; omega
  | token hl hg hp hstop => simp [endToken]
  | vocab hl hstop hg hp hv => simp [endVocab]
  | str hl hstop hv hstr =>
    rcases strMatch_reason hstr with ⟨x, rfl⟩ | ⟨x, rfl⟩
    all_goals simp [endStr]
  | go hl hstop hv hstr => rw [(h.append [t]).finishedReason]; simp

/-- A group that is not safe ends otherwise, whatever comes after it. -/
theorem outcome_ne_of_not_safe (h : req.Idle) (hq : req.Quiet pre) (ht : (req.append pre).Ends t)
    (hs : ¬req.Safe pre t post) (gs : List (List Int)) (hne : ∀ g ∈ gs, g ≠ []) :
    (((req.append (pre ++ t :: post)).checkFinished (pre ++ t :: post).length).feed gs).outcome ≠
      (((req.append pre).append [t]).checkFinished 1).outcome := by
  simp only [Safe, not_or, not_and, Nat.not_le, Bool.not_eq_true] at hs
  obtain ⟨hpost, hlen, hreason⟩ := hs
  have hone := checked (h.append pre) (cons_ne_nil t [])
  have hfin := finished_of_ends (h.append pre) ht
  intro heq
  generalize ((req.append pre).append [t]).checkFinished [t].length = single at hone heq hfin
  by_cases hlong : req.samplingParams.maxNewTokens ≤
      req.outputIds.length + (pre ++ t :: post).length
  · -- The group reaches the length and so has that reason, which the token has not.
    rw [checkFinished_length h (by simp) hlong, feed_finished rfl] at heq
    refine reason_ne_length (h.append pre) hone ?_ (congrArg Prod.fst heq).symm
    simpa only [append, length_append] using hlen
  rw [Nat.not_le] at hlong
  obtain ⟨hstop, hvocab⟩ := hreason hlong
  have honly : ∀ {pre' post' : List Int} {t' : Int}, [t] = pre' ++ t' :: post' → t' = t := by
    intro pre' post' t' hg
    exact mem_singleton.mp (hg ▸ mem_append_right _ mem_cons_self)
  cases hone with
  | length hl => simp only [append, length_append, length_singleton] at hl; omega
  | token hl hg hp hstop' =>
    rw [isStop_append, honly hg, hstop] at hstop'
    exact Bool.false_ne_true hstop'
  | vocab hl hstop' hg hp hv =>
    -- A stop token further on is what the group ends with.
    rw [outOfVocab_append, honly hg] at hv
    have hgroup := checked h (show pre ++ t :: post ≠ [] by simp)
    have hbehind : ¬∀ x ∈ pre ++ t :: post, req.isStop x = false := fun hall =>
      hvocab hv fun x hx => hall x (by simp [hx])
    generalize (req.append (pre ++ t :: post)).checkFinished _ = after at hgroup heq
    cases hgroup with
    | length hl' => omega
    | token hl' hg' hp' ht' =>
      rw [feed_finished rfl] at heq
      exact absurd (congrArg Prod.fst heq) (by simp [outcome, endToken, endVocab])
    | vocab _ hs' | str _ hs' | go _ hs' => exact hbehind hs'
  | str hl hstop' hv hstr =>
    -- The token alone leaves the output up to it, and the group leaves more.
    have hstops : ∀ x ∈ pre ++ [t], req.isStop x = false :=
      forall_mem_append.mpr ⟨fun x hx => (hq.not_mem x hx).1, hstop'⟩
    have hvocabs : ∀ x ∈ pre ++ [t], req.outOfVocab x = false :=
      forall_mem_append.mpr ⟨fun x hx => (hq.not_mem x hx).2, hv⟩
    have hlate := length_lt_through h (pre ++ [t]) hpost (by rwa [length_append]) hstops hvocabs
      fun hl => length_le_through (h.append _) (by simpa [append] using hl) gs hne
    have hthrough := congrArg (fun o => o.2.length) heq
    simp only [append_assoc, cons_append, nil_append] at hlate
    simp only [outcome] at hthrough
    rw [hthrough] at hlate
    simp [endStr, outputIdsThroughStop, append, h.finishedLen] at hlate
  | go hl hstop' hv hstr =>
    rw [((h.append pre).append [t]).not_finished] at hfin
    exact Bool.false_ne_true hfin

end Group

end Req

open Req

/-- In the group with the token that ends the request, what may stand behind the
    token does. -/
def CleanCut (req : Req) : List (List Int) → Prop
  | [] => True
  | g :: gs =>
    (∀ pre t post, g = pre ++ t :: post → req.Quiet pre → (req.append pre).Ends t →
      req.Safe pre t post) ∧
    (req.Quiet g → CleanCut (req.append g) gs)

/-- Groups of tokens end a request as single tokens do exactly when the cut is a
    clean one. -/
theorem feed_eq_feedEach_iff {req : Req} (h : req.Idle) (gs : List (List Int))
    (hne : ∀ g ∈ gs, g ≠ []) :
    (req.feed gs).outcome = (req.feedEach gs.flatten).outcome ↔ CleanCut req gs := by
  induction gs generalizing req with
  | nil => exact iff_of_true rfl trivial
  | cons g gs ih =>
    have hg := hne g mem_cons_self
    have hgs : ∀ g' ∈ gs, g' ≠ [] := (forall_mem_cons.mp hne).2
    rw [flatten_cons, feed_cons h]
    rcases req.quiet_or_ends g with hq | ⟨pre, t, post, rfl, hq, ht⟩
    · -- Nothing happens in this group.
      rw [checkFinished_quiet h hg hq, feedEach_quiet h hq, ih (h.append g) hgs]
      refine ⟨fun hc => ⟨?_, fun _ => hc⟩, fun hc => hc.2 hq⟩
      rintro pre t post rfl - ht
      exact absurd ht (quiet_append.mp hq).2.1
    rw [append_assoc, cons_append, feedEach_quiet h hq, feedEach_ends (h.append pre) ht]
    have hsafe : CleanCut req ((pre ++ t :: post) :: gs) ↔ req.Safe pre t post := by
      constructor
      · intro hc
        exact hc.1 pre t post rfl hq ht
      · intro hs
        refine ⟨fun pre' t' post' heq hq' ht' => ?_, fun hg' => ?_⟩
        · obtain ⟨rfl, rfl, rfl⟩ := split_unique hq ht hq' ht' heq
          exact hs
        · exact absurd ht (quiet_append.mp hg').2.1
    rw [hsafe]
    constructor
    · intro heq
      by_contra hs
      exact outcome_ne_of_not_safe h hq ht hs gs hgs heq
    · intro hs
      have hout := outcome_eq_of_safe h hq hs
      have hreason : ((req.append (pre ++ t :: post)).checkFinished _).finishedReason =
          (((req.append pre).append [t]).checkFinished 1).finishedReason :=
        congrArg Prod.fst hout
      rw [feed_finished, hout]
      rw [finished, hreason]
      exact finished_of_ends (h.append pre) ht

/-- Groups of tokens end a request as single tokens do exactly when the cut is a
    clean one, and so any two clean cuts of the same tokens end it alike. -/
theorem outcome_grouped_iff (req : Req) (h : req.Idle) (gs : List (List Int))
    (hne : ∀ g ∈ gs, g ≠ []) :
    ((req.feed gs).outcome = (req.feedEach gs.flatten).outcome ↔ CleanCut req gs) ∧
      ∀ gs' : List (List Int), (∀ g ∈ gs', g ≠ []) → gs'.flatten = gs.flatten →
        CleanCut req gs → CleanCut req gs' → (req.feed gs').outcome = (req.feed gs).outcome := by
  refine ⟨feed_eq_feedEach_iff h gs hne, fun gs' hne' hflat hc hc' => ?_⟩
  rw [(feed_eq_feedEach_iff h gs hne).mpr hc, (feed_eq_feedEach_iff h gs' hne').mpr hc', hflat]

/-- A request for two tokens that ends with token 7. -/
def twoTokens : Req where
  samplingParams := ⟨2, [], false, [], [], 0, 0⟩
  tokenizer := ⟨fun _ => [], fun _ => [], none, []⟩
  classes := ⟨fun _ => false, fun _ => false, fun _ => false⟩
  eosTokenIds := [7]
  vocabSize := 100
  outputIds := []
  finishedReason := none
  toFinish := none
  finishedLen := none

/-- With room for more than the group, token 7 ends the request also in front of another one. -/
theorem outcome_grouped_iff_twoTokens :
    let req := { twoTokens with samplingParams.maxNewTokens := 5 }
    CleanCut req [[1], [7, 8]] ∧
      (req.feed [[1], [7, 8]]).outcome = (some (.matchedToken 7), [1, 7]) ∧
      (req.feed [[1], [7, 8]]).outcome = (req.feedEach [1, 7, 8]).outcome := by
  intro req
  have hclean : CleanCut req [[1], [7, 8]] := by
    refine ⟨?_, fun _ => ⟨?_, fun _ => trivial⟩⟩
    · rintro pre t post hg - -
      cases pre with
      | nil =>
        obtain ⟨-, rfl⟩ := List.cons.inj hg
        exact .inl rfl
      | cons x pre => exact absurd (List.cons.inj hg).2.symm (by simp)
    · rintro pre t post hg - -
      rcases pre with _ | ⟨x, _ | ⟨y, pre⟩⟩
      · -- A stop token, and the group stays below the maximal length.
        obtain ⟨rfl, rfl⟩ := List.cons.inj hg
        exact .inr (.inr ⟨by decide, .inl rfl⟩)
      · obtain ⟨-, rfl⟩ := List.cons.inj (List.cons.inj hg).2
        exact .inl rfl
      · exact absurd (List.cons.inj (List.cons.inj hg).2).2.symm (by simp)
  have hiff := (outcome_grouped_iff req ⟨rfl, rfl, rfl⟩ [[1], [7, 8]] (by decide)).1
  exact ⟨hclean, rfl, hiff.mpr hclean⟩

/-- Token 7 in front of another one of its group is not: the group has reached
    the length. -/
theorem twoTokens_differ : (twoTokens.feed [[7, 8]]).outcome = (some (.length 2), [7, 8]) ∧
      (twoTokens.feedEach [7, 8]).outcome = (some (.matchedToken 7), [7]) ∧
      (twoTokens.feed [[7, 8]]).outcome ≠ (twoTokens.feed [[7], [8]]).outcome :=
  ⟨rfl, rfl, fun h => nomatch congrArg Prod.fst h⟩

end SglangInc.Finish
