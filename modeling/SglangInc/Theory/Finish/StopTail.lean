import SglangInc.Theory.Finish.Grouping
import SglangInc.Theory.Finish.StopRegex
import Mathlib.Data.List.Find

/-!
# The Tail That Is Searched

Whether a request whose tokens arrive one by one ends when its text has a stop
string or a match of a stop regex.

The text of the whole output is never looked at. `check_finished` decodes the
last tokens, two more than `stop_str_max_len` and `stop_regex_max_len`. The
first is the number of tokens of one particular encoding of a stop string, and
the model may spell the same text with more tokens. The second counts
characters, and a character can take several tokens. And the tail is decoded
and searched on its own: if it starts inside a character, the rest of it is
decoded to something else, and a regex with `^` or `\b` takes its start for the
start of the text.

`Covered` is the condition under which none of this shows. Either the tail is
the whole output, or it starts between two characters, what is in it before the
last token has as many characters as a match could need, and no regex looks
back. It is a condition on the tokens and the stop strings alone. Then a search
of the tail finds what a search of the whole text finds, as long as the text had
nothing to find before the last token (`matchIn_tailStr`), and the request ends
by its text exactly at the first step where there is something to find
(`stop_match_iff`).
-/

namespace SglangInc.Finish

open List Regex Utf8 Req

/-- The bytes of some tokens. -/
def Vocab.bytesOf (vocab : Vocab) (ids : List Int) : List Nat := ids.flatMap vocab.bytes

/-- The decoded text of some tokens. -/
def Vocab.text (vocab : Vocab) (ids : List Int) : List Char := decodeLossy (vocab.bytesOf ids)

theorem Vocab.bytesOf_append (vocab : Vocab) (xs ys : List Int) :
    vocab.bytesOf (xs ++ ys) = vocab.bytesOf xs ++ vocab.bytesOf ys :=
  flatMap_append

/-- A new request with a tokenizer of byte strings, its parameters normalized. -/
def Vocab.newReq (vocab : Vocab) (eosTokenId : Option Int) (additionalStopTokenIds : List Int)
    (params : SamplingParams) (classes : CharClasses) (eosTokenIds : List Int)
    (vocabSize : Int) : Req where
  samplingParams := params.normalize (vocab.tokenizer eosTokenId additionalStopTokenIds)
  tokenizer := vocab.tokenizer eosTokenId additionalStopTokenIds
  classes := classes
  eosTokenIds := eosTokenIds
  vocabSize := vocabSize
  outputIds := []
  finishedReason := none
  toFinish := none
  finishedLen := none

/-- The output in front of the tail, after one more token. -/
def beforeTail (req : Req) (t : Int) : List Int :=
  req.outputIds.take (req.outputIds.length + 1 - (req.append [t]).tailLen)

/-- The tail without its last token, after one more token. -/
def tailBut (req : Req) (t : Int) : List Int :=
  req.outputIds.drop (req.outputIds.length + 1 - (req.append [t]).tailLen)

/-- The tail after one more token shows what the whole text would show. -/
def Covered (vocab : Vocab) (req : Req) (t : Int) : Prop :=
  beforeTail req t = [] ∨
  (stateAfter none (vocab.bytesOf (beforeTail req t)) = none ∧
    (∀ stopStr ∈ req.samplingParams.stopStrs,
      stopStr.length ≤ (emitted none (vocab.bytesOf (tailBut req t))).length + 1) ∧
    ∀ stopRegex ∈ req.samplingParams.stopRegexStrs,
      stopRegex.maxLength + 1 ≤ (emitted none (vocab.bytesOf (tailBut req t))).length ∧
      stopRegex.LooksAhead)

/-- A text grows at its end, and a word was not in it before. To find it now, it
    is enough to look through a last part that has all its characters but one
    from before. -/
theorem infix_append {front keep old new word : List Char} (hlen : word.length ≤ keep.length + 1)
    (hold : ¬word <:+: front ++ (keep ++ old)) :
    word <:+: front ++ (keep ++ new) ↔ word <:+: keep ++ new := by
  rw [infix_append_iff] at hold
  rw [infix_append_iff_ne_nil]
  constructor
  · rintro (h | h | ⟨l1, l2, hne, -, rfl, hl1, hl2⟩)
    · exact absurd (.inl h) hold
    · exact h
    · -- A word that starts in front ends in what was there before.
      have hpos := length_pos_iff.mpr hne
      rw [length_append] at hlen
      have hkeep : l2 <+: keep := prefix_of_prefix_length_le hl2 (prefix_append _ _) (by omega)
      exact absurd (.inr (.inr ⟨l1, l2, rfl, hl1, hkeep.trans (prefix_append _ _)⟩)) hold
  · exact fun h => .inr (.inl h)

section Tail

variable {vocab : Vocab} {req : Req} {t : Int}

/-- The tail is decoded on its own. -/
theorem tailStr_append (htok : req.tokenizer.decode = vocab.text) :
    (req.append [t]).tailStr = vocab.text (tailBut req t ++ [t]) := by
  have hpos : 0 < (req.append [t]).tailLen := by
    simp only [tailLen, append, length_append, length_singleton]
    omega
  have hdrop : (req.append [t]).lastOutputIds (req.append [t]).tailLen = tailBut req t ++ [t] := by
    rw [lastOutputIds, if_neg (by omega), tailBut]
    simp only [append, length_append, length_singleton]
    rw [drop_append_of_le_length (by simp only [append] at hpos; omega)]
  rw [tailStr, hdrop]
  exact congrFun htok _

/-- Two texts with the same stop strings and matches give the same result. -/
theorem matchIn_congr {text text' : List Char}
    (hstr : ∀ s ∈ req.samplingParams.stopStrs, s <:+: text ↔ s <:+: text')
    (hregex : ∀ r ∈ req.samplingParams.stopRegexStrs,
      search req.classes r text = search req.classes r text') :
    req.matchIn text = req.matchIn text' := by
  have hfind : req.samplingParams.stopStrs.find? (fun s => decide (s <:+: text)) =
      req.samplingParams.stopStrs.find? (fun s => decide (s <:+: text')) :=
    find?_congr fun s hs => by
      rw [Bool.eq_iff_iff, decide_eq_true_iff, decide_eq_true_iff, hstr s hs]
  unfold matchIn
  rw [hfind, find?_congr hregex]

/-- A text with nothing to find. -/
theorem matchIn_eq_none {text : List Char} (h : req.matchIn text = none) :
    (∀ s ∈ req.samplingParams.stopStrs, ¬s <:+: text) ∧
      ∀ r ∈ req.samplingParams.stopRegexStrs, search req.classes r text = false := by
  unfold matchIn at h
  split at h
  · cases h
  · next hnone =>
      refine ⟨fun s hs => ?_, fun r hr => ?_⟩
      · simpa using find?_eq_none.mp hnone s hs
      · simpa using find?_eq_none.mp (Option.map_eq_none_iff.mp h) r hr

/-- With a tail that covers what a match could need, a search of the tail finds
    what a search of the whole text finds, if there was nothing to find before
    the last token. -/
theorem matchIn_tailStr (htok : req.tokenizer.decode = vocab.text)
    (hb : ∀ r ∈ req.samplingParams.stopRegexStrs, r.Bounded) (hc : Covered vocab req t)
    (hold : beforeTail req t ≠ [] → req.matchIn (vocab.text req.outputIds) = none) :
    req.matchIn (req.append [t]).tailStr = req.matchIn (vocab.text (req.outputIds ++ [t])) := by
  have hsplit : req.outputIds = beforeTail req t ++ tailBut req t :=
    (take_append_drop _ _).symm
  rw [tailStr_append htok]
  by_cases hwhole : beforeTail req t = []
  · rw [hwhole, nil_append] at hsplit
    rw [← hsplit]
  obtain ⟨hidle, hstrs, hregexes⟩ := hc.resolve_left hwhole
  -- The text before and after the token, in front of the tail and from there on.
  set front := emitted none (vocab.bytesOf (beforeTail req t))
  set keep := emitted none (vocab.bytesOf (tailBut req t))
  obtain ⟨old, hold'⟩ : ∃ old, vocab.text req.outputIds = front ++ (keep ++ old) := by
    refine ⟨flush (stateAfter none (vocab.bytesOf (tailBut req t))), ?_⟩
    rw [hsplit, Vocab.text, vocab.bytesOf_append, decodeLossy_append_of_idle hidle]
    rfl
  obtain ⟨new, hnew⟩ : ∃ new, vocab.text (tailBut req t ++ [t]) = keep ++ new := by
    obtain ⟨new, hnew⟩ := emitted_prefix_decodeLossy (vocab.bytesOf (tailBut req t))
      (vocab.bytesOf [t])
    exact ⟨new, by rw [Vocab.text, vocab.bytesOf_append, ← hnew]⟩
  have hfull : vocab.text (req.outputIds ++ [t]) = front ++ (keep ++ new) := by
    rw [hsplit, append_assoc, Vocab.text, vocab.bytesOf_append,
      decodeLossy_append_of_idle hidle, ← hnew]
    rfl
  have hnone := matchIn_eq_none (hold hwhole)
  rw [hold'] at hnone
  rw [hfull, hnew]
  refine (matchIn_congr (fun s hs => ?_) fun r hr => ?_).symm
  · exact infix_append (hstrs s hs) (hnone.1 s hs)
  · exact search_append (hb r hr) (hregexes r hr).2 (agree_append front keep new old)
      (hregexes r hr).1 (hnone.2 r hr)

end Tail

/-- Every step of a request whose tokens come one by one is covered. -/
def AllCovered (vocab : Vocab) (req : Req) : List Int → Prop
  | [] => True
  | t :: ts => Covered vocab req t ∧ AllCovered vocab (req.append [t]) ts

/-- The token ends the request for another reason than its text. -/
def EndsOtherwise (req : Req) (t : Int) : Prop :=
  req.samplingParams.maxNewTokens ≤ req.outputIds.length + 1 ∨ req.isStop t = true ∨
    req.outOfVocab t = true

section Steps

variable {vocab : Vocab} {req : Req} {ts : List Int} {t : Int}

theorem strMatch_eq (req : Req) : req.strMatch = req.matchIn req.tailStr := by
  unfold strMatch
  split
  · rfl
  · next hnone =>
      simp only [hasStopStrs, Bool.or_eq_true, decide_eq_true_eq, not_or, Nat.not_lt,
        Nat.le_zero, length_eq_zero_iff] at hnone
      simp [matchIn, hnone.1, hnone.2]

theorem allCovered_append {xs ys : List Int} : AllCovered vocab req (xs ++ ys) ↔
      AllCovered vocab req xs ∧ AllCovered vocab (req.append xs) ys := by
  induction xs generalizing req with
  | nil => simp [AllCovered, Req.append_nil]
  | cons t xs ih =>
    simp [AllCovered, ih, and_assoc, append_append]

/-- One step, if there was nothing to find before it. -/
theorem ends_iff (htok : req.tokenizer.decode = vocab.text)
    (hb : ∀ r ∈ req.samplingParams.stopRegexStrs, r.Bounded) (hc : Covered vocab req t)
    (hold : req.outputIds ≠ [] → req.matchIn (vocab.text req.outputIds) = none) :
    (req.append [t]).strMatch = req.matchIn (vocab.text (req.outputIds ++ [t])) := by
  rw [strMatch_eq]
  refine matchIn_tailStr htok hb hc fun hne => hold fun hnil => hne ?_
  rw [beforeTail, hnil, take_nil]

/-- The beginnings of a list, by their last token: the first one, or a later one. -/
theorem forall_prefix_cons {x : Int} {P : List Int → Int → Prop} :
    (∀ pre t, pre ++ [t] <+: x :: ts → P pre t) ↔
      P [] x ∧ ∀ pre t, pre ++ [t] <+: ts → P (x :: pre) t := by
  constructor
  · exact fun h => ⟨h [] x (cons_prefix_cons.mpr ⟨rfl, nil_prefix⟩),
      fun pre t hpre => h (x :: pre) t (cons_prefix_cons.mpr ⟨rfl, hpre⟩)⟩
  · rintro ⟨hx, hrest⟩ pre t hpre
    cases pre with
    | nil =>
      obtain ⟨rfl, -⟩ := cons_prefix_cons.mp hpre
      exact hx
    | cons y pre =>
      obtain ⟨rfl, hpre'⟩ := cons_prefix_cons.mp hpre
      exact hrest pre t hpre'

/-- The steps at which nothing happens are those at which nothing else ends the
    request and the whole text has nothing to find. -/
theorem quiet_iff (htok : req.tokenizer.decode = vocab.text)
    (hb : ∀ r ∈ req.samplingParams.stopRegexStrs, r.Bounded) (hc : AllCovered vocab req ts)
    (hold : req.outputIds ≠ [] → req.matchIn (vocab.text req.outputIds) = none) :
    req.Quiet ts ↔ ∀ pre t, pre ++ [t] <+: ts → ¬EndsOtherwise (req.append pre) t ∧
      req.matchIn (vocab.text (req.outputIds ++ (pre ++ [t]))) = none := by
  induction ts generalizing req with
  | nil =>
    refine iff_of_true trivial fun pre t h => ?_
    exact absurd (prefix_nil.mp h) (by simp)
  | cons x ts ih =>
    have hstep := ends_iff htok hb hc.1 hold
    have hends : ¬req.Ends x ↔ ¬EndsOtherwise req x ∧
        req.matchIn (vocab.text (req.outputIds ++ [x])) = none := by
      rw [Ends, hstep, EndsOtherwise]
      simp [and_assoc]
    have hrest := fun hnone => @ih (req.append [x]) htok hb hc.2 fun _ => hnone
    rw [forall_prefix_cons, Quiet, hends, Req.append_nil, nil_append]
    refine and_congr_right fun hx => (hrest hx.2).trans ?_
    simp only [append_append, singleton_append]
    simp only [append, append_assoc, cons_append]
    rfl

/-- A request that is not finished has had quiet tokens. -/
theorem quiet_of_not_finished (h : req.Idle) (hfin : (req.feedEach ts).finished = false) :
    req.Quiet ts := by
  rcases req.quiet_or_ends ts with hq | ⟨pre, t, post, rfl, hq, ht⟩
  · exact hq
  · rw [feedEach_quiet h hq, feedEach_ends (h.append pre) ht,
      finished_of_ends (h.append pre) ht] at hfin
    exact absurd hfin.symm Bool.false_ne_true

/-- A token that ends the request by its text. -/
theorem checked_str_iff (h : req.Idle) {after : Req} (hc : Checked req [t] after)
    (reason : FinishReason) : after = (req.append [t]).endStr reason ↔
      ¬EndsOtherwise req t ∧ (req.append [t]).strMatch = some reason := by
  have hlen := h.finishedLen
  -- Only an end by the text leaves `finished_len` unset.
  cases hc with
  | length hl =>
    refine iff_of_false (fun heq => ?_) fun hr => hr.1 (.inl hl)
    have := congrArg Req.finishedLen heq
    simp [endLength, endStr, append, hlen] at this
  | @token pre x post hl hg hp hx =>
    have hxt : x = t := mem_singleton.mp (hg ▸ mem_append_right _ mem_cons_self)
    refine iff_of_false (fun heq => ?_) fun hr => hr.1 (.inr (.inl (hxt ▸ hx)))
    have := congrArg Req.finishedLen heq
    simp [endToken, endStr, append, hlen] at this
  | @vocab pre x post hl hs hg hp hx =>
    have hxt : x = t := mem_singleton.mp (hg ▸ mem_append_right _ mem_cons_self)
    refine iff_of_false (fun heq => ?_) fun hr => hr.1 (.inr (.inr (hxt ▸ hx)))
    have := congrArg Req.finishedLen heq
    simp [endVocab, endStr, append, hlen] at this
  | str hl hs hv hstr =>
    have hother : ¬EndsOtherwise req t := by
      simp only [EndsOtherwise, not_or, Nat.not_le, Bool.not_eq_true]
      exact ⟨hl, hs t mem_cons_self, hv t mem_cons_self⟩
    rw [hstr, Option.some.injEq]
    refine ⟨fun heq => ⟨hother, ?_⟩, fun hr => by rw [hr.2]⟩
    exact Option.some.inj (congrArg Req.finishedReason heq)
  | go hl hs hv hstr =>
    refine iff_of_false (fun heq => ?_) fun hr => ?_
    · have hreason := congrArg Req.finishedReason heq
      rw [(h.append [t]).finishedReason] at hreason
      exact absurd hreason (by simp [endStr])
    · rw [hstr] at hr
      cases hr.2

end Steps

/-- A request whose steps are all covered ends by its text, with a given reason,
    exactly at the first step after which the whole text has something to find,
    and for that reason, unless something else ends it no later. -/
theorem stop_match_iff (vocab : Vocab) (eosTokenId : Option Int)
    (additionalStopTokenIds : List Int) (params : SamplingParams) (classes : CharClasses)
    (eosTokenIds : List Int) (vocabSize : Int)
    (hb : ∀ stopRegex ∈ params.stopRegexStrs, stopRegex.Bounded) (req : Req)
    (hreq : req = vocab.newReq eosTokenId additionalStopTokenIds params classes eosTokenIds
      vocabSize)
    (ts : List Int) (t : Int) (hc : AllCovered vocab req (ts ++ [t])) (reason : FinishReason) :
    ((req.feedEach ts).finished = false ∧
        req.feedEach (ts ++ [t]) = (req.append (ts ++ [t])).endStr reason) ↔
      req.matchIn (vocab.text (ts ++ [t])) = some reason ∧
      (∀ pre x, pre ++ [x] <+: ts → req.matchIn (vocab.text (pre ++ [x])) = none) ∧
      ∀ pre x, pre ++ [x] <+: ts ++ [t] → ¬EndsOtherwise (req.append pre) x := by
  subst hreq
  set req := vocab.newReq eosTokenId additionalStopTokenIds params classes eosTokenIds vocabSize
  have hidle : req.Idle := ⟨rfl, rfl, rfl⟩
  have htok : req.tokenizer.decode = vocab.text := rfl
  have hnil : req.outputIds = [] := rfl
  obtain ⟨hcts, hct⟩ := allCovered_append.mp hc
  have hquiet := quiet_iff htok hb hcts fun hne => absurd hnil hne
  simp only [hnil, nil_append] at hquiet
  -- The last step, after quiet ones.
  have hlast : req.Quiet ts → (req.feedEach (ts ++ [t]) = (req.append (ts ++ [t])).endStr reason ↔
      ¬EndsOtherwise (req.append ts) t ∧ req.matchIn (vocab.text (ts ++ [t])) = some reason) := by
    intro hq
    have hold : (req.append ts).outputIds ≠ [] →
        (req.append ts).matchIn (vocab.text (req.append ts).outputIds) = none := by
      intro hne
      rcases eq_nil_or_concat' ts with rfl | ⟨pre, x, rfl⟩
      · exact absurd rfl hne
      · exact (hquiet.mp hq pre x (prefix_refl _)).2
    have hstep : ((req.append ts).append [t]).strMatch = req.matchIn (vocab.text (ts ++ [t])) :=
      ends_iff htok hb hct.1 hold
    have hcheck : req.feedEach (ts ++ [t]) = ((req.append ts).append [t]).checkFinished 1 := by
      rw [feedEach_quiet hidle hq]
      exact feed_cons (hidle.append ts) [t] []
    have hiff := checked_str_iff (hidle.append ts)
      (checked (hidle.append ts) (cons_ne_nil t [])) reason
    rw [hstep, append_append] at hiff
    rwa [hcheck, append_append]
  constructor
  · rintro ⟨hfin, heq⟩
    have hq := quiet_of_not_finished hidle hfin
    obtain ⟨hother, hmatch⟩ := (hlast hq).mp heq
    refine ⟨hmatch, fun pre x hpre => (hquiet.mp hq pre x hpre).2, fun pre x hpre => ?_⟩
    rcases prefix_concat_iff.mp hpre with hwhole | hpre
    · obtain ⟨rfl, hx⟩ := append_inj' hwhole rfl
      obtain rfl := singleton_inj.mp hx
      exact hother
    · exact (hquiet.mp hq pre x hpre).1
  · rintro ⟨hmatch, hnone, hother⟩
    have hq : req.Quiet ts := hquiet.mpr fun pre x hpre =>
      ⟨hother pre x (hpre.trans (prefix_append _ _)), hnone pre x hpre⟩
    refine ⟨?_, (hlast hq).mpr ⟨hother ts t (prefix_refl _), hmatch⟩⟩
    have hquietEnd := feedEach_quiet hidle hq []
    rw [List.append_nil] at hquietEnd
    rw [hquietEnd]
    exact (hidle.append ts).not_finished

/-- One byte for each of the ids up to 127, and a token for a whole word. -/
def wordVocab : Vocab where
  bytes := fun id => if id = 200 then [97, 98, 99, 100] else [id.toNat]
  encode := fun chars => if chars = ['a', 'b', 'c', 'd'] then [200]
    else chars.map fun c => (c.toNat : Int)

/-- A request of `wordVocab` with one stop string. -/
def wordReq (stopStr : List Char) : Req :=
  wordVocab.newReq none [] ⟨10, [], false, [stopStr], [], 0, 0⟩
    ⟨fun _ => false, fun _ => false, fun _ => false⟩ [] 1000

/-- `ab` behind `xyz`, one byte a token. -/
theorem stop_match_iff_ab : (wordReq ['a', 'b']).feedEach [120, 121, 122, 97, 98] =
      ((wordReq ['a', 'b']).append [120, 121, 122, 97, 98]).endStr (.matchedStr ['a', 'b']) := by
  have hcovered : AllCovered wordVocab (wordReq ['a', 'b']) ([120, 121, 122, 97] ++ [98]) := by
    exact ⟨.inl rfl, .inl rfl, .inl rfl, .inl rfl,
      .inr ⟨rfl, forall_mem_singleton.mpr (by decide), forall_mem_nil _⟩, trivial⟩
  refine ((stop_match_iff wordVocab none [] ⟨10, [], false, [['a', 'b']], [], 0, 0⟩ _ [] 1000
    (forall_mem_nil _) _ rfl [120, 121, 122, 97] 98 hcovered _).mpr ⟨rfl, ?_, ?_⟩).2
  · intro pre x hpre
    have hmem := (mem_inits _ _).mpr hpre
    have hnone : ∀ ids ∈ [120, 121, 122, 97].inits, ids ≠ [] →
        ¬['a', 'b'] <:+: wordVocab.text ids := by decide +kernel
    have hfind := hnone _ hmem (by simp)
    simp [Vocab.newReq, SamplingParams.normalize, matchIn, hfind]
  · intro pre x hpre
    have hlen := hpre.length_le
    have hx : x ∈ [120, 121, 122, 97, 98] := hpre.subset (by simp)
    rintro (hmax | hstop | hvocab)
    · simp only [append, length_append, length_cons, length_nil] at hlen hmax
      simp only [Vocab.newReq, SamplingParams.normalize, length_nil] at hmax
      omega
    · exact Bool.false_ne_true hstop
    · have hin : ∀ y ∈ [120, 121, 122, 97, 98], (wordReq ['a', 'b']).outOfVocab y = false := by
        decide
      exact Bool.false_ne_true ((hin x hx).symm.trans hvocab)

/-- `abcd` letter by letter is not found: the tail is two tokens longer than the
    one token of the stop string, and the text of three tokens is `bcd`. -/
theorem wordReq_misses :
    wordVocab.text (wordVocab.encode ['a', 'b', 'c', 'd']) = ['a', 'b', 'c', 'd'] ∧
      wordVocab.text [97, 98, 99, 100] = ['a', 'b', 'c', 'd'] ∧
      (wordReq ['a', 'b', 'c', 'd']).matchIn (wordVocab.text [97, 98, 99, 100]) =
        some (.matchedStr ['a', 'b', 'c', 'd']) ∧
      ((wordReq ['a', 'b', 'c', 'd']).feedEach [97, 98, 99, 100]).finished = false := by
  refine ⟨by decide, by decide, rfl, by decide⟩

end SglangInc.Finish
