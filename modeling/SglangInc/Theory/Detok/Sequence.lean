import SglangInc.Lib.Utf8Encode
import SglangInc.Theory.Detok.Stream
import Mathlib.Data.List.Forall2

/-!
# What a Sequence Returns of a Text

`Sequence::append_token` moves `read_offset` with every token, also when it returns
nothing. What a token has completed is in the prefix of the next call and is not
returned later. So the text is returned as a whole if and only if every token returns
all the characters that it completes (`append_token_exact_iff`).

A token returns nothing when it leaves a character open or ends in U+FFFD, and U+FFFD is
taken out of what it returns. When it starts inside a character, the prefix has a
replacement character there, which is three bytes. A character of four bytes is longer,
the position behind the prefix is inside it and is moved back to its start. A shorter
one is cut off together with the replacement character (`append_token_drops_euro`).
-/

namespace SglangInc.Detok

open List ByteText Utf8 Option

variable {bytes : Nat → List Nat} {skip : Bool} {ids : List Nat} {text : List Char}

/-- The number of bytes of the first `k` tokens. -/
def bytesBefore (bytes : Nat → List Nat) (ids : List Nat) (k : Nat) : Nat :=
  ((ids.take k).flatMap bytes).length

/-- The characters of a text that token `k` completes. -/
def news (bytes : Nat → List Nat) (ids : List Nat) (text : List Char) (k : Nat) : List Char :=
  (completed text (bytesBefore bytes ids (k + 1))).drop
    (completed text (bytesBefore bytes ids k)).length

/-- Token `k` completes no character, or it ends between characters and not in U+FFFD, and
    if it is not the first one, it has no U+FFFD at all and does not start inside a
    character of less than four bytes. -/
def Kept (bytes : Nat → List Nat) (ids : List Nat) (text : List Char) (k : Nat) : Prop :=
  news bytes ids text k ≠ [] → isCharBoundary text (bytesBefore bytes ids (k + 1)) = true ∧
    (news bytes ids text k).getLast? ≠ some replacement ∧
    (k ≠ 0 → replacement ∉ news bytes ids text k ∧
      (isCharBoundary text (bytesBefore bytes ids k) = true ∨
        ∀ c, (news bytes ids text k).head? = some c → c.utf8Size = 4))

instance (k : Nat) : Decidable (Kept bytes ids text k) := by
  unfold Kept
  have : Decidable (∀ c, (news bytes ids text k).head? = some c → c.utf8Size = 4) :=
    match h : (news bytes ids text k).head? with
    | none => isTrue nofun
    | some c => decidable_of_iff (c.utf8Size = 4)
        ⟨fun hs c' hc => some.inj hc ▸ hs, fun hall => hall c rfl⟩
  infer_instance

section OneToken

/-- What the decoder has put out, and where it is, behind the first tokens. -/
theorem decode_tokens (hvalid : ids.flatMap bytes = encode text) (k : Nat) :
    emitted none ((ids.take k).flatMap bytes) = completed text (bytesBefore bytes ids k) ∧
    (stateAfter none ((ids.take k).flatMap bytes) = none ↔
      isCharBoundary text (bytesBefore bytes ids k) = true) := by
  refine decode_beginning text ?_
  rw [← hvalid, ← take_append_drop k ids, flatMap_append, take_append_drop]
  exact prefix_append _ _

variable {id k : Nat}

theorem take_succ_of_getElem? (h : ids[k]? = some id) : ids.take (k + 1) = ids.take k ++ [id] := by
  rw [take_add_one, h]
  rfl

theorem drop_take_succ (h : ids[k]? = some id) {p : Nat} (hp : p ≤ k) :
    (ids.take (k + 1)).drop p = (ids.take k).drop p ++ [id] := by
  have hlt := (List.getElem?_eq_some_iff.mp h).1
  rw [take_succ_of_getElem? h, drop_append_of_le_length (by rw [length_take]; omega)]

/-- A token puts out the characters that it completes. -/
theorem emitted_token (hvalid : ids.flatMap bytes = encode text) (h : ids[k]? = some id) :
    emitted (stateAfter none ((ids.take k).flatMap bytes)) (bytes id) = news bytes ids text k := by
  have hnext := (decode_tokens hvalid (k + 1)).1
  rw [take_succ_of_getElem? h, flatMap_append, flatMap_singleton, emitted_append,
    (decode_tokens hvalid k).1] at hnext
  rw [news, ← hnext, drop_left]

theorem stateAfter_token (h : ids[k]? = some id) :
    stateAfter none ((ids.take (k + 1)).flatMap bytes) =
      stateAfter (stateAfter none ((ids.take k).flatMap bytes)) (bytes id) := by
  rw [take_succ_of_getElem? h, flatMap_append, flatMap_singleton, stateAfter_append]

/-- What is returned of the new characters. `st` is where the decoder was before them and
    `st'` where it is behind them; the texts of the window start with `old`. -/
def returned (old : List Char) (st : Option Open) (new : List Char) (st' : Option Open) :
    Option (List Char) :=
  let prefixText := old ++ flush st
  let newText := old ++ new ++ flush st'
  if byteLen newText > byteLen prefixText ∧ endsWithReplacement newText = false then
    (sliceFrom newText (floorCharBoundary newText (byteLen prefixText))).map
      (·.filter (· != replacement))
  else some []

/-- The condition for new characters to be returned. -/
def Returns (st : Option Open) (new : List Char) (st' : Option Open) : Prop :=
  new ≠ [] → st' = none ∧ replacement ∉ new ∧ (st = none ∨ ∀ c, new.head? = some c → c.utf8Size = 4)

theorem filter_eq_self {l : List Char} : l.filter (· != replacement) = l ↔ replacement ∉ l := by
  rw [List.filter_eq_self]
  constructor
  · intro h hmem
    cases h _ hmem
  · intro h c hc
    rw [bne_iff_ne]
    exact fun heq => h (heq ▸ hc)

theorem byteLen_replacement : byteLen [replacement] = 3 := by decide

/-- The last boundary that is at most `n` bytes behind the text `old`. -/
theorem floor_behind (old new : List Char) (n : Nat) : ∃ a b, new = a ++ b ∧ byteLen a ≤ n ∧
    (∀ a' b', new = a' ++ b' → byteLen a' ≤ n → byteLen a' ≤ byteLen a) ∧
    sliceFrom (old ++ new) (floorCharBoundary (old ++ new) (byteLen old + n)) = some b := by
  rcases floorCharBoundary_spec (old ++ new) (byteLen old + n) with ⟨hb, hle, hmax⟩
  have hmax : ∀ a' b', new = a' ++ b' → byteLen a' ≤ n → byteLen old + byteLen a' ≤ _ :=
    fun a' b' hnew hn => byteLen_append old a' ▸ hmax _
      (isCharBoundary_iff.mpr ⟨old ++ a', b', by rw [hnew, append_assoc], rfl⟩)
      (by rw [byteLen_append]; omega)
  generalize floorCharBoundary (old ++ new) (byteLen old + n) = m at hb hle hmax ⊢
  rcases isCharBoundary_iff.mp hb with ⟨a, b, heq, rfl⟩
  have hold := hmax [] new rfl (Nat.zero_le _)
  obtain ⟨more, rfl⟩ : ∃ more, a = old ++ more := by
    rcases append_eq_append_iff.mp heq with ⟨more, rfl, _⟩ | ⟨more, rfl, _⟩
    · exact ⟨more, rfl⟩
    · by_cases hmore : more = []
      · exact ⟨[], by simp [hmore]⟩
      · have := byteLen_pos hmore
        rw [byteLen_append, byteLen_nil] at hold
        omega
  rw [byteLen_append] at hle hmax
  refine ⟨more, b, by simpa using heq, by omega, fun a' b' hnew hn => ?_, ?_⟩
  · have := hmax a' b' hnew hn
    omega
  · rw [heq, sliceFrom_append]

/-- What is returned is a part of what is new, and all of it under the condition. -/
theorem returned_spec (old : List Char) (st : Option Open) (new : List Char)
    (st' : Option Open) : ∃ out, returned old st new st' = some out ∧ out.Sublist new ∧
      (out = new ↔ Returns st new st') := by
  unfold returned
  simp only
  by_cases hends : endsWithReplacement (old ++ new ++ flush st') = true
  · -- A character is open, or the last new one is a replacement.
    rw [if_neg fun h => Bool.false_ne_true (h.2.symm.trans hends)]
    refine ⟨[], rfl, nil_sublist _, fun h hne => absurd h.symm hne, fun h => ?_⟩
    by_contra hne
    rcases h (Ne.symm hne) with ⟨rfl, hnot, _⟩
    rw [flush, List.append_nil, endsWithReplacement,
      getLast?_append_of_ne_nil _ (Ne.symm hne), beq_iff_eq] at hends
    exact hnot (mem_of_getLast? hends)
  cases st' with
  | some o => simp [flush, endsWithReplacement] at hends
  | none =>
    rw [flush, List.append_nil] at hends ⊢
    by_cases hempty : new = []
    · rw [hempty, List.append_nil, if_neg (by rw [byteLen_append]; omega)]
      exact ⟨[], rfl, List.Sublist.refl _, fun _ h => absurd rfl h, fun _ => rfl⟩
    have hends := (Bool.not_eq_true _).mp hends
    obtain ⟨c, rest, rfl⟩ := exists_cons_of_ne_nil hempty
    rw [byteLen_append old (flush st)]
    rcases floor_behind old (c :: rest) (byteLen (flush st)) with ⟨a, b, hab, hle, hmax, hslice⟩
    -- The replacement of an open character has three bytes.
    have hcut : a = [] ↔ st = none ∨ c.utf8Size = 4 := by
      have hsizes := utf8Size_eq c
      have hfirst := hmax [c] rest rfl
      cases a with
      | nil =>
        refine iff_of_true rfl (or_iff_not_imp_left.mpr fun hst => ?_)
        obtain ⟨o, rfl⟩ := ne_none_iff_exists'.mp hst
        rw [flush, byteLen_replacement, byteLen_cons, byteLen_nil] at hfirst
        split_ifs at hsizes <;> omega
      | cons d a =>
        obtain ⟨rfl, -⟩ := cons.inj hab
        have hpos := c.utf8Size_pos
        rw [byteLen_cons] at hle
        refine iff_of_false (cons_ne_nil _ _) fun h => ?_
        cases st with
        | none =>
          rw [flush, byteLen_nil] at hle
          omega
        | some o =>
          have hsize := h.resolve_left (some_ne_none o)
          rw [flush, byteLen_replacement] at hle
          omega
    have hreturns : Returns st (c :: rest) none ↔ replacement ∉ c :: rest ∧ a = [] := by
      simp [Returns, hcut]
    rw [hreturns]
    split_ifs with hlonger
    · rw [hslice, map_some]
      refine ⟨_, rfl, filter_sublist.trans (hab ▸ sublist_append_right a b), fun heq => ?_, ?_⟩
      · have hlen := congrArg List.length heq
        have hshorter := length_filter_le (· != replacement) b
        rw [hab, length_append] at hlen
        obtain rfl : a = [] := length_eq_zero_iff.mp (by omega)
        exact ⟨filter_eq_self.mp (hab ▸ heq), rfl⟩
      · rintro ⟨hnot, rfl⟩
        rw [hab] at hnot ⊢
        exact filter_eq_self.mpr hnot
    · -- All that is new would be cut off.
      refine ⟨[], rfl, nil_sublist _, fun h => absurd h.symm hempty, fun h => ?_⟩
      have hshort : ¬ byteLen (old ++ c :: rest) > byteLen old + byteLen (flush st) :=
        fun h => hlonger ⟨h, hends⟩
      rw [byteLen_append] at hshort
      have hall := hmax (c :: rest) [] (List.append_nil _).symm (by omega)
      have hpos := byteLen_pos hempty
      rw [h.2, byteLen_nil] at hall
      omega

end OneToken

section Sequences

/-- A sequence that has read the first `k` tokens, of which at least one. The decoder of
    its window is where the decoder of the whole text is. -/
structure Reading (bytes : Nat → List Nat) (ids : List Nat) (skip : Bool) (k : Nat)
    (s : Sequence) : Prop where
  pos : 0 < k
  tokenIds : s.tokenIds = ids.take k
  readOffset : s.readOffset = k
  skip : s.skipSpecialTokens = skip
  le : s.prefixOffset ≤ k
  window : stateAfter none (((ids.take k).drop s.prefixOffset).flatMap bytes) =
    stateAfter none ((ids.take k).flatMap bytes)

variable {id k : Nat} {s : Sequence}

/-- `append_token` behind the first token. -/
theorem appendToken_eq (hs : Reading bytes ids skip k s)
    (h : ids[k]? = some id) (hvalid : ids.flatMap bytes = encode text) :
    let old := emitted none (((ids.take k).drop s.prefixOffset).flatMap bytes)
    let st := stateAfter none ((ids.take k).flatMap bytes)
    let st' := stateAfter none ((ids.take (k + 1)).flatMap bytes)
    ∃ p, (p = s.prefixOffset ∨ p = k ∧ st' = none) ∧ s.appendToken (byteLevel bytes) id =
        (returned old st (news bytes ids text k) st').map
          fun out => (⟨ids.take (k + 1), p, k + 1, skip⟩, out) := by
  obtain ⟨tokenIds, p, r, skip'⟩ := s
  rcases hs with ⟨hpos, htokens, hread, hskip, hle, hwindow⟩
  simp only at htokens hread hskip hle hwindow
  obtain rfl := hread.symm
  subst htokens hskip
  intro old st st'
  have hlt := (List.getElem?_eq_some_iff.mp h).1
  have hlen' : (ids.take (k + 1)).length = k + 1 := length_take_of_le hlt
  -- The texts of the window, with the new characters in the longer one.
  have hprefix : sliceVec (ids.take (k + 1)) p k = some ((ids.take k).drop p) := by
    rw [sliceVec_eq hle (by omega), take_take, Nat.min_eq_left (Nat.le_succ k)]
  have hnew : sliceVec (ids.take (k + 1)) p (ids.take (k + 1)).length =
      some ((ids.take k).drop p ++ [id]) := by
    rw [sliceVec_eq (by omega) le_rfl, take_length, drop_take_succ h hle]
  rw [hlen'] at hnew
  have hprefixText : decodeLossy (((ids.take k).drop p).flatMap bytes) = old ++ flush st := by
    rw [decodeLossy, hwindow]
  have hst' : stateAfter st (bytes id) = st' := (stateAfter_token h).symm
  set new := old ++ news bytes ids text k ++ flush st' with hnewEq
  have hnewText : decodeLossy (((ids.take k).drop p ++ [id]).flatMap bytes) = new := by
    rw [flatMap_append, flatMap_singleton, decodeLossy, emitted_append,
      stateAfter_append, hwindow, emitted_token hvalid h, hst']
  have hnotfirst : ¬ (p = 0 ∧ k = 0) := by omega
  have happend := (take_succ_of_getElem? h).symm
  unfold Sequence.appendToken returned
  simp only [happend, if_neg hnotfirst, hprefix, hnew, byteLevel, bind, Option.bind,
    hprefixText, hnewText, hlen']
  by_cases hlonger : byteLen new > byteLen (old ++ flush st)
  · rw [if_pos hlonger]
    cases hends : endsWithReplacement new with
    | true =>
      rw [if_pos rfl, if_neg (by simp)]
      exact ⟨p, .inl rfl, rfl⟩
    | false =>
      rw [if_neg Bool.false_ne_true, if_pos ⟨hlonger, rfl⟩]
      refine ⟨k, .inr ⟨rfl, ?_⟩, ?_⟩
      · cases hst : st' with
        | none => rfl
        | some o =>
          rw [hnewEq, hst] at hends
          simp [flush, endsWithReplacement] at hends
      · cases sliceFrom new (floorCharBoundary new (byteLen (old ++ flush st))) with
        | none | some => rfl
  · rw [if_neg hlonger, if_neg fun hc => hlonger hc.1]
    exact ⟨p, .inl rfl, rfl⟩

/-- Parts that are put together: they are the whole if and only if each of them is. -/
theorem flatten_eq_iff {outs : List (List Char)} {ks : List Nat} {f : Nat → List Char}
    {p : Nat → Prop}
    (h : List.Forall₂ (fun out k => out.Sublist (f k) ∧ (out = f k ↔ p k)) outs ks) :
    outs.flatten.Sublist (ks.flatMap f) ∧ (outs.flatten = ks.flatMap f ↔ ∀ k ∈ ks, p k) := by
  induction h with
  | nil => exact ⟨List.Sublist.refl _, fun _ _ hk => absurd hk not_mem_nil, fun _ => rfl⟩
  | @cons out k outs ks hfirst _ ih =>
    rcases hfirst with ⟨hsub, hiff⟩
    rcases ih with ⟨hsubs, hiffs⟩
    rw [flatten_cons, flatMap_cons]
    refine ⟨hsub.append hsubs, fun heq => ?_, fun hall => ?_⟩
    · have hlen := congrArg List.length heq
      rw [length_append, length_append] at hlen
      have hle := hsub.length_le
      have hles := hsubs.length_le
      have hout := hsub.eq_of_length (by omega)
      have houts := hsubs.eq_of_length (by omega)
      exact forall_mem_cons.mpr ⟨hiff.mp hout, hiffs.mp houts⟩
    · rw [hiff.mpr (hall k mem_cons_self), hiffs.mpr (forall_mem_cons.mp hall).2]

section

variable (hvalid : ids.flatMap bytes = encode text)
include hvalid

/-- The first token. -/
theorem appendToken_first (h : ids[0]? = some id) :
    ∃ s out, (Sequence.new skip).appendToken (byteLevel bytes) id = some (s, out) ∧
      Reading bytes ids skip 1 s ∧ out.Sublist (news bytes ids text 0) ∧
      (out = news bytes ids text 0 ↔ Kept bytes ids text 0) := by
  have hfirst : ids.take 1 = [id] := take_succ_of_getElem? h
  have hout := emitted_token hvalid h
  have hstate := (decode_tokens hvalid 1).2
  rw [hfirst, flatMap_singleton] at hstate
  change emitted none (bytes id) = _ at hout
  have htext : decodeLossy ([id].flatMap bytes) =
      news bytes ids text 0 ++ flush (stateAfter none (bytes id)) := by
    rw [flatMap_singleton, decodeLossy, hout]
  have hreading : Reading bytes ids skip 1 ⟨[id], 0, 1, skip⟩ :=
    ⟨Nat.one_pos, hfirst.symm, rfl, rfl, Nat.zero_le _, by rw [drop_zero]⟩
  unfold Sequence.appendToken
  simp only [Sequence.new, nil_append, and_self, if_true, byteLevel, htext, length_singleton]
  by_cases hends : endsWithReplacement
      (news bytes ids text 0 ++ flush (stateAfter none (bytes id))) = true
  · rw [if_pos hends]
    refine ⟨_, _, rfl, hreading, nil_sublist _, fun heq hne => absurd heq.symm hne, fun hkept => ?_⟩
    by_contra hne
    rcases hkept (Ne.symm hne) with ⟨hb, hlast, _⟩
    rw [hstate.mpr hb, flush, List.append_nil] at hends
    exact hlast (beq_iff_eq.mp hends)
  rw [if_neg hends]
  -- What is returned leaves no character open.
  cases hst : stateAfter none (bytes id) with
  | some o => simp [hst, flush, endsWithReplacement] at hends
  | none =>
    rw [hst, flush, List.append_nil] at hends
    rw [flush, List.append_nil]
    refine ⟨_, _, rfl, hreading, List.Sublist.refl _, fun _ _ => ?_, fun _ => rfl⟩
    exact ⟨hstate.mp hst, fun hlast => hends (beq_iff_eq.mpr hlast), fun h => absurd rfl h⟩

theorem returns_iff_kept (hk : 0 < k) :
    Returns (stateAfter none ((ids.take k).flatMap bytes)) (news bytes ids text k)
      (stateAfter none ((ids.take (k + 1)).flatMap bytes)) ↔ Kept bytes ids text k := by
  refine imp_congr_right fun _ => ?_
  rw [(decode_tokens hvalid k).2, (decode_tokens hvalid (k + 1)).2]
  constructor
  · rintro ⟨hidle, hnot, hor⟩
    exact ⟨hidle, fun hlast => hnot (mem_of_getLast? hlast), fun _ => ⟨hnot, hor⟩⟩
  · rintro ⟨hidle, _, hrest⟩
    exact ⟨hidle, hrest hk.ne'⟩

/-- A token behind the first one. -/
theorem appendToken_spec (hs : Reading bytes ids skip k s) (h : ids[k]? = some id) :
    ∃ s' out, s.appendToken (byteLevel bytes) id = some (s', out) ∧
      Reading bytes ids skip (k + 1) s' ∧ out.Sublist (news bytes ids text k) ∧
      (out = news bytes ids text k ↔ Kept bytes ids text k) := by
  rcases appendToken_eq hs h hvalid with ⟨p, hp, happend⟩
  rcases returned_spec (emitted none (((ids.take k).drop s.prefixOffset).flatMap bytes))
    (stateAfter none ((ids.take k).flatMap bytes)) (news bytes ids text k)
    (stateAfter none ((ids.take (k + 1)).flatMap bytes)) with ⟨out, hout, hsub, hiff⟩
  rw [hout, map_some] at happend
  refine ⟨_, out, happend, ?_, hsub, hiff.trans (returns_iff_kept hvalid hs.pos)⟩
  refine ⟨Nat.succ_pos k, rfl, rfl, rfl, ?_, ?_⟩
  · rcases hp with rfl | ⟨rfl, _⟩
    · exact Nat.le_succ_of_le hs.le
    · exact Nat.le_succ _
  · rcases hp with rfl | ⟨rfl, hidle⟩
    · rw [drop_take_succ h hs.le, flatMap_append, flatMap_singleton, stateAfter_append,
        hs.window, stateAfter_token h]
    · -- The new window is the token alone, and behind it the decoder has caught up.
      rw [hidle]
      exact idle_drop hidle p

/-- The tokens from the `k`-th one on. -/
theorem appendTokens_spec (hs : (k = 0 ∧ s = Sequence.new skip) ∨ Reading bytes ids skip k s)
    {rest : List Nat} (hrest : ids.drop k = rest) :
    ∃ s' outs, s.appendTokens (byteLevel bytes) rest = some (s', outs) ∧
      List.Forall₂ (fun out k => out.Sublist (news bytes ids text k) ∧
        (out = news bytes ids text k ↔ Kept bytes ids text k)) outs
        (List.range' k rest.length) := by
  induction rest generalizing k s with
  | nil => exact ⟨s, [], rfl, .nil⟩
  | cons id rest ih =>
    have hid : ids[k]? = some id := by
      rw [← head?_drop, hrest]
      rfl
    have hnext : ids.drop (k + 1) = rest := by
      rw [← drop_drop, hrest]
      rfl
    obtain ⟨s1, out, hstep, hs1, hsub, hiff⟩ : ∃ s1 out,
        s.appendToken (byteLevel bytes) id = some (s1, out) ∧ Reading bytes ids skip (k + 1) s1 ∧
        out.Sublist (news bytes ids text k) ∧
        (out = news bytes ids text k ↔ Kept bytes ids text k) := by
      rcases hs with ⟨rfl, rfl⟩ | hs
      · exact appendToken_first hvalid hid
      · exact appendToken_spec hvalid hs hid
    rcases ih (.inr hs1) hnext with ⟨s', outs, hrun, hall⟩
    refine ⟨s', out :: outs, ?_, ?_⟩
    · simp only [Sequence.appendTokens, hstep, hrun, bind, Option.bind]
      rfl
    · exact .cons ⟨hsub, hiff⟩ hall

/-- The characters that the tokens complete, one token after the other. -/
theorem flatMap_news {n : Nat} (hn : n ≤ ids.length) :
    (List.range' 0 n).flatMap (news bytes ids text) = completed text (bytesBefore bytes ids n) := by
  induction n with
  | zero =>
    rw [← (decode_tokens hvalid 0).1]
    rfl
  | succ n ih =>
    have hid : ids[n]? = some (ids.get ⟨n, by omega⟩) := getElem?_eq_getElem _
    rw [range'_concat, flatMap_append, ih (by omega), Nat.one_mul, Nat.zero_add, flatMap_singleton,
      ← (decode_tokens hvalid (n + 1)).1, take_succ_of_getElem? hid, flatMap_append,
      flatMap_singleton, emitted_append, emitted_token hvalid hid, (decode_tokens hvalid n).1]

end

/-- The texts that are returned for the tokens of a text never panic, and they are the
    text if and only if each token is `Kept`. -/
theorem append_token_exact_iff (bytes : Nat → List Nat) (skip : Bool) (ids : List Nat)
    (text : List Char) (hvalid : ids.flatMap bytes = encode text) :
    ∃ s outs, (Sequence.new skip).appendTokens (byteLevel bytes) ids = some (s, outs) ∧
      (outs.flatten = (byteLevel bytes).decode ids skip ↔
        ∀ k < ids.length, Kept bytes ids text k) := by
  have hdecode : (byteLevel bytes).decode ids skip =
      (List.range' 0 ids.length).flatMap (news bytes ids text) := by
    rw [flatMap_news hvalid le_rfl, bytesBefore, take_length, hvalid, length_encode,
      completed_byteLen]
    show decodeLossy (ids.flatMap bytes) = text
    rw [hvalid, decodeLossy_encode]
  rcases appendTokens_spec hvalid (.inl ⟨rfl, rfl⟩) drop_zero with ⟨s, outs, happend, hall⟩
  refine ⟨s, outs, happend, ?_⟩
  rw [hdecode, (flatten_eq_iff hall).2]
  constructor
  · exact fun h k hk => h k (mem_range'_1.mpr ⟨Nat.zero_le _, by omega⟩)
  · exact fun h k hk => h k (by have := (mem_range'_1.mp hk).2; omega)

/-- The euro sign, one byte a token: nothing is returned. A letter behind it is returned,
    and the sign is not in front of it. -/
theorem append_token_drops_euro :
    [0xE2, 0x82, 0xAC, 0x61].flatMap (fun id => [id]) = encode ['€', 'a'] ∧
    (byteLevel fun id => [id]).decode [0xE2, 0x82, 0xAC, 0x61] true = ['€', 'a'] ∧
    ∃ s, (Sequence.new true).appendTokens (byteLevel fun id => [id]) [0xE2, 0x82, 0xAC, 0x61] =
      some (s, [[], [], [], ['a']]) := by
  refine ⟨by decide, by decide, ⟨[0xE2, 0x82, 0xAC, 0x61], 3, 4, true⟩, ?_⟩
  rfl

/-- A character of four bytes is returned however it is cut. -/
theorem append_token_exact_iff_grin :
    ∃ s outs, (Sequence.new true).appendTokens (byteLevel fun id => [id])
        [0x61, 0xF0, 0x9F, 0x98, 0x80, 0x62] = some (s, outs) ∧
      (outs.flatten = (byteLevel fun id => [id]).decode [0x61, 0xF0, 0x9F, 0x98, 0x80, 0x62] true ↔
        ∀ k < 6, Kept (fun id => [id]) [0x61, 0xF0, 0x9F, 0x98, 0x80, 0x62] ['a', '😀', 'b'] k) ∧
      ∀ k < 6, Kept (fun id => [id]) [0x61, 0xF0, 0x9F, 0x98, 0x80, 0x62] ['a', '😀', 'b'] k := by
  rcases append_token_exact_iff (fun id => [id]) true [0x61, 0xF0, 0x9F, 0x98, 0x80, 0x62]
    ['a', '😀', 'b'] (by decide) with ⟨s, outs, hrun, hiff⟩
  exact ⟨s, outs, hrun, hiff, by decide⟩

end Sequences

end SglangInc.Detok
