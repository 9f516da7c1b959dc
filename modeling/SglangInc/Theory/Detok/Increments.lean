import SglangInc.Core.DetokenizerManager
import SglangInc.Lib.Runs
import SglangInc.Theory.Detok.Stream

/-!
# What the Detokenizer Sends

The texts that are sent for a request are the text of its tokens in pieces.

Up to `read_offset` the text is decoded for good. Behind it a character may be open, and then
only the words that `find_printable_text` finds are sent. They are a beginning of what the
decoder has put out, so the next text begins with them, and what ends in a space is found
again. What ends in a CJK character is found again only before the open character: in `你a�`
it is not, and `sent_offset` goes back.

## Theorems

* `increments_exact`: All that is sent is the text.
* `stop_hidden_iff`: A stop string stays hidden if none of it is revealed before.
-/

namespace SglangInc.Detok

open List Utf8 DecodeStatus TokenIDOutput

variable {bytes : Nat → List Nat} {gptOss : Bool} {text sent p u : List Char} {n : Nat}
  {d : DecodeStatus} {s : Feed} {m : TokenIDOutput}

/-- The words before a character that is open. -/
theorem findPrintableText_open (u : List Char) : findPrintableText (u ++ [replacement]) =
    if u.getLast?.any isChineseChar then u else u.rdropWhile (· ≠ ' ') := by
  have hcjk : isChineseChar replacement = false := by decide
  have hline : replacement ≠ '\n' := by decide
  have hspace : replacement ≠ ' ' := by decide
  simp [findPrintableText, hcjk, hline, hspace]

theorem prefix_rdropWhile (p q : List Char) :
    p ++ [' '] <+: (p ++ [' '] ++ q).rdropWhile (· ≠ ' ') := by
  induction q using reverseRecOn with
  | nil => rw [List.append_nil, rdropWhile_concat_neg _ _ _ (by simp)]
  | append_singleton q c ih =>
    rw [← append_assoc, rdropWhile_concat]
    split_ifs
    · exact ih
    · rw [append_assoc]
      exact prefix_append _ _

/-- What ends in a space is found again. -/
theorem prefix_findPrintableText (h : p ++ [' '] <+: u ++ [replacement]) :
    p ++ [' '] <+: findPrintableText (u ++ [replacement]) := by
  rcases prefix_concat_iff.mp h with heq | hu
  · exact absurd (append_inj_right' heq rfl) (by decide)
  · rw [findPrintableText_open]
    split_ifs
    · exact hu
    · obtain ⟨q, rfl⟩ := hu
      exact prefix_rdropWhile p q

theorem findPrintableText_spec (u : List Char) :
    findPrintableText (u ++ [replacement]) <+: u ∧ (findPrintableText (u ++ [replacement]) = [] ∨
      ∃ p c, findPrintableText (u ++ [replacement]) = p ++ [c] ∧ (c = ' ' ∨ isChineseChar c)) := by
  rw [findPrintableText_open]
  split_ifs with hcjk
  · obtain ⟨c, hc, hcjk'⟩ := (Option.any_eq_true _ _).mp hcjk
    obtain ⟨p, rfl⟩ := getLast?_eq_some_iff.mp hc
    exact ⟨prefix_refl _, .inr ⟨p, c, rfl, .inr hcjk'⟩⟩
  · have hpre : u.rdropWhile (· ≠ ' ') <+: u := rdropWhile_prefix _ _
    refine ⟨hpre, Classical.or_iff_not_imp_left.mpr fun h => ?_⟩
    refine ⟨_, _, (dropLast_append_getLast h).symm, .inl ?_⟩
    simpa using rdropWhile_last_not _ _ h

/-- The text of the tokens behind `read_offset`, with a byte-level tokenizer. -/
def DecodeStatus.pending (bytes : Nat → List Nat) (d : DecodeStatus) : List Char :=
  decodeLossy ((d.decodeIds.drop d.readOffset).flatMap bytes)

/-- A status, and the text that was sent: the text up to `read_offset`, and perhaps some
    words of the text behind it. -/
structure Held (bytes : Nat → List Nat) (text : List Char) (n : Nat) (d : DecodeStatus)
    (sent : List Char) : Prop where
  surr_le : d.surrOffset ≤ d.readOffset
  le_read : n ≤ d.readOffset
  read_le : d.readOffset ≤ d.decodeIds.length
  idle : stateAfter none ((d.decodeIds.take d.readOffset).flatMap bytes) = none
  decoded : d.decodedText =
    text ++ decodeLossy (((d.decodeIds.take d.readOffset).drop n).flatMap bytes)
  offset : d.sentOffset = sent.length
  begins : sent <+: d.decodedText ++ emitted none ((d.decodeIds.drop d.readOffset).flatMap bytes)
  early : sent <+: d.decodedText ∨
    ∃ p c, sent = d.decodedText ++ (p ++ [c]) ∧ (c = ' ' ∨ isChineseChar c)

/-- The decoded text and the words that are printed behind it. -/
def DecodeStatus.shown (bytes : Nat → List Nat) (d : DecodeStatus) : List Char :=
  d.decodedText ++ findPrintableText (d.pending bytes)

/-- All of the text is decoded for good. -/
def DecodeStatus.committed (bytes : Nat → List Nat) (d : DecodeStatus) : DecodeStatus :=
  ⟨d.decodedText ++ d.pending bytes, d.decodeIds, d.readOffset, d.decodeIds.length,
    (d.decodedText ++ d.pending bytes).length⟩

theorem pending_committed (d : DecodeStatus) : (d.committed bytes).pending bytes = [] := by
  simp [committed, pending, decodeLossy, emitted, stateAfter, flush]

theorem shown_committed (d : DecodeStatus) :
    (d.committed bytes).shown bytes = d.decodedText ++ d.pending bytes := by
  have hprint : findPrintableText [] = [] := by decide
  rw [shown, pending_committed, hprint, List.append_nil]
  rfl

section Held

variable (h : Held bytes text n d sent)
include h

theorem Held.extend (ids : List Nat) :
    Held bytes text n { d with decodeIds := d.decodeIds ++ ids } sent := by
  have htake : (d.decodeIds ++ ids).take d.readOffset = d.decodeIds.take d.readOffset :=
    take_append_of_le_length h.read_le
  refine { h with read_le := ?_, idle := ?_, decoded := ?_, begins := ?_ }
  · exact h.read_le.trans (by simp)
  · simp only [htake]
    exact h.idle
  · simp only [htake]
    exact h.decoded
  · simp only [drop_append_of_le_length h.read_le, flatMap_append, emitted_append, ← append_assoc]
    exact h.begins.trans (prefix_append _ _)

theorem Held.window {i : Nat} (hi : i ≤ d.readOffset) :
    decodeLossy ((d.decodeIds.drop i).flatMap bytes) =
      decodeLossy (((d.decodeIds.take d.readOffset).drop i).flatMap bytes) ++ d.pending bytes := by
  rw [drop_eq_append _ hi, decode_window (idle_drop h.idle _)]
  rfl

/-- The new text is the text behind `read_offset`. -/
theorem Held.newText_eq {gptOss : Bool} {m : TokenIDOutput}
    (htrim : ∀ l, m.trimIds gptOss l = l) :
    d.newText (byteLevel bytes) gptOss m = d.pending bytes := by
  simp only [newText, htrim, byteLevel]
  rw [h.window h.surr_le, drop_left]

/-- The decoded text and the new one are the whole text. -/
theorem Held.whole : d.decodedText ++ d.pending bytes =
    text ++ decodeLossy ((d.decodeIds.drop n).flatMap bytes) := by
  rw [h.window h.le_read, h.decoded, append_assoc]

theorem Held.prefix_sent : sent <+: d.decodedText ++ d.pending bytes := by
  refine h.begins.trans ?_
  rw [prefix_append_right_inj]
  exact prefix_append _ _

/-- The text does not end in a replacement: it is decoded for good. -/
theorem Held.commit (hlast : endsWithReplacement (d.pending bytes) = false) :
    Held bytes text n (d.committed bytes) (d.decodedText ++ d.pending bytes) := by
  refine ⟨h.read_le, h.le_read.trans h.read_le, le_rfl, ?_, ?_, rfl,
    prefix_append _ _, .inl (prefix_refl _)⟩
  · simp only [committed, take_length]
    rw [← take_append_drop d.readOffset d.decodeIds, flatMap_append, stateAfter_append, h.idle]
    exact stateAfter_of_getLast? (by
      simpa [endsWithReplacement, pending] using hlast)
  · simp only [committed, take_length]
    exact h.whole

/-- It ends in one: some words are sent, and those sent before are among them. -/
theorem Held.print (hlast : d.pending bytes = [] ∨ endsWithReplacement (d.pending bytes) = true ∧
      ∀ p c, sent = d.decodedText ++ (p ++ [c]) → ¬isChineseChar c) :
    sent <+: d.shown bytes ∧
      Held bytes text n { d with sentOffset := (d.shown bytes).length } (d.shown bytes) := by
  have hpre := h.prefix_sent
  unfold shown
  rcases hlast with hnil | ⟨hrep, hcjk⟩
  · have hprint : findPrintableText [] = [] := by decide
    rw [hnil] at hpre
    rw [hnil, hprint]
    exact ⟨hpre, { h with offset := rfl, begins := by simp, early := .inl (by simp) }⟩
  obtain ⟨u, hu⟩ := getLast?_eq_some_iff.mp (beq_iff_eq.mp hrep)
  rw [hu] at hpre ⊢
  obtain ⟨hpref, hend⟩ := findPrintableText_spec u
  -- What is before the replacement was put out.
  have hemitted : u <+: emitted none ((d.decodeIds.drop d.readOffset).flatMap bytes) := by
    rw [pending, decodeLossy] at hu
    cases hs : stateAfter none ((d.decodeIds.drop d.readOffset).flatMap bytes) with
    | none =>
      rw [hs, flush, List.append_nil] at hu
      exact hu ▸ prefix_append _ _
    | some o =>
      rw [hs, flush] at hu
      rw [append_inj_left' hu rfl]
  refine ⟨?_, { h with offset := rfl, begins := ?_, early := ?_ }⟩
  · rcases h.early with hle | ⟨p, c, rfl, rfl | hc⟩
    · exact hle.trans (prefix_append _ _)
    · rw [prefix_append_right_inj] at hpre ⊢
      exact prefix_findPrintableText hpre
    · exact absurd hc (hcjk p c rfl)
  · rw [prefix_append_right_inj]
    exact hpref.trans hemitted
  · rcases hend with hnil | ⟨p, c, hp, hc⟩
    · rw [hnil, List.append_nil]
      exact .inl (prefix_refl _)
    · exact .inr ⟨p, c, by rw [hp], hc⟩

end Held

/-- The text of a request with a message: `text`, and that of the tokens behind the prompt. -/
def textOf (bytes : Nat → List Nat) (text : List Char) (n : Nat) (s : Feed) (m : TokenIDOutput) :
    List Char :=
  text ++ (byteLevel bytes).decode ((s.ids ++ m.decodeIds).drop n) m.skipSpecialTokens

/-- A message of the request whose prompt is its first `n` tokens. -/
structure Of (text : List Char) (n : Nat) (s : Feed) (m : TokenIDOutput) : Prop where
  decodedText : m.decodedText = text
  readOffset : m.readOffset = n
  prompt : s.status = none → n ≤ m.decodeIds.length

/-- The last character that was sent. -/
def DecodeStatus.lastSent (bytes : Nat → List Nat) (d : DecodeStatus) : Option Char :=
  ((d.decodedText ++ d.pending bytes).take d.sentOffset).getLast?

/-- No character is open behind the prompt, and none behind a CJK character sent early. -/
def Meets (bytes : Nat → List Nat) (s : Feed) (m : TokenIDOutput) : Prop :=
  match s.status with
  | none => stateAfter none ((m.decodeIds.take m.readOffset).flatMap bytes) = none
  | some d => d.sentOffset ≤ d.decodedText.length ∨ (d.lastSent bytes).any isChineseChar = false ∨
      m.finishedReason.isSome ∨
      endsWithReplacement ((received s.status m).pending bytes) = false

/-- A request whose messages all meet the condition, before its last one. -/
structure Messages (bytes : Nat → List Nat) (gptOss : Bool) (text : List Char) (n : Nat)
    (tr : List (Feed × TokenIDOutput × Feed)) (s : Feed) (last : TokenIDOutput) : Prop where
  run : Run (fun s m s' => s' = s.next (byteLevel bytes) gptOss m) ⟨none, [], []⟩ tr s
  meets : ∀ e ∈ tr, (Of text n e.1 e.2.1 ∧ Meets bytes e.1 e.2.1) ∧ e.2.1.finishedReason = none
  last : Of text n s last ∧ Meets bytes s last

/-- What holds between two messages. -/
def Inv (bytes : Nat → List Nat) (text : List Char) (n : Nat) (s : Feed) : Prop :=
  match s.status with
  | none => s.ids = [] ∧ s.sent = []
  | some d => d.decodeIds = s.ids ∧ Held bytes text n d s.sent

section Run

variable (h : Inv bytes text n s) (hm : Of text n s m ∧ Meets bytes s m)
include h hm

theorem Inv.received : (received s.status m).decodeIds = s.ids ++ m.decodeIds ∧
    Held bytes text n (.received s.status m) s.sent := by
  obtain ⟨status, ids, sent⟩ := s
  obtain ⟨hof, hmeets⟩ := hm
  cases status with
  | none =>
    obtain ⟨rfl, rfl⟩ := h
    obtain ⟨rfl, rfl, hprompt⟩ := hof
    refine ⟨rfl, Nat.zero_le _, le_rfl, hprompt rfl, hmeets, ?_, rfl, nil_prefix, .inl nil_prefix⟩
    simp [received, decodeLossy, emitted, stateAfter, flush]
  | some d =>
    obtain ⟨rfl, hkept⟩ := h
    exact ⟨rfl, hkept.extend _⟩

/-- Before a message that leaves a character open, no CJK character was sent early. -/
theorem Inv.not_cjk (hgo : m.finishedReason = none)
    (hrep : endsWithReplacement ((DecodeStatus.received s.status m).pending bytes) = true)
    (p : List Char) (c : Char)
    (hsent : s.sent = (DecodeStatus.received s.status m).decodedText ++ (p ++ [c])) :
    ¬isChineseChar c := by
  obtain ⟨status, ids, sent⟩ := s
  cases status with
  | none =>
    obtain ⟨-, rfl⟩ := h
    simp at hsent
  | some d =>
    have hlast : d.lastSent bytes = some c := by
      rw [DecodeStatus.lastSent, h.2.offset, ← prefix_iff_eq_take.mp h.2.prefix_sent, hsent,
        ← append_assoc, getLast?_concat]
    rcases hm.2 with hle | hcjk | hfin | hopen
    · rw [h.2.offset, hsent] at hle
      simp only [DecodeStatus.received, length_append, length_singleton] at hle
      omega
    · rw [hlast] at hcjk
      exact Bool.eq_false_iff.mp hcjk
    · rw [hgo] at hfin
      cases hfin
    · exact absurd (hrep.symm.trans hopen) Bool.true_eq_false_eq_False

/-- What a message before the last one does: all of the text is decoded for good, or words
    of the new part are sent. -/
theorem Inv.next_cases (gptOss : Bool) (hgo : m.finishedReason = none) :
    ∃ d', s.next (byteLevel bytes) gptOss m = ⟨some d', s.ids ++ m.decodeIds, d'.shown bytes⟩ ∧
      Held bytes text n d' (d'.shown bytes) ∧ ∃ d, d = DecodeStatus.received s.status m ∧
        (endsWithReplacement (d.pending bytes) = false ∧ d' = d.committed bytes ∨
          (d.pending bytes = [] ∨ endsWithReplacement (d.pending bytes) = true) ∧
            d' = { d with sentOffset := (d.shown bytes).length }) := by
  obtain ⟨-, hkept⟩ := h.received hm
  have hcjk := h.not_cjk hm hgo
  have htrimmed : m.trimmed = none := by simp [trimmed, hgo]
  have hnew : newText (byteLevel bytes) gptOss _ m = _ :=
    hkept.newText_eq fun l => by simp [trimIds, htrimmed]
  simp only [Feed.next, handleTokenIdOut, hgo, hnew, trimText, htrimmed,
    Option.isSome_none, Bool.false_eq_true, if_false, exists_eq_left]
  generalize DecodeStatus.received s.status m = d at hkept hcjk ⊢
  split_ifs with hclosed
  · have hlast : endsWithReplacement (d.pending bytes) = false := by simpa using hclosed.2
    refine ⟨d.committed bytes, ?_, ?_, .inl ⟨hlast, rfl⟩⟩
    · simp only [List.append_nil, shown_committed, hkept.offset,
        prefix_iff_eq_append.mp hkept.prefix_sent]
      rfl
    · rw [shown_committed]
      exact hkept.commit hlast
  -- A character is open: what is printable is sent, nothing is committed.
  · have hopen : d.pending bytes = [] ∨ endsWithReplacement (d.pending bytes) = true := by
      by_cases hnil : d.pending bytes = []
      · exact .inl hnil
      · exact .inr (by simpa [hnil] using hclosed)
    obtain ⟨hpre, hheld⟩ := hkept.print (hopen.imp_right fun hrep => ⟨hrep, hcjk hrep⟩)
    refine ⟨_, ?_, hheld, .inr ⟨hopen, rfl⟩⟩
    rw [hkept.offset]
    exact congrArg _ (prefix_iff_eq_append.mp hpre)

/-- A message before the last one. -/
theorem Inv.next (gptOss : Bool) (hgo : m.finishedReason = none) :
    Inv bytes text n (s.next (byteLevel bytes) gptOss m) ∧
      s.sent <+: (s.next (byteLevel bytes) gptOss m).sent := by
  obtain ⟨d', hnext, hheld, d, hd, hcases⟩ := h.next_cases hm gptOss hgo
  refine ⟨?_, prefix_append _ _⟩
  have hids : d'.decodeIds = s.ids ++ m.decodeIds := by
    rw [← (h.received hm).1, ← hd]
    rcases hcases with ⟨-, rfl⟩ | ⟨-, rfl⟩
    · rfl
    · rfl
  rw [hnext]
  exact ⟨hids, hheld⟩

/-- The last message. -/
theorem Inv.last (gptOss : Bool) (htrim : ∀ l, m.trimIds gptOss l = l)
    (hfin : m.finishedReason.isSome) :
    s.sent <+: textOf bytes text n s m ∧ (s.next (byteLevel bytes) gptOss m).sent =
      s.sent ++ (m.trimText (textOf bytes text n s m)).drop s.sent.length := by
  obtain ⟨hids, hkept⟩ := h.received hm
  have hwhole : _ = textOf bytes text n s m := hkept.whole.trans (by rw [hids]; rfl)
  refine ⟨hwhole ▸ hkept.prefix_sent, ?_⟩
  simp [Feed.next, handleTokenIdOut, hfin, hkept.newText_eq htrim, hkept.offset, hwhole]

end Run

section Messages

variable {tr : List (Feed × TokenIDOutput × Feed)}

theorem Messages.inv (h : Messages bytes gptOss text n tr s m) :
    Inv bytes text n s ∧ ∀ e ∈ tr, Inv bytes text n e.1 ∧ Inv bytes text n e.2.2 := by
  have hstep : ∀ s m s', Inv bytes text n s → (s' = s.next (byteLevel bytes) gptOss m ∧
      (Of text n s m ∧ Meets bytes s m) ∧ m.finishedReason = none) → Inv bytes text n s' := by
    rintro s m _ hinv ⟨rfl, hm, hgo⟩
    exact (hinv.next hm gptOss hgo).1
  have hr := h.run.guarded (G := fun s m => (Of text n s m ∧ Meets bytes s m) ∧
    m.finishedReason = none) h.meets
  exact ⟨hr.inv ⟨rfl, rfl⟩ hstep, hr.inv_mem ⟨rfl, rfl⟩ hstep⟩

/-- All that is sent for a request without a stop match is the text of its tokens, and
    nothing is taken back. -/
theorem increments_exact (h : Messages bytes gptOss text n tr s m)
    (hfin : m.finishedReason = some none) :
    (s.next (byteLevel bytes) gptOss m).sent = textOf bytes text n s m ∧
      ∀ e ∈ tr, e.1.sent <+: e.2.2.sent ∧ ∀ d d', e.1.status = some d → e.2.2.status = some d' →
        d.sentOffset ≤ d'.sentOffset := by
  obtain ⟨hinv, hall⟩ := h.inv
  refine ⟨?_, fun e he => ?_⟩
  · have htrimmed : m.trimmed = none := by simp [trimmed, hfin]
    obtain ⟨hpre, hsent⟩ := hinv.last h.last gptOss
      (fun l => by simp [trimIds, htrimmed]) (by simp [hfin])
    simp only [trimText, htrimmed] at hsent
    rw [hsent, prefix_iff_eq_append.mp hpre]
  · obtain ⟨hm, hgo⟩ := h.meets e he
    obtain ⟨h₁, h₂⟩ := hall e he
    have hpre := (h₁.next hm gptOss hgo).2
    rw [← h.run.step_of_mem e he] at hpre
    refine ⟨hpre, fun d d' hd hd' => ?_⟩
    rw [Inv, hd] at h₁
    rw [Inv, hd'] at h₂
    rw [h₁.2.offset, h₂.2.offset]
    exact hpre.length_le

/-- A tokenizer whose tokens are bytes, and a message of it behind a prompt of one. -/
abbrev raw : Tokenizer := byteLevel fun id => [id]

/-- A message with these ids. -/
def byteMessage (ids : List Nat) (finishedReason : Option (Option Matched)) : TokenIDOutput :=
  ⟨[], ids, 1, finishedReason, false, true⟩

theorem messages_two (a b : List Nat) (reason : Option Matched) :
    ∃ tr, tr.map (·.2.1.decodeIds) = [0x68 :: a] ∧ Messages (fun id => [id]) false [] 1 tr
      (.next raw false ⟨none, [], []⟩ (byteMessage (0x68 :: a) none))
      (byteMessage b (some reason)) := by
  refine ⟨_, rfl, .snoc _ .nil rfl, ?_, ⟨rfl, rfl, fun h => ?_⟩, .inr (.inr (.inl rfl))⟩
  · simp only [nil_append, mem_singleton, forall_eq]
    exact ⟨⟨⟨rfl, rfl, fun _ => by simp [byteMessage]⟩, rfl⟩, rfl⟩
  · cases h

/-- `a é`, cut inside the last character. -/
theorem increments_exact_cut : (Feed.next raw false (.next raw false ⟨none, [], []⟩
        (byteMessage [0x68, 0x61, 0x20, 0xC3] none))
      (byteMessage [0xA9] (some none))).sent = "a é".toList :=
  (messages_two [0x61, 0x20, 0xC3] [0xA9] none).elim fun _ ⟨_, h⟩ =>
    (increments_exact h rfl).1.trans (by decide +kernel)

/-- A character is sent early, not found again, and sent twice. -/
theorem increments_repeated : ∃ s₁ s₂ : Feed,
    s₁ = .next raw false ⟨none, [], []⟩ (byteMessage [0x68, 0xE4, 0xBD, 0xA0, 0xC3] none) ∧
    s₂ = s₁.next raw false (byteMessage [0xA9, 0x61, 0xC3] none) ∧
    s₁.status.map (·.sentOffset) = some 1 ∧ s₂.status.map (·.sentOffset) = some 0 ∧
    (s₂.next raw false (byteMessage [0xA9] (some none))).sent = "你你éaé".toList ∧
    textOf (fun id => [id]) [] 1 s₂ (byteMessage [0xA9] (some none)) = "你éaé".toList :=
  ⟨_, _, rfl, rfl, by decide +kernel⟩

section Revealed

variable (bytes n)

/-- The text of tokens behind the prompt. -/
def textBehind (ids : List Nat) : List Char := decodeLossy ((ids.drop n).flatMap bytes)

/-- The text of the messages with these tokens, up to the last one behind which no character
    is open. -/
def closedText (gs : List (List Nat)) : List Char :=
  ((gs.inits.reverse.map fun g => textBehind bytes n g.flatten).find?
    (!endsWithReplacement ·)).getD []

/-- What messages with these tokens reveal: that text, and the words printed behind it. -/
def revealed (text : List Char) (gs : List (List Nat)) : List Char :=
  if gs = [] then [] else text ++ closedText bytes n gs ++
    findPrintableText ((textBehind bytes n gs.flatten).drop (closedText bytes n gs).length)

variable {bytes n} {gs : List (List Nat)} {g : List Nat}

theorem closedText_concat (gs : List (List Nat)) (g : List Nat) : closedText bytes n (gs ++ [g]) =
    if endsWithReplacement (textBehind bytes n (gs ++ [g]).flatten) then closedText bytes n gs
    else textBehind bytes n (gs ++ [g]).flatten := by
  have hinits : (gs ++ [g]).inits.reverse = (gs ++ [g]) :: gs.inits.reverse := by
    simp [inits_append]
  rw [closedText, hinits, map_cons, find?_cons]
  cases endsWithReplacement (textBehind bytes n (gs ++ [g]).flatten) with
  | false => rfl
  | true => rfl

theorem endsWithReplacement_append {u v : List Char} (h : v ≠ []) :
    endsWithReplacement (u ++ v) = endsWithReplacement v := by
  rw [endsWithReplacement, getLast?_append_of_ne_nil _ h, endsWithReplacement]

theorem closedText_nil : closedText bytes n [] = [] := by
  have hnil : endsWithReplacement [] = false := rfl
  simp [closedText, textBehind, decodeLossy, emitted, stateAfter, flush, hnil]

theorem closedText_closed (gs : List (List Nat)) :
    endsWithReplacement (closedText bytes n gs) = false := by
  rw [closedText]
  cases hfind : (gs.inits.reverse.map fun g => textBehind bytes n g.flatten).find?
    (!endsWithReplacement ·) with
  | none => rfl
  | some u => simpa using find?_some hfind

/-- The status after messages with these tokens, and what was sent. -/
def Reveals (bytes : Nat → List Nat) (text : List Char) (n : Nat) (gs : List (List Nat))
    (s : Feed) : Prop :=
  s.ids = gs.flatten ∧ match s.status with
    | none => gs = []
    | some d => gs ≠ [] ∧ d.decodedText = text ++ closedText bytes n gs ∧ s.sent = d.shown bytes

/-- One more message that does not finish the request. -/
theorem Reveals.next (hs : Reveals bytes text n gs s) (h : Inv bytes text n s)
    (hm : Of text n s m ∧ Meets bytes s m) (gptOss : Bool) (hgo : m.finishedReason = none) :
    Reveals bytes text n (gs ++ [m.decodeIds]) (s.next (byteLevel bytes) gptOss m) := by
  have hflat : s.ids ++ m.decodeIds = (gs ++ [m.decodeIds]).flatten := by simp [hs.1]
  obtain ⟨d', hnext, -, d, hd, hcases⟩ := h.next_cases hm gptOss hgo
  obtain ⟨hids, hkept⟩ := h.received hm
  rw [← hd] at hids hkept
  have hdecoded : d.decodedText = text ++ closedText bytes n gs := by
    obtain ⟨status, ids, sent⟩ := s
    cases status with
    | none =>
      obtain rfl : gs = [] := hs.2
      rw [hd, closedText_nil, List.append_nil]
      exact hm.1.decodedText
    | some d₀ => exact hd ▸ hs.2.2.1
  -- The whole text is the closed one and what is pending.
  have hwhole : textBehind bytes n (gs ++ [m.decodeIds]).flatten =
      closedText bytes n gs ++ d.pending bytes := by
    have := hkept.whole
    rw [hdecoded, append_assoc, append_cancel_left_eq, hids, hflat] at this
    exact this.symm
  rw [hnext]
  refine ⟨hflat, by simp, ?_, rfl⟩
  rw [closedText_concat, hwhole]
  rcases hcases with ⟨hclosed, rfl⟩ | ⟨hopen, rfl⟩
  · have hrep : endsWithReplacement (closedText bytes n gs ++ d.pending bytes) = false := by
      by_cases hnil : d.pending bytes = []
      · rw [hnil, List.append_nil]
        exact closedText_closed gs
      · rwa [endsWithReplacement_append hnil]
    rw [hrep, if_neg Bool.false_ne_true, ← append_assoc, ← hdecoded]
    rfl
  · rcases hopen with hnil | hrep
    · rw [hnil, List.append_nil, ite_self]
      exact hdecoded
    · have hne : d.pending bytes ≠ [] := fun hnil => by
        rw [hnil] at hrep
        cases hrep
      rw [endsWithReplacement_append hne, if_pos hrep]
      exact hdecoded

/-- What was sent is what the tokens of the messages reveal. -/
theorem Messages.sent_eq (h : Messages bytes gptOss text n tr s m) :
    s.sent = revealed bytes n text (tr.map (·.2.1.decodeIds)) := by
  have hreveals : Reveals bytes text n (tr.map (·.2.1.decodeIds)) s := by
    have hinv := h.inv.2
    obtain ⟨hr, hmeets, -⟩ := h
    induction hr with
    | nil => exact ⟨rfl, rfl⟩
    | @snoc tr t u m hr hs ih =>
      have hlast := mem_append_right tr (mem_singleton_self (t, m, u))
      obtain ⟨hm, hgo⟩ := hmeets _ hlast
      have hold := ih (fun e he => hinv e (mem_append_left _ he)) fun e he =>
        hmeets e (mem_append_left _ he)
      rw [map_append, hs]
      exact hold.next (hinv _ hlast).1 hm gptOss hgo
  have hinv := h.inv.1
  obtain ⟨status, ids, sent⟩ := s
  obtain ⟨rfl, hstatus⟩ := hreveals
  cases status with
  | none =>
    obtain ⟨-, rfl⟩ := hinv
    rw [revealed, if_pos hstatus]
  | some d =>
    obtain ⟨hne, hdecoded, rfl⟩ := hstatus
    obtain ⟨hids, hheld⟩ := hinv
    -- Behind the closed text there is what is pending.
    have hwhole := hheld.whole
    rw [hdecoded, append_assoc, append_cancel_left_eq, hids] at hwhole
    rw [revealed, if_neg hne, shown, hdecoded, textBehind, ← hwhole, drop_left]

end Revealed

/-- A stop string is hidden exactly when the messages before the last one reveal none of it. -/
theorem stop_hidden_iff (h : Messages bytes gptOss text n tr s m) {stop : List Char} {pos : Nat}
    (hfin : m.finishedReason = some (some (.str stop))) (htrim : m.noStopTrim = false)
    (hne : stop ≠ []) (hpos : findStr stop (textOf bytes text n s m) = some pos) :
    (s.next (byteLevel bytes) gptOss m).sent = (textOf bytes text n s m).take pos ↔
      (revealed bytes n text (tr.map (·.2.1.decodeIds))).length ≤ pos := by
  have htrimmed : m.trimmed = some (.str stop) := by simp [trimmed, hfin, htrim]
  obtain ⟨hpre, hsent⟩ := h.inv.1.last h.last gptOss
    (fun l => by simp [trimIds, htrimmed]) (by simp [hfin])
  simp only [trimText, htrimmed, hne, if_false, hpos, Option.getD_some] at hsent
  rw [hsent, ← prefix_iff_eq_append, prefix_take_iff, and_iff_right hpre, h.sent_eq]

/-- `ab` is the stop string, and comes after `x`. -/
theorem stop_hidden_iff_whole :
    (Feed.next raw false (.next raw false ⟨none, [], []⟩ (byteMessage [0x68, 0x78] none))
      (byteMessage [0x61, 0x62] (some (some (.str ['a', 'b']))))).sent = ['x'] :=
  (messages_two [0x78] [0x61, 0x62] (some (.str ['a', 'b']))).elim fun _ ⟨hids, h⟩ =>
    ((stop_hidden_iff h rfl rfl (by decide) (show _ = some 1 by decide +kernel)).mpr
      (hids ▸ by decide +kernel)).trans (by decide +kernel)

/-- Its first character was sent before the second one came. -/
theorem stop_revealed : ∃ s₁ : Feed,
    s₁ = .next raw false ⟨none, [], []⟩ (byteMessage [0x68, 0x61] none) ∧
    (s₁.next raw false (byteMessage [0x62] (some (some (.str ['a', 'b']))))).sent = ['a'] ∧
    findStr ['a', 'b'] (textOf (fun id => [id]) [] 1 s₁
      (byteMessage [0x62] (some (some (.str ['a', 'b']))))) = some 0 :=
  ⟨_, rfl, by decide +kernel⟩

end Messages

end SglangInc.Detok
