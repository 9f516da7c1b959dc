import SglangInc.Core.Detokenize

/-!
# A Stream Is Decoded as a Whole

`DecodeStream` returns the text of its tokens in chunks (`decode_stream_exact`).

Lossy decoding splits where the decoder is between characters, and a text that does not
end in a replacement character leaves it there. So `read_offset`, which moves only
behind such a text, is always a place where the decoder of the whole text is between
characters. The window starts at the `read_offset` before, or inside the prompt. Inside
the prompt it may start in the middle of a character, but the prompt ends between
characters, and there a decoder that started late has caught up. So the text of the
window is the text up to `read_offset` and the text behind it, and the chunk is the
second one.
-/

namespace SglangInc.Detok

open List ByteText Utf8

variable {bytes : Nat → List Nat} {skip : Bool} {s : DecodeStream} {l : List Nat}

/-- The offsets are in order, and the decoder is between characters at the second one,
    from the first one on and from the beginning on. -/
structure AtBoundary (bytes : Nat → List Nat) (s : DecodeStream) : Prop where
  le : s.prefixOffset ≤ s.readOffset
  read_le : s.readOffset ≤ s.allTokenIds.length
  whole : stateAfter none ((s.allTokenIds.take s.readOffset).flatMap bytes) = none
  window : stateAfter none
    (((s.allTokenIds.take s.readOffset).drop s.prefixOffset).flatMap bytes) = none

theorem sliceVec_eq {i j : Nat} (hij : i ≤ j) (hj : j ≤ l.length) :
    sliceVec l i j = some ((l.take j).drop i) :=
  if_pos ⟨hij, hj⟩

theorem drop_eq_append (l : List Nat) {i j : Nat} (h : i ≤ j) :
    l.drop i = (l.take j).drop i ++ l.drop j := by
  rw [drop_take, ← Nat.add_sub_cancel' h, ← drop_drop, Nat.add_sub_cancel_left, take_append_drop]

/-- The text of a window is the text up to a boundary and the text behind it. -/
theorem decode_window {a b : List Nat} (h : stateAfter none (a.flatMap bytes) = none) :
    decodeLossy ((a ++ b).flatMap bytes) =
      decodeLossy (a.flatMap bytes) ++ decodeLossy (b.flatMap bytes) := by
  have hnone : decodeLossy (a.flatMap bytes) = emitted none (a.flatMap bytes) := by
    rw [decodeLossy, h, flush, List.append_nil]
  rw [flatMap_append, decodeLossy_append_of_idle h, hnone]

/-- Where one decoder is between characters, so is one that starts later. -/
theorem idle_drop (h : stateAfter none (l.flatMap bytes) = none) (n : Nat) :
    stateAfter none ((l.drop n).flatMap bytes) = none := by
  rw [← take_append_drop n l, flatMap_append, stateAfter_append] at h
  exact stateAfter_idle (stateAfter_tails (show Tails none from trivial) _) h

theorem atBoundary_new (skip : Bool) {prompt : List Nat}
    (h : stateAfter none (prompt.flatMap bytes) = none) :
    AtBoundary bytes (.new prompt skip) where
  le := Nat.sub_le _ _
  read_le := le_rfl
  whole := by
    simp only [DecodeStream.new, take_length]
    exact h
  window := by
    simp only [DecodeStream.new, take_length]
    exact idle_drop h _

/-- One token does not panic. The text that is read after it is the text before and the
    chunk. -/
theorem step_spec (h : AtBoundary bytes s) (id : Nat) :
    ∃ s' chunk, s.step (byteLevel bytes) id = some (s', chunk) ∧ AtBoundary bytes s' ∧
      s'.allTokenIds = s.allTokenIds ++ [id] ∧ s'.skipSpecialTokens = s.skipSpecialTokens ∧
      decodeLossy ((s'.allTokenIds.take s'.readOffset).flatMap bytes) =
        decodeLossy ((s.allTokenIds.take s.readOffset).flatMap bytes) ++ chunk.getD [] := by
  obtain ⟨ids, p, r, skip⟩ := s
  rcases h with ⟨hpr, hr, hwhole, hwindow⟩
  simp only at hpr hr hwhole hwindow
  have hlen : (ids ++ [id]).length = ids.length + 1 := length_append
  have htake : (ids ++ [id]).take r = ids.take r := take_append_of_le_length hr
  -- The window and the whole text, cut at `read_offset`.
  have hall : ids ++ [id] = ids.take r ++ (ids ++ [id]).drop r := by
    rw [← htake, take_append_drop]
  have hcut := htake ▸ drop_eq_append (ids ++ [id]) hpr
  have hprefix : sliceVec (ids ++ [id]) p r = some ((ids.take r).drop p) := by
    rw [sliceVec_eq hpr (by omega), htake]
  have hnew : sliceVec (ids ++ [id]) p (ids ++ [id]).length =
      some ((ids.take r).drop p ++ (ids ++ [id]).drop r) := by
    rw [sliceVec_eq (by omega) le_rfl, take_length, hcut]
  have htext := decode_window (b := (ids ++ [id]).drop r) hwindow
  simp only [DecodeStream.step, byteLevel, hprefix, hnew, htext, bind, Option.bind]
  split_ifs with hemit
  · rw [sliceFrom_append]
    refine ⟨_, _, rfl, ?_, rfl, rfl, ?_⟩
    · -- The text does not end in a replacement, so it ends between characters.
      have hlast : (decodeLossy (((ids.take r).drop p ++
          (ids ++ [id]).drop r).flatMap bytes)).getLast? ≠ some replacement := by
        rw [htext]
        simpa [endsWithReplacement] using hemit.2
      have hidle := stateAfter_of_getLast? hlast
      rw [flatMap_append, stateAfter_append, hwindow] at hidle
      refine ⟨hr.trans (hlen ▸ Nat.le_succ _), le_rfl, ?_, ?_⟩
      · simp only [take_length]
        rwa [hall, flatMap_append, stateAfter_append, hwhole]
      · simp only [take_length]
        exact hidle
    · simp only [take_length, Option.getD_some]
      nth_rewrite 1 [hall]
      exact decode_window hwhole
  · refine ⟨_, _, rfl, ⟨hpr, hr.trans (hlen ▸ Nat.le_succ _), ?_, ?_⟩, rfl, rfl, ?_⟩
    · simp only [htake]
      exact hwhole
    · simp only [htake]
      exact hwindow
    · simp [htake]

/-- All tokens: the chunks are the text up to the new `read_offset`. -/
theorem stepAll_spec (h : AtBoundary bytes s) (ids : List Nat) :
    ∃ s' chunks, s.stepAll (byteLevel bytes) ids = some (s', chunks) ∧ AtBoundary bytes s' ∧
      s'.allTokenIds = s.allTokenIds ++ ids ∧ s'.skipSpecialTokens = s.skipSpecialTokens ∧
      decodeLossy ((s'.allTokenIds.take s'.readOffset).flatMap bytes) =
        decodeLossy ((s.allTokenIds.take s.readOffset).flatMap bytes) ++ chunks.flatten := by
  induction ids generalizing s with
  | nil => exact ⟨s, [], rfl, h, (List.append_nil _).symm, rfl, (List.append_nil _).symm⟩
  | cons id ids ih =>
    rcases step_spec h id with ⟨s1, chunk, hstep, h1, hids1, hskip1, htext1⟩
    rcases ih h1 with ⟨s', chunks, hrun, h', hids', hskip', htext'⟩
    refine ⟨s', chunk.toList ++ chunks, ?_, h', ?_, hskip'.trans hskip1, ?_⟩
    · simp only [DecodeStream.stepAll, hstep, hrun, bind, Option.bind]
      rfl
    · rw [hids', hids1, append_assoc, singleton_append]
    · rw [htext', htext1, flatten_append, append_assoc]
      cases chunk with
      | none => rfl
      | some chunk => simp

/-- The flush puts out what the text still lacks. -/
theorem flush_spec (h : AtBoundary bytes s) :
    ∃ s' last, s.flush (byteLevel bytes) = some (s', last) ∧
      decodeLossy (s.allTokenIds.flatMap bytes) =
        decodeLossy ((s.allTokenIds.take s.readOffset).flatMap bytes) ++ last.getD [] := by
  have hsplit := decode_window (b := s.allTokenIds.drop s.readOffset) h.whole
  rw [take_append_drop] at hsplit
  unfold DecodeStream.flush
  split_ifs with hlt
  · rw [sliceVec_eq h.read_le le_rfl, take_length]
    by_cases hempty : decodeLossy ((s.allTokenIds.drop s.readOffset).flatMap bytes) = []
    · rw [hempty] at hsplit
      exact ⟨_, none, if_neg (not_not_intro hempty), hsplit⟩
    · exact ⟨_, some _, if_pos hempty, hsplit⟩
  · refine ⟨_, _, rfl, ?_⟩
    rw [take_of_length_le (not_lt.mp hlt), Option.getD_none, List.append_nil]

/-- For every tokens, the text of the prompt, the chunks and what a flush returns are the
    text of all tokens. No slice cuts a character, and `read_offset` is always between
    characters. -/
theorem decode_stream_exact (bytes : Nat → List Nat) (skip : Bool) (prompt : List Nat)
    (hprompt : stateAfter none (prompt.flatMap bytes) = none) (ids : List Nat) : ∃ s chunks s' last,
      (DecodeStream.new prompt skip).stepAll (byteLevel bytes) ids = some (s, chunks) ∧
      s.flush (byteLevel bytes) = some (s', last) ∧ (byteLevel bytes).decode (prompt ++ ids) skip =
        (byteLevel bytes).decode prompt skip ++ chunks.flatten ++ last.getD [] ∧
      stateAfter none ((s.allTokenIds.take s.readOffset).flatMap bytes) = none := by
  rcases stepAll_spec (atBoundary_new skip hprompt) ids
    with ⟨s, chunks, hrun, hs, hids, _, htext⟩
  rcases flush_spec hs with ⟨s', last, hflush, hlast⟩
  refine ⟨s, chunks, s', last, hrun, hflush, ?_, hs.whole⟩
  simp only [DecodeStream.new, take_length] at hids htext
  rw [hids] at hlast htext
  show decodeLossy ((prompt ++ ids).flatMap bytes) = _
  rw [hlast, htext]
  rfl

/-- Token 256 is the prompt, and a smaller token is a byte. The euro sign is cut into
    its bytes and one that goes with no character comes in between. -/
theorem decode_stream_exact_euro : ∃ s chunks s' last, (DecodeStream.new [256] true).stepAll
        (byteLevel fun id => if id = 256 then [0x68, 0x69] else [id])
        [0xE2, 0x82, 0xAC, 0x80, 0x21, 0xE2] = some (s, chunks) ∧
      s.flush (byteLevel fun id => if id = 256 then [0x68, 0x69] else [id]) = some (s', last) ∧
      (byteLevel fun id => if id = 256 then [0x68, 0x69] else [id]).decode
        ([256] ++ [0xE2, 0x82, 0xAC, 0x80, 0x21, 0xE2]) true =
        (byteLevel fun id => if id = 256 then [0x68, 0x69] else [id]).decode [256] true ++
          chunks.flatten ++ last.getD [] ∧
      stateAfter none ((s.allTokenIds.take s.readOffset).flatMap
        fun id => if id = 256 then [0x68, 0x69] else [id]) = none :=
  decode_stream_exact _ true [256] (by decide) [0xE2, 0x82, 0xAC, 0x80, 0x21, 0xE2]

end SglangInc.Detok
