import SglangInc.Core.StopDecoder
import SglangInc.Lib.Needles
import Mathlib.Data.List.Find
import Mathlib.Order.Bounds.Basic

/-!
# The Stop Jail Loses and Misses Nothing

What the decoder returns for texts that come in pieces (`stop_jail_exact`).

The loop over the stop strings finds the longest end of the buffer that begins one of
them (`splitPos_best`), over bytes, so that a position inside a character is passed over.
This is what is to be kept of a text that is searched in pieces (`Needles.Suffices`), and
the run lemma says what the decoder has done after any number of pieces: it is running,
and the outputs and the jail are the text, or it has stopped with the first piece that
completed a stop string.
-/

namespace SglangInc.Stop

open List ByteText Detok Needles Option SequenceDecoderOutput

/-- `r` is the first position at which an end of the buffer with the property `P` begins,
    or `best` when that is not behind it. -/
structure Best (buffer : List Char) (P : List Char → Prop) (best r : Option Nat) : Prop where
  found : ∀ pos, r = some pos → best = some pos ∨ ∃ a u, buffer = a ++ u ∧ byteLen a = pos ∧ P u
  keeps : ∀ current, best = some current → ∃ pos, r = some pos ∧ pos ≤ current
  covers : ∀ a u, buffer = a ++ u → P u → ∃ pos, r = some pos ∧ pos ≤ byteLen a

section Search

variable {buffer stopSeq : List Char} {P Q : List Char → Prop} {best r r' : Option Nat}

theorem Best.refl (h : ∀ a u, buffer = a ++ u → ¬ P u) : Best buffer P best best where
  found _ hpos := .inl hpos
  keeps current hcur := ⟨current, hcur, le_rfl⟩
  covers a u heq hu := absurd hu (h a u heq)

/-- One search after the other. -/
theorem Best.trans (h : Best buffer P best r) (h' : Best buffer Q r r') :
    Best buffer (fun u => P u ∨ Q u) best r' where
  found pos hpos := by
    rcases h'.found pos hpos with hr | ⟨a, u, heq, hlen, hq⟩
    · rcases h.found pos hr with hbest | ⟨a, u, heq, hlen, hp⟩
      · exact .inl hbest
      · exact .inr ⟨a, u, heq, hlen, .inl hp⟩
    · exact .inr ⟨a, u, heq, hlen, .inr hq⟩
  keeps current hcur := by
    rcases h.keeps current hcur with ⟨pos, hr, hle⟩
    rcases h'.keeps pos hr with ⟨pos', hr', hle'⟩
    exact ⟨pos', hr', hle'.trans hle⟩
  covers a u heq hu := by
    rcases hu with hp | hq
    · rcases h.covers a u heq hp with ⟨pos, hr, hle⟩
      rcases h'.keeps pos hr with ⟨pos', hr', hle'⟩
      exact ⟨pos', hr', hle'.trans hle⟩
    · exact h'.covers a u heq hq

/-- A search for less finds more, if what it leaves out is not in front of `best`. -/
theorem Best.mono (h : Best buffer P best r) (hsub : ∀ u, P u → Q u)
    (hcovers : ∀ a u, buffer = a ++ u → Q u →
      P u ∨ ∃ current, best = some current ∧ current ≤ byteLen a) : Best buffer Q best r where
  found pos hpos := by
    rcases h.found pos hpos with hbest | ⟨a, u, heq, hlen, hp⟩
    · exact .inl hbest
    · exact .inr ⟨a, u, heq, hlen, hsub u hp⟩
  keeps := h.keeps
  covers a u heq hu := by
    rcases hcovers a u heq hu with hp | ⟨current, hcur, hle⟩
    · exact h.covers a u heq hp
    · rcases h.keeps current hcur with ⟨pos, hr, hle'⟩
      exact ⟨pos, hr, hle'.trans hle⟩

/-- The inner loop looks at the ends of the buffer from the longest on, but for those that
    cannot be cut. -/
theorem longestSuffix_best (stopSeq : List Char) (best : Option Nat) (n : Nat)
    (hn : n ≤ byteLen buffer) : ∃ r, longestSuffix buffer stopSeq best n = some r ∧
      Best buffer (fun u => u <+: stopSeq ∧ 0 < byteLen u ∧ byteLen u ≤ n) best r := by
  induction n with
  | zero =>
    refine ⟨best, rfl, Best.refl ?_⟩
    rintro a u - ⟨-, hpos, hle⟩
    omega
  | succ len ih =>
    rcases ih (by omega) with ⟨r, hr, hbest⟩
    rw [longestSuffix]
    by_cases hb : isCharBoundary buffer (byteLen buffer - (len + 1)) = true
    · rcases isCharBoundary_iff.mp hb with ⟨a, u, rfl, hau⟩
      have hlen : ∀ a' u', a ++ u = a' ++ u' → byteLen a + byteLen u = byteLen a' + byteLen u' := by
        intro a' u' heq
        rw [← byteLen_append, heq, byteLen_append]
      have hlu := byteLen_append a u
      simp only [hb, Bool.not_true, Bool.false_eq_true, if_false]
      rw [← hau, sliceFrom_append]
      simp only [bind_eq_bind, bind_some]
      split_ifs with hc
      · rw [Bool.and_eq_true, isPrefixOf_iff_prefix] at hc
        refine ⟨_, rfl, ?_, fun current hcur => ?_, fun a' u' heq hu' => ?_⟩
        · rintro pos ⟨⟩
          exact .inr ⟨a, u, rfl, rfl, hc.1, by omega, by omega⟩
        · rw [hcur, Option.all_some, decide_eq_true_eq] at hc
          exact ⟨_, rfl, hc.2.le⟩
        · have := hlen a' u' heq
          exact ⟨_, rfl, by omega⟩
      refine ⟨r, hr, hbest.mono (fun _ hp => ⟨hp.1, hp.2.1, by omega⟩) fun a' u' heq hu' => ?_⟩
      by_cases hle : byteLen u' ≤ len
      · exact .inl ⟨hu'.1, hu'.2.1, hle⟩
      -- The end is not taken although it fits, so the best one begins no later.
      have hsame : byteLen a' = byteLen a := by
        have := hlen a' u' heq
        omega
      have hcut := splitAt_append a' u'
      rw [← heq, hsame, splitAt_append] at hcut
      cases hcut
      rw [Bool.and_eq_true, isPrefixOf_iff_prefix, not_and] at hc
      cases best with
      | none => exact absurd rfl (hc hu'.1)
      | some current =>
        have hbest' := hc hu'.1
        rw [Option.all_some, decide_eq_true_eq, not_lt] at hbest'
        exact .inr ⟨current, rfl, hbest'⟩
    refine ⟨r, by simpa [hb] using hr, hbest.mono (fun _ hp => ⟨hp.1, hp.2.1, by omega⟩) ?_⟩
    rintro a u rfl hu
    refine .inl ⟨hu.1, hu.2.1, ?_⟩
    by_contra hlt
    refine hb (isCharBoundary_iff.mpr ⟨a, u, rfl, ?_⟩)
    rw [byteLen_append]
    omega

/-- A beginning of a text with fewer bytes is shorter, and the other way round. -/
theorem length_lt_iff {u s : List Char} (h : u <+: s) :
    u.length < s.length ↔ byteLen u < byteLen s := by
  rcases h with ⟨v, rfl⟩
  rw [length_append, byteLen_append]
  cases v with
  | nil => simp
  | cons c v =>
    have := byteLen_pos (cons_ne_nil c v)
    rw [length_cons]
    omega

/-- The longest end of the buffer that begins a stop string. -/
theorem splitPos_best (buffer : List Char) (stops : List (List Char)) (best : Option Nat) :
    ∃ r, splitPos buffer stops best = some r ∧
      Best buffer (fun u => u ≠ [] ∧ Begins stops u) best r := by
  induction stops generalizing best with
  | nil =>
    refine ⟨best, rfl, Best.refl ?_⟩
    rintro a u - ⟨-, s, hs, -⟩
    cases hs
  | cons stopSeq rest ih =>
    -- The inner loop looks at all ends that begin this stop string.
    have hone : ∀ a u, buffer = a ++ u → u ≠ [] → u <+: stopSeq ∧ u.length < stopSeq.length →
        0 < byteLen u ∧ byteLen u ≤ min (byteLen buffer) (byteLen stopSeq - 1) := by
      rintro a u rfl hu ⟨hpre, hlt⟩
      have := (length_lt_iff hpre).mp hlt
      rw [byteLen_append]
      exact ⟨byteLen_pos hu, by omega⟩
    rw [splitPos]
    by_cases hskip : byteLen stopSeq ≤ 1 ∨ byteLen buffer = 0
    · simp only [hskip, if_true]
      rcases ih best with ⟨r, hr, hbest⟩
      refine ⟨r, hr, hbest.mono ?_ ?_⟩
      · rintro u ⟨hu, s, hs, hb⟩
        exact ⟨hu, s, mem_cons_of_mem _ hs, hb⟩
      · rintro a u heq ⟨hu, s, hs, hb⟩
        rcases mem_cons.mp hs with rfl | hs
        · have := hone a u heq hu hb
          omega
        · exact .inl ⟨hu, s, hs, hb⟩
    simp only [hskip, if_false]
    rcases longestSuffix_best stopSeq best
      (min (byteLen buffer) (byteLen stopSeq - 1)) (Nat.min_le_left _ _) with ⟨r, hr, hbest⟩
    rcases ih r with ⟨r', hr', hbest'⟩
    refine ⟨r', by rw [hr]; exact hr', (hbest.trans hbest').mono ?_ ?_⟩
    · rintro u (⟨hpre, hpos, hle⟩ | ⟨hu, s, hs, hb⟩)
      · refine ⟨fun hu => ?_, stopSeq, mem_cons_self, hpre, (length_lt_iff hpre).mpr (by omega)⟩
        rw [hu] at hpos
        exact lt_irrefl 0 hpos
      · exact ⟨hu, s, mem_cons_of_mem _ hs, hb⟩
    · rintro a u heq ⟨hu, s, hs, hb⟩
      rcases mem_cons.mp hs with rfl | hs
      · exact .inl (.inl ⟨hb.1, hone a u heq hu hb⟩)
      · exact .inl (.inr ⟨hu, s, hs, hb⟩)

end Search

/-- The string of an output. -/
def SequenceDecoderOutput.emitted : SequenceDecoderOutput → List Char
  | .text s => s
  | .held => []
  | .stopped => []
  | .stoppedWithText s => s

/-- The decoder has stopped. -/
def SequenceDecoderOutput.isStop : SequenceDecoderOutput → Bool
  | .text _ => false
  | .held => false
  | .stopped => true
  | .stoppedWithText _ => true

/-- The text of some outputs. -/
def emitted (outputs : List SequenceDecoderOutput) : List Char :=
  outputs.flatMap SequenceDecoderOutput.emitted

/-- The stop strings in the order in which they are looked for, and whether each is a
    visible one. -/
def StopSequenceConfig.tagged (config : StopSequenceConfig) : List (List Char × Bool) :=
  config.stopSequences.map (·, false) ++ config.visibleStopSequences.map (·, true)

/-- The first stop string in the order of the configuration that is in the text. -/
def chosen (config : StopSequenceConfig) (text : List Char) : Option (List Char × Bool) :=
  config.tagged.find? fun c => (find c.1 text).isSome

section Piece

open StopSequenceDecoder

variable {config : StopSequenceConfig} {buffer text s piece : List Char} {visible : Bool}

@[simp] theorem emitted_textOrHeld (out : List Char) : (textOrHeld out).emitted = out := by
  rw [textOrHeld]
  split_ifs with h
  · rw [h]
    rfl
  · rfl

@[simp] theorem isStop_textOrHeld (out : List Char) : (textOrHeld out).isStop = false := by
  rw [textOrHeld]
  split_ifs with h
  · rfl
  · rfl

variable (d : StopSequenceDecoder)

/-- The decoder keeps the longest end of the buffer that begins a stop string. -/
theorem release_eq (buffer : List Char) :
    ∃ out held, buffer = out ++ held ∧
      d.release buffer = some ({ d with jailBuffer := held }, textOrHeld out) ∧
      ∀ u, u <:+ buffer → Begins d.config.sequences u → u.length ≤ held.length := by
  rcases splitPos_best buffer d.config.sequences none with ⟨r, hr, hbest⟩
  cases r with
  | none =>
    refine ⟨buffer, [], (List.append_nil _).symm, by rw [release, hr]; rfl, ?_⟩
    rintro u ⟨a, heq⟩ hb
    by_cases hu : u = []
    · rw [hu]
    · rcases hbest.covers a u heq.symm ⟨hu, hb⟩ with ⟨pos, hpos, -⟩
      cases hpos
  | some pos =>
    rcases hbest.found pos rfl with hnone | ⟨a, held, rfl, rfl, -⟩
    · cases hnone
    refine ⟨a, held, rfl, ?_, ?_⟩
    · rw [release, hr]
      simp [sliceTo_append, sliceFrom_append]
    · rintro u ⟨a', heq⟩ hb
      by_cases hu : u = []
      · rw [hu]
        exact Nat.zero_le _
      rcases hbest.covers a' u heq.symm ⟨hu, hb⟩ with ⟨pos, hpos, hle⟩
      cases hpos
      -- A longer end would start before the position that is split at.
      by_contra hlt
      have hlen : a'.length < a.length := by
        have := congrArg List.length heq
        rw [length_append, length_append] at this
        omega
      have hpre : a' <+: a := prefix_of_prefix_length_le ⟨u, heq⟩ ⟨held, rfl⟩ hlen.le
      have := (length_lt_iff hpre).mp hlen
      omega

theorem isSome_find_iff : (find s text).isSome = true ↔ s <:+: text := by
  rw [← not_iff_not, Bool.not_eq_true, isSome_eq_false_iff, isNone_iff_eq_none, find_eq_none]

theorem mem_sequences {c : List Char × Bool} (h : c ∈ config.tagged) : c.1 ∈ config.sequences := by
  rcases mem_append.mp h with h | h <;> rcases mem_map.mp h with ⟨s, hs, rfl⟩
  · exact mem_append_left _ hs
  · exact mem_append_right _ hs

theorem exists_mem_tagged (h : s ∈ config.sequences) : ∃ visible, (s, visible) ∈ config.tagged := by
  rcases mem_append.mp h with h | h
  · exact ⟨false, mem_append_left _ (mem_map_of_mem h)⟩
  · exact ⟨true, mem_append_right _ (mem_map_of_mem h)⟩

theorem chosen_eq_none : chosen config text = none ↔ ¬ Contains config.sequences text := by
  rw [chosen, find?_eq_none]
  simp only [isSome_find_iff]
  constructor
  · rintro h ⟨s, hs, hin⟩
    rcases exists_mem_tagged hs with ⟨visible, hmem⟩
    exact h (s, visible) hmem hin
  · intro h c hc hin
    exact h ⟨c.1, mem_sequences hc, hin⟩

/-- The search of `chosen` is that of the code. -/
theorem find_map_eq_findStop (stops : List (List Char)) (visible : Bool) (buffer : List Char) :
    (stops.map (·, visible)).find? (fun c => (find c.1 buffer).isSome) =
      (findStop stops buffer).map fun found => (found.1, visible) := by
  induction stops with
  | nil => rfl
  | cons s rest ih =>
    rw [map_cons, find?_cons, findStop, findSome?_cons]
    cases hfind : find s buffer with
    | none => exact ih
    | some pos => rfl

theorem find_of_findStop {stops : List (List Char)} {pos : Nat}
    (h : findStop stops buffer = some (s, pos)) : find s buffer = some pos := by
  rcases exists_of_findSome?_eq_some h with ⟨s', -, hmap⟩
  rcases map_eq_some_iff.mp hmap with ⟨pos', hfind, heq⟩
  cases heq
  exact hfind

theorem chosen_eq (config : StopSequenceConfig) (buffer : List Char) : chosen config buffer =
      ((findStop config.stopSequences buffer).map fun found => (found.1, false)).or
        ((findStop config.visibleStopSequences buffer).map fun found => (found.1, true)) := by
  rw [chosen, StopSequenceConfig.tagged, find?_append, find_map_eq_findStop, find_map_eq_findStop]

/-- A piece that completes no stop string. -/
theorem processText_release
    (h : chosen d.config (d.jailBuffer ++ piece) = none) :
    d.processText piece = d.release (d.jailBuffer ++ piece) := by
  rw [chosen_eq, Option.or_eq_none_iff, map_eq_none_iff, map_eq_none_iff] at h
  rw [processText]
  simp [h.1, h.2]

/-- A piece that completes a stop string: the text in front of its first occurrence is
    returned, with it when it is visible. -/
theorem processText_stop
    (h : chosen d.config (d.jailBuffer ++ piece) = some (s, visible)) :
    ∃ a b o, d.jailBuffer ++ piece = a ++ s ++ b ∧
      (∀ a' b', d.jailBuffer ++ piece = a' ++ s ++ b' → a.length ≤ a'.length) ∧
      d.processText piece = some ({ d with stopped := true, jailBuffer := [] }, o) ∧
      o.isStop = true ∧ o.emitted = a ++ if visible then s else [] := by
  rw [chosen_eq] at h
  cases hhid : findStop d.config.stopSequences (d.jailBuffer ++ piece) with
  | some found =>
    -- Hidden stop strings are searched first.
    rw [hhid, map_some, Option.some_or] at h
    cases h
    rcases find_spec (find_of_findStop hhid) with ⟨a, b, heq, hpos, hfirst⟩
    have hslice : sliceTo (d.jailBuffer ++ piece) found.2 = some a := by
      rw [heq, append_assoc, ← hpos]
      exact sliceTo_append _ _
    refine ⟨a, b, if a = [] then .stopped else .stoppedWithText a, heq, hfirst, ?_, ?_, ?_⟩
    · rw [processText]
      simp [hhid, hslice]
    · by_cases ha : a = [] <;> simp [ha, isStop]
    · by_cases ha : a = [] <;> simp [ha, SequenceDecoderOutput.emitted]
  | none =>
    rw [hhid, map_none, Option.none_or, map_eq_some_iff] at h
    rcases h with ⟨found, hvis, heq⟩
    rcases heq with ⟨rfl, rfl⟩
    rcases find_spec (find_of_findStop hvis) with ⟨a, b, heq, hpos, hfirst⟩
    have hslice : sliceTo (d.jailBuffer ++ piece) (found.2 + byteLen found.1) =
        some (a ++ found.1) := by
      rw [heq, ← hpos, ← byteLen_append]
      exact sliceTo_append _ _
    refine ⟨a, b, .stoppedWithText (a ++ found.1), heq, hfirst, ?_, rfl, rfl⟩
    rw [processText]
    simp [hhid, hvis, hslice]

end Piece

/-- The decoder has not stopped: the outputs and the jail are the text, and the jail is
    enough to find the stop strings that are not complete. -/
structure Running (config : StopSequenceConfig) (pieces : List (List Char))
    (d : StopSequenceDecoder) (outputs : List SequenceDecoderOutput) : Prop where
  config_eq : d.config = config
  stopped : d.stopped = false
  length : outputs.length = pieces.length
  noStop : ∀ o ∈ outputs, o.isStop = false
  text : emitted outputs ++ d.jailBuffer = pieces.flatten
  jail : Suffices config.sequences (emitted outputs) d.jailBuffer

/-- The decoder has stopped at a piece: the pieces before it hold no stop string, and
    those up to it hold `s`, the one it stopped for, first behind `a`. -/
structure Ended (config : StopSequenceConfig) (pieces : List (List Char))
    (d : StopSequenceDecoder) (outputs : List SequenceDecoderOutput)
    (before : List (List Char)) (piece : List Char) (after : List (List Char))
    (a s : List Char) (visible : Bool) : Prop where
  stopped : d.stopped = true
  pieces_eq : pieces = before ++ piece :: after
  free : ¬ Contains config.sequences before.flatten
  chosen_eq : chosen config (before.flatten ++ piece) = some (s, visible)
  occurs : a ++ s <+: before.flatten ++ piece
  first : ∀ a', a' ++ s <+: before.flatten ++ piece → a.length ≤ a'.length
  emitted_eq : emitted outputs = a ++ if visible then s else []
  outputs_eq : ∃ released o rest, outputs = released ++ o :: rest ∧
    released.length = before.length ∧ (∀ o' ∈ released, o'.isStop = false) ∧
    o.isStop = true ∧
    ∀ s' ∈ config.sequences, ∀ x y, before.flatten ++ piece = x ++ s' ++ y →
      (emitted released).length ≤ x.length

section Run

open StopSequenceDecoder

variable {config : StopSequenceConfig} {pieces : List (List Char)} {piece : List Char}
variable {d d' : StopSequenceDecoder} {outputs : List SequenceDecoderOutput} {visible : Bool}

/-- One more piece. -/
theorem processPieces_concat (d : StopSequenceDecoder) (pieces : List (List Char))
    (piece : List Char) : d.processPieces (pieces ++ [piece]) = do
      let (d', outputs) ← d.processPieces pieces
      let (d'', o) ← d'.processPiece piece
      return (d'', outputs ++ [o]) := by
  induction pieces generalizing d with
  | nil =>
    simp [processPieces]
  | cons p pieces ih =>
    rw [cons_append, processPieces, processPieces]
    cases d.processPiece p with
    | none => rfl
    | some r =>
      simp only [bind_eq_bind, bind_some, ih, Option.pure_def]
      cases r.1.processPieces pieces with
      | none => rfl
      | some r' =>
        simp only [bind_some]
        cases r'.1.processPiece piece with
        | none | some => rfl

theorem processPiece_running (h : d.stopped = false) (piece : List Char) :
    d.processPiece piece = d.processText piece := by
  rw [processPiece, if_neg (by rw [h]; simp)]

theorem emitted_concat (outputs : List SequenceDecoderOutput) (o : SequenceDecoderOutput) :
    emitted (outputs ++ [o]) = emitted outputs ++ o.emitted := by
  simp [emitted]

variable (h : Running config pieces d outputs)

include h

/-- The stop strings of the whole text are those of the jail and the piece. -/
theorem Running.chosen_eq (piece : List Char) :
    chosen config (pieces.flatten ++ piece) = chosen config (d.jailBuffer ++ piece) := by
  refine find?_congr fun c hc => ?_
  rw [Bool.eq_iff_iff, isSome_find_iff, isSome_find_iff, ← h.text]
  constructor
  · rintro ⟨x, y, heq⟩
    rcases h.jail.occurs (mem_sequences hc) heq.symm with ⟨x', -, heq'⟩
    exact ⟨x', y, heq'.symm⟩
  · intro hin
    refine hin.trans ?_
    rw [append_assoc]
    exact (suffix_append _ _).isInfix

/-- A piece that completes no stop string. -/
theorem Running.release
    (hnone : chosen config (pieces.flatten ++ piece) = none) :
    ∃ d' o, d.processPiece piece = some (d', o) ∧
      Running config (pieces ++ [piece]) d' (outputs ++ [o]) := by
  rw [h.chosen_eq] at hnone
  rcases release_eq d (d.jailBuffer ++ piece) with ⟨out, held, heq, hrel, hlong⟩
  have hfree := chosen_eq_none.mp hnone
  rw [h.config_eq] at hlong
  refine ⟨{ d with jailBuffer := held }, textOrHeld out, ?_, h.config_eq, h.stopped, ?_, ?_, ?_, ?_⟩
  · rwa [processPiece_running h.stopped, processText_release d (by rw [h.config_eq]; exact hnone)]
  · rw [length_append, length_append, h.length, length_singleton, length_singleton]
  · exact forall_mem_append.mpr ⟨h.noStop, forall_mem_singleton.mpr (isStop_textOrHeld _)⟩
  · rw [emitted_concat, emitted_textOrHeld, flatten_append, flatten_singleton, ← h.text,
      append_assoc, append_assoc, heq]
  · rw [emitted_concat, emitted_textOrHeld]
    exact h.jail.step heq hfree hlong

/-- The first piece that completes a stop string. -/
theorem Running.stop {s : List Char}
    (hsome : chosen config (pieces.flatten ++ piece) = some (s, visible)) :
    ∃ d' o a, d.processPiece piece = some (d', o) ∧
      Ended config (pieces ++ [piece]) d' (outputs ++ [o]) pieces piece [] a s visible := by
  have hjail := hsome
  rw [h.chosen_eq, ← h.config_eq] at hjail
  rcases processText_stop d hjail with ⟨a, b, o, heq, hfirst, hproc, hstop, hemit⟩
  have hs : s ∈ config.sequences := mem_sequences (mem_of_find?_eq_some hsome)
  refine ⟨{ d with stopped := true, jailBuffer := [] }, o, emitted outputs ++ a, ?_, rfl, rfl, ?_,
    hsome, ?_, ?_, ?_, outputs, o, [], rfl, h.length, h.noStop, hstop, ?_⟩
  · rwa [processPiece_running h.stopped]
  · rw [← h.text]
    exact h.jail.free
  · refine ⟨b, ?_⟩
    rw [← h.text, append_assoc (emitted outputs) d.jailBuffer, heq]
    simp
  · rintro a' ⟨y, hy⟩
    rw [← h.text] at hy
    rcases h.jail.occurs hs hy.symm with ⟨x', rfl, hx'⟩
    rw [length_append, length_append]
    exact Nat.add_le_add_left (hfirst x' y hx') _
  · rw [emitted_concat, hemit, append_assoc]
  · intro s' hs' x y hxy
    rw [← h.text] at hxy
    exact h.jail.length_le hs' hxy

omit h

/-- A piece after the decoder has stopped. -/
theorem Ended.step {before after : List (List Char)} {p a s : List Char}
    (h : Ended config pieces d outputs before p after a s visible) (piece : List Char) :
    d.processPiece piece = some (d, .stopped) ∧
    Ended config (pieces ++ [piece]) d (outputs ++ [.stopped]) before p (after ++ [piece])
      a s visible := by
  refine ⟨by rw [processPiece, if_pos h.stopped], h.stopped, ?_, h.free, h.chosen_eq, h.occurs,
    h.first, ?_, ?_⟩
  · rw [h.pieces_eq, append_assoc, cons_append]
  · rw [emitted_concat, h.emitted_eq]
    exact List.append_nil _
  · rcases h.outputs_eq with ⟨released, o, rest, rfl, hlen, hno, hstop, hbound⟩
    exact ⟨released, o, rest ++ [.stopped], by rw [append_assoc, cons_append], hlen, hno,
      hstop, hbound⟩

/-- What any number of pieces do: nothing panics, and the decoder is running or has
    stopped at the first piece that completes a stop string. -/
theorem processPieces_spec (skipSpecialTokens : Bool) (hne : ∀ s ∈ config.sequences, s ≠ [])
    (pieces : List (List Char)) :
    ∃ d outputs, (new config skipSpecialTokens).processPieces pieces = some (d, outputs) ∧
      (Running config pieces d outputs ∨ ∃ before p after a s visible,
          Ended config pieces d outputs before p after a s visible) := by
  -- Induction on the pieces from the back: one more piece is one more step.
  induction pieces using reverseRecOn with
  | nil =>
    refine ⟨_, [], rfl, .inl ⟨rfl, rfl, rfl, ?_, rfl, Suffices.nil hne⟩⟩
    intro o ho
    cases ho
  | append_singleton pieces piece ih =>
    rcases ih with ⟨d, outputs, hrun, hcase⟩
    -- One more output for one more step.
    have hnext : ∀ d' o, d.processPiece piece = some (d', o) →
        (new config skipSpecialTokens).processPieces (pieces ++ [piece]) =
          some (d', outputs ++ [o]) := by
      intro d' o hpiece
      rw [processPieces_concat, hrun]
      simp only [bind_eq_bind, bind_some, hpiece]
      rfl
    rcases hcase with hrunning | ⟨before, p, after, a, s, visible, hended⟩
    · cases hchosen : chosen config (pieces.flatten ++ piece) with
      | none =>
        rcases hrunning.release hchosen with ⟨d', o, hpiece, hrunning'⟩
        exact ⟨d', _, hnext d' o hpiece, .inl hrunning'⟩
      | some found =>
        rcases hrunning.stop hchosen with ⟨d', o, a, hpiece, hended⟩
        exact ⟨d', _, hnext d' o hpiece, .inr ⟨_, _, _, _, _, _, hended⟩⟩
    · rcases hended.step piece with ⟨hpiece, hended'⟩
      exact ⟨d, _, hnext d _ hpiece, .inr ⟨_, _, _, _, _, _, hended'⟩⟩

/-- The texts do not read the tokens that the decoder has seen. -/
theorem processText_sequence (d : StopSequenceDecoder) (q : Sequence) (piece : List Char) :
    { d with sequence := q }.processText piece =
      (d.processText piece).map fun r => ({ r.1 with sequence := q }, r.2) := by
  simp only [processText, StopSequenceDecoder.release]
  generalize d.jailBuffer ++ piece = text
  cases findStop d.config.stopSequences text with
  | some found =>
    dsimp only
    cases sliceTo text found.2 <;> rfl
  | none =>
    cases findStop d.config.visibleStopSequences text with
    | some found =>
      dsimp only
      cases sliceTo text (found.2 + byteLen found.1) <;> rfl
    | none =>
      cases splitPos text d.config.sequences none with
      | none => rfl
      | some r =>
        cases r with
        | none => rfl
        | some pos =>
          simp only [bind_eq_bind, bind_some]
          cases sliceTo text pos with
          | none => rfl
          | some out => cases sliceFrom text pos <;> rfl

theorem processPiece_sequence (d : StopSequenceDecoder) (q : Sequence) (piece : List Char) :
    { d with sequence := q }.processPiece piece =
      (d.processPiece piece).map fun r => ({ r.1 with sequence := q }, r.2) := by
  rw [processPiece, processPiece, processText_sequence]
  simp only
  split_ifs <;> rfl

theorem processPieces_sequence (d : StopSequenceDecoder) (q : Sequence)
    (pieces : List (List Char)) : { d with sequence := q }.processPieces pieces =
      (d.processPieces pieces).map fun r => ({ r.1 with sequence := q }, r.2) := by
  induction pieces generalizing d with
  | nil => rfl
  | cons piece pieces ih =>
    rw [processPieces, processPieces, processPiece_sequence]
    cases d.processPiece piece with
    | none => rfl
    | some r =>
      simp only [map_some, bind_eq_bind, bind_some, ih]
      cases r.1.processPieces pieces <;> rfl

theorem processText_config {o : SequenceDecoderOutput} (h : d.processText piece = some (d', o)) :
    d'.config = d.config := by
  cases hchosen : chosen d.config (d.jailBuffer ++ piece) with
  | none =>
    rcases release_eq d (d.jailBuffer ++ piece) with ⟨out, held, -, hrel, -⟩
    rw [processText_release d hchosen, hrel] at h
    cases h
    rfl
  | some found =>
    rcases processText_stop d hchosen with ⟨a, b, o', -, -, hproc, -, -⟩
    cases hproc.symm.trans h
    rfl

/-- The tokens are their texts, as long as none is a stop token. -/
theorem processTokens_eq {t : Tokenizer} {ids : List Nat} {q q' : Sequence}
    (hsync : d.stopped = false → d.sequence = q)
    (hids : ∀ id ∈ ids, id ∉ d.config.stopTokens ∧ id ∉ d.config.visibleStopTokens)
    (happend : q.appendTokens t ids = some (q', pieces))
    (hpieces : d.processPieces pieces = some (d', outputs)) :
    ∃ sequence, d.processTokens t ids = some ({ d' with sequence := sequence }, outputs) := by
  induction ids generalizing d d' q pieces outputs with
  | nil =>
    cases happend
    cases hpieces
    exact ⟨d.sequence, rfl⟩
  | cons id ids ih =>
    simp only [Sequence.appendTokens, bind_eq_bind, bind_eq_some_iff,
      Option.pure_def, some.injEq, Prod.mk.injEq] at happend
    rcases happend with ⟨⟨q1, text⟩, happ, ⟨q2, texts⟩, happs, rfl, rfl⟩
    simp only [processPieces, bind_eq_bind, bind_eq_some_iff, Option.pure_def,
      some.injEq, Prod.mk.injEq] at hpieces
    rcases hpieces with ⟨⟨d1, o⟩, hpiece, ⟨d2, os⟩, hrest, rfl, rfl⟩
    have hid := hids id mem_cons_self
    have htail := (forall_mem_cons.mp hids).2
    -- A decoder that has stopped reads no token, so its sequence may lag behind.
    cases hstop : d.stopped with
    | true =>
      rw [processPiece, if_pos hstop] at hpiece
      cases hpiece
      rcases ih (fun h => nomatch hstop.symm.trans h) htail happs hrest with ⟨sequence, heq⟩
      refine ⟨sequence, ?_⟩
      rw [processTokens, processToken, if_pos hstop]
      simp only [bind_eq_bind, bind_some, heq]
      rfl
    | false =>
      rw [processPiece_running hstop] at hpiece
      have htoken : d.processToken t id = some ({ d1 with sequence := q1 }, o) := by
        rw [processToken, if_neg (by rw [hstop]; simp), if_neg (by simpa using hid.1),
          if_neg (by simpa using hid.2), hsync hstop]
        simp only [happ, bind_eq_bind, bind_some, processText_sequence, hpiece]
        rfl
      have hrest' := processPieces_sequence d1 q1 texts
      rw [hrest] at hrest'
      have hconfig : d1.config = d.config := processText_config hpiece
      rcases ih (d := { d1 with sequence := q1 }) (fun _ => rfl)
        (by rw [hconfig]; exact htail) happs hrest' with ⟨sequence, heq⟩
      refine ⟨sequence, ?_⟩
      rw [processTokens, htoken]
      simp only [bind_eq_bind, bind_some, heq]
      rfl

theorem flush_eq (d : StopSequenceDecoder) :
    d.flush = ({ d with jailBuffer := [] }, .text d.jailBuffer) := by
  rw [flush]
  cases hjail : d.jailBuffer with
  | nil => simp [← hjail]
  | cons c rest => simp

/-- The stop jail loses and misses nothing. No slice panics. As long as the decoder has
    not stopped its outputs and the jail are the text, and `flush` returns the jail. The
    first output that is a stop is that of the first piece with which the text holds a
    stop string, and nothing that was returned before it is part of a stop string.

    The pieces are the texts of any tokens that are no stop tokens. -/
theorem stop_jail_exact (config : StopSequenceConfig) (skipSpecialTokens : Bool)
    (hne : ∀ s ∈ config.sequences, s ≠ []) (pieces : List (List Char)) :
    ∃ d outputs, (new config skipSpecialTokens).processPieces pieces = some (d, outputs) ∧
      (d.stopped = false → emitted outputs ++ d.jailBuffer = pieces.flatten ∧
        d.flush = ({ d with jailBuffer := [] }, .text d.jailBuffer)) ∧
      (d.stopped = true ↔ ∃ k, outputs.findIdx? isStop = some k) ∧
      (∀ k, outputs.findIdx? isStop = some k ↔
        IsLeast {k | k < pieces.length ∧
          Contains config.sequences (pieces.take (k + 1)).flatten} k) ∧
      (∀ k, outputs.findIdx? isStop = some k →
        ∀ s ∈ config.sequences, ∀ x y, (pieces.take (k + 1)).flatten = x ++ s ++ y →
          (emitted (outputs.take k)).length ≤ x.length) ∧
      ∀ t ids sequence, (∀ id ∈ ids, id ∉ config.stopTokens ∧ id ∉ config.visibleStopTokens) →
        (Sequence.new skipSpecialTokens).appendTokens t ids = some (sequence, pieces) →
        ∃ sequence', (new config skipSpecialTokens).processTokens t ids =
          some ({ d with sequence := sequence' }, outputs) := by
  rcases processPieces_spec skipSpecialTokens hne pieces with ⟨d, outputs, hrun, hcase⟩
  refine ⟨d, outputs, hrun, ?_⟩
  rcases hcase with hrunning | ⟨before, p, after, a, s, visible, hended⟩
  · have hnone : outputs.findIdx? isStop = none :=
      findIdx?_eq_none_iff.mpr hrunning.noStop
    have hno : ∀ k, outputs.findIdx? isStop ≠ some k := by
      rw [hnone]
      simp
    refine ⟨fun _ => ⟨hrunning.text, flush_eq d⟩, ?_, fun k => ?_, fun k hk => absurd hk (hno k),
      fun t ids sequence hids happend => processTokens_eq (fun _ => rfl) hids happend hrun⟩
    · rw [hrunning.stopped]
      simpa using hno
    · refine ⟨fun hk => absurd hk (hno k), fun hk => ?_⟩
      -- A stop string in some of the pieces would be one in all of them.
      have hfree := hrunning.jail.free
      rw [hrunning.text, ← take_append_drop (k + 1) pieces, flatten_append] at hfree
      exact absurd (hk.1.2.mono (prefix_append _ _).isInfix) hfree
  have hidx : outputs.findIdx? isStop = some before.length := by
    rcases hended.outputs_eq with ⟨released, o, rest, rfl, hlen, hno, hstop, -⟩
    rw [findIdx?_append, findIdx?_eq_none_iff.mpr hno, findIdx?_cons, hstop, ← hlen]
    simp
  have htake : (pieces.take (before.length + 1)).flatten = before.flatten ++ p := by
    rw [hended.pieces_eq, take_append, take_of_length_le (by omega),
      show before.length + 1 - before.length = 1 by omega, take_succ_cons, take_zero,
      flatten_append, flatten_singleton]
  have hleast : IsLeast {k | k < pieces.length ∧
      Contains config.sequences (pieces.take (k + 1)).flatten} before.length := by
    refine ⟨⟨?_, ?_⟩, fun k hk => ?_⟩
    · rw [hended.pieces_eq, length_append, length_cons]
      omega
    · rw [htake]
      by_contra hfree
      exact absurd (chosen_eq_none.mpr hfree) (by rw [hended.chosen_eq]; simp)
    · by_contra hlt
      rw [not_le] at hlt
      -- The pieces up to an earlier one are among those before the stop.
      refine hended.free (hk.2.mono ?_)
      rw [hended.pieces_eq, take_append_of_le_length (by omega),
        ← take_append_drop (k + 1) before, flatten_append, take_append_drop (k + 1) before]
      exact (prefix_append _ _).isInfix
  refine ⟨fun h => ?_, ⟨fun _ => ⟨_, hidx⟩, fun _ => hended.stopped⟩, fun k => ?_,
    fun k hk => ?_, fun t ids sequence hids happend =>
      processTokens_eq (fun _ => rfl) hids happend hrun⟩
  · cases hended.stopped.symm.trans h
  · rw [hidx, some.injEq]
    exact ⟨fun h => h ▸ hleast, fun h => hleast.unique h⟩
  · cases hidx.symm.trans hk
    rw [htake]
    rcases hended.outputs_eq with ⟨released, o, rest, rfl, hlen, -, -, hbound⟩
    rwa [← hlen, take_left]

/-- A stop string that comes in three pieces, with a character of two bytes in front. -/
theorem stop_jail_exact_eos :
    ∃ d outputs, (new ⟨[], [['<', '/', 's', '>']], [], [['é', '!']]⟩ true).processPieces
        [['a', 'é', '<'], ['/', 's'], ['>', 'b']] = some (d, outputs) ∧
      outputs.findIdx? isStop = some 2 := by
  rcases stop_jail_exact ⟨[], [['<', '/', 's', '>']], [], [['é', '!']]⟩ true (by decide)
    [['a', 'é', '<'], ['/', 's'], ['>', 'b']] with ⟨d, outputs, hrun, -, -, hidx, -⟩
  refine ⟨d, outputs, hrun, (hidx 2).mpr ⟨⟨by decide, ?_⟩, ?_⟩⟩
  · exact ⟨['<', '/', 's', '>'], by decide, ['a', 'é'], ['b'], rfl⟩
  · rintro k ⟨hk, s, hs, hin⟩
    have hnone : ∀ j < 2, ∀ s ∈ [['<', '/', 's', '>'], ['é', '!']],
        ¬ s <:+: (([['a', 'é', '<'], ['/', 's'], ['>', 'b']].take (j + 1)).flatten) := by
      decide
    by_contra hlt
    exact hnone k (by omega) s hs hin

end Run

end SglangInc.Stop
