import SglangInc.Theory.Stop.Jail
import Mathlib.Data.Prod.Lex
import Mathlib.Order.WellFounded

/-!
# Stop Strings and How the Text Is Cut into Pieces

The text that a decoder returns when it has stopped, for two ways to cut the same text
into pieces.

The decoder sees the text through the piece that completes a stop string. When this
holds more than one stop string the order of the configuration decides, and not the
order in the text: with the hidden stop strings `a` and `b` the piece `xbya` returns
`xby`, which holds the stop string `b`, and the same text in pieces of one character
returns `x`. What is returned is the text up to the earliest stop string exactly when
the first configured stop string asks for the same cut.

## Theorems

* `Earliest.exists`, `Earliest.unique`: There is one earliest stop string.
* `stop_cut_exact_iff`: When two ways to cut the text give this text.
-/

namespace SglangInc.Stop

open List ByteText Detok Needles StopSequenceDecoder

/-- The text through the first piece that completes a stop string. -/
def throughStop (config : StopSequenceConfig) : List Char → List (List Char) → List Char
  | seen, [] => seen
  | seen, piece :: pieces =>
    if (chosen config (seen ++ piece)).isSome then seen ++ piece
    else throughStop config (seen ++ piece) pieces

/-- The length of the text up to a stop string behind `a`: with it when it is visible. -/
def cutAt (a s : List Char) (visible : Bool) : Nat := a.length + if visible then s.length else 0

/-- Where a stop string ends, whether it is visible, and where it begins: the first to
    be complete, of these a hidden one before a visible one, and the longest. -/
def place (a s : List Char) (visible : Bool) : ℕ ×ₗ ℕ ×ₗ ℕ :=
  toLex (a.length + s.length, toLex (visible.toNat, a.length))

/-- The earliest stop string of a text, behind `a`. -/
structure Earliest (config : StopSequenceConfig) (text a s : List Char) (visible : Bool) :
    Prop where
  mem : (s, visible) ∈ config.tagged
  occurs : a ++ s <+: text
  le : ∀ a' s' visible', (s', visible') ∈ config.tagged → a' ++ s' <+: text →
    place a s visible ≤ place a' s' visible'

/-- The first stop string of a text in the order of the configuration, first behind `a`. -/
structure FirstConfigured (config : StopSequenceConfig) (text a s : List Char) (visible : Bool) :
    Prop where
  chosen_eq : chosen config text = some (s, visible)
  occurs : a ++ s <+: text
  le : ∀ a', a' ++ s <+: text → a.length ≤ a'.length

/-- The first configured stop string asks for the cut of the earliest one. -/
def InOrder (config : StopSequenceConfig) (text : List Char) : Prop :=
  ∀ a s visible a' s' visible', FirstConfigured config text a s visible →
    Earliest config text a' s' visible' → cutAt a s visible = cutAt a' s' visible'

variable {config : StopSequenceConfig} {text a s a' s' seen : List Char} {visible visible' : Bool}

theorem place_le_iff : place a s visible ≤ place a' s' visible' ↔
    a.length + s.length < a'.length + s'.length ∨
    a.length + s.length = a'.length + s'.length ∧ (visible.toNat < visible'.toNat ∨
        visible.toNat = visible'.toNat ∧ a.length ≤ a'.length) := by
  rw [place, place, Prod.Lex.toLex_le_toLex, Prod.Lex.toLex_le_toLex]

/-- A text with a stop string has an earliest one. -/
theorem Earliest.exists (h : Contains config.sequences text) :
    ∃ a s visible, Earliest config text a s visible := by
  let places : Set (ℕ ×ₗ ℕ ×ₗ ℕ) := {p | ∃ a s visible, (s, visible) ∈ config.tagged ∧
    a ++ s <+: text ∧ place a s visible = p}
  have hne : places.Nonempty := by
    rcases h with ⟨s, hs, a, b, heq⟩
    rcases exists_mem_tagged hs with ⟨visible, hmem⟩
    exact ⟨_, a, s, visible, hmem, ⟨b, heq⟩, rfl⟩
  rcases wellFounded_lt.has_min places hne with ⟨p, ⟨a, s, visible, hmem, hocc, rfl⟩, hmin⟩
  refine ⟨a, s, visible, hmem, hocc, fun a' s' visible' hmem' hocc' => ?_⟩
  exact not_lt.mp (hmin _ ⟨a', s', visible', hmem', hocc', rfl⟩)

/-- Only one place is the earliest, with one stop string. -/
theorem Earliest.unique (h : Earliest config text a s visible)
    (h' : Earliest config text a' s' visible') : a = a' ∧ s = s' ∧ visible = visible' := by
  have hplace : place a s visible = place a' s' visible' :=
    le_antisymm (h.le _ _ _ h'.mem h'.occurs) (h'.le _ _ _ h.mem h.occurs)
  rw [place, place, EmbeddingLike.apply_eq_iff_eq, Prod.mk.injEq, EmbeddingLike.apply_eq_iff_eq,
    Prod.mk.injEq] at hplace
  rcases hplace with ⟨hend, hvis, hlen⟩
  have hall : a ++ s = a' ++ s' := by
    refine (prefix_of_prefix_length_le h.occurs h'.occurs ?_).eq_of_length ?_
    all_goals
      simp only [length_append]
      omega
  rcases append_inj hall hlen with ⟨rfl, rfl⟩
  refine ⟨rfl, rfl, ?_⟩
  cases visible <;> cases visible' <;> simp_all

/-- The earliest stop string of a text is that of every beginning that holds one. -/
theorem Earliest.of_prefix (h : Earliest config text a s visible) (hpre : seen <+: text)
    (hc : Contains config.sequences seen) : Earliest config seen a s visible := by
  rcases hc with ⟨s', hs', x, y, heq⟩
  rcases exists_mem_tagged hs' with ⟨visible', hmem⟩
  have hocc : x ++ s' <+: seen := ⟨y, heq⟩
  have hle := place_le_iff.mp (h.le x s' visible' hmem (hocc.trans hpre))
  have hlen := hocc.length_le
  rw [length_append] at hlen
  refine ⟨h.mem, prefix_of_prefix_length_le h.occurs hpre ?_, ?_⟩
  · rw [length_append]
    omega
  · exact fun a' s' visible' hmem' hocc' => h.le a' s' visible' hmem' (hocc'.trans hpre)

theorem cutAt_eq_length (a s : List Char) (visible : Bool) :
    cutAt a s visible = (a ++ if visible then s else []).length := by
  cases visible <;> simp [cutAt]

/-- What is up to a stop string is a beginning of the text. -/
theorem cut_isPrefix (h : a ++ s <+: text) : (a ++ if visible then s else []) <+: text := by
  cases visible with
  | false =>
    rw [if_neg (by simp), List.append_nil]
    exact (prefix_append a s).trans h
  | true =>
    exact h

/-- The text up to the earliest stop string holds no hidden one. -/
theorem Earliest.not_infix (hne : ∀ s ∈ config.sequences, s ≠ [])
    (h : Earliest config text a s visible) {hidden : List Char}
    (hh : hidden ∈ config.stopSequences) : ¬ hidden <:+: a ++ if visible then s else [] := by
  rintro ⟨x, y, heq⟩
  have hocc : x ++ hidden <+: text := ⟨y ++ _, by
    rw [← append_assoc, heq]
    exact (cut_isPrefix h.occurs).choose_spec⟩
  have hle := place_le_iff.mp (h.le x hidden false (mem_append_left _ (mem_map_of_mem hh)) hocc)
  have hlen := congrArg List.length heq
  rw [← cutAt_eq_length, cutAt, length_append, length_append] at hlen
  cases visible with
  | false =>
    have hpos := length_pos_of_ne_nil (hne s (mem_sequences h.mem))
    simp only [Bool.false_eq_true, if_false] at hlen
    omega
  | true =>
    simp only [Bool.toNat_true, Bool.toNat_false, if_true] at hle hlen
    omega

/-- The pieces up to the one that completes a stop string. -/
theorem throughStop_eq {before after : List (List Char)} {piece : List Char}
    (hfree : ∀ k, chosen config (seen ++ (before.take k).flatten) = none)
    (hstop : (chosen config (seen ++ before.flatten ++ piece)).isSome = true) :
    throughStop config seen (before ++ piece :: after) = seen ++ before.flatten ++ piece := by
  induction before generalizing seen with
  | nil =>
    rw [flatten_nil, List.append_nil] at hstop ⊢
    rw [nil_append, throughStop, if_pos hstop]
  | cons p before ih =>
    have hnone := hfree 1
    rw [take_succ_cons, take_zero, flatten_singleton] at hnone
    rw [cons_append, throughStop, hnone, if_neg (by simp), flatten_cons, ← append_assoc]
    refine ih (fun k => ?_) ?_
    · have := hfree (k + 1)
      rwa [take_succ_cons, flatten_cons, ← append_assoc] at this
    · rwa [flatten_cons, ← append_assoc] at hstop

section Ended

variable {pieces before after : List (List Char)} {p : List Char}
variable {d : StopSequenceDecoder} {outputs : List SequenceDecoderOutput}

theorem FirstConfigured.unique (h : FirstConfigured config text a s visible)
    (h' : FirstConfigured config text a' s' visible') : a = a' ∧ s = s' ∧ visible = visible' := by
  have heq := h.chosen_eq
  cases h'.chosen_eq.symm.trans heq
  have hlen : a.length = a'.length := le_antisymm (h.le _ h'.occurs) (h'.le _ h.occurs)
  have ha : a = a' := by
    refine (prefix_of_prefix_length_le ((prefix_append a _).trans h.occurs)
      ((prefix_append a' _).trans h'.occurs) hlen.le).eq_of_length hlen
  exact ⟨ha, rfl, rfl⟩

variable (h : Ended config pieces d outputs before p after a s visible)
include h

theorem Ended.throughStop_eq : throughStop config [] pieces = before.flatten ++ p := by
  rw [h.pieces_eq]
  have hstop : (chosen config ([] ++ before.flatten ++ p)).isSome = true := by
    rw [nil_append, h.chosen_eq]
    rfl
  refine Stop.throughStop_eq (fun k => chosen_eq_none.mpr fun hc => h.free (hc.mono ?_)) hstop
  have htake := take_prefix k before
  exact htake.flatten.isInfix

theorem Ended.firstConfigured :
    FirstConfigured config (throughStop config [] pieces) a s visible := by
  rw [h.throughStop_eq]
  exact ⟨h.chosen_eq, h.occurs, h.first⟩

/-- What is returned is the text up to the earliest stop string exactly when the first
    configured stop string asks for the same cut. -/
theorem Ended.emitted_eq_iff (he : Earliest config pieces.flatten a' s' visible') :
    emitted outputs = (a' ++ if visible' then s' else []) ↔
      InOrder config (throughStop config [] pieces) := by
  have hfirst := h.firstConfigured
  have hpre : throughStop config [] pieces <+: pieces.flatten := by
    rw [h.throughStop_eq, h.pieces_eq, flatten_append, flatten_cons, ← append_assoc]
    exact prefix_append _ _
  have hcontains : Contains config.sequences (throughStop config [] pieces) := by
    by_contra hfree
    exact absurd (chosen_eq_none.mpr hfree) (by rw [hfirst.chosen_eq]; simp)
  have hearly := he.of_prefix hpre hcontains
  rw [h.emitted_eq]
  constructor
  · intro heq b t v b' t' v' hb hb'
    rcases hfirst.unique hb with ⟨rfl, rfl, rfl⟩
    rcases hearly.unique hb' with ⟨rfl, rfl, rfl⟩
    rw [cutAt_eq_length, cutAt_eq_length, heq]
  · intro hin
    have hcut := hin a s visible a' s' visible' hfirst hearly
    rw [cutAt_eq_length, cutAt_eq_length] at hcut
    exact (prefix_of_prefix_length_le (cut_isPrefix hfirst.occurs) (cut_isPrefix hearly.occurs)
      hcut.le).eq_of_length hcut

end Ended

/-- The pieces of a text with a stop string stop the decoder. -/
theorem processPieces_stop (skipSpecialTokens : Bool) (hne : ∀ s ∈ config.sequences, s ≠ [])
    {pieces : List (List Char)} (hstop : Contains config.sequences pieces.flatten) :
    ∃ d outputs before p after a s visible,
      (new config skipSpecialTokens).processPieces pieces = some (d, outputs) ∧
      Ended config pieces d outputs before p after a s visible := by
  rcases processPieces_spec skipSpecialTokens hne pieces with
    ⟨d, outputs, hrun, hrunning | ⟨before, p, after, a, s, visible, hended⟩⟩
  · have hfree := hrunning.jail.free
    rw [hrunning.text] at hfree
    exact absurd hstop hfree
  · exact ⟨d, outputs, before, p, after, a, s, visible, hrun, hended⟩

/-- The order of the configuration decides, and not the place in the text: with the
    hidden stop strings `a` and `b` one piece returns `b` and what is behind it, and the
    same text in pieces of one character does not. -/
theorem stop_order_decides :
    ((new ⟨[], [['a'], ['b']], [], []⟩ true).processPieces [['x', 'b', 'y', 'a']]).map
        (fun r => (r.1.stopped, emitted r.2)) = some (true, ['x', 'b', 'y']) ∧
    ((new ⟨[], [['a'], ['b']], [], []⟩ true).processPieces [['x'], ['b'], ['y'], ['a']]).map
        (fun r => (r.1.stopped, emitted r.2)) = some (true, ['x']) := by
  decide

/-- Two ways to cut a text with a stop string into pieces stop the decoder. They return
    the same, which is the text up to the earliest stop string and holds no hidden one,
    exactly when in the text through the piece that completes a stop string the first
    configured one asks for the cut of the earliest one, for both. -/
theorem stop_cut_exact_iff (config : StopSequenceConfig) (skipSpecialTokens : Bool)
    (hne : ∀ s ∈ config.sequences, s ≠ []) (pieces pieces' : List (List Char))
    (hsame : pieces.flatten = pieces'.flatten) (hstop : Contains config.sequences pieces.flatten) :
    ∃ d outputs d' outputs',
      (new config skipSpecialTokens).processPieces pieces = some (d, outputs) ∧
      (new config skipSpecialTokens).processPieces pieces' = some (d', outputs') ∧
      d.stopped = true ∧ d'.stopped = true ∧ ((emitted outputs = emitted outputs' ∧
          (∀ s ∈ config.stopSequences, ¬ s <:+: emitted outputs) ∧
          ∃ a s visible, Earliest config pieces.flatten a s visible ∧
            emitted outputs = a ++ if visible then s else []) ↔
        InOrder config (throughStop config [] pieces) ∧
        InOrder config (throughStop config [] pieces')) := by
  rcases processPieces_stop skipSpecialTokens hne hstop with
    ⟨d, outputs, _, _, _, _, _, _, hrun, hended⟩
  rcases processPieces_stop skipSpecialTokens hne (hsame ▸ hstop) with
    ⟨d', outputs', _, _, _, _, _, _, hrun', hended'⟩
  refine ⟨d, outputs, d', outputs', hrun, hrun', hended.stopped, hended'.stopped, ?_⟩
  constructor
  · rintro ⟨heq, -, a, s, visible, he, hemit⟩
    refine ⟨(hended.emitted_eq_iff he).mp hemit, ?_⟩
    rw [hsame] at he
    exact (hended'.emitted_eq_iff he).mp (heq ▸ hemit)
  · rintro ⟨hin, hin'⟩
    rcases Earliest.exists hstop with ⟨a, s, visible, he⟩
    have hemit := (hended.emitted_eq_iff he).mpr hin
    have hemit' := (hended'.emitted_eq_iff (hsame ▸ he)).mpr hin'
    refine ⟨by rw [hemit, hemit'], fun hidden hh => ?_, a, s, visible, he, hemit⟩
    rw [hemit]
    exact he.not_infix hne hh

/-- Two ways to cut a text that has a hidden stop string and then a visible one. -/
theorem stop_cut_exact_iff_two : let config : StopSequenceConfig := ⟨[], [['a', 'b']], [], [['c']]⟩
    ∃ d outputs d' outputs',
      (new config true).processPieces [['x', 'a', 'b', 'c']] = some (d, outputs) ∧
      (new config true).processPieces [['x', 'a'], ['b', 'c']] = some (d', outputs') ∧
      emitted outputs = emitted outputs' ∧ ¬ ['a', 'b'] <:+: emitted outputs := by
  intro config
  have hin : InOrder config ['x', 'a', 'b', 'c'] := by
    intro a s visible a' s' visible' hfirst hearly
    have hchosen : chosen config ['x', 'a', 'b', 'c'] = some (['a', 'b'], false) := by decide
    cases hchosen.symm.trans hfirst.chosen_eq
    have hle := place_le_iff.mp (hearly.le a ['a', 'b'] false (by decide) hfirst.occurs)
    have hge := hfirst.le ['x'] (by decide)
    have hmem : (s', visible') = (['a', 'b'], false) ∨ (s', visible') = (['c'], true) := by
      simpa [StopSequenceConfig.tagged, config] using hearly.mem
    rcases hmem with hs | hs
    · obtain ⟨rfl, rfl⟩ := Prod.mk.inj hs
      have hge' := hfirst.le a' hearly.occurs
      simp only [cutAt]
      omega
    · -- The visible one ends behind the hidden one.
      obtain ⟨rfl, rfl⟩ := Prod.mk.inj hs
      obtain ⟨b, hb⟩ := hearly.occurs
      have hshort : a'.length < 3 := by
        simp only [length_cons, length_nil] at hle hge
        omega
      rcases a' with _ | ⟨_, _ | ⟨_, _ | ⟨_, a'⟩⟩⟩
      · simp at hb
      · simp at hb
      · simp at hb
      · simp only [length_cons] at hshort
        omega
  rcases stop_cut_exact_iff config true (by decide) [['x', 'a', 'b', 'c']]
    [['x', 'a'], ['b', 'c']] rfl ⟨['a', 'b'], by decide, ['x'], ['c'], rfl⟩ with
    ⟨d, outputs, d', outputs', hrun, hrun', -, -, hiff⟩
  obtain ⟨heq, hhidden, -⟩ := hiff.mpr ⟨hin, hin⟩
  exact ⟨d, outputs, d', outputs', hrun, hrun', heq, hhidden _ (mem_singleton_self _)⟩

end SglangInc.Stop
