import Mathlib.Data.List.Infix

/-!
# Searching Needles in a Text That Arrives in Pieces

How much of a text has to be kept so that no needle that ends later is missed.

A needle that is complete with the next piece, and was not before, begins in an end of
the text that is a beginning of the needle. The longest such end is therefore enough:
with it the next piece shows the same needles at the same places as the whole text does
(`Suffices.length_le`), and the ends of the longer text that begin a needle are again
in what is kept and the piece (`Suffices.step`).
-/

namespace SglangInc.Needles

open List

variable {α : Type} {needles : List (List α)} {seen out held piece s u : List α}

/-- One of the needles is in a text. -/
def Contains (needles : List (List α)) (text : List α) : Prop := ∃ s ∈ needles, s <:+: text

/-- A beginning of a needle that is not all of it. -/
def Begins (needles : List (List α)) (u : List α) : Prop :=
  ∃ s ∈ needles, u <+: s ∧ u.length < s.length

/-- No needle is in the text yet, and every end of it that may become one is in `held`. -/
structure Suffices (needles : List (List α)) (out held : List α) : Prop where
  free : ¬ Contains needles (out ++ held)
  longest : ∀ u, u <:+ out ++ held → Begins needles u → u.length ≤ held.length

theorem Contains.mono {text text' : List α} (h : Contains needles text) (hin : text <:+: text') :
    Contains needles text' := by
  rcases h with ⟨s, hs, hinfix⟩
  exact ⟨s, hs, hinfix.trans hin⟩

/-- Nothing is kept of the empty text. -/
theorem Suffices.nil (hne : ∀ s ∈ needles, s ≠ []) : Suffices needles [] [] where
  free := by
    rintro ⟨s, hs, hinfix⟩
    exact hne s hs (infix_nil.mp hinfix)
  longest _ hu _ := hu.length_le

variable (h : Suffices needles out held)
include h

/-- A needle that is complete with the next piece does not begin in front of what is
    kept. -/
theorem Suffices.length_le {x y : List α} (hs : s ∈ needles)
    (heq : out ++ held ++ piece = x ++ s ++ y) : out.length ≤ x.length := by
  by_contra hlt
  rw [append_assoc x s y] at heq
  -- The needle begins in `out`, at an end `u` of the text.
  rcases (append_eq_append_iff.mp heq) with ⟨b, rfl, -⟩ | ⟨u, htext, hrest⟩
  · rw [length_append, length_append] at hlt
    omega
  have hlen : out.length + held.length = x.length + u.length := by
    rw [← length_append, htext, length_append]
  by_cases hle : s.length ≤ u.length
  · -- It does not end in the text, which holds no needle.
    have hsu : s <+: u := prefix_of_prefix_length_le ⟨y, hrest⟩ ⟨piece, rfl⟩ hle
    refine h.free ⟨s, hs, hsu.isInfix.trans ?_⟩
    rw [htext]
    exact (suffix_append x u).isInfix
  · -- So the end is a proper beginning of it, and is in what is kept.
    have hus : u <+: s := prefix_of_prefix_length_le ⟨piece, rfl⟩ ⟨y, hrest⟩ (by omega)
    have := h.longest u (by rw [htext]; exact suffix_append x u) ⟨s, hs, hus, by omega⟩
    omega

/-- The needles that the text and the piece hold are in what is kept and the piece, at
    the same places. -/
theorem Suffices.occurs {x y : List α} (hs : s ∈ needles)
    (heq : out ++ held ++ piece = x ++ s ++ y) :
    ∃ x', x = out ++ x' ∧ held ++ piece = x' ++ s ++ y := by
  have hlen := h.length_le hs heq
  have hout : out <+: out ++ held ++ piece := ⟨held ++ piece, by rw [append_assoc]⟩
  have hx : x <+: out ++ held ++ piece := ⟨s ++ y, by rw [heq, append_assoc]⟩
  rcases prefix_of_prefix_length_le hout hx hlen with ⟨x', rfl⟩
  refine ⟨x', rfl, ?_⟩
  rw [append_assoc, append_assoc, append_assoc] at heq
  rw [append_assoc, append_cancel_left heq]

/-- What is kept and the piece hold a needle when the text does. -/
theorem Suffices.contains_iff :
    Contains needles (out ++ held ++ piece) ↔ Contains needles (held ++ piece) := by
  constructor
  · rintro ⟨s, hs, x, y, heq⟩
    rcases h.occurs hs heq.symm with ⟨x', -, heq'⟩
    exact ⟨s, hs, x', y, heq'.symm⟩
  · intro hc
    refine hc.mono ?_
    rw [append_assoc]
    exact (suffix_append out _).isInfix

/-- An end of the text and the piece that begins a needle is an end of what is kept and
    the piece. -/
theorem Suffices.suffix (hu : u <:+ out ++ held ++ piece)
    (hb : Begins needles u) : u <:+ held ++ piece := by
  refine suffix_of_suffix_length_le hu ⟨out, by rw [append_assoc]⟩ ?_
  rw [length_append]
  rcases lt_or_ge piece.length u.length with hlt | hge
  · rcases suffix_of_suffix_length_le (suffix_append (out ++ held) piece) hu hlt.le with ⟨v, rfl⟩
    -- The part in front of the piece begins the same needle.
    rcases hb with ⟨s, hs, hpre, hlen⟩
    have hv : v <:+ out ++ held := (suffix_append_self_iff).mp hu
    have := h.longest v hv ⟨s, hs, (prefix_append v piece).trans hpre, by
        rw [length_append] at hlen
        omega⟩
    rw [length_append]
    omega
  · omega

/-- The longest end of what is kept and the piece that begins a needle is enough for the
    longer text. -/
theorem Suffices.step {out' held' : List α}
    (heq : held ++ piece = out' ++ held') (hfree : ¬ Contains needles (held ++ piece))
    (hlong : ∀ u, u <:+ held ++ piece → Begins needles u → u.length ≤ held'.length) :
    Suffices needles (out ++ out') held' := by
  have htext : out ++ out' ++ held' = out ++ held ++ piece := by
    rw [append_assoc, ← heq, append_assoc]
  constructor
  · rwa [htext, h.contains_iff]
  · intro u hu hb
    rw [htext] at hu
    exact hlong u (h.suffix hu hb) hb

end SglangInc.Needles
