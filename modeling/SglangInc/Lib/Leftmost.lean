import Mathlib.Data.List.Infix
import Mathlib.Data.List.MinMax

/-!
# Splitting a Text at Markers, Leftmost and Longest

The pieces of a text that is scanned once for markers: at the first position where a
marker begins the longest one is taken, and the scan goes on behind it.

The scan looks ahead, so what it finds in the beginning of a text may depend on the rest.
It does not when the beginning ends between two pieces (`Cut`), and then the pieces of
the text are those of its two parts (`split_append`). An end of a marker need not be such
a place, since the marker may be part of another one or overlap with it.

## Theorems

* `longestAt_eq_some`, `longestAt_eq_none`: What `longestAt` finds.
-/

namespace SglangInc.Leftmost

open List

variable {α : Type} [DecidableEq α]

/-- A marker, or a text between markers. -/
inductive Piece (α : Type) where
  | marker (t : List α)
  | text (p : List α)

/-- The longest of the markers that the text begins with. -/
def longestAt (markers : List (List α)) (text : List α) : Option (List α) :=
  (markers.filter fun t => t ≠ [] ∧ t <+: text).argmax List.length

/-- The pieces so far, how much of the last marker is still to come, and the text behind
    the last marker. -/
structure Scan (α : Type) where
  pieces : List (Piece α)
  skip : Nat
  pending : List α

/-- No piece is made of no text. -/
def textPiece (pending : List α) : List (Piece α) :=
  if pending = [] then [] else [.text pending]

/-- The scan through a text that is followed by `rest`. -/
def scanTo (markers : List (List α)) : Nat → List α → List α → List α → Scan α
  | skip, pending, [], _ => ⟨[], skip, pending⟩
  | skip + 1, pending, _ :: p, rest => scanTo markers skip pending p rest
  | 0, pending, c :: p, rest =>
    match longestAt markers (c :: p ++ rest) with
    | none => scanTo markers 0 (pending ++ [c]) p rest
    | some t =>
      let next := scanTo markers (t.length - 1) [] p rest
      { next with pieces := textPiece pending ++ .marker t :: next.pieces }

/-- The pieces of a text. -/
def split (markers : List (List α)) (text : List α) : List (Piece α) :=
  let all := scanTo markers 0 [] text []
  all.pieces ++ textPiece all.pending

/-- The text `p` that is followed by `rest` ends between two pieces. -/
def Cut (markers : List (List α)) (p rest : List α) : Prop :=
  (scanTo markers 0 [] p rest).skip = 0 ∧
    ((scanTo markers 0 [] p rest).pending = [] ∨ (longestAt markers rest).isSome = true)

instance (markers : List (List α)) (p rest : List α) : Decidable (Cut markers p rest) :=
  inferInstanceAs (Decidable (_ ∧ _))

variable {markers : List (List α)} {p rest t text pending : List α} {skip : Nat}

theorem longestAt_eq_none :
    longestAt markers text = none ↔ ∀ t ∈ markers, t ≠ [] → ¬ t <+: text := by
  simp [longestAt, filter_eq_nil_iff]

theorem longestAt_eq_some : longestAt markers text = some t ↔ t ∈ markers ∧ t ≠ [] ∧ t <+: text ∧
        ∀ t' ∈ markers, t' ≠ [] → t' <+: text → t'.length ≤ t.length := by
  rw [longestAt, ← Option.mem_def, mem_argmax_iff]
  constructor
  · grind
  · rintro ⟨hmem, hne, hpre, hlong⟩
    refine ⟨by grind, by grind, fun t' ht' hle => ?_⟩
    -- Two beginnings of the same length are the same, so there is no other one to prefer.
    have hpre' : t' <+: text := by grind
    have heq : t = t' := (prefix_of_prefix_length_le hpre hpre' hle).eq_of_length (by grind)
    rw [heq]

/-- A marker that is longer than what is scanned. -/
theorem scanTo_of_length_le (h : p.length ≤ skip) :
    scanTo markers skip pending p rest = ⟨[], skip - p.length, pending⟩ := by
  induction p generalizing skip with
  | nil => simp [scanTo]
  | cons c p ih =>
    cases skip with
    | zero => cases h
    | succ skip =>
      rw [length_cons] at h
      rw [scanTo, ih (by omega), length_cons]
      congr 1
      omega

/-- The scan through two texts. -/
theorem scanTo_append (markers : List (List α)) (skip : Nat) (pending p q rest : List α) :
    scanTo markers skip pending (p ++ q) rest =
      let first := scanTo markers skip pending p (q ++ rest)
      let second := scanTo markers first.skip first.pending q rest
      { second with pieces := first.pieces ++ second.pieces } := by
  induction p generalizing skip pending with
  | nil => cases skip <;> simp [scanTo]
  | cons c p ih =>
    cases skip with
    | succ skip =>
      rw [cons_append, scanTo, scanTo, ih]
    | zero =>
      rw [cons_append, scanTo, scanTo, show c :: (p ++ q) ++ rest = c :: p ++ (q ++ rest) by simp]
      cases longestAt markers (c :: p ++ (q ++ rest)) with
      | none => exact ih 0 (pending ++ [c])
      | some t => simp [ih (t.length - 1) []]

/-- What follows does not matter when the last marker ends in the text. -/
theorem scanTo_eq_of_skip (h : (scanTo markers skip pending p rest).skip = 0) :
    scanTo markers skip pending p [] = scanTo markers skip pending p rest := by
  induction p generalizing skip pending with
  | nil => rfl
  | cons c p ih =>
    cases skip with
    | succ skip =>
      exact ih h
    | zero =>
      rw [scanTo] at h ⊢
      rw [scanTo, List.append_nil]
      cases hl : longestAt markers (c :: p ++ rest) with
      | none =>
        rw [hl] at h
        have hnone : longestAt markers (c :: p) = none := longestAt_eq_none.mpr
          fun t ht hne hpre => longestAt_eq_none.mp hl t ht hne (hpre.trans (prefix_append _ _))
        rw [hnone]
        exact ih h
      | some t =>
        rw [hl] at h
        rcases longestAt_eq_some.mp hl with ⟨hmem, hne, hpre, hlong⟩
        -- The marker ends in the text, so it is the longest one there too.
        have hfits : t.length ≤ (c :: p).length := by
          by_contra hlt
          rw [length_cons] at hlt
          have hle : p.length ≤ t.length - 1 := by omega
          have h' : (scanTo markers (t.length - 1) [] p rest).skip = 0 := h
          rw [scanTo_of_length_le hle] at h'
          have : t.length - 1 - p.length = 0 := h'
          omega
        have hsome : longestAt markers (c :: p) = some t := longestAt_eq_some.mpr
          ⟨hmem, hne, prefix_of_prefix_length_le hpre (prefix_append _ _) hfits,
            fun t' ht' hne' hpre' => hlong t' ht' hne' (hpre'.trans (prefix_append _ _))⟩
        simp only [hsome]
        rw [ih h]

/-- The text that is pending is a piece when a marker or nothing follows it. -/
theorem scanTo_pending (h : pending = [] ∨ (longestAt markers rest).isSome = true) :
    (scanTo markers 0 pending rest []).pieces ++
        textPiece (scanTo markers 0 pending rest []).pending =
      textPiece pending ++ split markers rest := by
  by_cases hp : pending = []
  · rw [hp, split]
    rfl
  rcases h with h | h
  · exact absurd h hp
  rcases Option.isSome_iff_exists.mp h with ⟨t, ht⟩
  cases rest with
  | nil =>
    rcases longestAt_eq_some.mp ht with ⟨-, hne, hpre, -⟩
    exact absurd (prefix_nil.mp hpre) hne
  | cons c rest =>
    rw [split, scanTo, scanTo, List.append_nil, ht]
    simp [textPiece]

/-- The pieces of a text are those of its two parts when these meet between two pieces. -/
theorem split_append (h : Cut markers p rest) :
    split markers (p ++ rest) = split markers p ++ split markers rest := by
  have hp : split markers p = (scanTo markers 0 [] p rest).pieces ++
      textPiece (scanTo markers 0 [] p rest).pending := by
    rw [split, scanTo_eq_of_skip h.1]
  rw [hp, split, scanTo_append, List.append_nil]
  simp only [append_assoc]
  rw [h.1, scanTo_pending h.2]

end SglangInc.Leftmost
