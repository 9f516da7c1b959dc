import Mathlib.Tactic.Common

/-!
# Lossy UTF-8 Decoding

Bytes to characters, where a sequence that is not UTF-8 becomes a replacement
character.

The decoder is a machine. Between characters it is idle, and inside one it
holds what it has read and the bytes it may read next. A byte that cannot
continue the character closes it with one replacement character and is read
again from the idle state, so every maximal part of a character that is cut off
is replaced as a whole.

Decoding is a fold, and what it has put out never changes. `emitted` is that
part, `stateAfter` the machine's state behind it, and only the character that
is still open at the end is added to it. Two consequences are used. The text of
a longer input starts with what the shorter one has put out, and where the
machine is idle the text splits into the texts of the two parts.

A machine that starts inside a character puts out replacement characters up to
its end. It is then idle wherever one that started at the beginning is
(`stateAfter_idle`), since a byte that ends a character early starts both anew.

## Theorems

* `emitted_append`, `stateAfter_append`: Both are folds.
-/

namespace SglangInc.Utf8

open List

/-- `U+FFFD`. -/
def replacement : Char := Char.ofNat 0xFFFD

/-- A character of which some bytes have been read: how many are owed, between
    which bounds the next one has to be, and the bits so far. -/
structure Open where
  owed : Nat
  low : Nat
  high : Nat
  bits : Nat
deriving DecidableEq, Repr

/-- A byte between characters: what it puts out, and the state after it. -/
def first (b : Nat) : List Char × Option Open :=
  if b ≤ 0x7F then ([Char.ofNat b], none)
  else if 0xC2 ≤ b ∧ b ≤ 0xDF then ([], some ⟨1, 0x80, 0xBF, b - 0xC0⟩)
  else if b = 0xE0 then ([], some ⟨2, 0xA0, 0xBF, 0⟩)
  else if b = 0xED then ([], some ⟨2, 0x80, 0x9F, 0xD⟩)
  else if 0xE1 ≤ b ∧ b ≤ 0xEF then ([], some ⟨2, 0x80, 0xBF, b - 0xE0⟩)
  else if b = 0xF0 then ([], some ⟨3, 0x90, 0xBF, 0⟩)
  else if 0xF1 ≤ b ∧ b ≤ 0xF3 then ([], some ⟨3, 0x80, 0xBF, b - 0xF0⟩)
  else if b = 0xF4 then ([], some ⟨3, 0x80, 0x8F, 4⟩)
  else ([replacement], none)

/-- One byte. -/
def step : Option Open → Nat → List Char × Option Open
  | none, b => first b
  | some o, b =>
    if o.low ≤ b ∧ b ≤ o.high then
      let bits := o.bits * 64 + (b - 0x80)
      if o.owed ≤ 1 then ([Char.ofNat bits], none)
      else ([], some ⟨o.owed - 1, 0x80, 0xBF, bits⟩)
    else (replacement :: (first b).1, (first b).2)

/-- What is put out for a character that is still open at the end. -/
def flush : Option Open → List Char
  | none => []
  | some _ => [replacement]

/-- The characters that the bytes complete. -/
def emitted : Option Open → List Nat → List Char
  | _, [] => []
  | s, b :: bs => (step s b).1 ++ emitted (step s b).2 bs

/-- The character that is open behind the bytes. -/
def stateAfter : Option Open → List Nat → Option Open
  | s, [] => s
  | s, b :: bs => stateAfter (step s b).2 bs

/-- `bytes.decode("utf-8", errors="replace")`. -/
def decodeLossy (bytes : List Nat) : List Char :=
  emitted none bytes ++ flush (stateAfter none bytes)

theorem emitted_append (s : Option Open) (xs ys : List Nat) :
    emitted s (xs ++ ys) = emitted s xs ++ emitted (stateAfter s xs) ys := by
  induction xs generalizing s with
  | nil => rfl
  | cons b xs ih => simp [emitted, stateAfter, ih]

theorem stateAfter_append (s : Option Open) (xs ys : List Nat) :
    stateAfter s (xs ++ ys) = stateAfter (stateAfter s xs) ys := by
  induction xs generalizing s with
  | nil => rfl
  | cons b xs ih => simp [stateAfter, ih]

/-- The text of a longer input starts with what the shorter one has put out. -/
theorem emitted_prefix_decodeLossy (xs ys : List Nat) :
    emitted none xs <+: decodeLossy (xs ++ ys) := by
  refine ⟨emitted (stateAfter none xs) ys ++ flush (stateAfter none (xs ++ ys)), ?_⟩
  rw [decodeLossy, emitted_append, append_assoc]

/-- Where the machine is idle, the text splits. -/
theorem decodeLossy_append_of_idle {xs : List Nat} (h : stateAfter none xs = none)
    (ys : List Nat) : decodeLossy (xs ++ ys) = emitted none xs ++ decodeLossy ys := by
  rw [decodeLossy, emitted_append, stateAfter_append, h, append_assoc]
  rfl

/-- What is put out of a character that is open ends in a replacement. -/
theorem stateAfter_of_getLast? {xs : List Nat}
    (h : (decodeLossy xs).getLast? ≠ some replacement) : stateAfter none xs = none := by
  cases hs : stateAfter none xs with
  | none => rfl
  | some o =>
    refine absurd ?_ h
    rw [decodeLossy, hs, flush, getLast?_concat]

/-- The next byte is one that goes on with a character. -/
def Tails : Option Open → Prop
  | none => True
  | some o => 0x80 ≤ o.low ∧ o.high ≤ 0xBF

theorem first_tails (b : Nat) : Tails (first b).2 := by
  unfold first
  split_ifs <;> simp [Tails]

theorem step_tails (s : Option Open) (b : Nat) : Tails (step s b).2 := by
  cases s with
  | none => exact first_tails b
  | some o =>
    unfold step
    simp only
    split_ifs
    · trivial
    · exact ⟨Nat.le_refl _, Nat.le_refl _⟩
    · exact first_tails b

theorem stateAfter_tails {s : Option Open} (h : Tails s) (bs : List Nat) :
    Tails (stateAfter s bs) := by
  induction bs generalizing s with
  | nil => exact h
  | cons b bs ih => exact ih (step_tails s b)

/-- A machine that starts late is idle where the other one is. -/
theorem stateAfter_idle {s : Option Open} (hs : Tails s) {bs : List Nat}
    (h : stateAfter s bs = none) : stateAfter none bs = none := by
  induction bs generalizing s with
  | nil => rfl
  | cons b bs ih =>
    cases s with
    | none => exact h
    | some o =>
      rw [stateAfter] at h ⊢
      by_cases hb : o.low ≤ b ∧ b ≤ o.high
      · -- A byte that can only go on with a character is replaced.
        have htail : first b = ([replacement], none) := by
          unfold first
          iterate 8 rw [if_neg (by have := hs.1; have := hs.2; omega)]
        rw [step, htail]
        exact ih (step_tails _ b) h
      · have hsame : (step (some o) b).2 = (first b).2 := by
          rw [step, if_neg hb]
        rwa [hsame] at h

end SglangInc.Utf8
