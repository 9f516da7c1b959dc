import Mathlib.Algebra.Order.Ring.Int

/-!
# Splits for Two-Batch Overlap

Where `two_batch_overlap.py` splits a batch of extends.
-/

namespace SglangInc.TwoBatch

/-- The scan of `_split_array_by_balanced_sum`, with the infinite `min_diff` as `none`. -/
def balancedScan (overallSum : Nat) : List Nat → Nat → Nat → Option Nat → Nat → Nat
  | x :: y :: rest, i, leftSum, minDiff, bestIndex =>
    let leftSum := leftSum + x
    let rightSum := overallSum - leftSum
    let diff := ((leftSum : Int) - rightSum).natAbs
    if minDiff.all (diff ≤ ·) then
      balancedScan overallSum (y :: rest) (i + 1) leftSum (some diff) i
    else bestIndex
  | _, _, _, _, bestIndex => bestIndex

/-- `_split_array_by_balanced_sum`. -/
def splitArrayByBalancedSum (arr : List Nat) : Nat := balancedScan arr.sum arr 1 0 none 0

/-- The scan of `_split_array_by_cum_less_than_half`. -/
def halfScan (halfSum : Nat) : List Nat → Nat → Nat → Nat
  | [], _, _ => 0
  | x :: rest, i, leftSum =>
    if leftSum + x > halfSum then i else halfScan halfSum rest (i + 1) (leftSum + x)

/-- `_split_array_by_cum_less_than_half`. -/
def splitArrayByCumLessThanHalf (arr : List Nat) : Nat := halfScan (arr.sum / 2) arr 0 0

variable (threshold : Rat)

/-- `_is_two_chunk_split_enabled`, or none for a threshold above a half. -/
def isTwoChunkSplitEnabled (extendLens : List Nat) : Option Bool :=
  let leftSum := (extendLens.take (splitArrayByBalancedSum extendLens)).sum
  let overallSum := extendLens.sum
  if threshold ≤ 1 / 2 then
    some (leftSum < overallSum * threshold ∨ leftSum > overallSum * (1 - threshold))
  else none

/-- `_split_extend_seqs`. -/
def splitExtendSeqs (arr : List Nat) : Option Nat := do
  if ← isTwoChunkSplitEnabled threshold arr then return splitArrayByCumLessThanHalf arr
  return splitArrayByBalancedSum arr

/-- `compute_split_token_index` of an extend. -/
def extendTokenIndex (splitSeqIndex : Nat) (extendSeqLens : List Nat) : Option Nat := do
  if ← isTwoChunkSplitEnabled threshold extendSeqLens then return extendSeqLens.sum / 2
  return (extendSeqLens.take splitSeqIndex).sum

end SglangInc.TwoBatch
