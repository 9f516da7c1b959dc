import SglangInc.Core.TwoBatchOverlap
import Mathlib.Algebra.Order.BigOperators.Group.List
import Mathlib.Algebra.Order.Group.Nat

/-!
# The Balanced Split

The scan for the balanced split stops at the first increase. A prefix that makes the
difference larger has more than half of the tokens, and so has every longer one
(`split_balanced`).
-/

namespace SglangInc.TwoBatch

open List

/-- The difference of the two sums. -/
def gap (arr : List Nat) (k : Nat) : Nat := ((arr.take k).sum - (arr.drop k).sum : Int).natAbs

/-- The largest of the best splits. -/
def Balanced (arr : List Nat) (k : Nat) : Prop :=
  0 < k ∧ k < arr.length ∧ (∀ j, 0 < j → j ≤ k → gap arr k ≤ gap arr j) ∧
    ∀ j, k < j → j < arr.length → gap arr k < gap arr j

variable {arr : List Nat}

/-- Behind an increase the difference stays larger. -/
theorem gap_lt_of_lt {i j : Nat} (h : gap arr i < gap arr (i + 1)) (hij : i < j) :
    gap arr i < gap arr j := by
  have hsum := sum_take_add_sum_drop arr
  have hmono (m n : Nat) (h : m ≤ n) : (arr.take m).sum ≤ (arr.take n).sum :=
    (take_sublist_take_left h).sum_le_sum fun _ _ => Nat.zero_le _
  have hi := hmono i (i + 1) (Nat.le_succ i)
  have hj := hmono (i + 1) j hij
  have := hsum i
  have := hsum (i + 1)
  have := hsum j
  unfold gap at h ⊢
  omega

/-- The scan, where index `i` is the best one so far. -/
theorem balancedScan_balanced (arr : List Nat) {rest : List Nat} {i : Nat}
    (hrest : arr.drop i = rest) (hi : 0 < i) (hlt : i < arr.length)
    (hbest : ∀ j, 0 < j → j ≤ i → gap arr i ≤ gap arr j) :
    Balanced arr
      (balancedScan arr.sum rest (i + 1) (arr.take i).sum (some (gap arr i)) i) := by
  induction rest generalizing i with
  | nil => exact absurd (drop_eq_nil_iff.mp hrest) (by omega)
  | cons x rest ih =>
    have hnext : arr.drop (i + 1) = rest := by rw [← tail_drop, hrest, tail_cons]
    cases rest with
    | nil =>
      have hend := drop_eq_nil_iff.mp hnext
      exact ⟨hi, hlt, hbest, fun j (hj : i < j) _ => by omega⟩
    | cons y rest =>
      have hlt' : i + 1 < arr.length := by
        by_contra hge
        rw [drop_eq_nil_of_le (by omega)] at hnext
        cases hnext
      have hsum : (arr.take i).sum + x = (arr.take (i + 1)).sum := by
        rw [take_add, hrest, sum_append, take_succ_cons, take_zero, sum_singleton]
      have hright := Nat.sub_eq_of_eq_add' (sum_take_add_sum_drop arr (i + 1)).symm
      rw [balancedScan]
      simp only [hsum, hright, Option.all_some, decide_eq_true_eq]
      split_ifs with hle
      · refine ih hnext i.succ_pos hlt' fun j hj hji => ?_
        rcases Nat.le_succ_iff.mp hji with hji | rfl
        · exact hle.trans (hbest j hj hji)
        · exact le_rfl
      -- The scan stops at the first increase, and the gap only grows then.
      · exact ⟨hi, hlt, hbest, fun j hj _ => gap_lt_of_lt (not_le.mp hle) hj⟩

/-- The scan stops at the sequence that has the token `halfSum`. -/
theorem halfScan_spec (arr : List Nat) {halfSum : Nat} (i : Nat) {leftSum : Nat}
    (hleft : leftSum ≤ halfSum) (hhalf : halfSum < leftSum + arr.sum) :
    ∃ n < arr.length, halfScan halfSum arr i leftSum = i + n ∧
      leftSum + (arr.take n).sum ≤ halfSum ∧ halfSum < leftSum + (arr.take (n + 1)).sum := by
  induction arr generalizing i leftSum with
  | nil => exact absurd hleft (by simpa using hhalf)
  | cons x rest ih =>
    rw [sum_cons, ← Nat.add_assoc] at hhalf
    rw [halfScan]
    split_ifs with hx
    · exact ⟨0, by simp, rfl, by simpa using hleft, by simpa using hx⟩
    · rcases ih (i + 1) (not_lt.mp hx) hhalf with ⟨n, hn, heq, hle, hlt⟩
      refine ⟨n + 1, Nat.succ_lt_succ hn, by omega, ?_⟩
      rw [take_succ_cons, take_succ_cons, sum_cons, sum_cons]
      omega

/-- The balanced split is the best one. The split into two chunks has half of the tokens
    on each side. -/
theorem split_balanced (threshold : Rat) (hlen : 2 ≤ arr.length) (hpos : ∀ x ∈ arr, 0 < x) :
    Balanced arr (splitArrayByBalancedSum arr) ∧
    (isTwoChunkSplitEnabled threshold arr = some true →
      ∃ k < arr.length, splitExtendSeqs threshold arr = some k ∧
        (arr.take k).sum ≤ arr.sum / 2 ∧ arr.sum / 2 < (arr.take (k + 1)).sum ∧
        extendTokenIndex threshold k arr = some (arr.sum / 2) ∧
        arr.sum / 2 ≤ arr.sum - arr.sum / 2 ∧ arr.sum - arr.sum / 2 ≤ arr.sum / 2 + 1) := by
  match arr, hlen with
  | x :: y :: rest, _ =>
    constructor
    · have h := balancedScan_balanced (x :: y :: rest) rfl Nat.one_pos (by simp)
        fun j hj hle => by rw [show j = 1 by omega]
      simp only [splitArrayByBalancedSum, balancedScan, Option.all_none, if_true]
      convert h using 2 <;> simp [gap]
    · intro henabled
      have hx := hpos x mem_cons_self
      rcases halfScan_spec (x :: y :: rest) 0 (Nat.zero_le _)
        (show (x :: y :: rest).sum / 2 < _ by rw [sum_cons]; omega) with ⟨n, hn, heq, hle, hlt⟩
      rw [Nat.zero_add] at heq hle hlt
      refine ⟨n, hn, ?_, hle, hlt, by rw [extendTokenIndex, henabled]; rfl, by omega, by omega⟩
      rw [← heq, splitExtendSeqs, henabled]
      rfl

theorem split_balanced_long : isTwoChunkSplitEnabled (12 / 25) [9, 2] = some true ∧
    ∃ k < 2, splitExtendSeqs (12 / 25) [9, 2] = some k ∧
      extendTokenIndex (12 / 25) k [9, 2] = some 5 := by
  have h : isTwoChunkSplitEnabled (12 / 25) [9, 2] = some true := by decide +kernel
  rcases (split_balanced (12 / 25) (by decide) (by decide)).2 h with
    ⟨k, hk, hsplit, _, _, htoken, _⟩
  exact ⟨h, k, hk, hsplit, htoken⟩

end SglangInc.TwoBatch
