import SglangInc.Core.EagleVerify

/-!
# The Kernels of a Verification

What each program of the Triton kernels writes, as one range of cells.

The lanes of a program are as many as the next power of two, so a row always fits, and
its masked sums are the offset of its row. The programs of one kernel write ranges
that do not overlap; so every order of them has one result.

## Theorems

* `assignReqToTokenPool_eq`, `getTargetCacheLoc_eq`, `filterFinishedCacheLoc_eq`: One
  program.
-/

namespace SglangInc.Eagle

open List Lanes

theorem le_nextPowerOf2 (n : Nat) : n ≤ nextPowerOf2 n := by
  unfold nextPowerOf2
  split_ifs with hn
  · have := Nat.lt_size_self (n - 1)
    omega
  · omega

section Assign

variable {outCacheLoc : Nat → Nat} {outCachePtr tokenPool kvEnd : Nat}

/-- The loop writes a row in blocks of 32 lanes. -/
theorem assignLoop_eq (numLoop saveOffset loadOffset : Nat) (reqToToken : Nat → Nat) :
    assignLoop outCacheLoc outCachePtr tokenPool kvEnd numLoop saveOffset loadOffset reqToToken =
      write reqToToken (tokenPool + saveOffset) (min (kvEnd - saveOffset) (32 * numLoop))
        fun lane => outCacheLoc (outCachePtr + loadOffset + lane) := by
  induction numLoop generalizing saveOffset loadOffset reqToToken with
  | zero =>
    funext k
    rw [write, if_neg (by omega)]
    rfl
  | succ numLoop ih =>
    rw [assignLoop, ih]
    funext k
    simp only [write, store, load, decide_eq_true_eq]
    -- The cell is of this round, of a later one, or of none.
    by_cases hlater : tokenPool + saveOffset + 32 ≤ k
    · by_cases hk : k < tokenPool + kvEnd ∧ k < tokenPool + saveOffset + 32 * (numLoop + 1)
      · rw [if_pos (by omega), if_pos (by omega)]
        exact congrArg outCacheLoc (by omega)
      · rw [if_neg (by omega), if_neg (by omega), if_neg (by omega)]
    · rw [if_neg (by omega)]
      by_cases hk : tokenPool + saveOffset ≤ k ∧ k < tokenPool + kvEnd
      · rw [if_pos (by omega), if_pos (by omega), if_pos (by omega)]
      · rw [if_neg (by omega), if_neg (by omega)]

end Assign

variable {bs bid bsUpper n : Nat}

theorem assignReqToTokenPool_eq {reqPoolIndices startOffset endOffset outCacheLoc : Nat → Nat}
    {poolLen : Nat} (hbs : bid ≤ bsUpper) (reqToToken : Nat → Nat) :
    assignReqToTokenPool reqPoolIndices startOffset endOffset outCacheLoc poolLen bsUpper
        reqToToken bid = write reqToToken (reqPoolIndices bid * poolLen + startOffset bid)
        (endOffset bid - startOffset bid) fun lane =>
          outCacheLoc (offset (fun b => endOffset b - startOffset b) bid + lane) := by
  have hsum : (sum bsUpper fun lane => load endOffset 0 (fun lane => decide (lane < bid)) lane -
      load startOffset 0 (fun lane => decide (lane < bid)) lane) =
      offset (fun b => endOffset b - startOffset b) bid := by
    rw [← sum_load hbs]
    refine congrArg List.sum (map_congr_left fun lane _ => ?_)
    unfold load
    split_ifs
    · rfl
    · rfl
  rw [assignReqToTokenPool, hsum, assignLoop_eq, show min (endOffset bid - startOffset bid)
      (32 * ((endOffset bid - startOffset bid + 31) / 32)) =
      endOffset bid - startOffset bid by omega, Nat.add_zero]

theorem getTargetCacheLoc_eq {acceptLength toFreeNumSlots outCacheLoc : Nat → Nat}
    (hbs : bid ≤ bsUpper) (hcopy : acceptLength bid + 1 ≤ n) (hfree : toFreeNumSlots bid ≤ n)
    (bufs : (Nat → Nat) × (Nat → Nat)) :
    getTargetCacheLoc acceptLength toFreeNumSlots outCacheLoc n (nextPowerOf2 n) bsUpper bufs bid =
      (write bufs.1 (offset (fun b => acceptLength b + 1) bid) (acceptLength bid + 1)
        (fun lane => outCacheLoc (bid * n + lane)),
       write bufs.2 (offset toFreeNumSlots bid) (toFreeNumSlots bid)
        fun lane => outCacheLoc (bid * n + (n - toFreeNumSlots bid) + lane)) := by
  have hn := le_nextPowerOf2 n
  simp only [getTargetCacheLoc]
  rw [store_load (by omega), store_load (by omega), sum_load hbs, sum_load hbs, offset_add_one]

theorem filterFinishedCacheLoc_eq {tgtCacheLoc acceptLength acceptLengthFilter : Nat → Nat}
    (hbs : bid ≤ bsUpper) (hcopy : acceptLengthFilter bid ≤ n) (outCacheLoc : Nat → Nat) :
    filterFinishedCacheLoc tgtCacheLoc acceptLength acceptLengthFilter bsUpper (nextPowerOf2 n)
        outCacheLoc bid = write outCacheLoc (offset acceptLengthFilter bid) (acceptLengthFilter bid)
        fun lane => tgtCacheLoc (offset (fun b => acceptLength b + 1) bid + lane) := by
  have hn := le_nextPowerOf2 n
  simp only [filterFinishedCacheLoc]
  rw [store_load (by omega), sum_load hbs, sum_load hbs, offset_add_one]

section Align

variable {pageSize n keptLen : Nat}

/-- The end of the page of the last position that is kept. -/
def pageEnd (pageSize seqLen keptLen : Nat) : Nat :=
  ((seqLen + keptLen - 1) / pageSize + 1) * pageSize

theorem lt_pageEnd (hpage : 0 < pageSize) (seqLen keptLen : Nat) :
    seqLen + keptLen - 1 < pageEnd pageSize seqLen keptLen :=
  Nat.lt_mul_of_div_lt (Nat.lt_succ_self _) hpage

/-- The number of lanes that are set. -/
theorem sum_boole {lanes : Nat} (hn : n ≤ lanes) (hkept : keptLen ≤ n) :
    (sum lanes fun t => if t < n ∧ keptLen ≤ t then 1 else 0) = n - keptLen := by
  have hcount : ∀ lanes, (sum lanes fun t => if t < n ∧ keptLen ≤ t then 1 else 0) =
      min lanes n - keptLen := by
    intro lanes
    induction lanes with
    | zero => rw [Nat.zero_min, Nat.zero_sub]; rfl
    | succ lanes ih =>
      rw [Lanes.sum, range_succ, map_append, sum_append_nat, map_singleton,
        sum_singleton, ← Lanes.sum, ih]
      split_ifs with ht
      · omega
      · omega
  rw [hcount, Nat.min_eq_right hn]

/-- A program leaves the slots set that are behind the page of the last one kept. -/
theorem alignEvictMaskToPageSize_eq (seqLens : Nat → Nat) (hpage : 0 < pageSize)
    (hpos : 0 < keptLen) (hkept : keptLen ≤ n) {mask : Nat → Bool}
    (hmask : ∀ i < n, mask (bid * n + i) = decide (keptLen ≤ i)) (k : Nat) :
    alignEvictMaskToPageSize seqLens pageSize n (nextPowerOf2 n) mask bid k =
      if bid * n ≤ k ∧ k < bid * n + n then
        decide (pageEnd pageSize (seqLens bid) keptLen ≤ seqLens bid + (k - bid * n))
      else mask k := by
  have htrues : (sum (nextPowerOf2 n) fun t => if t < n ∧ mask (bid * n + t) then 1 else 0) =
      n - keptLen := by
    rw [← sum_boole (le_nextPowerOf2 n) hkept]
    refine congrArg List.sum (map_congr_left fun t _ => ?_)
    refine if_congr (and_congr_right fun ht => ?_) rfl rfl
    rw [hmask t ht, decide_eq_true_eq]
  have hend := lt_pageEnd hpage (seqLens bid) keptLen
  have hstart : pageEnd pageSize (seqLens bid) keptLen =
      (seqLens bid + keptLen - 1) / pageSize * pageSize + pageSize := by
    rw [pageEnd, Nat.succ_mul]
  have hle := Nat.div_mul_le_self (seqLens bid + keptLen - 1) pageSize
  rw [alignEvictMaskToPageSize, htrues, show n - (n - keptLen) = keptLen by omega,
    foldl_update_const]
  generalize (seqLens bid + keptLen - 1) / pageSize * pageSize = start at *
  -- The slots in the page of the last kept one are not evicted.
  by_cases hk : bid * n ≤ k ∧ k < bid * n + n
  · rw [if_pos hk, show mask k = decide (keptLen ≤ k - bid * n) by
      rw [← hmask (k - bid * n) (by omega)]
      congr 1
      omega]
    split_ifs
    · exact (decide_eq_false (by omega)).symm
    · exact decide_eq_decide.mpr (by omega)
  · rw [if_neg hk, if_neg (by omega)]

end Align

end SglangInc.Eagle
