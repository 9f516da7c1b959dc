import Mathlib.Algebra.Order.Ring.Int
import SglangInc.Lib.Slots

/-!
# The Allocator of KV Slots

`mem_cache/allocator.py`: the allocators that hand out the slots of the KV
cache. `TokenToKVPoolAllocator` is used for a page size of one and hands out
single slots, `PagedTokenToKVPoolAllocator` for every other page size. They
share their state and differ in `alloc` and `free`, and the second one
allocates with two kernels.

A kernel runs one program for each request of a batch. The program finds its
own new pages by adding up what the requests before it need, so here the batch
is a list and `start` is that sum. The parts that the programs write are put
together to `out_indices`.

Slots that are freed inside a free group are kept until the group ends. The
group is not emptied then, only before the next one starts.
-/

namespace SglangInc.Kv

open Slots

/-- The free pages, the released ones, and the free group. -/
structure Allocator where
  size : Nat
  pageSize : Nat
  needSort : Bool
  freePages : List Nat
  releasePages : List Nat
  isNotInFreeGroup : Bool
  freeGroup : List (List Nat)
deriving Repr

/-- What one request of an extend batch asks for. `lastLoc` is its last slot
    so far, or -1. -/
structure Extend where
  prefixLen : Nat
  seqLen : Nat
  lastLoc : Int
deriving Repr

/-- What one request of a decode batch asks for. -/
structure Decode where
  seqLen : Nat
  lastLoc : Int
deriving Repr

/-- A decode of one request, as an extension by one token. -/
def Decode.toExtend (req : Decode) : Extend := ⟨req.seqLen - 1, req.seqLen, req.lastLoc⟩

/-- `num_pages_after - num_pages_before`. -/
def numNewPages (pageSize prefixLen seqLen : Nat) : Nat :=
  pagesFor pageSize seqLen - pagesFor pageSize prefixLen

/-- The program of `alloc_extend_kernel` for one request, whose new pages
    start at `newPageStartLoc`. -/
def allocExtendKernel (pageSize : Nat) (req : Extend) (freePages : List Nat)
    (newPageStartLoc : Nat) : List Nat :=
  -- Part 1: fill the old partial page
  let numPart1 := min req.seqLen (pagesFor pageSize req.prefixLen * pageSize) - req.prefixLen
  let part1 := (List.range numPart1).map (fun offset : Nat => (req.lastLoc + 1 + offset).toNat)
  if req.prefixLen + numPart1 = req.seqLen then part1
  else
    -- Part 2: fill the new full pages
    let numPart2 := req.seqLen / pageSize * pageSize - pagesFor pageSize req.prefixLen * pageSize
    let part2 := (List.range numPart2).map (fun offset =>
      freePages.getD (newPageStartLoc + offset / pageSize) 0 * pageSize + offset % pageSize)
    if req.prefixLen + numPart1 + numPart2 = req.seqLen then part1 ++ part2
    else
      -- Part 3: fill the new partial page
      let numPart3 := req.seqLen - req.seqLen / pageSize * pageSize
      let startLoc := freePages.getD
        (newPageStartLoc + numNewPages pageSize req.prefixLen req.seqLen - 1) 0
      part1 ++ part2 ++ (List.range numPart3).map (fun offset => startLoc * pageSize + offset)

/-- All programs of `alloc_extend_kernel`. -/
def allocExtendOut (pageSize : Nat) (freePages : List Nat) : Nat → List Extend → List (List Nat)
  | _, [] => []
  | start, req :: rest =>
    allocExtendKernel pageSize req freePages start ::
      allocExtendOut pageSize freePages (start + numNewPages pageSize req.prefixLen req.seqLen) rest

/-- The program of `alloc_decode_kernel` for one request. -/
def allocDecodeKernel (pageSize : Nat) (req : Decode) (freePages : List Nat)
    (newPageStartLoc : Nat) : Nat :=
  if numNewPages pageSize (req.seqLen - 1) req.seqLen = 0 then (req.lastLoc + 1).toNat
  else freePages.getD newPageStartLoc 0 * pageSize

/-- All programs of `alloc_decode_kernel`. -/
def allocDecodeOut (pageSize : Nat) (freePages : List Nat) : Nat → List Decode → List Nat
  | _, [] => []
  | start, req :: rest =>
    allocDecodeKernel pageSize req freePages start ::
      allocDecodeOut pageSize freePages
        (start + numNewPages pageSize (req.seqLen - 1) req.seqLen) rest

namespace Allocator

/-- `clear`. Page 0 takes the dummy outputs of padded tokens. -/
def init (size pageSize : Nat) (needSort : Bool) : Allocator :=
  ⟨size, pageSize, needSort, List.range' 1 (size / pageSize), [], true, []⟩

/-- `available_size`. The allocator of single slots leaves out its page size of
    one. -/
def availableSize (a : Allocator) : Nat :=
  (a.freePages.length + a.releasePages.length) * a.pageSize

/-- `merge_and_sort_free`. -/
def mergeAndSortFree (a : Allocator) : Allocator :=
  if 0 < a.releasePages.length then
    { a with freePages := (a.freePages ++ a.releasePages).mergeSort, releasePages := [] }
  else a

/-- The sort that an allocation starts with when the free pages may not be
    enough. -/
def sortFor (a : Allocator) (needed : Nat) : Allocator :=
  if a.needSort && decide (a.freePages.length < needed) then a.mergeAndSortFree else a

/-- What the allocations share. They sort when the free list is shorter than an
    estimate of their own, count the pages they need, and take these from the
    front of the free list. An allocation that fails may have sorted. -/
def takePages {β : Type} (a : Allocator) (estimate numNewPages : Nat)
    (outIndices : List Nat → β) : Option β × Allocator :=
  let a := a.sortFor estimate
  if numNewPages > a.freePages.length then (none, a)
  else (some (outIndices a.freePages), { a with freePages := a.freePages.drop numNewPages })

/-- An allocation for a caller that does not go on when it fails. -/
def taken {β : Type} (result : Option β × Allocator) : Option (β × Allocator) :=
  result.1.map (·, result.2)

/-- `TokenToKVPoolAllocator.alloc`. -/
def alloc (a : Allocator) (needSize : Nat) : Option (List Nat × Allocator) :=
  taken (a.takePages needSize needSize (·.take needSize))

/-- `get_num_new_pages` with the prefix lengths. -/
def extendPages (pageSize : Nat) (batch : List Extend) : Nat :=
  (batch.map fun req => numNewPages pageSize req.prefixLen req.seqLen).sum

/-- `PagedTokenToKVPoolAllocator.alloc_extend`. -/
def allocExtend (a : Allocator) (batch : List Extend) (extendNumTokens : Nat) :
    Option (List Nat) × Allocator :=
  a.takePages (extendNumTokens / a.pageSize + batch.length + 1) (extendPages a.pageSize batch)
    fun freePages => (allocExtendOut a.pageSize freePages 0 batch).flatten

/-- `get_num_new_pages` with `decode`. -/
def decodePages (pageSize : Nat) (batch : List Decode) : Nat :=
  batch.countP fun req => req.seqLen % pageSize == 1

/-- `PagedTokenToKVPoolAllocator.alloc_decode`. -/
def allocDecode (a : Allocator) (batch : List Decode) : Option (List Nat) × Allocator :=
  a.takePages batch.length (decodePages a.pageSize batch)
    fun freePages => allocDecodeOut a.pageSize freePages 0 batch

/-- `free` of either allocator. -/
def free (a : Allocator) (freeIndex : List Nat) : Allocator :=
  if freeIndex.length = 0 then a
  else if a.isNotInFreeGroup then
    if a.pageSize = 1 then
      if a.needSort then { a with releasePages := a.releasePages ++ freeIndex }
      else { a with freePages := a.freePages ++ freeIndex }
    else
      let freePageIndices := unique (freeIndex.map (· / a.pageSize))
      if a.needSort then { a with releasePages := freePageIndices ++ a.releasePages }
      else { a with freePages := freePageIndices ++ a.freePages }
  else { a with freeGroup := a.freeGroup ++ [freeIndex] }

/-- `free_group_begin`. -/
def freeGroupBegin (a : Allocator) : Allocator :=
  { a with isNotInFreeGroup := false, freeGroup := [] }

/-- `free_group_end`. -/
def freeGroupEnd (a : Allocator) : Allocator :=
  let a := { a with isNotInFreeGroup := true }
  if a.freeGroup ≠ [] then a.free a.freeGroup.flatten else a

end Allocator

end SglangInc.Kv
