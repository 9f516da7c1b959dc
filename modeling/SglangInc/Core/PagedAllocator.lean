import SglangInc.Core.KvAllocator
import Mathlib.Data.Finset.Basic

/-!
# The Paged Allocator

`PagedTokenToKVPoolAllocator` of `mem_cache/allocator.py` as a system. An
allocation that fails leaves its state behind too, with the free and release
lists merged by then. `model_runner.py` builds this allocator for page sizes
other than one.

The system keeps the pages that are handed out next to the allocator. They are
read off the indices that are returned and freed, not off the lists.
-/

namespace SglangInc.Kv

namespace Allocator

/-- `PagedTokenToKVPoolAllocator.alloc`. -/
def pagedAlloc (a : Allocator) (needSize : Nat) : Option (List Nat) × Allocator :=
  let numPages := needSize / a.pageSize
  a.takePages numPages numPages fun freePages =>
    (freePages.take numPages).flatMap fun page =>
      (List.range a.pageSize).map fun offset => page * a.pageSize + offset

/-- `clear`. -/
def clear (a : Allocator) : Allocator :=
  init a.size a.pageSize a.needSort

end Allocator

/-- The allocator and the pages that are handed out. -/
structure Pool where
  alloc : Allocator
  handed : Finset Nat

/-- The calls. -/
inductive PoolOp where
  | alloc (needSize : Nat)
  | allocExtend (batch : List Extend) (extendNumTokens : Nat)
  | allocDecode (batch : List Decode)
  | free (freeIndex : List Nat)
  | freeGroupBegin
  | freeGroupEnd
  | clear

/-- The pages of a list of indices. -/
def pagesOf (pageSize : Nat) (indices : List Nat) : Finset Nat :=
  (indices.map (· / pageSize)).toFinset

/-- What a caller knows of the last slot of a request that has `len` slots. -/
def LastSlot (pageSize : Nat) (handed : Finset Nat) (len : Nat) (lastLoc : Int) : Prop :=
  (len = 0 ∧ lastLoc = -1) ∨
  ∃ loc : Nat, 0 < len ∧ lastLoc = loc ∧ loc % pageSize = (len - 1) % pageSize ∧
    loc / pageSize ∈ handed

/-- What is returned is handed out. -/
def Pool.after (s : Pool) (result : Option (List Nat) × Allocator) : Pool :=
  ⟨result.2, match result.1 with
    | none => s.handed
    | some out => s.handed ∪ pagesOf s.alloc.pageSize out⟩

/-- A call, with what its caller keeps to. -/
def PoolStep (s : Pool) (op : PoolOp) (s' : Pool) : Prop :=
  match op with
  | .alloc needSize => s' = s.after (s.alloc.pagedAlloc needSize)
  | .allocExtend batch extendNumTokens =>
    (∀ req ∈ batch, req.prefixLen ≤ req.seqLen ∧
      LastSlot s.alloc.pageSize s.handed req.prefixLen req.lastLoc) ∧
    extendNumTokens = (batch.map fun req => req.seqLen - req.prefixLen).sum ∧
    s' = s.after (s.alloc.allocExtend batch extendNumTokens)
  | .allocDecode batch =>
    (∀ req ∈ batch, 0 < req.seqLen ∧
      LastSlot s.alloc.pageSize s.handed (req.seqLen - 1) req.lastLoc) ∧
    s' = s.after (s.alloc.allocDecode batch)
  | .free freeIndex =>
    (∀ i ∈ freeIndex, i / s.alloc.pageSize ∈ s.handed) ∧
    s' = ⟨s.alloc.free freeIndex, s.handed \ pagesOf s.alloc.pageSize freeIndex⟩
  | .freeGroupBegin =>
    s.alloc.isNotInFreeGroup = true ∧ s' = { s with alloc := s.alloc.freeGroupBegin }
  | .freeGroupEnd =>
    s.alloc.isNotInFreeGroup = false ∧ s' = { s with alloc := s.alloc.freeGroupEnd }
  | .clear => s' = ⟨s.alloc.clear, ∅⟩

end SglangInc.Kv
