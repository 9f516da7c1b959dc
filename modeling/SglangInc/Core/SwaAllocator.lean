import SglangInc.Lib.IndexMap
import SglangInc.Core.PagedAllocator

/-!
# The Allocator for Sliding Windows

`SWATokenToKVPoolAllocator` of `mem_cache/allocator.py`, which hands out slots
of two pools at once. A caller sees the index of the slot in the full pool. The
slot of the sliding window layers that goes with it is in a table, where zero
means that there is none, and it can be given back earlier than the full slot.

Both inner allocators are of single slots. The free group is the outer one's;
the groups of the inner ones are not used.

`free` ends with two assertions, so it has no result when one fails. `alloc`
compares both available sizes before it calls the inner allocators.

The system keeps the allocated indices of both pools next to the allocator.
They are read off what the inner allocators return and are given back. Indices
that wait in a free group are still allocated.
-/

namespace SglangInc.Kv

/-- The two allocators, the table and the free group. -/
structure SwaAllocator where
  fullAttnAllocator : Allocator
  swaAttnAllocator : Allocator
  fullToSwaIndexMapping : Nat → Nat
  isNotInFreeGroup : Bool
  freeGroup : List (List Nat)

namespace SwaAllocator

/-- All slots are free. -/
def init (size sizeSwa : Nat) (needSort : Bool) : SwaAllocator :=
  ⟨Allocator.init size 1 needSort, Allocator.init sizeSwa 1 needSort, fun _ => 0, true, []⟩

/-- `full_available_size`. -/
def fullAvailableSize (a : SwaAllocator) : Nat := a.fullAttnAllocator.availableSize

/-- `swa_available_size`. -/
def swaAvailableSize (a : SwaAllocator) : Nat := a.swaAttnAllocator.availableSize

/-- `alloc`: slots in both pools, linked by the table. -/
def alloc (a : SwaAllocator) (needSize : Nat) : Option (List Nat × SwaAllocator) :=
  if needSize > a.fullAvailableSize then none
  else if needSize > a.swaAvailableSize then none
  else do
    let (allocFullIndices, full) ← a.fullAttnAllocator.alloc needSize
    let (allocSwaIndices, swa) ← a.swaAttnAllocator.alloc needSize
    some (allocFullIndices, { a with
      fullAttnAllocator := full
      swaAttnAllocator := swa
      fullToSwaIndexMapping :=
        IndexMap.assign a.fullToSwaIndexMapping allocFullIndices allocSwaIndices })

/-- The slots of the sliding window layers that are mapped. -/
def swaIndices (a : SwaAllocator) (freeIndex : List Nat) : List Nat :=
  IndexMap.entries a.fullToSwaIndexMapping freeIndex

/-- `free_swa`: the window slots go, and their entries are reset. -/
def freeSwa (a : SwaAllocator) (freeIndex : List Nat) : SwaAllocator :=
  { a with
    swaAttnAllocator := a.swaAttnAllocator.free (a.swaIndices freeIndex)
    fullToSwaIndexMapping := IndexMap.erase a.fullToSwaIndexMapping freeIndex }

/-- `free`, with its two assertions. -/
def free (a : SwaAllocator) (freeIndex : List Nat) : Option SwaAllocator :=
  if freeIndex.length = 0 then some a
  else
    let a' :=
      if a.isNotInFreeGroup then
        { a with fullAttnAllocator := a.fullAttnAllocator.free freeIndex }.freeSwa freeIndex
      else { a with freeGroup := a.freeGroup ++ [freeIndex] }
    if a'.fullAvailableSize ≤ a'.fullAttnAllocator.size ∧
        a'.swaAvailableSize ≤ a'.swaAttnAllocator.size then some a'
    else none

/-- `free_group_begin`. -/
def freeGroupBegin (a : SwaAllocator) : SwaAllocator :=
  { a with isNotInFreeGroup := false, freeGroup := [] }

/-- `free_group_end`. -/
def freeGroupEnd (a : SwaAllocator) : Option SwaAllocator :=
  let a := { a with isNotInFreeGroup := true }
  if a.freeGroup ≠ [] then a.free a.freeGroup.flatten else some a

/-- `clear`. -/
def clear (a : SwaAllocator) : SwaAllocator :=
  ⟨a.fullAttnAllocator.clear, a.swaAttnAllocator.clear, fun _ => 0, true, []⟩

end SwaAllocator

/-- The allocator and the allocated indices of both pools. -/
structure SwaPool where
  alloc : SwaAllocator
  full : Finset Nat
  swa : Finset Nat

/-- The calls. -/
inductive SwaOp where
  | alloc (needSize : Nat)
  | free (freeIndex : List Nat)
  | freeSwa (freeIndex : List Nat)
  | freeGroupBegin
  | freeGroupEnd
  | clear

namespace SwaPool

/-- Nothing is allocated. -/
def init (size sizeSwa : Nat) (needSort : Bool) : SwaPool :=
  ⟨SwaAllocator.init size sizeSwa needSort, ∅, ∅⟩

/-- The indices that wait in an open free group. -/
def pending (s : SwaPool) : List Nat :=
  if s.alloc.isNotInFreeGroup then [] else s.alloc.freeGroup.flatten

/-- Distinct indices that are allocated. -/
def Held (s : SwaPool) (indices : List Nat) : Prop :=
  indices.Nodup ∧ ∀ i ∈ indices, i ∈ s.full

/-- What a caller of `free` promises. -/
def Freeable (s : SwaPool) (indices : List Nat) : Prop :=
  s.Held indices ∧ ∀ i ∈ indices, i ∉ s.pending

/-- What an operation gives to `free` of the full pool's allocator. -/
def freedFull (s : SwaPool) : SwaOp → List Nat
  | .free freeIndex => if s.alloc.isNotInFreeGroup then freeIndex else []
  | .freeGroupEnd => s.alloc.freeGroup.flatten
  | _ => []

/-- What an operation gives to `free` of the other allocator. -/
def freedSwa (s : SwaPool) : SwaOp → List Nat
  | .free freeIndex => if s.alloc.isNotInFreeGroup then s.alloc.swaIndices freeIndex else []
  | .freeSwa freeIndex => s.alloc.swaIndices freeIndex
  | .freeGroupEnd => s.alloc.swaIndices s.alloc.freeGroup.flatten
  | _ => []

/-- The pool after an operation that gives indices back. -/
def afterFree (s : SwaPool) (op : SwaOp) (a : SwaAllocator) : SwaPool :=
  ⟨a, s.full \ (s.freedFull op).toFinset, s.swa \ (s.freedSwa op).toFinset⟩

/-- The pool after an allocation. -/
def afterAlloc (s : SwaPool) (needSize : Nat) : SwaPool :=
  match s.alloc.alloc needSize with
  | none => s
  | some (out, a) =>
    ⟨a, s.full ∪ out.toFinset,
      s.swa ∪ ((s.alloc.swaAttnAllocator.alloc needSize).elim [] Prod.fst).toFinset⟩

end SwaPool

/-- A call, with what its caller keeps to. -/
def SwaStep (s : SwaPool) (op : SwaOp) (s' : SwaPool) : Prop :=
  match op with
  | .alloc needSize => s' = s.afterAlloc needSize
  | .free freeIndex => s.Freeable freeIndex ∧
      ∃ a, s.alloc.free freeIndex = some a ∧ s' = s.afterFree op a
  | .freeSwa freeIndex => s.Held freeIndex ∧ s' = s.afterFree op (s.alloc.freeSwa freeIndex)
  | .freeGroupBegin => s.alloc.isNotInFreeGroup = true ∧
      s' = { s with alloc := s.alloc.freeGroupBegin }
  | .freeGroupEnd => s.alloc.isNotInFreeGroup = false ∧
      ∃ a, s.alloc.freeGroupEnd = some a ∧ s' = s.afterFree op a
  | .clear => s' = ⟨s.alloc.clear, ∅, ∅⟩

end SglangInc.Kv
