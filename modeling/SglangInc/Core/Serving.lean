import SglangInc.Core.RadixCache
import SglangInc.Core.KvAllocator

/-!
# Requests on the Radix Cache

How requests move between the radix cache, the allocator and their rows of
`req_to_token`: `cache_finished_req` and `cache_unfinished_req` of
`mem_cache/radix_cache.py`, `init_next_round_input`, `prepare_for_extend`,
`mix_with_running` and `prepare_for_decode` of `managers/schedule_batch.py`,
and the allocations of `mem_cache/common.py`.

A row is kept with its request, cut to the slots that have been written.
`req_to_token_pool` hands out the rows themselves; a row is not given to
another request while its own still reads it, so the indices of the rows are
left out. A request without a row has been matched and locked and waits for
its first slots.

The scheduler is not modelled. Its decisions (which requests go into a batch,
how far a prefill is cut, when a request finishes) are arguments of the steps,
and what it sees to is a condition on them: a prefill is cut after at least
one token, a request goes on where its `prefix_indices` end, it is cached when
it has the slots of its `fill_ids`, a mixed batch sets `fill_ids` to tokens
that have slots, and a request that finishes has no slots beyond its tokens.
Only finished requests are cached inside a free group.
-/

namespace SglangInc.Serving

open Radix Kv

/-- What the cache reads and writes of a request. -/
structure Req where
  originInputIds : List Int
  outputIds : List Int
  fillIds : List Int
  extraKey : Option String
  prefixIndices : List Nat
  lastNode : Nat
  cacheProtectedLen : Nat
  kvCommittedLen : Nat
  /-- Its row of `req_to_token`, if it has one. -/
  row : Option (List Nat)
deriving Repr

namespace Req

/-- `origin_input_ids + output_ids`. -/
def tokens (req : Req) : List Int := req.originInputIds ++ req.outputIds

/-- The row in `req_to_token`, up to what was written. -/
def reqToToken (req : Req) : List Nat := req.row.getD []

end Req

/-- `l[i:j]`. -/
def slice (l : List Nat) (i j : Nat) : List Nat := (l.take j).drop i

/-- The keys of token ids: bigrams for EAGLE, cut to whole pages. -/
def pageKeys (c : Cache) (ids : List Int) : List TokenId :=
  c.pageAlignKeys (if c.isEagle then convertToBigramKey (ids.map .int) else ids.map .int)

/-- `RadixKey(keys, req.extra_key, is_bigram=self.is_eagle)` for the keys of
    `fill_ids`. -/
def radixKey (c : Cache) (req : Req) : RadixKey :=
  ⟨pageKeys c req.fillIds, req.extraKey, c.isEagle⟩

/-- `cache_finished_req`. -/
def cacheFinishedReq (c : Cache) (a : Allocator) (req : Req) (isInsert : Bool) :
    Except Error (Cache × Allocator) :=
  let isInsert := if c.disableFinishedInsert then false else isInsert
  if c.disable then .ok (c, a.free (req.reqToToken.take req.kvCommittedLen))
  else do
    let tokenIds := req.tokens.take req.kvCommittedLen
    let kvIndices := req.reqToToken.take tokenIds.length
    let key := radixKey c req
    let values := kvIndices.take key.length
    let (c, a) ←
      if isInsert then do
        let (newPrefixLen, c) ← c.insert key values
        pure (c, a.free (slice kvIndices req.cacheProtectedLen newPrefixLen))
      else pure (c, a.free (slice kvIndices req.cacheProtectedLen key.length))
    -- free the unaligned tail
    let a := a.free (kvIndices.drop key.length)
    return ((c.decLockRef req.lastNode).2, a)

/-- The row after `new_indices` have been written from `cache_protected_len`
    on. -/
def writeIndices (row : List Nat) (cacheProtectedLen : Nat) (newIndices : List Nat) : List Nat :=
  row.take cacheProtectedLen ++ newIndices.drop cacheProtectedLen ++
    row.drop (max cacheProtectedLen newIndices.length)

/-- `cache_unfinished_req`. -/
def cacheUnfinishedReq (c : Cache) (a : Allocator) (req : Req) :
    Except Error (Cache × Allocator × Req) :=
  if c.disable then .ok (c, a, req)
  else do
    let kvIndices := req.reqToToken.take req.fillIds.length
    let key := radixKey c req
    let values := kvIndices.take key.length
    let (newPrefixLen, c) ← c.insert key values
    let a := a.free (slice kvIndices req.cacheProtectedLen newPrefixLen)
    let (matchResult, c) ← c.matchPrefix key
    let newIndices := matchResult.deviceIndices
    if newIndices.length ≠ key.length then .error (.assertionError newIndices.length key.length)
    else
      let c := ((c.decLockRef req.lastNode).2.incLockRef matchResult.lastDeviceNode).2
      return (c, a, { req with
        row := some (writeIndices req.reqToToken req.cacheProtectedLen newIndices)
        cacheProtectedLen := newIndices.length
        prefixIndices :=
          if newIndices.length < kvIndices.length then
            newIndices ++ kvIndices.drop newIndices.length
          else newIndices
        lastNode := matchResult.lastDeviceNode })

/-- `init_next_round_input` with the cache, and the lock of `add_one_req`.
    `truncLen` is the length a chunked prefill is cut to. -/
def initNextRoundInput (c : Cache) (originInputIds outputIds : List Int)
    (extraKey : Option String) (logprobStartLen : Option Int) (truncLen : Option Nat) :
    Except Error (Cache × Req) := do
  let fillIds := originInputIds ++ outputIds
  let maxPrefixLen : Int := fillIds.length - 1
  let maxPrefixLen := match logprobStartLen with
    | none => maxPrefixLen
    | some logprobStartLen => min maxPrefixLen logprobStartLen
  let maxPrefixLen := (max maxPrefixLen 0).toNat
  let (matchResult, c) ← c.matchPrefix
    ⟨(fillIds.take maxPrefixLen).map .int, extraKey, false⟩
  let prefixIndices := matchResult.deviceIndices
  let fillIds := match truncLen with
    | none => fillIds
    | some truncLen => fillIds.take (prefixIndices.length + truncLen)
  return ((c.incLockRef matchResult.lastDeviceNode).2,
    ⟨originInputIds, outputIds, fillIds, extraKey, prefixIndices, matchResult.lastDeviceNode,
      prefixIndices.length, 0, none⟩)

/-- `init_next_round_input` without the cache, and `add_chunked_req`: the next
    chunk of a prefill. -/
def nextChunk (req : Req) (extendInputLen : Nat) : Req :=
  { req with fillIds := req.tokens.take (req.prefixIndices.length + extendInputLen) }

/-- The last slot of a list, or -1. -/
def lastLoc (indices : List Nat) : Int :=
  match indices.getLast? with
  | none => -1
  | some loc => loc

/-- The parts of the given lengths that a list is cut into. -/
def cut : List Nat → List Nat → List (List Nat)
  | [], _ => []
  | n :: lens, l => l.take n :: cut lens (l.drop n)

/-- `alloc_for_extend` without the writes: the new slots of each request. -/
def allocForExtend (a : Allocator) (batch : List Req) : Option (List (List Nat) × Allocator) :=
  let extendLens := batch.map fun req => req.fillIds.length - req.prefixIndices.length
  let out :=
    if a.pageSize = 1 then a.alloc extendLens.sum
    else
      Allocator.taken (a.allocExtend (batch.map fun req =>
        ⟨req.prefixIndices.length, req.fillIds.length, lastLoc req.prefixIndices⟩) extendLens.sum)
  out.map fun (outCacheLoc, a) => (cut extendLens outCacheLoc, a)

/-- The row that is written, and the fields that `prepare_for_extend` sets. -/
def extended (req : Req) (out : List Nat) : Req :=
  { req with
    row := some (req.prefixIndices ++ out)
    kvCommittedLen := req.fillIds.length }

/-- `alloc_for_decode` without the writes: the new slot of each request. -/
def allocForDecode (a : Allocator) (batch : List Req) : Option (List Nat × Allocator) :=
  if a.pageSize = 1 then a.alloc batch.length
  else
    Allocator.taken (a.allocDecode (batch.map fun req =>
      ⟨req.kvCommittedLen + 1, lastLoc req.reqToToken⟩))

/-- The row that is written, and the fields that `prepare_for_decode` sets. -/
def decoded (req : Req) (out : Nat) : Req :=
  { req with
    row := some (req.reqToToken ++ [out])
    kvCommittedLen := req.kvCommittedLen + 1 }

/-- The loop of `evict` frees the value of each leaf. -/
def freeLeaves (a : Allocator) (removed : List TreeNode) : Allocator :=
  removed.foldl (fun a x => a.free x.value) a

/-- The cache, the allocator and the requests. -/
structure Server where
  cache : Cache
  alloc : Allocator
  reqs : List Req

/-- No request, and all pages free. -/
def Server.init (pageSize size : Nat) (isEagle disable disableFinishedInsert needSort : Bool) :
    Server :=
  ⟨Cache.init pageSize isEagle disable disableFinishedInsert,
    Allocator.init size pageSize needSort, []⟩

/-- The steps of a request, and evictions. -/
inductive Op where
  | start (originInputIds outputIds : List Int) (extraKey : Option String)
      (logprobStartLen : Option Int) (truncLen : Option Nat)
  | nextChunk (req : Req) (extendInputLen : Nat)
  | extend (batch : List Req)
  | cacheUnfinished (req : Req)
  | decode (batch : List Req)
  | output (req : Req) (token : Int)
  | mix (req : Req)
  | finish (req : Req) (isInsert : Bool)
  | evict (order : List TreeNode → Nat) (numTokens : Nat)
  | freeGroupBegin
  | freeGroupEnd

/-- The request has the slots of its `fill_ids`. -/
def Req.HasSlots (req : Req) : Prop :=
  req.row.isSome ∧ req.fillIds.length ≤ req.kvCommittedLen

/-- The request can be extended: it has no slots yet, or all it has are in
    `prefix_indices`. -/
def Req.Extensible (req : Req) : Prop :=
  (req.row = none ∨ req.prefixIndices.length = req.kvCommittedLen) ∧
  req.prefixIndices.length ≤ req.fillIds.length

/-- The request can finish: no slot was allocated beyond its tokens. -/
def Req.Finishable (req : Req) : Prop :=
  req.HasSlots ∧ req.kvCommittedLen ≤ req.tokens.length

/-- The requests of a server are taken in any order. -/
def Step (s : Server) (op : Op) (s' : Server) : Prop :=
  match op with
  | .start origin output extraKey logprobStartLen truncLen =>
    s.alloc.isNotInFreeGroup = true ∧ truncLen ≠ some 0 ∧
    ∃ c req, initNextRoundInput s.cache origin output extraKey logprobStartLen truncLen =
      .ok (c, req) ∧ s' = { s with cache := c, reqs := req :: s.reqs }
  | .nextChunk req extendInputLen =>
    s.alloc.isNotInFreeGroup = true ∧ req.HasSlots ∧
    req.prefixIndices.length = req.kvCommittedLen ∧
    ∃ rest, s.reqs.Perm (req :: rest) ∧ s' = { s with reqs := nextChunk req extendInputLen :: rest }
  | .extend batch =>
    s.alloc.isNotInFreeGroup = true ∧ (∀ req ∈ batch, req.Extensible) ∧
    ∃ rest outs a, s.reqs.Perm (batch ++ rest) ∧
      allocForExtend s.alloc batch = some (outs, a) ∧
      s' = { s with alloc := a, reqs := List.zipWith extended batch outs ++ rest }
  | .cacheUnfinished req =>
    s.alloc.isNotInFreeGroup = true ∧ req.HasSlots ∧
    ∃ rest c a req', s.reqs.Perm (req :: rest) ∧
      cacheUnfinishedReq s.cache s.alloc req = .ok (c, a, req') ∧ s' = ⟨c, a, req' :: rest⟩
  | .decode batch =>
    s.alloc.isNotInFreeGroup = true ∧ (∀ req ∈ batch, req.HasSlots) ∧
    ∃ rest outs a, s.reqs.Perm (batch ++ rest) ∧
      allocForDecode s.alloc batch = some (outs, a) ∧
      s' = { s with alloc := a, reqs := List.zipWith decoded batch outs ++ rest }
  | .output req token =>
    ∃ rest, s.reqs.Perm (req :: rest) ∧
      s' = { s with reqs := { req with outputIds := req.outputIds ++ [token] } :: rest }
  | .mix req =>
    s.alloc.isNotInFreeGroup = true ∧ req.HasSlots ∧ req.tokens.length ≤ req.kvCommittedLen ∧
    ∃ rest, s.reqs.Perm (req :: rest) ∧
      s' = { s with reqs := { req with fillIds := req.tokens } :: rest }
  | .finish req isInsert =>
    req.Finishable ∧
    ∃ rest c a, s.reqs.Perm (req :: rest) ∧
      cacheFinishedReq s.cache s.alloc req isInsert = .ok (c, a) ∧ s' = ⟨c, a, rest⟩
  | .evict order numTokens =>
    s.alloc.isNotInFreeGroup = true ∧
    ∃ removed c, s.cache.evict order numTokens = (removed, c) ∧
      s' = { s with cache := c, alloc := freeLeaves s.alloc removed }
  | .freeGroupBegin =>
    s.alloc.isNotInFreeGroup = true ∧ s' = { s with alloc := s.alloc.freeGroupBegin }
  | .freeGroupEnd =>
    s.alloc.isNotInFreeGroup = false ∧ s' = { s with alloc := s.alloc.freeGroupEnd }

end SglangInc.Serving
