import SglangInc.Core.Serving
import Mathlib.Data.Rat.Floor
import Mathlib.Data.List.Sort

/-!
# The Prefill Adder

`PrefillAdder` of `managers/schedule_policy.py`: which requests go into the next
prefill batch, and the allocation that this batch then makes with
`alloc_for_extend` of `mem_cache/common.py`.

The adder keeps two offsets against what is free or evictable. The first one,
`rem_total_token_offset`, also reserves tokens that requests may still generate,
and it starts with a share of what the running requests may. The second one,
`cur_rem_token_offset`, only has the tokens of the batch, in whole pages. The
available and evictable sizes are read anew each time, since a lock makes
evictable tokens protected.

The ratio of new tokens is a rational number here. `CLIP_MAX_NEW_TOKENS` is read
from the environment and is a field. What `init_load_back` returns for a request
with a hit on the host, and what it makes of the cache and the allocator, is an
argument. The hybrid caches, `preempt_list` and the counters for the log are left
out. `has_chunked_req` is not read. `running_batch` is empty where it is `None`.

The requests are values, and the list of requests that can run has their copies.
A call writes to the request that it adds and to no other.
-/

namespace SglangInc.Prefill

open Radix Kv

/-- A request as the adder sees it. -/
structure Req extends Serving.Req where
  maxNewTokens : Nat
  ignoreEos : Bool
  extendInputLen : Int
  hostHitLength : Nat
deriving Repr

/-- `l[:n]`. -/
def sliceTo {α : Type} (l : List α) (n : Int) : List α :=
  if 0 ≤ n then l.take n.toNat else l.take (l.length - (-n).toNat)

/-- The request with its input cut after `n` tokens. -/
def Req.truncate (req : Req) (n : Int) : Req :=
  { req with
    extendInputLen := n
    fillIds := sliceTo req.fillIds (req.prefixIndices.length + n) }

/-- `int(q)`, which cuts towards zero. -/
def pyInt (q : ℚ) : Int := if 0 ≤ q then ⌊q⌋ else ⌈q⌉

/-- `AddReqResult`. -/
inductive AddReqResult where
  | cont
  | noToken
  | other
deriving DecidableEq, Repr

/-- `IGNORE_EOS_RESERVE_TOKENS`. -/
def ignoreEosReserveTokens : Nat := 1

/-- The state of the adder, with the cache and the allocator. -/
structure Adder where
  cache : Cache
  alloc : Allocator
  clipMaxNewTokens : Nat
  nsaEnablePrefillCp : Bool
  runningBatch : List Req
  newTokenRatio : ℚ
  remInputTokens : Int
  remChunkTokens : Option Int
  remTotalTokenOffset : ℚ
  curRemTokenOffset : Int
  reqStates : Option (List (ℚ × Nat))
  canRunList : List Req
  newChunkedReq : Option Req

/-- What `init_load_back` returns, and the cache and the allocator after it. -/
structure LoadBack where
  newIndices : List Nat
  lastNode : Nat
  cache : Cache
  alloc : Allocator

/-- `_get_running_request_total_token_offset`. -/
def runningRequestTotalTokenOffset (clipMaxNewTokens : Nat) (newTokenRatio : ℚ) (req : Req) : ℚ :=
  (min ((req.maxNewTokens : Int) - req.outputIds.length) clipMaxNewTokens : Int) * newTokenRatio

/-- What the running requests may still generate, as the adder counts it. -/
def runningOffset (clipMaxNewTokens : Nat) (newTokenRatio : ℚ) (runningBatch : List Req) : ℚ :=
  (runningBatch.map (runningRequestTotalTokenOffset clipMaxNewTokens newTokenRatio)).sum

namespace Adder

/-- `__init__`. -/
def init (cache : Cache) (alloc : Allocator) (clipMaxNewTokens : Nat) (nsaEnablePrefillCp : Bool)
    (runningBatch : List Req) (newTokenRatio : ℚ) (remInputTokens : Int)
    (remChunkTokens : Option Int) (mixedWithDecodeTokens : Int) : Adder where
  cache := cache
  alloc := alloc
  clipMaxNewTokens := clipMaxNewTokens
  nsaEnablePrefillCp := nsaEnablePrefillCp
  runningBatch := runningBatch
  newTokenRatio := newTokenRatio
  remInputTokens := remInputTokens - mixedWithDecodeTokens
  remChunkTokens := remChunkTokens.map (· - mixedWithDecodeTokens)
  remTotalTokenOffset :=
    mixedWithDecodeTokens + runningOffset clipMaxNewTokens newTokenRatio runningBatch
  curRemTokenOffset := mixedWithDecodeTokens
  reqStates := none
  canRunList := []
  newChunkedReq := none

/-- `available_and_evictable`. -/
def availableAndEvictable (s : Adder) : Int := s.alloc.availableSize + s.cache.evictableSize

/-- `rem_total_tokens`. -/
def remTotalTokens (s : Adder) : ℚ := s.availableAndEvictable - s.remTotalTokenOffset

/-- `cur_rem_tokens`. -/
def curRemTokens (s : Adder) : Int := s.availableAndEvictable - s.curRemTokenOffset

/-- `ceil_paged_tokens`. -/
def ceilPagedTokens (s : Adder) (tokens : Int) : Int :=
  -(-tokens / s.cache.pageSize) * s.cache.pageSize

/-- `budget_state`. -/
def budgetState (s : Adder) : AddReqResult :=
  if s.remTotalTokens ≤ 0 ∨ s.curRemTokens ≤ 0 then .noToken
  else if s.remInputTokens ≤ 0 ∨ ∃ n ∈ s.remChunkTokens, n ≤ 0 then .other
  else .cont

/-- `_update_prefill_budget`. -/
def updatePrefillBudget (s : Adder) (extendInputLen : Int) (maxNewTokens : Nat) : Adder :=
  let extendInputLen := s.ceilPagedTokens extendInputLen
  { s with
    remTotalTokenOffset := s.remTotalTokenOffset + (extendInputLen + maxNewTokens)
    curRemTokenOffset := s.curRemTokenOffset + extendInputLen
    remInputTokens := s.remInputTokens - extendInputLen
    remChunkTokens := s.remChunkTokens.map (· - extendInputLen) }

/-- `can_run_list.append`, and the budget of the request. -/
def add (s : Adder) (req : Req) (extendInputLen : Int) (maxNewTokens : Nat) : Adder :=
  updatePrefillBudget { s with canRunList := s.canRunList ++ [req] } extendInputLen maxNewTokens

/-- The tokens a chunked request can get, if there is a chunk size. -/
def chunkTokens (s : Adder) : Option Int :=
  s.remChunkTokens.map fun remChunkTokens => min remChunkTokens (pyInt s.remTotalTokens)

/-- `add_chunked_req`: the request itself is returned if its prefill goes on.
    Without a chunk size the call fails. -/
def addChunkedReq (s : Adder) (req : Req) : Option (Option Req × Adder) :=
  s.chunkTokens.map fun remTokens =>
    let truncated := decide (req.extendInputLen > remTokens)
    let req := req.truncate (min req.extendInputLen remTokens)
    let maxNewTokens := if truncated then 0 else min req.maxNewTokens s.clipMaxNewTokens
    (if truncated then some req else none, s.add req req.extendInputLen maxNewTokens)

/-- The tokens that a request has left and those that it has, unless it has none
    left. -/
def reqState (s : Adder) (req : Req) : Option (ℚ × Nat) :=
  let newTokenRatio := if req.ignoreEos then 1 else s.newTokenRatio
  let tokensLeft := req.maxNewTokens * newTokenRatio - req.outputIds.length
  if tokensLeft ≤ 0 then none
  else some (tokensLeft, req.originInputIds.length + req.outputIds.length)

/-- The place that the loop of `insert_sort` stops at. If no state is greater it is
    the last one, so that a new greatest state goes before it. -/
def insertSort (states : List (ℚ × Nat)) (state : ℚ × Nat) : List (ℚ × Nat) :=
  let i := (states.findIdx? fun other => state.1 ≤ other.1).getD (states.length - 1)
  states.insertIdx i state

/-- `req_states` with the request that is offered. -/
def addReqStates (s : Adder) (req : Req) : List (ℚ × Nat) :=
  match s.reqStates with
  | none =>
    ((req :: s.runningBatch ++ s.canRunList).filterMap s.reqState).insertionSort
      fun x y => x.1 ≤ y.1
  | some states =>
    match s.reqState req with
    | none => states
    | some state => insertSort states state

/-- The loop over `req_states`: the tokens are enough each time that a request is
    about to end. The states that are left are the batch size. -/
def enoughTokens (curRemTokens : Int) : Nat → List (ℚ × Nat) → Bool
  | _, [] => true
  | tokensFreed, (tokensLeft, tokensOccupied) :: rest =>
    let bs := rest.length + 1
    let minFreeTokens : ℚ := curRemTokens + tokensFreed - tokensLeft * bs
    if minFreeTokens ≤ ignoreEosReserveTokens * bs then false
    else enoughTokens curRemTokens (tokensFreed + tokensOccupied) rest

/-- `add_one_req_ignore_eos`. -/
def addOneReqIgnoreEos (s : Adder) (req : Req) : AddReqResult × Adder :=
  if min (s.curRemTokens : ℚ) s.remTotalTokens < s.ceilPagedTokens req.extendInputLen then
    (.noToken, s)
  else
    let states := s.addReqStates req
    let s := { s with reqStates := some states }
    let curRemTokens := s.curRemTokens - s.ceilPagedTokens req.extendInputLen
    if !enoughTokens curRemTokens 0 states then (.noToken, s)
    else match s.remChunkTokens with
      | none =>
        let s := s.add req req.extendInputLen (min req.maxNewTokens s.clipMaxNewTokens)
        (s.budgetState, s)
      | some remChunkTokens =>
        if req.extendInputLen ≤ remChunkTokens then
          let s := s.add req req.extendInputLen (min req.maxNewTokens s.clipMaxNewTokens)
          (s.budgetState, s)
        else if remChunkTokens ≤ 0 then (.other, s)
        else
          -- `fill_ids` is cut without the prefix here.
          let truncLen := remChunkTokens
          let req := { req with
            extendInputLen := truncLen
            fillIds := sliceTo req.fillIds truncLen }
          let s := { s with newChunkedReq := some req }.add req truncLen 0
          (s.budgetState, s)

/-- `truncation_align_size * (trunc_len // truncation_align_size)`, or no length if
    there is not enough. An align size of zero fails. -/
def alignTrunc (truncLen : Int) : Option Nat → Option (Option Int)
  | none => some (some truncLen)
  | some align =>
    if truncLen < align then some none
    else if align = 0 then none
    else some (some (align * (truncLen / align)))

/-- The branch for a hit on the host. The page size stays. -/
def loadBack (s : Adder) (req : Req) (loaded : LoadBack) : Adder × Req :=
  if req.hostHitLength > 0 then
    let prefixIndices := req.prefixIndices ++ loaded.newIndices
    ({ s with cache := { loaded.cache with pageSize := s.cache.pageSize }, alloc := loaded.alloc },
      { req with
        prefixIndices := prefixIndices
        lastNode := loaded.lastNode
        extendInputLen := req.fillIds.length - prefixIndices.length
        cacheProtectedLen := prefixIndices.length })
  else (s, req)

/-- The body of the `with` of `add_one_req` behind this branch, where the node of the
    request is locked. It may return from the call. -/
def addLoaded (s : Adder) (req : Req) (truncationAlignSize : Option Nat) :
    Option (Option AddReqResult × Adder) :=
  let inputTokens := s.ceilPagedTokens req.extendInputLen
  if s.remInputTokens ≤ inputTokens ∧ s.canRunList.length ≠ 0 then some (some .other, s)
  else
    let locked := { s with cache := (s.cache.incLockRef req.lastNode).2 }
    let whole := some (none, locked.add req inputTokens (min req.maxNewTokens s.clipMaxNewTokens))
    match s.remChunkTokens with
    | none => whole
    | some remChunkTokens =>
      if inputTokens ≤ remChunkTokens then whole
      else
        let truncLen := remChunkTokens / s.cache.pageSize * s.cache.pageSize
        if truncLen ≤ 0 then some (some .other, s)
        else (alignTrunc truncLen truncationAlignSize).map fun aligned =>
          match aligned with
          | none => (some .other, s)
          | some truncLen =>
            let req := req.truncate truncLen
            (none, { locked with newChunkedReq := some req }.add req truncLen 0)

/-- The body of the `with` of `add_one_req`. -/
def addLocked (s : Adder) (req : Req) (totalTokens : Int) (truncationAlignSize : Option Nat)
    (loaded : LoadBack) : Option (Option AddReqResult × Adder) :=
  if s.remTotalTokens ≤ totalTokens then some (some .noToken, s)
  else
    let (s, req) := s.loadBack req loaded
    s.addLoaded req truncationAlignSize

/-- `add_one_req`. -/
def addOneReq (s : Adder) (req : Req) (truncationAlignSize : Option Nat) (loaded : LoadBack) :
    Option (AddReqResult × Adder) :=
  if s.nsaEnablePrefillCp = true ∧ s.canRunList.length ≥ 1 then some (.other, s)
  else if req.ignoreEos = true ∧ s.cache.disable = true then some (s.addOneReqIgnoreEos req)
  else
    let totalTokens := req.extendInputLen +
      min (max ((req.maxNewTokens : Int) - req.outputIds.length) 0) s.clipMaxNewTokens
    let realInputTokens := s.ceilPagedTokens (req.extendInputLen - req.hostHitLength)
    if s.remTotalTokens ≤ totalTokens then some (.noToken, s)
    else if s.remInputTokens ≤ realInputTokens ∧ s.canRunList.length ≠ 0 then some (.other, s)
    else
      let locked := { s with cache := (s.cache.incLockRef req.lastNode).2 }
      (locked.addLocked req totalTokens truncationAlignSize loaded).map fun (returned, s) =>
        let s := { s with cache := (s.cache.decLockRef req.lastNode).2 }
        (returned.getD s.budgetState, s)

end Adder

/-- `evict_from_tree_cache`. -/
def evictFromTreeCache (order : List TreeNode → Nat) (c : Cache) (a : Allocator)
    (numTokens : Nat) : Cache × Allocator :=
  if a.availableSize < numTokens then
    let (removed, c) := c.evict order numTokens
    (c, Serving.freeLeaves a removed)
  else (c, a)

/-- `alloc_for_extend` with its eviction. -/
def allocForExtend (order : List TreeNode → Nat) (c : Cache) (a : Allocator)
    (batch : List Serving.Req) : Option (List (List Nat) × Cache × Allocator) :=
  let extendNumTokens :=
    (batch.map fun req => req.fillIds.length - req.prefixIndices.length).sum
  let numTokens :=
    if c.pageSize = 1 then extendNumTokens
    else extendNumTokens + batch.length * a.pageSize
  let (c, a) := evictFromTreeCache order c a numTokens
  (Serving.allocForExtend a batch).map fun (outs, a) => (outs, c, a)

/-- `alloc_for_decode` with its eviction. -/
def allocForDecode (order : List TreeNode → Nat) (c : Cache) (a : Allocator)
    (batch : List Serving.Req) : Option (List Nat × Cache × Allocator) :=
  let numTokens := if c.pageSize = 1 then batch.length else batch.length * a.pageSize
  let (c, a) := evictFromTreeCache order c a numTokens
  (Serving.allocForDecode a batch).map fun (outs, a) => (outs, c, a)

/-- `new_page_count_next_decode`. -/
def newPageCountNextDecode (enableOverlap : Bool) (pageSize : Nat) (batch : List Serving.Req) :
    Nat :=
  if pageSize = 1 then batch.length
  else batch.countP fun req =>
    (if enableOverlap then (req.tokens.length : Int) else req.tokens.length - 1) % pageSize = 0

/-- `check_decode_mem`, which evicts before it compares. -/
def checkDecodeMem (order : List TreeNode → Nat) (enableOverlap : Bool) (c : Cache)
    (a : Allocator) (batch : List Serving.Req) : Bool × Cache × Allocator :=
  let numTokens := newPageCountNextDecode enableOverlap a.pageSize batch * a.pageSize
  let (c, a) := evictFromTreeCache order c a numTokens
  (numTokens ≤ a.availableSize, c, a)

/-- `extend_input_len` is what `init_next_round_input` sets it to. -/
def Req.Sized (req : Req) : Prop :=
  0 ≤ req.extendInputLen ∧
  req.prefixIndices.length + req.extendInputLen = req.fillIds.length

/-- The request has been matched: its node is in the tree, or it has no prefix. -/
def Req.Matched (c : Cache) (req : Req) : Prop :=
  (req.lastNode = rootNode ∧ req.prefixIndices = []) ∨
  0 < c.children.count (·.id == req.lastNode)

/-- The calls on one adder, with the lookups in between. -/
inductive Call where
  | matchPrefix (key : RadixKey)
  | addChunkedReq (req : Req)
  | addOneReq (req : Req) (truncationAlignSize : Option Nat)
  | addOneReqIgnoreEos (req : Req)

/-- The calls on an adder, where the nodes of `held` are locked by the requests of
    the server. A chunked request is one of them and goes on only with at least one
    token, and none has a hit on the host. Between the calls the requests are matched. -/
def Step (held : List Nat) (s : Adder) (call : Call) (s' : Adder) : Prop :=
  match call with
  | .matchPrefix key =>
    ∃ result c, s.cache.matchPrefix key = .ok (result, c) ∧ s' = { s with cache := c }
  | .addChunkedReq req =>
    req.Sized ∧ req.lastNode ∈ held ∧ (∀ remTokens ∈ s.chunkTokens, 1 ≤ remTokens) ∧
    ∃ r, s.addChunkedReq req = some (r, s')
  | .addOneReq req truncationAlignSize =>
    req.Sized ∧ req.Matched s.cache ∧ req.hostHitLength = 0 ∧
    ∃ loaded r, s.addOneReq req truncationAlignSize loaded = some (r, s')
  | .addOneReqIgnoreEos req =>
    req.Sized ∧ req.Matched s.cache ∧ ∃ r, s.addOneReqIgnoreEos req = (r, s')

end SglangInc.Prefill
