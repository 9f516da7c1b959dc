import SglangInc.Core.KvAllocator
import SglangInc.Lib.Lanes
import Mathlib.Data.Nat.Size

/-!
# The KV Cache After a Verification

The part of `EagleVerifyInput.verify` (`speculative/eagle_info.py`) that comes after
the acceptance, and the Triton kernels of `speculative/spec_utils.py` that it runs.

Request `i` has the slots `i * draft_token_num` and following of `out_cache_loc`, one
for each node of its draft tree. The acceptance has chosen a path of nodes
(`accept_index`, filled with -1). Slots of nodes that were not accepted are given
back, and the row of the request is to have the slots of the accepted ones. With
pages only whole pages can be given back: a chain is cut behind the page of its last
accepted node, and a path in a tree is copied to the front of its slots before.

Tensors are functions from the flat index, and those whose size depends on the
acceptance are lists. A kernel runs one program for each request, in any order.
Memory that is not initialised has any content.

When a request finishes is a function of its output ids.
-/

namespace SglangInc.Eagle

open Lanes

/-- `1 << (n - 1).bit_length() if n > 0 else 1`. -/
def nextPowerOf2 (n : Nat) : Nat := if n > 0 then 2 ^ (n - 1).size else 1

/-- What `verify` reads and writes of a request. -/
structure Req where
  outputIds : List Int
  finished : Bool
  kvCommittedLen : Nat
  kvAllocatedLen : Nat

/-- A batch, its rows of `req_to_token` and the content of the slots. -/
structure Batch (α : Type) where
  bs : Nat
  seqLens : Nat → Nat
  seqLensCpu : Nat → Nat
  reqPoolIndices : Nat → Nat
  reqs : Nat → Req
  reqToToken : Nat → Nat
  poolLen : Nat
  outCacheLoc : Nat → Nat
  alloc : Kv.Allocator
  kv : Nat → α

/-- The kernels, whose programs run in any order. -/
inductive Kernel where
  | assignReqToTokenPool
  | alignEvictMaskToPageSize
  | getTargetCacheLoc
  | filterFinishedCacheLoc
deriving DecidableEq, Repr

/-- The sizes, the order of the programs of each kernel and what `torch.empty` has. -/
structure VerifyConfig where
  pageSize : Nat
  topk : Nat
  draftTokenNum : Nat
  order : Kernel → List Nat
  uninit : Nat → Nat

/-- The loop of `assign_req_to_token_pool`, 32 tokens a round. -/
def assignLoop (outCacheLoc : Nat → Nat) (outCachePtr tokenPool kvEnd : Nat) :
    Nat → Nat → Nat → (Nat → Nat) → Nat → Nat
  | 0, _, _, reqToToken => reqToToken
  | numLoop + 1, saveOffset, loadOffset, reqToToken =>
    let mask := fun lane => decide (saveOffset + lane < kvEnd)
    let data := load outCacheLoc (outCachePtr + loadOffset) mask
    assignLoop outCacheLoc outCachePtr tokenPool kvEnd numLoop (saveOffset + 32)
      (loadOffset + 32) (store reqToToken (tokenPool + saveOffset) 32 mask data)

/-- `assign_req_to_token_pool`. -/
def assignReqToTokenPool (reqPoolIndices startOffset endOffset outCacheLoc : Nat → Nat)
    (poolLen bsUpper : Nat) (reqToToken : Nat → Nat) (pid : Nat) : Nat → Nat :=
  let kvStart := startOffset pid
  let kvEnd := endOffset pid
  let tokenPool := reqPoolIndices pid * poolLen
  let before := fun lane => decide (lane < pid)
  let outOffset := sum bsUpper fun lane =>
    load endOffset 0 before lane - load startOffset 0 before lane
  let numLoop := (kvEnd - kvStart + 31) / 32
  assignLoop outCacheLoc outOffset tokenPool kvEnd numLoop kvStart 0 reqToToken

/-- `align_evict_mask_to_page_size`. -/
def alignEvictMaskToPageSize (seqLens : Nat → Nat) (pageSize numDraftTokens blockSize : Nat)
    (evictMask : Nat → Bool) (bid : Nat) : Nat → Bool :=
  let seqLen := seqLens bid
  let numTrues := sum blockSize fun t =>
    if t < numDraftTokens ∧ evictMask (bid * numDraftTokens + t) then 1 else 0
  let numFalse := numDraftTokens - numTrues
  let start : Int := ((seqLen + numFalse - 1) / pageSize * pageSize : Nat) - (seqLen : Int)
  let first := (max start 0).toNat
  let last := (min (start + pageSize) numDraftTokens).toNat
  (List.range' first (last - first)).foldl
    (fun mask i => Function.update mask (bid * numDraftTokens + i) false) evictMask

/-- `get_target_cache_loc`, which writes `tgt_cache_loc` and `to_free_slots`. -/
def getTargetCacheLoc (acceptLength toFreeNumSlots outCacheLoc : Nat → Nat)
    (numVerifyTokens numVerifyTokensUpper bsUpper : Nat) (bufs : (Nat → Nat) × (Nat → Nat))
    (bid : Nat) : (Nat → Nat) × (Nat → Nat) :=
  let before := fun lane => decide (lane < bid)
  let tgtCacheLocStart := sum bsUpper (load acceptLength 0 before) + bid
  let copyLen := acceptLength bid + 1
  let first := fun lane => decide (lane < copyLen)
  let tgtCacheLoc := store bufs.1 tgtCacheLocStart numVerifyTokensUpper first
    (load outCacheLoc (bid * numVerifyTokens) first)
  let toFreeSlotsStart := sum bsUpper (load toFreeNumSlots 0 before)
  let toFreeNumSlotsCur := toFreeNumSlots bid
  let outCacheLocStart := numVerifyTokens - toFreeNumSlotsCur
  let last := fun lane => decide (lane < toFreeNumSlotsCur)
  let toFreeSlots := store bufs.2 toFreeSlotsStart numVerifyTokensUpper last
    (load outCacheLoc (bid * numVerifyTokens + outCacheLocStart) last)
  (tgtCacheLoc, toFreeSlots)

/-- `filter_finished_cache_loc_kernel`. -/
def filterFinishedCacheLoc (tgtCacheLoc acceptLength acceptLengthFilter : Nat → Nat)
    (bsUpper numVerifyTokensUpper : Nat) (outCacheLoc : Nat → Nat) (bid : Nat) : Nat → Nat :=
  let before := fun lane => decide (lane < bid)
  let oldStart := sum bsUpper (load acceptLength 0 before) + bid
  let newStart := sum bsUpper (load acceptLengthFilter 0 before)
  let copyLen := acceptLengthFilter bid
  let mask := fun lane => decide (lane < copyLen)
  store outCacheLoc newStart numVerifyTokensUpper mask (load tgtCacheLoc oldStart mask)

/-- A request after some of its accepted tokens, its row of `accept_index` and whether
    it has finished there. -/
structure AcceptedRow where
  req : Req
  row : List Int
  hasFinished : Bool

/-- The loop over the accepted tokens of a request. -/
def acceptTokens (checkFinished : List Int → Bool) (predict : Nat → Int) :
    Req → List Int → AcceptedRow
  | req, [] => ⟨req, [], false⟩
  | req, idx :: rest =>
    if idx = -1 then ⟨req, idx :: rest, false⟩
    else
      let outputIds := req.outputIds ++ [predict idx.toNat]
      let req := { req with
        outputIds := outputIds
        finished := req.finished || checkFinished outputIds }
      if req.finished then ⟨req, idx :: rest.map fun _ => -1, true⟩
      else
        let r := acceptTokens checkFinished predict req rest
        ⟨r.req, idx :: r.row, r.hasFinished⟩

/-- `accept_index[i, :j]` where the loop has stopped at -1, or the whole row. -/
def unfinishedRow (row : List Int) : List Int :=
  match row.findIdx? (· == -1) with
  | some j => row.take j
  | none => row

/-- What is known after the loop over the requests. -/
structure Acceptance where
  rows : Nat → AcceptedRow
  acceptLength : Nat → Nat
  hasFinished : Bool
  acceptIndex : List Nat
  unfinishedIndex : List Nat
  unfinishedAcceptIndex : List Nat

/-- The loop over the requests, and the tensors that are made from it. -/
def acceptBatch (bs : Nat) (checkFinished : Nat → List Int → Bool) (predict : Nat → Int)
    (reqs : Nat → Req) (acceptIndex : Nat → List Int) (acceptLength : Nat → Nat) : Acceptance :=
  let rows := fun i => acceptTokens (checkFinished i) predict (reqs i) (acceptIndex i)
  let hasFinished := (List.range bs).any fun i => (rows i).hasFinished
  let unfinishedIndex := (List.range bs).filter fun i => !(rows i).req.finished
  { rows := rows
    hasFinished := hasFinished
    acceptLength := if hasFinished then fun i => ((rows i).row.countP (· != -1)) - 1
      else acceptLength
    acceptIndex := (List.range bs).flatMap fun i =>
      ((rows i).row.filter (· != -1)).map Int.toNat
    unfinishedIndex := unfinishedIndex
    unfinishedAcceptIndex := unfinishedIndex.flatMap fun i =>
      (unfinishedRow (rows i).row).map Int.toNat }

/-- `EagleDraftInput`, for the requests that go on. -/
structure DraftInput where
  verifiedId : List Int
  acceptLength : List Nat
  seqLensForDraftExtend : List Nat
  seqLensForDraftExtendCpu : List Nat
  reqPoolIndicesForDraftExtend : List Nat
deriving DecidableEq, Repr

/-- The batch after `verify`, and what it returns. There is no draft input when all the
    requests have finished. -/
structure VerifyOutput (α : Type) where
  seqLens : Nat → Nat
  seqLensCpu : Nat → Nat
  reqs : Nat → Req
  reqToToken : Nat → Nat
  outCacheLoc : List Nat
  alloc : Kv.Allocator
  kv : Nat → α
  draftInput : Option DraftInput
  verifiedId : List Int
  acceptLengthPerReqCpu : List Nat
  acceptedIndices : List Nat

/-- What the slots that were not accepted leave behind. -/
structure Freed (α : Type) where
  reqs : Nat → Req
  alloc : Kv.Allocator
  kv : Nat → α
  tgtCacheLoc : Nat → Nat

/-- `move_kv_cache`, which reads all its sources first. -/
def moveKvCache {α : Type} (kv : Nat → α) (tgtLoc srcLoc : List Nat) : Nat → α :=
  (tgtLoc.zip srcLoc).foldl (fun kv' loc => Function.update kv' loc.1 (kv loc.2)) kv

/-- `kv_committed_len` and `kv_allocated_len` after the tokens of a request. -/
def Req.commit (req : Req) (acceptLength : Nat) : Req :=
  { req with
    kvCommittedLen := req.kvCommittedLen + (acceptLength + 1)
    kvAllocatedLen := req.kvCommittedLen + (acceptLength + 1) }

namespace VerifyConfig

variable {α : Type} (c : VerifyConfig)

/-- `out_cache_loc[evict_mask]`. -/
def selectMask (bs : Nat) (outCacheLoc : Nat → Nat) (evictMask : Nat → Bool) : List Nat :=
  ((List.range (bs * c.draftTokenNum)).filter evictMask).map outCacheLoc

/-- `get_src_tgt_cache_loc`: `to_free_num_slots`. -/
def toFreeNumSlots (seqLens acceptLength : Nat → Nat) (i : Nat) : Nat :=
  let extendedLen := seqLens i + c.draftTokenNum
  let keepLen := min
    ((seqLens i + acceptLength i + 1 + c.pageSize - 1) / c.pageSize * c.pageSize) extendedLen
  extendedLen - keepLen

/-- The slots of the tokens that were not accepted are given back. -/
def freeUnaccepted (batch : Batch α) (acc : Acceptance) : Freed α :=
  let evictMask := fun k => decide (k ∉ acc.acceptIndex)
  let reqs := fun i => (acc.rows i).req
  let committed := fun i => (acc.rows i).req.commit (acc.acceptLength i)
  if c.pageSize = 1 then
    { reqs := committed
      alloc := batch.alloc.free (c.selectMask batch.bs batch.outCacheLoc evictMask)
      kv := batch.kv
      tgtCacheLoc := c.uninit }
  else if c.topk = 1 then
    let evictMask := (c.order .alignEvictMaskToPageSize).foldl
      (alignEvictMaskToPageSize batch.seqLens c.pageSize c.draftTokenNum
        (nextPowerOf2 c.draftTokenNum)) evictMask
    { reqs := committed
      alloc := batch.alloc.free (c.selectMask batch.bs batch.outCacheLoc evictMask)
      kv := batch.kv
      tgtCacheLoc := c.uninit }
  else
    let srcCacheLoc := acc.acceptIndex.map batch.outCacheLoc
    let toFreeNumSlots := c.toFreeNumSlots batch.seqLens acc.acceptLength
    let bufs := (c.order .getTargetCacheLoc).foldl
      (getTargetCacheLoc acc.acceptLength toFreeNumSlots batch.outCacheLoc c.draftTokenNum
        (nextPowerOf2 c.draftTokenNum) (nextPowerOf2 batch.bs)) (c.uninit, c.uninit)
    let toFreeSlots := (List.range (offset toFreeNumSlots batch.bs)).map bufs.2
    { reqs := reqs
      alloc := batch.alloc.free toFreeSlots
      kv := moveKvCache batch.kv ((List.range srcCacheLoc.length).map bufs.1) srcCacheLoc
      tgtCacheLoc := bufs.1 }

/-- `assign_req_to_token_pool_func`, with the rows up to `end_offset`. -/
def assignFunc (batch : Batch α) (endOffset : Nat → Nat) (outCacheLoc : List Nat) : Nat → Nat :=
  (c.order .assignReqToTokenPool).foldl
    (assignReqToTokenPool batch.reqPoolIndices batch.seqLens endOffset
      (fun k => outCacheLoc.getD k 0) batch.poolLen (nextPowerOf2 batch.bs)) batch.reqToToken

/-- `create_accept_length_filter`. -/
def acceptLengthFilter (acc : Acceptance) (i : Nat) : Nat :=
  if i ∈ acc.unfinishedIndex then acc.acceptLength i + 1 else 0

/-- The new `out_cache_loc` when some requests have finished. -/
def unfinishedCacheLoc (batch : Batch α) (acc : Acceptance) (tgtCacheLoc : Nat → Nat) : List Nat :=
  if c.pageSize = 1 ∨ c.topk = 1 then acc.unfinishedAcceptIndex.map batch.outCacheLoc
  else
    let size := acc.unfinishedIndex.length + (acc.unfinishedIndex.map acc.acceptLength).sum
    (List.range size).map ((c.order .filterFinishedCacheLoc).foldl
      (filterFinishedCacheLoc tgtCacheLoc acc.acceptLength (acceptLengthFilter acc)
        (nextPowerOf2 batch.bs) (nextPowerOf2 c.draftTokenNum)) c.uninit)

/-- `verify` from the acceptance on. -/
def verify (batch : Batch α) (checkFinished : Nat → List Int → Bool) (predict : Nat → Int)
    (acceptIndex : Nat → List Int) (acceptLength : Nat → Nat) : VerifyOutput α :=
  let acc := acceptBatch batch.bs checkFinished predict batch.reqs acceptIndex acceptLength
  let freed := c.freeUnaccepted batch acc
  let indexed := decide (c.pageSize = 1 ∨ c.topk = 1)
  let verifiedId := acc.acceptIndex.map predict
  let newSeqLens := fun i => batch.seqLens i + (acc.acceptLength i + 1)
  let newSeqLensCpu := fun i => batch.seqLensCpu i + (acc.acceptLength i + 1)
  let assigned := if indexed then
      c.assignFunc batch (fun i => batch.seqLens i + acc.acceptLength i + 1)
        (acc.acceptIndex.map batch.outCacheLoc)
    else batch.reqToToken
  if !acc.hasFinished then
    { seqLens := newSeqLens
      seqLensCpu := newSeqLensCpu
      reqs := freed.reqs
      reqToToken := assigned
      outCacheLoc := if indexed then acc.acceptIndex.map batch.outCacheLoc
        else (List.range acc.acceptIndex.length).map freed.tgtCacheLoc
      alloc := freed.alloc
      kv := freed.kv
      draftInput := some
        { verifiedId := verifiedId
          acceptLength := (List.range batch.bs).map acc.acceptLength
          seqLensForDraftExtend := (List.range batch.bs).map newSeqLens
          seqLensForDraftExtendCpu := (List.range batch.bs).map newSeqLensCpu
          reqPoolIndicesForDraftExtend := (List.range batch.bs).map batch.reqPoolIndices }
      verifiedId := verifiedId
      acceptLengthPerReqCpu := (List.range batch.bs).map acc.acceptLength
      acceptedIndices := acc.acceptIndex }
  else
    let some' := decide (acc.unfinishedIndex ≠ [])
    { seqLens := if indexed || some' then newSeqLens else batch.seqLens
      seqLensCpu := if indexed || some' then newSeqLensCpu else batch.seqLensCpu
      reqs := freed.reqs
      reqToToken := assigned
      outCacheLoc := if some' then c.unfinishedCacheLoc batch acc freed.tgtCacheLoc
        else (List.range (batch.bs * c.draftTokenNum)).map batch.outCacheLoc
      alloc := freed.alloc
      kv := freed.kv
      draftInput := if some' then some
          { verifiedId := acc.unfinishedAcceptIndex.map predict
            acceptLength := acc.unfinishedIndex.map acc.acceptLength
            seqLensForDraftExtend := acc.unfinishedIndex.map newSeqLens
            seqLensForDraftExtendCpu := acc.unfinishedIndex.map newSeqLensCpu
            reqPoolIndicesForDraftExtend := acc.unfinishedIndex.map batch.reqPoolIndices }
        else none
      verifiedId := verifiedId
      acceptLengthPerReqCpu := (List.range batch.bs).map acc.acceptLength
      acceptedIndices := acc.acceptIndex }

end VerifyConfig

end SglangInc.Eagle
