import Mathlib.Data.List.Perm.Subperm

/-!
# Aborting a Request

`abort_request` of `managers/scheduler.py` and what becomes of a request in each
mode of the scheduler: unified, and the two halves of a disaggregated server
(`disaggregation/prefill.py`, `disaggregation/decode.py`).

A request is kept with the place it is at, a queue or a batch; the order inside a
queue does not matter here. What a request can own are slots for its KV cache, a
row of `req_to_token_pool`, a slot of the Mamba pool and an index of the metadata
buffers. The four pools are one list `free`, and what the prefix cache holds is
`tree`.

`release_kv_cache` hands the slots of a request over to the prefix cache or frees
them. Which of them a radix cache takes depends on what it has already, and is an
argument (`Takes`); that it keeps or frees each of them is
`Serving.cacheFinishedReq_conserved`. A chunk cache takes none. Locks on the nodes
of the tree are left out.

What the scheduler decides, the slots an allocation returns and what a poll of a
transfer says are arguments of `Op` as well. `abort` of a sender or a receiver
makes its next poll fail, where the transfer backend has it
(`Config.abortable`). Requests that have finished are not kept.
-/

namespace SglangInc.Abort

/-- `DisaggregationMode`; `NULL` is the unified mode. -/
inductive Mode where
  | unified
  | prefill
  | decode
deriving DecidableEq, Repr

/-- What a request can own. -/
inductive Resource where
  | kv (slot : Nat)
  | row (reqPoolIdx : Nat)
  | mamba (mambaPoolIdx : Nat)
  | metadata (index : Nat)
deriving DecidableEq, Repr

/-- Where a request is. `running` is `running_batch` or `cur_batch`. -/
inductive Place where
  | waiting
  | grammar
  | running
  /-- `disagg_prefill_bootstrap_queue` and `disagg_prefill_inflight_queue`. -/
  | bootstrap
  | inflight
  /-- `disagg_decode_prealloc_queue`, its `retracted_queue`, and
      `disagg_decode_transfer_queue`. -/
  | prealloc
  | retracted
  | transfer
deriving DecidableEq, Repr

/-- The server arguments that decide how requests are released. -/
structure Config where
  mode : Mode
  /-- `req_to_token_pool` is a `HybridReqToTokenPool`. -/
  mambaPool : Bool
  /-- The prefix cache is a `RadixCache`, or a `MambaRadixCache` if there is a Mamba
      pool. Otherwise it is a `ChunkCache`. -/
  radix : Bool
  /-- `speculative_eagle_topk` is `None` or 1. -/
  enableKvCommittedLen : Bool
  /-- Senders and receivers have an `abort` that makes them fail. -/
  abortable : Bool
  /-- A decode server always has a chunk cache. -/
  decode_chunk : mode = .decode → radix = false
deriving DecidableEq

/-- A request, where it is and what it owns. -/
structure Req where
  rid : String
  place : Place
  /-- The slots of its row that do not belong to the prefix cache. -/
  kv : List Nat
  reqPoolIdx : Option Nat
  mambaPoolIdx : Option Nat
  /-- `None` for -1; of the `DecodeRequest` in decode mode. -/
  metadataBufferIndex : Option Nat
  kvCommittedFreed : Bool
  kvOverallocatedFreed : Bool
  /-- `to_finish` is a `FINISH_ABORT`. -/
  toFinish : Bool
  /-- `grammar` is not `None`. -/
  grammar : Bool
  /-- `abort` of its sender or receiver was called. -/
  transferAborted : Bool
deriving DecidableEq, Repr

/-- What the calls raise. -/
inductive Error where
  /-- `Committed KV cache already freed`, or the same of the overallocated part. -/
  | assertionError
  | attributeError
  | typeError
deriving DecidableEq, Repr

/-- What a radix cache takes of a request: these slots, and its Mamba slot. -/
structure Takes where
  kv : List Nat
  mamba : Bool
deriving DecidableEq, Repr

/-- The pools, what the prefix cache holds, and the requests. -/
structure Scheduler where
  cfg : Config
  free : List Resource
  tree : List Resource
  /-- `req_index_to_mamba_index_mapping`. -/
  mambaIndex : Nat → Nat
  reqs : List Req

namespace Scheduler

/-- All of the pool is free. -/
def init (cfg : Config) (pool : List Resource) : Scheduler :=
  ⟨cfg, pool, [], fun _ => 0, []⟩

/-- Resources go back to their pools. -/
def release (s : Scheduler) (l : List Resource) : Scheduler := { s with free := s.free ++ l }

/-- Resources are taken from their pools. -/
def take (s : Scheduler) (l : List Resource) : Scheduler := { s with free := s.free.diff l }

/-- `req_to_token_pool.free`. -/
def freeRow (s : Scheduler) (reqPoolIdx : Nat) (freeMambaCache : Bool) : Scheduler :=
  s.release (.row reqPoolIdx ::
    if s.cfg.mambaPool && freeMambaCache then [.mamba (s.mambaIndex reqPoolIdx)] else [])

/-- The slots of a request go to the prefix cache, or are freed. -/
def giveSlots (s : Scheduler) (kv kept : List Nat) : Scheduler :=
  { s with
    free := s.free ++ (kv.filter (· ∉ kept)).map .kv
    tree := s.tree ++ (kv.filter (· ∈ kept)).map .kv }

/-- `cache_finished_req`. -/
def cacheFinishedReq (s : Scheduler) (req : Req) (isInsert : Bool) (takes : Takes) :
    Except Error Scheduler :=
  if s.cfg.radix then
    let s := s.giveSlots req.kv (if isInsert then takes.kv else [])
    if s.cfg.mambaPool then
      match req.mambaPoolIdx with
      | none => .error .attributeError
      | some mambaValue =>
        let mambaExist := !(isInsert && takes.mamba)
        let s := if mambaExist then s else { s with tree := s.tree ++ [.mamba mambaValue] }
        match req.reqPoolIdx with
        | some reqPoolIdx => .ok (s.freeRow reqPoolIdx mambaExist)
        -- for abort case
        | none => .ok (s.release [.mamba mambaValue])
    else
      match req.reqPoolIdx with
      | some reqPoolIdx => .ok (s.freeRow reqPoolIdx true)
      | none => .error .typeError
  else
    match req.reqPoolIdx with
    | some reqPoolIdx => .ok ((s.freeRow reqPoolIdx true).giveSlots req.kv [])
    | none => .error .typeError

/-- `release_kv_cache`, with `pop_committed_kv_cache` and
    `pop_overallocated_kv_cache`. -/
def releaseKvCache (s : Scheduler) (req : Req) (isInsert : Bool) (takes : Takes) :
    Except Error (Scheduler × Req) := do
  if s.cfg.enableKvCommittedLen && req.kvCommittedFreed then .error .assertionError
  else
    let s ← s.cacheFinishedReq req isInsert takes
    if req.kvOverallocatedFreed then .error .assertionError
    else
      return (s, { req with
        kvCommittedFreed := s.cfg.enableKvCommittedLen || req.kvCommittedFreed
        kvOverallocatedFreed := true })

/-- The queue that `_add_request_to_queue` puts a request into. -/
def queueOf : Mode → Place
  | .unified => .waiting
  | .prefill => .bootstrap
  | .decode => .prealloc

/-- A request that has just come in. -/
def newReq (rid : String) (place : Place) (grammar : Bool) : Req :=
  ⟨rid, place, [], none, none, none, false, false, false, grammar, false⟩

/-- `req.rid.startswith(recv_req.rid)`. -/
def named (rid : String) (req : Req) : Bool := rid.toList.isPrefixOf req.rid.toList

/-- What is done with a request that was popped from the waiting queue. -/
def dropWaiting (s : Scheduler) (req : Req) : Except Error Scheduler := do
  let (s, req) ← if s.cfg.mode = .decode then s.releaseKvCache req true ⟨[], false⟩
    else .ok (s, req)
  if req.mambaPoolIdx.isSome then
    let (s, _) ← s.releaseKvCache req false ⟨[], false⟩
    return s
  else return s

/-- What is done with a request that is somewhere else. -/
def mark (cfg : Config) (rid : String) (req : Req) : Req :=
  if named rid req then
    match req.place with
    -- `set_finish_with_abort`
    | .grammar => { req with grammar := false, toFinish := true }
    | .bootstrap | .inflight | .prealloc | .transfer =>
      { req with transferAborted := cfg.abortable || req.transferAborted }
    | .running => { req with toFinish := true }
    | .waiting | .retracted => req
  else req

/-- `abort_request`. -/
def abortRequest (s : Scheduler) (rid : String) : Except Error Scheduler := do
  let toDel := fun req : Req => req.place = .waiting ∧ named rid req = true
  let s ← (s.reqs.filter (toDel ·)).reverse.foldlM dropWaiting
    { s with reqs := s.reqs.filter (¬toDel ·) }
  return { s with reqs := s.reqs.map (mark s.cfg rid) }

/-- The Mamba slot a row is allocated with: the one that the request has, or a new
    one. -/
def mambaOf (s : Scheduler) (req : Req) (new : Nat) : Option Nat :=
  if s.cfg.mambaPool then some (req.mambaPoolIdx.getD new) else none

/-- What is taken from the pools for a row and some slots. -/
def needs (s : Scheduler) (req : Req) (row mamba : Nat) (kv : List Nat) : List Resource :=
  .row row :: kv.map .kv ++
    if s.cfg.mambaPool ∧ req.mambaPoolIdx = none then [.mamba mamba] else []

/-- A request gets a row and slots, and goes to `place`. -/
def allocRow (s : Scheduler) (i : Nat) (req : Req) (row mamba : Nat) (kv : List Nat)
    (place : Place) (metadataBufferIndex : Option Nat) : Scheduler :=
  { s.take (s.needs req row mamba kv) with
    mambaIndex := match s.mambaOf req mamba with
      | some m => Function.update s.mambaIndex row m
      | none => s.mambaIndex
    reqs := s.reqs.set i { req with
      place := place
      kv := kv
      reqPoolIdx := some row
      mambaPoolIdx := s.mambaOf req mamba
      metadataBufferIndex := metadataBufferIndex } }

end Scheduler

/-- The events, each for the request at a position. -/
inductive Op where
  | handleGenerateRequest (rid : String) (grammar : Bool)
  /-- `move_ready_grammar_requests`. -/
  | moveReadyGrammar (i : Nat)
  /-- `match_prefix` with `cow_mamba`. -/
  | cowMamba (i m : Nat)
  /-- The request is prefilled, or its first chunk. -/
  | schedule (i row mamba : Nat) (kv : List Nat)
  /-- Slots for the next chunk or the next tokens. -/
  | extend (i : Nat) (kv : List Nat)
  /-- The next chunk: the row is freed, and another one taken. -/
  | nextChunk (i row : Nat)
  /-- `cache_unfinished_req`: the cache takes slots, frees others that it has, and
      forks the Mamba state. -/
  | cacheUnfinishedReq (i : Nat) (kept freed : List Nat) (fork : Option Nat)
  | evict (l : List Resource)
  /-- `retract_decode`. -/
  | retract (i : Nat)
  /-- `process_batch_result` and `process_batch_result_disagg_prefill`. -/
  | processResult (i : Nat) (finished : Bool) (takes : Takes)
  | popBootstrapped (i : Nat) (failed : Bool) (index : Nat)
  | processInflight (i : Nat) (takes : Takes)
  | popPreallocated (i : Nat) (failed : Bool) (row mamba : Nat) (kv : List Nat) (index : Nat)
  | popTransferred (i : Nat) (failed : Bool)
  /-- `get_new_prebuilt_batch`. -/
  | prebuilt (i : Nat)
  | resumeRetracted (i row mamba : Nat) (kv : List Nat)
  | abort (rid : String)
deriving DecidableEq, Repr

namespace Scheduler

/-- `release_kv_cache`, after which the request is dropped. -/
def finish (s : Scheduler) (i : Nat) (req : Req) (isInsert : Bool) (takes : Takes) :
    Except Error Scheduler := do
  let (s, _) ← s.releaseKvCache req isInsert takes
  return { s with reqs := s.reqs.eraseIdx i }

/-- The metadata index of a request is freed. -/
def freeMetadata (s : Scheduler) (req : Req) : Scheduler :=
  s.release (req.metadataBufferIndex.toList.map .metadata)

/-- An event for the request `req` at position `i`. -/
def execAt (s : Scheduler) (i : Nat) (req : Req) : Op → Except Error Scheduler
  | .moveReadyGrammar _ =>
    -- `req.grammar.result(...)`
    if req.grammar then
      .ok { s with reqs := s.reqs.set i { req with place := queueOf s.cfg.mode } }
    else .error .attributeError
  | .cowMamba _ m =>
    .ok { s.take [.mamba m] with reqs := s.reqs.set i { req with mambaPoolIdx := some m } }
  | .schedule _ row mamba kv =>
    .ok (s.allocRow i req row mamba kv .running req.metadataBufferIndex)
  | .extend _ kv =>
    .ok { s.take (kv.map .kv) with reqs := s.reqs.set i { req with kv := req.kv ++ kv } }
  | .nextChunk _ row =>
    match req.reqPoolIdx with
    | none => .error .typeError
    | some reqPoolIdx =>
      let s := (s.freeRow reqPoolIdx false).take [.row row]
      .ok { s with
        mambaIndex := match req.mambaPoolIdx with
          | some m => Function.update s.mambaIndex row m
          | none => s.mambaIndex
        reqs := s.reqs.set i { req with reqPoolIdx := some row } }
  | .cacheUnfinishedReq _ kept freed fork =>
    .ok { s.take (fork.toList.map .mamba) with
      free := (s.take (fork.toList.map .mamba)).free ++ freed.map .kv
      tree := s.tree ++ kept.map .kv ++ fork.toList.map .mamba
      reqs := s.reqs.set i { req with kv := req.kv.diff (kept ++ freed) } }
  | .retract _ => do
      let (s, req) ← s.releaseKvCache req false ⟨[], false⟩
      -- `reset_for_retract`, which leaves `req_pool_idx`
      return { s with reqs := s.reqs.set i { req with
        place := if s.cfg.mode = .decode then .retracted else .waiting
        kv := []
        mambaPoolIdx := none
        kvCommittedFreed := false
        kvOverallocatedFreed := false } }
  | .processResult _ finished takes =>
    if s.cfg.mode = .prefill then
      .ok { s with reqs := s.reqs.set i { req with place := .inflight } }
    else if req.toFinish || finished then s.finish i req true takes
    else .ok s
  | .popBootstrapped _ failed index =>
    if failed then .ok { s with reqs := s.reqs.eraseIdx i }
    else
      .ok { s.take [.metadata index] with
        reqs := s.reqs.set i { req with
          place := .waiting
          metadataBufferIndex := some index } }
  | .processInflight _ takes => do
      let s ← s.finish i req true takes
      return s.freeMetadata req
  | .popPreallocated _ failed row mamba kv index =>
    if failed then .ok { s with reqs := s.reqs.eraseIdx i }
    else .ok ((s.allocRow i req row mamba kv .transfer (some index)).take [.metadata index])
  | .popTransferred _ failed =>
    if failed then do
      let s ← s.finish i req false ⟨[], false⟩
      return s.freeMetadata req
    else
      .ok { s.freeMetadata req with
        reqs := s.reqs.set i { req with place := .waiting, metadataBufferIndex := none } }
  | .prebuilt _ => .ok { s with reqs := s.reqs.set i { req with place := .running } }
  | .resumeRetracted _ row mamba kv =>
    .ok (s.allocRow i req row mamba kv .waiting req.metadataBufferIndex)
  | .handleGenerateRequest .. | .evict .. | .abort .. => .ok s

end Scheduler

/-- The position an event is for. -/
def Op.pos : Op → Option Nat
  | .handleGenerateRequest .. | .evict .. | .abort .. => none
  | .moveReadyGrammar i | .cowMamba i _ | .schedule i .. | .extend i _ | .nextChunk i _
  | .cacheUnfinishedReq i .. | .retract i | .processResult i .. | .popBootstrapped i ..
  | .processInflight i _ | .popPreallocated i .. | .popTransferred i _ | .prebuilt i
  | .resumeRetracted i .. => some i

/-- When an event can happen to a request, and what an allocation returns is
    free. -/
def Op.EnabledAt (s : Scheduler) (req : Req) : Op → Prop
  | .moveReadyGrammar _ => req.place = .grammar
  | .cowMamba _ m => req.place = .waiting ∧ s.cfg.mode ≠ .decode ∧ s.cfg.radix = true ∧
      s.cfg.mambaPool = true ∧ req.mambaPoolIdx = none ∧ [.mamba m].Subperm s.free
  | .schedule _ row mamba kv => req.place = .waiting ∧ s.cfg.mode ≠ .decode ∧
      (s.needs req row mamba kv).Subperm s.free
  | .extend _ kv => req.place = .running ∧ (kv.map Resource.kv).Subperm s.free
  | .nextChunk _ row => req.place = .running ∧
      ∃ r, req.reqPoolIdx = some r ∧ [.row row].Subperm (s.free ++ [.row r])
  | .cacheUnfinishedReq _ kept freed fork => req.place = .running ∧ s.cfg.radix = true ∧
      (kept ++ freed).Subperm req.kv ∧ (fork.toList.map Resource.mamba).Subperm s.free
  | .retract _ => req.place = .running ∧ s.cfg.mode ≠ .prefill
  | .processResult .. => req.place = .running
  | .popBootstrapped _ failed index => req.place = .bootstrap ∧
      (req.transferAborted = true → failed = true) ∧
      (failed = false → [.metadata index].Subperm s.free)
  | .processInflight .. => req.place = .inflight
  | .popPreallocated _ failed row mamba kv index => req.place = .prealloc ∧
      (failed = false → (.metadata index :: s.needs req row mamba kv).Subperm s.free)
  | .popTransferred _ failed => req.place = .transfer ∧ (req.transferAborted = true → failed = true)
  | .prebuilt _ => req.place = .waiting ∧ s.cfg.mode = .decode
  | .resumeRetracted _ row mamba kv => req.place = .retracted ∧
      (s.needs req row mamba kv).Subperm s.free
  | .handleGenerateRequest .. | .evict .. | .abort .. => True

namespace Scheduler

/-- The scheduler after an operation, or what it raises. -/
def exec (s : Scheduler) (op : Op) : Except Error Scheduler :=
  match op with
  | .handleGenerateRequest rid grammar =>
    .ok { s with reqs := s.reqs ++
      [newReq rid (if grammar then .grammar else queueOf s.cfg.mode) grammar] }
  | .evict l => .ok { s with tree := s.tree.diff l, free := s.free ++ l }
  | .abort rid => s.abortRequest rid
  | op =>
    match op.pos.bind (s.reqs[·]?) with
    | some req => s.execAt (op.pos.getD 0) req op
    | none => .ok s

end Scheduler

/-- The operation can come now. -/
def Enabled (s : Scheduler) (op : Op) : Prop :=
  match op with
  | .evict l => l.Subperm s.tree
  | op => ∀ i, op.pos = some i → ∃ req, s.reqs[i]? = some req ∧ op.EnabledAt s req

/-- One operation that does not raise. -/
def Step (s : Scheduler) (op : Op) (s' : Scheduler) : Prop :=
  Enabled s op ∧ s.exec op = .ok s'

end SglangInc.Abort
