import SglangInc.Lib.Ring

/-!
# The Overlap Scheduler

`managers/overlap_utils.py` and the loop around it, `event_loop_overlap`,
`get_next_batch_to_run` and `run_batch` of `managers/scheduler.py`.

A batch is launched before the tokens of the batch in front of it are known. Each
launch reserves an index of the future map for each of its requests; `output_ids`
holds the negated indices, and the next decode batch has them as its input ids.
`resolve_future` replaces them by what was stored at these indices in the
meantime. With speculative decoding it is not a token that is stored for a
request but its draft state, and the indices are in `spec_info.future_indices`.

There is one buffer: `token_ids_buf`, or the five buffers of draft states, of
which an entry has a row each. They are made at the first store. An entry that was
never written is `none`.

One iteration of the loop is modelled. Which requests finish, what is in the queue
and what the scheduler decides is not, and an `Iteration` has any choice of that:
the positions that `filter_batch` and `retract_decode` keep, and the next batch.
A decode launch takes the whole running batch, as in the source. Results are
processed on the host, which does not touch the future map. `log` has the launches
so far, the newest first; it is not in the source.
-/

namespace SglangInc.Overlap

/-- `spec_algo`; the other algorithms do not run with the overlap scheduler. -/
inductive SpecAlgorithm where
  | none
  | eagle
deriving DecidableEq, Repr

/-- What is stored for a request: its next token, or its draft state. -/
inductive Stored (δ : Type) where
  | token (id : Int)
  | draft (state : δ)
deriving DecidableEq, Repr

/-- What the calls raise. -/
inductive Error where
  | indexError
  | attributeError
  | shapeMismatch
deriving DecidableEq, Repr

/-- `FutureIndices`, of a launch: `interval`, with `indices` in its order. -/
structure FutureIndices where
  start : Nat
  stop : Nat
deriving DecidableEq, Repr

/-- `arange(start, stop)`. -/
def FutureIndices.indices (f : FutureIndices) : List Nat := List.range' f.start (f.stop - f.start)

/-- `FutureMap`, with its counter and the buffer. -/
structure FutureMap (δ : Type) where
  specAlgo : SpecAlgorithm
  futureCt : Nat
  futureLimit : Nat
  futureBufferLen : Nat
  buf : Option (List (Option (Stored δ)))
deriving DecidableEq, Repr

/-- `max_num_chunks`, where `chunked_prefill_size` is `None` if it is disabled. -/
def maxNumChunks (chunkedPrefillSize : Option Nat) (contextLen : Nat) : Nat :=
  match chunkedPrefillSize with
  | none => 0
  | some size => if size = 0 then 0 else (contextLen + size - 1) / size

namespace FutureMap

variable {δ : Type}

/-- `__init__`. -/
def init (maxRunningRequests : Nat) (chunkedPrefillSize : Option Nat) (contextLen : Nat)
    (specAlgo : SpecAlgorithm) : FutureMap δ :=
  let futureLimit := maxRunningRequests * (3 + maxNumChunks chunkedPrefillSize contextLen)
  let futureBufferLen := futureLimit + 2 * maxRunningRequests
  { specAlgo := specAlgo
    futureCt := 0
    futureLimit := futureLimit
    futureBufferLen := futureBufferLen
    buf := match specAlgo with
      | .none => some (List.replicate futureBufferLen none)
      | .eagle => none }

/-- `alloc_future_indices`. -/
def allocFutureIndices (m : FutureMap δ) (bs : Nat) : FutureIndices × FutureMap δ :=
  (⟨m.futureCt + 1, m.futureCt + 1 + bs⟩, { m with futureCt := (m.futureCt + bs) % m.futureLimit })

/-- The buffer, if it has been made. -/
def getBuf (m : FutureMap δ) : Except Error (List (Option (Stored δ))) :=
  match m.buf with
  | none => .error .attributeError
  | some buf => .ok buf

/-- `buf[index]`. -/
def read (buf : List (Option (Stored δ))) (index : Nat) : Except Error (Option (Stored δ)) :=
  match buf[index]? with
  | none => .error .indexError
  | some entry => .ok entry

/-- `_resolve_future_token_ids`. Both sides of `torch.where` are computed. -/
def resolveFutureTokenIds (buf : List (Option (Stored δ))) (inputIds : List Int) :
    Except Error (List (Option (Stored δ))) :=
  inputIds.mapM fun id => do
    let future ← read buf (max (-id) 0).toNat
    return if id < 0 then future else some (.token id)

/-- `resolve_future`, for the input ids and `spec_info.future_indices`: a batch
    without `spec_info` has none. -/
def resolveFuture (m : FutureMap δ) (inputIds : List Int) (futureIndices : Option (List Nat)) :
    Except Error (List (Option (Stored δ))) :=
  match m.specAlgo with
  | .eagle =>
    match futureIndices with
    | none => .ok []
    | some indices => do
        let buf ← m.getBuf
        indices.mapM (read buf)
  | .none => do
      let buf ← m.getBuf
      resolveFutureTokenIds buf inputIds

/-- `buf[intv] = values`. -/
def assign (buf : List (Option (Stored δ))) (intv : FutureIndices) (values : List (Stored δ)) :
    Except Error (List (Option (Stored δ))) :=
  if min intv.stop buf.length - min intv.start buf.length = values.length then
    .ok (Ring.write buf (min intv.start buf.length) (values.map some))
  else .error .shapeMismatch

/-- `is_empty_slice`. -/
def isEmptySlice (m : FutureMap δ) (intv : FutureIndices) : Bool :=
  min intv.stop m.futureBufferLen ≤ min intv.start m.futureBufferLen

/-- `store_to_map`, with `store_to_map_for_new_batch` and `_lazy_init_buf`. -/
def storeToMap (m : FutureMap δ) (futureIndices : FutureIndices) (values : List (Stored δ)) :
    Except Error (FutureMap δ) :=
  match m.specAlgo with
  | .eagle =>
    if m.isEmptySlice futureIndices then .ok m
    else do
      let buf ← assign (m.buf.getD (List.replicate m.futureBufferLen none)) futureIndices values
      return { m with buf := some buf }
  | .none => do
      let buf ← m.getBuf
      let buf ← assign buf futureIndices values
      return { m with buf := some buf }

end FutureMap

/-- A request of a batch that was launched, with its entries of `output_ids` and
    of `spec_info.future_indices`. -/
structure Row where
  rid : Nat
  outputId : Int
  futureIndex : Nat
deriving DecidableEq, Repr

/-- A request of a prefill batch, with its part of `input_ids`. -/
structure Request where
  rid : Nat
  inputIds : List Int
deriving DecidableEq, Repr

/-- A batch that is to be launched: requests that are prefilled, and running ones
    that are decoded. A mixed batch has both. -/
structure Batch where
  prefill : List Request
  decode : List Row
deriving DecidableEq, Repr

namespace Batch

/-- The requests of a batch. -/
def rids (b : Batch) : List Nat := b.prefill.map (·.rid) ++ b.decode.map (·.rid)

/-- `len(seq_lens)`. -/
def bs (b : Batch) : Nat := b.prefill.length + b.decode.length

/-- `input_ids`, each id with the request it is for. -/
def inputIds (b : Batch) : List (Nat × Int) :=
  b.prefill.flatMap (fun req => req.inputIds.map (req.rid, ·)) ++
    b.decode.map fun row => (row.rid, row.outputId)

/-- `spec_info.future_indices`; a prefill batch has no `spec_info`. -/
def futureIndices (b : Batch) : Option (List Nat) :=
  if b.prefill = [] then some (b.decode.map (·.futureIndex)) else none

end Batch

/-- A launch: the batch, the indices it got, what `resolve_future` made of its
    input, and what was stored for its requests. -/
structure Launch (δ : Type) where
  batch : Batch
  indices : FutureIndices
  resolved : List (Option (Stored δ))
  results : List (Stored δ)
deriving DecidableEq, Repr

/-- The scheduler between two iterations. -/
structure State (δ : Type) where
  futureMap : FutureMap δ
  runningBatch : List Row
  /-- The requests of `last_batch`, if that was a prefill or a mixed batch. -/
  lastBatch : List Row
  log : List (Launch δ)
deriving DecidableEq, Repr

/-- What the scheduler does next. -/
inductive Next where
  /-- A prefill batch; `mixed` has the positions of the running batch that stay, if
      it is mixed with the running batch. -/
  | prefill (reqs : List Request) (mixed : Option (List Nat))
  /-- The running batch, with the positions of it that stay. -/
  | decode (keepIndices : List Nat)
  | idle
deriving DecidableEq, Repr

/-- The choices in one iteration: the positions of `last_batch` that are merged
    into the running batch (none if it is prefill-only), the next batch, what the
    model computes for it, and whether it is sampled later. -/
structure Iteration (δ : Type) where
  keepLast : List Nat
  next : Next
  results : List (Stored δ)
  delaySample : Bool
deriving DecidableEq, Repr

/-- `filter_batch`. -/
def filterBatch (rows : List Row) (keepIndices : List Nat) : List Row :=
  keepIndices.filterMap fun i => rows[i]?

namespace State

variable {δ : Type}

/-- No request, and nothing stored. -/
def init (maxRunningRequests : Nat) (chunkedPrefillSize : Option Nat) (contextLen : Nat)
    (specAlgo : SpecAlgorithm) : State δ :=
  ⟨FutureMap.init maxRunningRequests chunkedPrefillSize contextLen specAlgo, [], [], []⟩

/-- `get_next_batch_to_run`: the running batch that is left, and the batch to
    launch. -/
def getNextBatchToRun (s : State δ) (keepLast : List Nat) (next : Next) : List Row × Option Batch :=
  let running := s.runningBatch ++ filterBatch s.lastBatch keepLast
  match next with
  | .prefill reqs mixed =>
    if reqs = [] then (running, none)
    else
      match mixed with
      | none => (running, some ⟨reqs, []⟩)
      | some keepIndices => ([], some ⟨reqs, filterBatch running keepIndices⟩)
  | .decode keepIndices =>
    let batch := filterBatch running keepIndices
    (batch, if batch = [] then none else some ⟨[], batch⟩)
  | .idle => (running, none)

/-- The requests of a batch with their indices. -/
def rowsOf (rids : List Nat) (indices : FutureIndices) : List Row :=
  List.zipWith (fun rid (index : Nat) => ⟨rid, -(index : Int), index⟩) rids indices.indices

/-- `run_batch`: the launch and, if the batch is sampled later, nothing stored
    yet. -/
def runBatch (m : FutureMap δ) (batch : Batch) (results : List (Stored δ)) (delaySample : Bool) :
    Except Error (FutureMap δ × Launch δ) := do
  let (indices, m) := m.allocFutureIndices batch.bs
  let resolved ← m.resolveFuture (batch.inputIds.map (·.2)) batch.futureIndices
  let m ← if delaySample then .ok m else m.storeToMap indices results
  return (m, ⟨batch, indices, resolved, results⟩)

/-- `launch_batch_sample_if_needed`. -/
def launchBatchSampleIfNeeded (m : FutureMap δ) (launch : Launch δ) (delaySample : Bool) :
    Except Error (FutureMap δ) :=
  if delaySample then m.storeToMap launch.indices launch.results else .ok m

/-- An iteration of `event_loop_overlap`. -/
def iterate (s : State δ) (it : Iteration δ) : Except Error (State δ) :=
  match s.getNextBatchToRun it.keepLast it.next with
  | (running, none) => .ok { s with runningBatch := running, lastBatch := [] }
  | (running, some batch) => do
      let (m, launch) ← runBatch s.futureMap batch it.results it.delaySample
      let m ← launchBatchSampleIfNeeded m launch it.delaySample
      let rows := rowsOf batch.rids launch.indices
      -- A decode batch is the running batch itself; any other is merged later.
      return if batch.prefill = [] then ⟨m, rows, [], launch :: s.log⟩
        else ⟨m, running, rows, launch :: s.log⟩

end State

/-- An iteration in which the model computes one result for each request of the
    batch. -/
inductive Step {δ : Type} : State δ → Iteration δ → State δ → Prop
  | iterate {s s' : State δ} {it : Iteration δ}
      (hresults : ∀ batch, (s.getNextBatchToRun it.keepLast it.next).2 = some batch →
        it.results.length = batch.bs)
      (h : s.iterate it = .ok s') : Step s it s'

end SglangInc.Overlap
