import SglangInc.Lib.Columns

/-!
# The Scheduler's Batches

The batch of requests the scheduler runs, `managers/schedule_batch.py`, with the
sampling parameters of its requests (`sampling/sampling_batch_info.py` and
`sampling/penaltylib`) and their draft state (`speculative/eagle_info.py`).

A batch is a list of requests and a dozen arrays beside it that are read by
position. `filterBatch` cuts all of them to the requests that stay and
`mergeBatch` appends those of another batch. What the arrays hold is of no
interest to either: a row is modelled as the request it was computed for, or as
the default that a merge writes in for a request without an own value. The
exception is the mask of a custom logit processor, whose bits `filterBatch`
reads; the bit of a row follows from its request.

An indexing that Python or torch refuses (an index out of range, an attribute
that is still `None`) makes the whole call fail, and the models return `none`.
-/

namespace SglangInc.Batching

open Columns

/-- What `filterBatch` and `mergeBatch` read of a request. The three penalties are
    the tests `frequency_penalty != 0.0`, `min_new_tokens > 0` and
    `presence_penalty != 0.0`. -/
structure Req where
  rid : Nat
  returnLogprob : Bool := false
  frequencyPenalty : Bool := false
  minNewTokens : Bool := false
  presencePenalty : Bool := false
  logitBias : Bool := false
  customLogitProcessor : Option Nat := none
  grammar : Bool := false
  isPrefillOnly : Bool := false
  deriving DecidableEq, Repr

/-- A row of an array: computed for one request, or a default (`0`, `None`, a row
    of zeros) that a merge filled in. -/
inductive Row where
  | of (req : Req)
  | fill
  deriving DecidableEq, Repr

/-- A tensor or list with a row for each request. -/
abbrev Column := List Row

/-- The server's settings that decide which arrays a batch has. -/
structure Config where
  enableDeterministicInference : Bool
  enableCustomLogitProcessor : Bool
  isEncoderDecoder : Bool
  speculative : Bool
  deriving DecidableEq, Repr

/-- `BatchedFrequencyPenalizer`, `BatchedMinNewTokensPenalizer`,
    `BatchedPresencePenalizer`. -/
inductive Penalizer where
  | frequency
  | minNewTokens
  | presence
  deriving DecidableEq, Repr

namespace Penalizer

/-- The test of one request in `_is_required`. -/
def wants : Penalizer → Req → Bool
  | frequency, req => req.frequencyPenalty
  | minNewTokens, req => req.minNewTokens
  | presence, req => req.presencePenalty

/-- The number of arrays `_prepare` makes. -/
def width : Penalizer → Nat
  | frequency => 2
  | minNewTokens => 3
  | presence => 2

/-- `_is_required`. -/
def isRequired (pen : Penalizer) (reqs : List Req) : Bool :=
  reqs.any pen.wants

/-- `_prepare`. -/
def prepare (pen : Penalizer) (reqs : List Req) : List Column :=
  List.replicate pen.width (reqs.map Row.of)

/-- The body of the loop of `BatchedPenalizerOrchestrator.filter`, with
    `_BatchedPenalizer.filter` and `teardown`; an unprepared penalizer has no
    arrays. -/
def filter (pen : Penalizer) (reqs : List Req) (keepIndices : List Nat)
    (arrays : Option (List Column)) : Option (Option (List Column)) :=
  if pen.isRequired reqs then
    match arrays with
    | none => some none
    | some columns => (columns.mapM (gather keepIndices)).map some
  else some none

/-- `_BatchedPenalizer.merge`: nothing if neither side is prepared, and otherwise
    both are prepared first. -/
def merge (pen : Penalizer) (reqs theirReqs : List Req)
    (arrays theirs : Option (List Column)) : Option (List Column) :=
  match arrays, theirs with
  | none, none => none
  | _, _ => some (List.zipWith (· ++ ·) (arrays.getD (pen.prepare reqs))
      (theirs.getD (pen.prepare theirReqs)))

end Penalizer

/-- `BatchedPenalizerOrchestrator`. Its penalizers read the requests of the batch
    they belong to, which are passed along here. -/
structure Orchestrator where
  isRequired : Bool
  frequency : Option (List Column)
  minNewTokens : Option (List Column)
  presence : Option (List Column)

namespace Orchestrator

/-- The arrays of one penalizer. -/
def arrays (o : Orchestrator) : Penalizer → Option (List Column)
  | .frequency => o.frequency
  | .minNewTokens => o.minNewTokens
  | .presence => o.presence

/-- `prepare_if_required`. -/
def prepareIfRequired (pen : Penalizer) (reqs : List Req) : Option (List Column) :=
  if pen.isRequired reqs then some (pen.prepare reqs) else none

/-- Whether any penalizer is required. -/
def anyRequired (reqs : List Req) : Bool :=
  Penalizer.frequency.isRequired reqs || Penalizer.minNewTokens.isRequired reqs
    || Penalizer.presence.isRequired reqs

/-- `__init__`. -/
def init (reqs : List Req) : Orchestrator where
  isRequired := anyRequired reqs
  frequency := prepareIfRequired .frequency reqs
  minNewTokens := prepareIfRequired .minNewTokens reqs
  presence := prepareIfRequired .presence reqs

/-- `release`. -/
def release : Orchestrator :=
  { isRequired := false, frequency := none, minNewTokens := none, presence := none }

/-- `filter`, on the requests that stay. -/
def filter (o : Orchestrator) (reqs : List Req) (keepIndices : List Nat) : Option Orchestrator :=
  if o.isRequired = false then some o
  else if keepIndices = [] then some release
  else do
    let frequency ← Penalizer.frequency.filter reqs keepIndices o.frequency
    let minNewTokens ← Penalizer.minNewTokens.filter reqs keepIndices o.minNewTokens
    let presence ← Penalizer.presence.filter reqs keepIndices o.presence
    return { isRequired := anyRequired reqs, frequency, minNewTokens, presence }

/-- `merge`, before the two lists of requests are joined. -/
def merge (o their : Orchestrator) (reqs theirReqs : List Req) : Orchestrator :=
  if o.isRequired = false ∧ their.isRequired = false then o
  else
    { isRequired := true
      frequency := Penalizer.frequency.merge reqs theirReqs o.frequency their.frequency
      minNewTokens :=
        Penalizer.minNewTokens.merge reqs theirReqs o.minNewTokens their.minNewTokens
      presence := Penalizer.presence.merge reqs theirReqs o.presence their.presence }

end Orchestrator

/-- The bit of a row in the mask of custom logit processor `k`. -/
def Row.bit (k : Nat) : Row → Bool
  | of req => req.customLogitProcessor == some k
  | fill => false

/-- `SamplingBatchInfo`. The dictionary of custom logit processors is a list of
    keys and masks. -/
structure SamplingBatchInfo where
  temperatures : Column
  topPs : Column
  topKs : Column
  minPs : Column
  samplingSeed : Option Column
  logitBias : Option Column
  vocabMask : Option Column
  penalizerOrchestrator : Orchestrator
  hasCustomLogitProcessor : Bool
  customLogitProcessor : Option (List (Nat × Column))
  customParams : Option Column

namespace SamplingBatchInfo

/-- `__len__`. -/
def len (info : SamplingBatchInfo) : Nat :=
  info.temperatures.length

/-- `from_schedule_batch`. -/
def fromScheduleBatch (cfg : Config) (reqs : List Req) : SamplingBatchInfo :=
  let rows := reqs.map Row.of
  let hasCustom := cfg.enableCustomLogitProcessor
    && reqs.any (fun req => req.customLogitProcessor.isSome)
  { temperatures := rows
    topPs := rows
    topKs := rows
    minPs := rows
    samplingSeed := if cfg.enableDeterministicInference then some rows else none
    logitBias := if reqs.any (fun req => req.logitBias) then some rows else none
    vocabMask := none
    penalizerOrchestrator := Orchestrator.init reqs
    hasCustomLogitProcessor := hasCustom
    customLogitProcessor :=
      if hasCustom then
        some ((reqs.filterMap (fun req => req.customLogitProcessor)).eraseDups.map
          (fun k => (k, rows)))
      else none
    customParams := if hasCustom then some rows else none }

/-- `value[keep_indices_device]` unless `value` is `None`. -/
def gatherIfSome (keepIndices : List Nat) : Option Column → Option (Option Column)
  | none => some none
  | some column => (gather keepIndices column).map some

/-- `_filter_batch_custom_logit_processor`: a processor none of whose requests stay
    is dropped, and with the last one the flag. -/
def filterBatchCustomLogitProcessor (info : SamplingBatchInfo) (keepIndices : List Nat) :
    Option SamplingBatchInfo := do
  let processors ← info.customLogitProcessor
  let masks ← processors.mapM fun e => (gather keepIndices e.2).map (Prod.mk e.1)
  let kept := masks.filter fun e => e.2.any (Row.bit e.1)
  let params ← info.customParams
  let keptParams ← gather keepIndices params
  if kept = [] then
    some { info with
      customLogitProcessor := none
      customParams := none
      hasCustomLogitProcessor := false }
  else some { info with customLogitProcessor := some kept, customParams := some keptParams }

/-- The same if there are custom logit processors. -/
def filterCustomIfAny (info : SamplingBatchInfo) (keepIndices : List Nat) :
    Option SamplingBatchInfo :=
  if info.hasCustomLogitProcessor then info.filterBatchCustomLogitProcessor keepIndices
  else some info

/-- `filter_batch`, on the requests that stay. The vocabulary mask is not
    touched. -/
def filterBatch (info : SamplingBatchInfo) (reqs : List Req) (keepIndices : List Nat) :
    Option SamplingBatchInfo := do
  let penalizers ← info.penalizerOrchestrator.filter reqs keepIndices
  let info ← info.filterCustomIfAny keepIndices
  let temperatures ← gather keepIndices info.temperatures
  let topPs ← gather keepIndices info.topPs
  let topKs ← gather keepIndices info.topKs
  let minPs ← gather keepIndices info.minPs
  let samplingSeed ← gatherIfSome keepIndices info.samplingSeed
  let logitBias ← gatherIfSome keepIndices info.logitBias
  return { info with
    penalizerOrchestrator := penalizers
    temperatures, topPs, topKs, minPs, samplingSeed, logitBias }

/-- The mask of processor `k`, or zeros. -/
def maskOr (processors : List (Nat × Column)) (k bs : Nat) : Column :=
  (processors.lookup k).getD (List.replicate bs Row.fill)

/-- `merge_custom_logit_processor`. -/
def mergeCustomLogitProcessor (lhs rhs : Option (List (Nat × Column))) (bs1 bs2 : Nat) :
    Option (List (Nat × Column)) :=
  match lhs, rhs with
  | none, none => none
  | _, _ =>
    let left := lhs.getD []
    let right := rhs.getD []
    let keys := (left.map Prod.fst ++ right.map Prod.fst).eraseDups
    some (keys.map fun k => (k, maskOr left k bs1 ++ maskOr right k bs2))

/-- `merge_bias_tensor`. -/
def mergeBiasTensor (lhs rhs : Option Column) (bs1 bs2 : Nat) : Option Column :=
  match lhs, rhs with
  | none, none => none
  | _, _ => some (lhs.getD (List.replicate bs1 Row.fill) ++ rhs.getD (List.replicate bs2 Row.fill))

/-- `custom_params or [None] * len(self)`. -/
def paramsOr (params : Option Column) (bs : Nat) : Column :=
  match params with
  | some (row :: rows) => row :: rows
  | _ => List.replicate bs Row.fill

/-- `torch.cat` of an array that both sides have. -/
def catIfBoth : Option Column → Option Column → Option Column
  | some column, some other => some (column ++ other)
  | column, _ => column

/-- `merge_batch`. -/
def mergeBatch (info other : SamplingBatchInfo) (reqs otherReqs : List Req) :
    SamplingBatchInfo :=
  let hasCustom := info.hasCustomLogitProcessor || other.hasCustomLogitProcessor
  { temperatures := info.temperatures ++ other.temperatures
    topPs := info.topPs ++ other.topPs
    topKs := info.topKs ++ other.topKs
    minPs := info.minPs ++ other.minPs
    samplingSeed := catIfBoth info.samplingSeed other.samplingSeed
    logitBias := mergeBiasTensor info.logitBias other.logitBias info.len other.len
    vocabMask := info.vocabMask
    penalizerOrchestrator :=
      info.penalizerOrchestrator.merge other.penalizerOrchestrator reqs otherReqs
    hasCustomLogitProcessor := hasCustom
    customLogitProcessor :=
      if hasCustom then
        mergeCustomLogitProcessor info.customLogitProcessor other.customLogitProcessor
          info.len other.len
      else info.customLogitProcessor
    customParams :=
      if hasCustom then
        some (paramsOr info.customParams info.len ++ paramsOr other.customParams other.len)
      else info.customParams }

/-- `update_regex_vocab_mask`, where `grammars` is set exactly if the batch has a
    grammar. -/
def updateRegexVocabMask (info : SamplingBatchInfo) (hasGrammar : Bool) (reqs : List Req) :
    SamplingBatchInfo :=
  { info with vocabMask := if hasGrammar then some (reqs.map Row.of) else none }

end SamplingBatchInfo

/-- `EagleDraftInput`. -/
structure EagleDraftInput where
  topkP : Column
  topkIndex : Column
  hiddenStates : Option Column
  verifiedId : Column
  deriving DecidableEq, Repr

namespace EagleDraftInput

/-- The state a draft forward leaves for a list of requests. -/
def forReqs (reqs : List Req) : EagleDraftInput :=
  { topkP := reqs.map Row.of
    topkIndex := reqs.map Row.of
    hiddenStates := some (reqs.map Row.of)
    verifiedId := reqs.map Row.of }

/-- `filter_batch`: cut to a front part if the worker is expected to have removed
    the rows already, and otherwise indexed. -/
def filterBatch (d : EagleDraftInput) (newIndices : List Nat) (hasBeenFiltered : Bool) :
    Option EagleDraftInput := do
  let hidden ← d.hiddenStates
  if hasBeenFiltered then
    return { topkP := d.topkP.take newIndices.length
             topkIndex := d.topkIndex.take newIndices.length
             hiddenStates := some (hidden.take newIndices.length)
             verifiedId := d.verifiedId.take newIndices.length }
  else
    let topkP ← gather newIndices d.topkP
    let topkIndex ← gather newIndices d.topkIndex
    let hiddenStates ← gather newIndices hidden
    let verifiedId ← gather newIndices d.verifiedId
    return { topkP, topkIndex, hiddenStates := some hiddenStates, verifiedId }

/-- `merge_batch`. -/
def mergeBatch (d other : EagleDraftInput) : EagleDraftInput :=
  match d.hiddenStates, other.hiddenStates with
  | none, _ => other
  | some _, none => d
  | some hidden, some theirs =>
    { topkP := d.topkP ++ other.topkP
      topkIndex := d.topkIndex ++ other.topkIndex
      hiddenStates := some (hidden ++ theirs)
      verifiedId := d.verifiedId ++ other.verifiedId }

end EagleDraftInput

/-- `ScheduleBatch`. -/
structure ScheduleBatch where
  reqs : List Req
  reqPoolIndices : Column
  seqLens : Column
  seqLensCpu : Column
  origSeqLens : Column
  outputIds : Option Column
  multimodalInputs : Option Column
  encoderLens : Column
  encoderLensCpu : Column
  returnLogprob : Bool
  topLogprobsNums : Option Column
  tokenIdsLogprobs : Option Column
  hasGrammar : Bool
  isPrefillOnly : Bool
  samplingInfo : SamplingBatchInfo
  specInfo : Option EagleDraftInput

namespace ScheduleBatch

/-- `is_empty`. -/
def isEmpty (b : ScheduleBatch) : Bool :=
  b.reqs.isEmpty

/-- `ScheduleBatch(reqs=[])`. -/
def empty (cfg : Config) : ScheduleBatch :=
  { reqs := [], reqPoolIndices := [], seqLens := [], seqLensCpu := [], origSeqLens := []
    outputIds := none, multimodalInputs := none, encoderLens := [], encoderLensCpu := []
    returnLogprob := false, topLogprobsNums := none, tokenIdsLogprobs := none
    hasGrammar := false, isPrefillOnly := false
    samplingInfo := SamplingBatchInfo.fromScheduleBatch cfg [], specInfo := none }

/-- `init_new` and `prepare_for_extend`. -/
def prepareForExtend (cfg : Config) (reqs : List Req) : ScheduleBatch :=
  let rows := reqs.map Row.of
  let returnLogprob := reqs.any (fun req => req.returnLogprob)
  { reqs
    reqPoolIndices := rows
    seqLens := rows
    seqLensCpu := rows
    origSeqLens := rows
    outputIds := none
    multimodalInputs := some rows
    encoderLens := if cfg.isEncoderDecoder then rows else []
    encoderLensCpu := if cfg.isEncoderDecoder then rows else []
    returnLogprob
    topLogprobsNums := if returnLogprob then some rows else none
    tokenIdsLogprobs := if returnLogprob then some rows else none
    hasGrammar := reqs.any (fun req => req.grammar)
    isPrefillOnly := reqs.all (fun req => req.isPrefillOnly)
    samplingInfo := SamplingBatchInfo.fromScheduleBatch cfg reqs
    specInfo := none }

/-- `prepare_for_decode`: with a draft model it returns before the arrays are
    touched. -/
def prepareForDecode (cfg : Config) (b : ScheduleBatch) : ScheduleBatch :=
  if cfg.speculative then b else { b with outputIds := none }

/-- `self.spec_info.filter_batch(..)` if there is any. -/
def filterSpecInfo (b : ScheduleBatch) (keepIndices : List Nat) (hasBeenFiltered : Bool) :
    Option (Option EagleDraftInput) :=
  match b.specInfo with
  | none => some none
  | some d => (d.filterBatch keepIndices hasBeenFiltered).map some

/-- An array that only encoder-decoder models have. -/
def gatherEncoder (cfg : Config) (keepIndices : List Nat) (column : Column) : Option Column :=
  if cfg.isEncoderDecoder then gather keepIndices column else some column

/-- A logprob list of `filter_batch`. -/
def gatherLogprobs (returnLogprob : Bool) (keepIndices : List Nat) (column : Option Column) :
    Option (Option Column) :=
  if returnLogprob then column.bind fun rows => (gather keepIndices rows).map some
  else some none

/-- The part of `filter_batch` that cuts the arrays. -/
def select (cfg : Config) (b : ScheduleBatch) (keepIndices : List Nat)
    (hasBeenFiltered : Bool) : Option ScheduleBatch := do
  let encoderLens ← gatherEncoder cfg keepIndices b.encoderLens
  let encoderLensCpu ← gatherEncoder cfg keepIndices b.encoderLensCpu
  let reqs ← gather keepIndices b.reqs
  let multimodalInputs ← SamplingBatchInfo.gatherIfSome keepIndices b.multimodalInputs
  let reqPoolIndices ← gather keepIndices b.reqPoolIndices
  let seqLens ← gather keepIndices b.seqLens
  let seqLensCpu ← gather keepIndices b.seqLensCpu
  let origSeqLens ← gather keepIndices b.origSeqLens
  let output ← b.outputIds
  let outputIds ← gather keepIndices output
  let returnLogprob := reqs.any (fun req => req.returnLogprob)
  let topLogprobsNums ← gatherLogprobs returnLogprob keepIndices b.topLogprobsNums
  let tokenIdsLogprobs ← gatherLogprobs returnLogprob keepIndices b.tokenIdsLogprobs
  let samplingInfo ← b.samplingInfo.filterBatch reqs keepIndices
  let specInfo ← b.filterSpecInfo keepIndices hasBeenFiltered
  some
    { b with
      reqs, reqPoolIndices, seqLens, seqLensCpu, origSeqLens
      outputIds := some outputIds
      multimodalInputs, encoderLens, encoderLensCpu, returnLogprob
      topLogprobsNums, tokenIdsLogprobs
      hasGrammar := reqs.any (fun req => req.grammar)
      samplingInfo, specInfo }

/-- The requests `filter_batch` keeps by itself. -/
def stays (finished : Req → Bool) (chunkedReqToExclude : Option (List Req)) (req : Req) : Bool :=
  !finished req && !(chunkedReqToExclude.getD []).contains req

/-- The `keep_indices` that `filter_batch` works with. -/
def keepIndices (finished : Req → Bool) (chunkedReqToExclude : Option (List Req))
    (given : Option (List Nat)) (b : ScheduleBatch) : List Nat :=
  given.getD (positions (stays finished chunkedReqToExclude) b.reqs)

/-- The `has_been_filtered` it passes on. -/
def hasBeenFiltered (chunkedReqToExclude : Option (List Req)) : Bool :=
  (chunkedReqToExclude.getD []).isEmpty

/-- `filter_batch`. -/
def filterBatch (cfg : Config) (finished : Req → Bool) (chunkedReqToExclude : Option (List Req))
    (given : Option (List Nat)) (b : ScheduleBatch) : Option ScheduleBatch :=
  let keep := keepIndices finished chunkedReqToExclude given b
  if keep = [] then some { b with reqs := [] }
  else if keep.length = b.reqs.length then some b
  else b.select cfg keep (hasBeenFiltered chunkedReqToExclude)

/-- An array of `merge_batch` that is extended unless it is `None`. -/
def extendIfSome : Option Column → Option Column → Option (Option Column)
  | none, _ => some none
  | some _, none => none
  | some column, some other => some (some (column ++ other))

/-- A logprob list of `merge_batch`, by which of the two batches has any. -/
def mergeLogprobs (b other : ScheduleBatch) (own theirs : Option Column) : Option (Option Column) :=
  if b.returnLogprob && other.returnLogprob then do
    let column ← own
    let theirColumn ← theirs
    return some (column ++ theirColumn)
  else if b.returnLogprob then
    own.map fun column => some (column ++ List.replicate other.reqs.length Row.fill)
  else if other.returnLogprob then
    theirs.map fun column => some (List.replicate b.reqs.length Row.fill ++ column)
  else some own

/-- `self.spec_info.merge_batch(other.spec_info)` if there is any. -/
def mergeSpecInfo (b other : ScheduleBatch) : Option (Option EagleDraftInput) :=
  match b.specInfo, other.specInfo with
  | none, _ => some none
  | some _, none => none
  | some d, some theirs => some (some (d.mergeBatch theirs))

/-- `merge_batch`. -/
def mergeBatch (cfg : Config) (b other : ScheduleBatch) : Option ScheduleBatch := do
  let outputIds ← extendIfSome b.outputIds other.outputIds
  let topLogprobsNums ← mergeLogprobs b other b.topLogprobsNums other.topLogprobsNums
  let tokenIdsLogprobs ← mergeLogprobs b other b.tokenIdsLogprobs other.tokenIdsLogprobs
  let multimodalInputs ← extendIfSome b.multimodalInputs other.multimodalInputs
  let specInfo ← mergeSpecInfo b other
  some
    { b with
      samplingInfo := b.samplingInfo.mergeBatch other.samplingInfo b.reqs other.reqs
      encoderLens := if cfg.isEncoderDecoder then b.encoderLens ++ other.encoderLens
        else b.encoderLens
      encoderLensCpu := if cfg.isEncoderDecoder then b.encoderLensCpu ++ other.encoderLensCpu
        else b.encoderLensCpu
      reqPoolIndices := b.reqPoolIndices ++ other.reqPoolIndices
      seqLens := b.seqLens ++ other.seqLens
      seqLensCpu := b.seqLensCpu ++ other.seqLensCpu
      origSeqLens := b.origSeqLens ++ other.origSeqLens
      outputIds, topLogprobsNums, tokenIdsLogprobs
      reqs := b.reqs ++ other.reqs
      multimodalInputs
      returnLogprob := b.returnLogprob || other.returnLogprob
      hasGrammar := b.hasGrammar || other.hasGrammar
      specInfo }

/-- The vocabulary mask a sampling pass leaves behind. -/
def sampled (b : ScheduleBatch) : SamplingBatchInfo :=
  b.samplingInfo.updateRegexVocabMask b.hasGrammar b.reqs

/-- The end of `EAGLEWorker.forward_draft_extend`: the rows of requests that are
    finished by now are removed. -/
def forwardDraftExtend (finished : Req → Bool) (reqs : List Req) : Option EagleDraftInput :=
  if reqs.any finished then
    (EagleDraftInput.forReqs reqs).filterBatch (positions (fun req => !finished req) reqs) false
  else some (EagleDraftInput.forReqs reqs)

/-- The draft state after an extend batch. -/
def extendSpecInfo (cfg : Config) (finished : Req → Bool) (b : ScheduleBatch) :
    Option (Option EagleDraftInput) :=
  if cfg.speculative then (forwardDraftExtend finished b.reqs).map some else some b.specInfo

/-- `run_batch` on an extend batch: one output token for each request, and with a
    draft model the draft state. A prefill-only batch is sampled for its logprobs
    alone. -/
def runExtend (cfg : Config) (finished : Req → Bool) (b : ScheduleBatch) :
    Option ScheduleBatch := do
  let specInfo ← b.extendSpecInfo cfg finished
  some
    { b with
      outputIds := some (b.reqs.map Row.of)
      samplingInfo := if b.isPrefillOnly && !b.returnLogprob then b.samplingInfo else b.sampled
      specInfo }

/-- `run_batch` on a decode batch without a draft model. -/
def runDecode (b : ScheduleBatch) : ScheduleBatch :=
  { b with outputIds := some (b.reqs.map Row.of), samplingInfo := b.sampled }

/-- `verified_id` of `EagleVerifyInput.verify`: the accepted draft tokens of each
    request and its bonus token, one request after the other. -/
def verifiedRows (reqs : List Req) (accepted : List Nat) : Column :=
  (List.zipWith (fun req n => List.replicate (n + 1) (Row.of req)) reqs accepted).flatten

/-- `run_batch` on a decode batch with a draft model. The requests in `finished`
    include those that finish here; the draft state is for the others. `masked`
    says whether a token bitmask was made, which clears the vocabulary mask. -/
def runVerify (finished : Req → Bool) (accepted : List Nat) (masked : Bool)
    (b : ScheduleBatch) : ScheduleBatch :=
  { b with
    outputIds := some (verifiedRows b.reqs accepted)
    samplingInfo :=
      if b.hasGrammar && masked then { b.samplingInfo with vocabMask := none }
      else b.samplingInfo
    specInfo := some (EagleDraftInput.forReqs (b.reqs.filter fun req => !finished req)) }

end ScheduleBatch

/-- The scheduler's batches between two calls, and the requests that have
    finished. -/
structure Scheduler where
  running : ScheduleBatch
  last : Option ScheduleBatch
  finished : List Req

/-- The calls of the non-overlap event loop that touch a batch. -/
inductive Op where
  /-- `get_new_batch_prefill`, up to `prepare_for_extend`. -/
  | newBatch (canRunList : List Req)
  /-- Its mixed chunk: `mix_with_running`. -/
  | mix
  /-- `run_batch` on the new batch. -/
  | runExtend
  /-- `process_batch_result`, which may finish requests. -/
  | finish (reqs : List Req)
  /-- `self.last_batch.filter_batch(chunked_req_to_exclude=..)`. -/
  | filterLast (chunked : List Req)
  /-- `self.running_batch.merge_batch(self.last_batch)`. -/
  | mergeLast
  /-- `preempt_to_schedule`, of these requests. -/
  | preempt (preemptible : List Req)
  /-- `batch.filter_batch()` of `update_running_batch`. -/
  | filterRunning
  /-- `retract_decode`, with the sorted indices and how many of them are left. -/
  | retract (sortedIndices : List Nat) (remaining : Nat)
  /-- `prepare_for_decode` and `run_batch` without a draft model. -/
  | decode
  /-- `prepare_for_decode` and `run_batch` with a draft model. -/
  | verify (finishing : List Req) (accepted : List Nat) (masked : Bool)

namespace Scheduler

/-- No request. -/
def init (cfg : Config) : Scheduler :=
  { running := ScheduleBatch.empty cfg, last := none, finished := [] }

/-- `req.finished()`. -/
def isFinished (s : Scheduler) (req : Req) : Bool :=
  s.finished.contains req

/-- `keep_indices` of `preempt_to_schedule`. -/
def preemptIndices (s : Scheduler) (preemptible : List Req) : List Nat :=
  positions (fun req => !preemptible.contains req) s.running.reqs

/-- `sorted_indices` of `retract_decode` at its end. With a draft model they are
    not sorted. -/
def retractIndices (cfg : Config) (s : Scheduler) (sortedIndices : List Nat)
    (remaining : Nat) : List Nat :=
  (if cfg.speculative then List.range s.running.reqs.length else sortedIndices).take remaining

/-- The merge of `get_next_batch_to_run`: a batch that is empty or prefill-only is
    dropped, and an empty running batch is replaced. -/
def mergeLast (cfg : Config) (s : Scheduler) (last : ScheduleBatch) : Option Scheduler :=
  if last.isEmpty || last.isPrefillOnly then some { s with last := none }
  else if s.running.isEmpty then some { s with running := last, last := none }
  else (s.running.mergeBatch cfg last).map fun running => { s with running, last := none }

/-- The mixed chunk of `get_new_batch_prefill`, on a new batch that has not run.
    It excludes a draft model and logprobs. -/
def mix (cfg : Config) (s : Scheduler) (last : ScheduleBatch) : Option Scheduler :=
  if cfg.speculative || last.isEmpty || last.outputIds.isSome || s.running.isEmpty
      || last.returnLogprob || s.running.returnLogprob then none
  else (last.mergeBatch cfg (s.running.prepareForDecode cfg)).map fun last =>
    { s with running := ScheduleBatch.empty cfg, last := some { last with isPrefillOnly := false } }

/-- One call. It fails where the source raises, and where the event loop does not
    make it. -/
def step (cfg : Config) (s : Scheduler) : Op → Option Scheduler
  | .newBatch canRunList =>
    if canRunList = [] then none
    else some { s with last := some (ScheduleBatch.prepareForExtend cfg canRunList) }
  | .mix => s.last.bind (s.mix cfg)
  | .runExtend => do
      let last ← s.last
      let ran ← last.runExtend cfg s.isFinished
      return { s with last := some ran }
  | .finish reqs => some { s with finished := s.finished ++ reqs }
  | .filterLast chunked => do
      let last ← s.last
      let kept ← last.filterBatch cfg s.isFinished (some chunked) none
      return { s with last := some kept }
  | .mergeLast => s.last.bind (s.mergeLast cfg)
  | .preempt preemptible => do
      let kept ← s.running.filterBatch cfg s.isFinished none (some (s.preemptIndices preemptible))
      return { s with running := kept }
  | .filterRunning => do
      let kept ← s.running.filterBatch cfg s.isFinished none none
      return { s with running := kept }
  | .retract sortedIndices remaining =>
    if sortedIndices.isPerm (List.range s.running.reqs.length) then do
      let kept ← s.running.filterBatch cfg s.isFinished none
        (some (s.retractIndices cfg sortedIndices remaining))
      return { s with running := kept }
    else none
  | .decode =>
    if cfg.speculative || s.running.isEmpty then none
    else some { s with running := (s.running.prepareForDecode cfg).runDecode }
  | .verify finishing accepted masked =>
    if cfg.speculative && !s.running.isEmpty && s.running.specInfo.isSome
        && accepted.length == s.running.reqs.length then
      let s' := { s with finished := s.finished ++ finishing }
      some { s' with running := s.running.runVerify s'.isFinished accepted masked }
    else none

/-- A transition of the scheduler. -/
def Step (cfg : Config) (s : Scheduler) (op : Op) (t : Scheduler) : Prop :=
  s.step cfg op = some t

end Scheduler

end SglangInc.Batching
