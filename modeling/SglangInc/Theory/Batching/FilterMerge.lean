import SglangInc.Theory.Batching.Sampling

/-!
# Filtering and Merging a Batch

One `filter_batch` and one `merge_batch`, for all arrays of a batch.

Nearly all arrays are cut and extended together with the list of requests, and
stay right in any filter and merge (`StateOk`). Three are not treated like the
rest:

* the draft state. The worker removes rows on its own, of requests that finish
  during a verification, and the scheduler then cuts the draft state to a front
  part of the length it expects. That is right if the worker has removed exactly
  the requests the scheduler removes now, or if the scheduler removes from the
  back;
* the output tokens. After a verification they are all accepted tokens in a row,
  one after the other, and not one for each request;
* the vocabulary mask of the sampling parameters, which neither operation touches.

`FilterReady` and `MergeReady` are what an operation has to find for these three
to come out right as well.

## Theorems

* `Settled.aligned`: One row for each request is alignment.
-/

namespace SglangInc.Batching

open List Columns Option ScheduleBatch

/-- Nothing but the request's own row will do. -/
def always (_ : Req) : Bool := true

/-- A logprob list, there exactly if some request wants logprobs. -/
structure LogprobsOk (reqs : List Req) (returnLogprob : Bool) (column : Option Column) : Prop where
  off : returnLogprob = false → column = none
  on : returnLogprob = true → ∃ rows, column = some rows ∧
    List.Forall₂ (Row.For (fun req => req.returnLogprob)) reqs rows

/-- The arrays that are cut and extended together with the requests. Without a
    draft model the output tokens are among them, and there is no draft state. -/
structure StateOk (cfg : Config) (b : ScheduleBatch) : Prop where
  reqPoolIndices : b.reqPoolIndices = b.reqs.map Row.of
  seqLens : b.seqLens = b.reqs.map Row.of
  seqLensCpu : b.seqLensCpu = b.reqs.map Row.of
  origSeqLens : b.origSeqLens = b.reqs.map Row.of
  multimodalInputs : b.multimodalInputs = some (b.reqs.map Row.of)
  encoderLens : b.encoderLens = if cfg.isEncoderDecoder then b.reqs.map Row.of else []
  encoderLensCpu : b.encoderLensCpu = if cfg.isEncoderDecoder then b.reqs.map Row.of else []
  returnLogprob : b.returnLogprob = b.reqs.any (fun req => req.returnLogprob)
  topLogprobsNums : LogprobsOk b.reqs b.returnLogprob b.topLogprobsNums
  tokenIdsLogprobs : LogprobsOk b.reqs b.returnLogprob b.tokenIdsLogprobs
  sampling : SamplingOk cfg b.samplingInfo b.reqs
  outputIds : cfg.speculative = false → ∀ rows, b.outputIds = some rows → rows = b.reqs.map Row.of
  specInfo : cfg.speculative = false → b.specInfo = none

/-- Output tokens, where there are as many as requests. -/
def OutputOk (b : ScheduleBatch) : Prop :=
  ∀ rows, b.outputIds = some rows → rows.length = b.reqs.length → rows = b.reqs.map Row.of

/-- The vocabulary mask, if there is one, has the rows of the requests. -/
def MaskOk (b : ScheduleBatch) : Prop :=
  ∀ rows, b.samplingInfo.vocabMask = some rows → rows = b.reqs.map Row.of

/-- The draft state has rows for some of the requests, in order, and among them are
    all that have not finished. -/
def DraftOk (finished : Req → Bool) (b : ScheduleBatch) : Prop :=
  ∀ d, b.specInfo = some d → ∃ has : Req → Bool,
    (∀ req ∈ b.reqs, finished req = false → has req = true) ∧
      d = EagleDraftInput.forReqs (b.reqs.filter has)

/-- The arrays of a batch between two filters. A batch all of whose requests were
    filtered out keeps its old arrays, and nothing reads them again. -/
def BatchInv (cfg : Config) (finished : Req → Bool) (b : ScheduleBatch) : Prop :=
  b.reqs = [] ∨ (StateOk cfg b ∧ OutputOk b ∧ MaskOk b ∧ DraftOk finished b)

/-- The arrays of a batch after a filter or merge: one row for each request in
    every one of them. -/
structure Settled (cfg : Config) (b : ScheduleBatch) : Prop where
  state : StateOk cfg b
  outputIds : ∀ rows, b.outputIds = some rows → rows = b.reqs.map Row.of
  vocabMask : MaskOk b
  specInfo : ∀ d, b.specInfo = some d → d = EagleDraftInput.forReqs b.reqs

theorem Settled.inv {cfg : Config} {finished : Req → Bool} {b : ScheduleBatch}
    (h : Settled cfg b) : BatchInv cfg finished b := by
  refine .inr ⟨h.state, fun rows hrows _ => h.outputIds rows hrows, h.vocabMask, fun d hd => ?_⟩
  refine ⟨fun _ => true, fun _ _ _ => rfl, ?_⟩
  rw [h.specInfo d hd, filter_true]

section Aligned

/-- Row `i` of the arrays of `StateOk` was produced for request `i`, as a default
    only where the request did not ask for more. -/
structure StateAligned (cfg : Config) (b : ScheduleBatch) : Prop where
  reqPoolIndices : Aligned (Row.For always) b.reqs b.reqPoolIndices
  seqLens : Aligned (Row.For always) b.reqs b.seqLens
  seqLensCpu : Aligned (Row.For always) b.reqs b.seqLensCpu
  origSeqLens : Aligned (Row.For always) b.reqs b.origSeqLens
  outputIds : cfg.speculative = false →
    ∀ rows, b.outputIds = some rows → Aligned (Row.For always) b.reqs rows
  topLogprobsNums : ∀ rows, b.topLogprobsNums = some rows →
    Aligned (Row.For (fun req => req.returnLogprob)) b.reqs rows
  tokenIdsLogprobs : ∀ rows, b.tokenIdsLogprobs = some rows →
    Aligned (Row.For (fun req => req.returnLogprob)) b.reqs rows
  temperatures : Aligned (Row.For always) b.reqs b.samplingInfo.temperatures
  topPs : Aligned (Row.For always) b.reqs b.samplingInfo.topPs
  topKs : Aligned (Row.For always) b.reqs b.samplingInfo.topKs
  minPs : Aligned (Row.For always) b.reqs b.samplingInfo.minPs
  samplingSeed : ∀ rows, b.samplingInfo.samplingSeed = some rows →
    Aligned (Row.For always) b.reqs rows
  logitBias : ∀ rows, b.samplingInfo.logitBias = some rows →
    Aligned (Row.For (fun req => req.logitBias)) b.reqs rows
  penalizers : ∀ pen columns, b.samplingInfo.penalizerOrchestrator.arrays pen = some columns →
    ∀ rows ∈ columns, Aligned (Row.For always) b.reqs rows
  customLogitProcessor : ∀ processors, b.samplingInfo.customLogitProcessor = some processors →
    ∀ e ∈ processors, Aligned (Row.For (usesProcessor e.1)) b.reqs e.2
  customParams : ∀ rows, b.samplingInfo.customParams = some rows →
    Aligned (Row.For usesAnyProcessor) b.reqs rows

/-- Row `i` of every array was. -/
structure RowsAligned (cfg : Config) (b : ScheduleBatch) : Prop where
  state : StateAligned cfg b
  outputIds : ∀ rows, b.outputIds = some rows → Aligned (Row.For always) b.reqs rows
  vocabMask : ∀ rows, b.samplingInfo.vocabMask = some rows → Aligned (Row.For always) b.reqs rows
  topkP : ∀ d, b.specInfo = some d → Aligned (Row.For always) b.reqs d.topkP
  topkIndex : ∀ d, b.specInfo = some d → Aligned (Row.For always) b.reqs d.topkIndex
  hiddenStates : ∀ d rows, b.specInfo = some d → d.hiddenStates = some rows →
    Aligned (Row.For always) b.reqs rows
  verifiedId : ∀ d, b.specInfo = some d → Aligned (Row.For always) b.reqs d.verifiedId

theorem aligned_rows {reqs : List Req} {column : Column} (h : column = reqs.map Row.of) :
    Aligned (Row.For always) reqs column :=
  h ▸ aligned_of_forall₂ (forall₂_rows always reqs)

theorem LogprobsOk.aligned {reqs : List Req} {returnLogprob : Bool} {column : Option Column}
    (ok : LogprobsOk reqs returnLogprob column) :
    ∀ rows, column = some rows → Aligned (Row.For (fun req => req.returnLogprob)) reqs rows := by
  intro rows hrows
  cases hret : returnLogprob with
  | false => rw [ok.off hret] at hrows; cases hrows
  | true =>
    rcases ok.on hret with ⟨rows', hrows', hR⟩
    cases hrows.symm.trans hrows'
    exact aligned_of_forall₂ hR

variable {b : ScheduleBatch} {cfg : Config}

/-- Columns that are computed from the requests are aligned with them. -/
theorem StateOk.aligned (ok : StateOk cfg b) : StateAligned cfg b where
  reqPoolIndices := aligned_rows ok.reqPoolIndices
  seqLens := aligned_rows ok.seqLens
  seqLensCpu := aligned_rows ok.seqLensCpu
  origSeqLens := aligned_rows ok.origSeqLens
  outputIds := fun hspec rows hrows => aligned_rows (ok.outputIds hspec rows hrows)
  topLogprobsNums := ok.topLogprobsNums.aligned
  tokenIdsLogprobs := ok.tokenIdsLogprobs.aligned
  temperatures := aligned_rows ok.sampling.temperatures
  topPs := aligned_rows ok.sampling.topPs
  topKs := aligned_rows ok.sampling.topKs
  minPs := aligned_rows ok.sampling.minPs
  samplingSeed := by
    intro rows hrows
    rw [ok.sampling.samplingSeed] at hrows
    split at hrows
    · exact aligned_rows (some.inj hrows).symm
    · cases hrows
  logitBias := fun rows hrows => aligned_of_forall₂ (ok.sampling.logitBias rows hrows)
  penalizers := by
    intro pen columns hcols rows hrows
    rw [ok.sampling.penalizers.rows pen columns hcols] at hrows
    exact aligned_rows (eq_of_mem_replicate hrows)
  customLogitProcessor := by
    intro processors hprocs e he
    cases hflag : b.samplingInfo.hasCustomLogitProcessor with
    | false => rw [(ok.sampling.custom.off hflag).1] at hprocs; cases hprocs
    | true =>
      rcases (ok.sampling.custom.on hflag).2 with ⟨processors', _, hprocs', -, hmasks, -⟩
      cases hprocs.symm.trans hprocs'
      exact aligned_of_forall₂ (hmasks.rows e he)
  customParams := by
    intro rows hrows
    cases hflag : b.samplingInfo.hasCustomLogitProcessor with
    | false => rw [(ok.sampling.custom.off hflag).2.1] at hrows; cases hrows
    | true =>
      rcases (ok.sampling.custom.on hflag).2 with ⟨_, params, -, hparams, -, hR⟩
      cases hrows.symm.trans hparams
      exact aligned_of_forall₂ hR

/-- A batch without requests has nothing to get wrong. -/
theorem stateAligned_nil (h : b.reqs = []) : StateAligned cfg b := by
  constructor <;> rw [h]
  all_goals intros
  all_goals exact aligned_nil _

theorem Settled.aligned (h : Settled cfg b) : RowsAligned cfg b where
  state := h.state.aligned
  outputIds := fun rows hrows => aligned_rows (h.outputIds rows hrows)
  vocabMask := fun rows hrows => aligned_rows (h.vocabMask rows hrows)
  topkP := fun d hd => aligned_rows (by rw [h.specInfo d hd]; rfl)
  topkIndex := fun d hd => aligned_rows (by rw [h.specInfo d hd]; rfl)
  hiddenStates := by
    intro d rows hd hrows
    rw [h.specInfo d hd] at hrows
    exact aligned_rows (some.inj hrows).symm
  verifiedId := fun d hd => aligned_rows (by rw [h.specInfo d hd]; rfl)

theorem rowsAligned_nil (h : b.reqs = []) : RowsAligned cfg b := by
  refine ⟨stateAligned_nil h, ?_, ?_, ?_, ?_, ?_, ?_⟩ <;> rw [h]
  all_goals intros
  all_goals exact aligned_nil _

end Aligned

section Filter

/-- A filter that cuts the arrays, field by field. -/
structure Selected (cfg : Config) (b : ScheduleBatch) (keep : List Nat) (hasBeenFiltered : Bool)
    (b' : ScheduleBatch) : Prop where
  reqs : gather keep b.reqs = some b'.reqs
  reqPoolIndices : gather keep b.reqPoolIndices = some b'.reqPoolIndices
  seqLens : gather keep b.seqLens = some b'.seqLens
  seqLensCpu : gather keep b.seqLensCpu = some b'.seqLensCpu
  origSeqLens : gather keep b.origSeqLens = some b'.origSeqLens
  multimodalInputs :
    SamplingBatchInfo.gatherIfSome keep b.multimodalInputs = some b'.multimodalInputs
  encoderLens : gatherEncoder cfg keep b.encoderLens = some b'.encoderLens
  encoderLensCpu : gatherEncoder cfg keep b.encoderLensCpu = some b'.encoderLensCpu
  outputIds : ∃ old new, b.outputIds = some old ∧ gather keep old = some new ∧
    b'.outputIds = some new
  returnLogprob : b'.returnLogprob = b'.reqs.any (fun req => req.returnLogprob)
  topLogprobsNums :
    gatherLogprobs b'.returnLogprob keep b.topLogprobsNums = some b'.topLogprobsNums
  tokenIdsLogprobs :
    gatherLogprobs b'.returnLogprob keep b.tokenIdsLogprobs = some b'.tokenIdsLogprobs
  samplingInfo : b.samplingInfo.filterBatch b'.reqs keep = some b'.samplingInfo
  specInfo : b.filterSpecInfo keep hasBeenFiltered = some b'.specInfo

variable {keep : List Nat} {cfg : Config} {b b' : ScheduleBatch} {finished : Req → Bool}
variable {given : Option (List Nat)} {exclude : Option (List Req)} {reqs kept : List Req}

theorem selected_of_select {flag : Bool}
    (h : b.select cfg keep flag = some b') : Selected cfg b keep flag b' := by
  unfold select at h
  iterate 14 rcases bind_eq_some_iff.mp h with ⟨_, _, h⟩
  cases h
  exact
    { reqs := ‹_›, reqPoolIndices := ‹_›, seqLens := ‹_›, seqLensCpu := ‹_›, origSeqLens := ‹_›
      multimodalInputs := ‹_›, encoderLens := ‹_›, encoderLensCpu := ‹_›
      outputIds := ⟨_, _, ‹_›, ‹_›, rfl⟩, returnLogprob := rfl, topLogprobsNums := ‹_›
      tokenIdsLogprobs := ‹_›, samplingInfo := ‹_›, specInfo := ‹_› }

/-- What `filter_batch` does: empty the list of requests, nothing, or cut. -/
theorem filterBatch_cases (h : b.filterBatch cfg finished exclude given = some b') :
    let keep := b.keepIndices finished exclude given
    (keep = [] ∧ b' = { b with reqs := [] }) ∨
      (keep ≠ [] ∧ keep.length = b.reqs.length ∧ b' = b) ∨
      (keep ≠ [] ∧ keep.length ≠ b.reqs.length ∧
        Selected cfg b keep (hasBeenFiltered exclude) b') := by
  simp only [filterBatch] at h
  split_ifs at h with hnil hlen
  · exact .inl ⟨hnil, (some.inj h).symm⟩
  · exact .inr (.inl ⟨hnil, hlen, (some.inj h).symm⟩)
  · exact .inr (.inr ⟨hnil, hlen, selected_of_select h⟩)

/-- Nothing can be kept of no requests. -/
theorem filterBatch_nil (hnil : b.reqs = [])
    (h : b.filterBatch cfg finished exclude given = some b') : b'.reqs = [] := by
  rcases filterBatch_cases h with ⟨-, rfl⟩ | ⟨-, -, rfl⟩ | ⟨-, -, hsel⟩
  · rfl
  · exact hnil
  · refine eq_nil_iff_forall_not_mem.mpr fun req hreq => ?_
    have hmem := mem_of_gather hsel.reqs hreq
    rw [hnil] at hmem
    exact absurd hmem not_mem_nil

theorem encoder_select {column out : Column} (hkept : gather keep reqs = some kept)
    (hcol : column = if cfg.isEncoderDecoder then reqs.map Row.of else [])
    (h : gatherEncoder cfg keep column = some out) :
    out = if cfg.isEncoderDecoder then kept.map Row.of else [] := by
  unfold gatherEncoder at h
  split_ifs at h hcol ⊢
  · exact gather_rows hkept hcol h
  · rw [← some.inj h, hcol]

/-- A filter keeps the column, or drops it with the last request that needs it. -/
theorem LogprobsOk.select {before : Bool}
    {column out : Option Column} (ok : LogprobsOk reqs before column)
    (hbefore : before = reqs.any (fun req => req.returnLogprob))
    (hkept : gather keep reqs = some kept) {after : Bool}
    (hafter : after = kept.any (fun req => req.returnLogprob))
    (h : gatherLogprobs after keep column = some out) : LogprobsOk kept after out := by
  subst hafter
  unfold gatherLogprobs at h
  split_ifs at h with hany
  · -- The request that wants logprobs was there before the filter.
    have hold : before = true := by
      rcases any_eq_true.mp hany with ⟨req, hreq, hret⟩
      rw [hbefore]
      exact any_eq_true.mpr ⟨req, mem_of_gather hkept hreq, hret⟩
    rcases ok.on hold with ⟨rows, hrows, hR⟩
    rcases gather_forall₂ hR hkept with ⟨cut, hcut, hRcut⟩
    rw [hrows, bind_some, hcut] at h
    cases h
    refine ⟨fun hoff => ?_, fun _ => ⟨cut, rfl, hRcut⟩⟩
    cases hany.symm.trans hoff
  · cases h
    exact ⟨fun _ => rfl, fun hon => absurd hon hany⟩

/-- The arrays treated alike stay right in a cut. -/
theorem StateOk.select {flag : Bool}
    (ok : StateOk cfg b) (hsel : Selected cfg b keep flag b') : StateOk cfg b' := by
  have hkept := hsel.reqs
  refine
    { reqPoolIndices := gather_rows hkept ok.reqPoolIndices hsel.reqPoolIndices
      seqLens := gather_rows hkept ok.seqLens hsel.seqLens
      seqLensCpu := gather_rows hkept ok.seqLensCpu hsel.seqLensCpu
      origSeqLens := gather_rows hkept ok.origSeqLens hsel.origSeqLens
      multimodalInputs := ?_
      encoderLens := encoder_select hkept ok.encoderLens hsel.encoderLens
      encoderLensCpu := encoder_select hkept ok.encoderLensCpu hsel.encoderLensCpu
      returnLogprob := hsel.returnLogprob
      topLogprobsNums := ok.topLogprobsNums.select ok.returnLogprob hkept hsel.returnLogprob
        hsel.topLogprobsNums
      tokenIdsLogprobs := ok.tokenIdsLogprobs.select ok.returnLogprob hkept hsel.returnLogprob
        hsel.tokenIdsLogprobs
      sampling := ok.sampling.filter hkept hsel.samplingInfo
      outputIds := fun hspec rows hrows => ?_
      specInfo := fun hspec => ?_ }
  · have h := hsel.multimodalInputs
    rw [ok.multimodalInputs, SamplingBatchInfo.gatherIfSome, gather_map Row.of hkept,
      map_some, some.injEq] at h
    exact h.symm
  · rcases hsel.outputIds with ⟨old, new, hold, hcut, hnew⟩
    cases hnew.symm.trans hrows
    exact gather_rows hkept (ok.outputIds hspec old hold) hcut
  · have h := hsel.specInfo
    rw [filterSpecInfo, ok.specInfo hspec, some.injEq] at h
    exact h.symm

theorem stateOk_filter (ok : b.reqs = [] ∨ StateOk cfg b)
    (h : b.filterBatch cfg finished exclude given = some b') : b'.reqs = [] ∨ StateOk cfg b' := by
  rcases ok with hnil | ok
  · exact .inl (filterBatch_nil hnil h)
  · rcases filterBatch_cases h with ⟨-, rfl⟩ | ⟨-, -, rfl⟩ | ⟨-, -, hsel⟩
    · exact .inl rfl
    · exact .inr ok
    · exact .inr (ok.select hsel)

/-- As many output tokens as requests. -/
def OutputShaped (b : ScheduleBatch) : Prop :=
  ∀ rows ∈ b.outputIds, rows.length = b.reqs.length

/-- As many draft rows as requests. -/
def DraftWhole (b : ScheduleBatch) : Prop :=
  ∀ d ∈ b.specInfo, d.topkP.length = b.reqs.length

/-- What a filter has to find of the draft state. If it is to cut it to a front
    part: a length that needs no cut, in a filter of finished requests, or all
    rows and a removal from the back. If it is to index it: all rows. -/
def DraftReady (b : ScheduleBatch) (keep : List Nat) (given : Option (List Nat))
    (hasBeenFiltered : Bool) : Prop :=
  if hasBeenFiltered then
    (given = none ∧ ∀ d ∈ b.specInfo, d.topkP.length = keep.length) ∨
      (DraftWhole b ∧ keep = List.range keep.length)
  else DraftWhole b

instance (b : ScheduleBatch) : Decidable (OutputShaped b) :=
  inferInstanceAs (Decidable (∀ rows ∈ b.outputIds, rows.length = b.reqs.length))

instance (b : ScheduleBatch) : Decidable (DraftWhole b) :=
  inferInstanceAs (Decidable (∀ d ∈ b.specInfo, d.topkP.length = b.reqs.length))

instance (b : ScheduleBatch) (keep : List Nat) (given : Option (List Nat)) (flag : Bool) :
    Decidable (DraftReady b keep given flag) :=
  inferInstanceAs (Decidable (ite _ _ _))

/-- What a filter has to find, if it keeps anything. -/
def FilterReady (finished : Req → Bool) (exclude : Option (List Req)) (given : Option (List Nat))
    (b : ScheduleBatch) : Prop :=
  b.keepIndices finished exclude given = [] ∨
    (OutputShaped b ∧
      ((b.keepIndices finished exclude given).length = b.reqs.length ∨
        b.samplingInfo.vocabMask = none) ∧
      DraftReady b (b.keepIndices finished exclude given) given (hasBeenFiltered exclude))

instance (finished : Req → Bool) (exclude : Option (List Req)) (given : Option (List Nat))
    (b : ScheduleBatch) : Decidable (FilterReady finished exclude given b) :=
  inferInstanceAs (Decidable (_ ∨ _))

/-- A draft state with as many rows as there are requests has a row for each. -/
theorem whole_eq (ok : DraftOk finished b)
    {d : EagleDraftInput} (hd : b.specInfo = some d) (hlen : d.topkP.length = b.reqs.length) :
    d = EagleDraftInput.forReqs b.reqs := by
  rcases ok d hd with ⟨has, -, rfl⟩
  have hall : b.reqs.filter has = b.reqs := by
    refine filter_sublist.eq_of_length ?_
    rw [← hlen, EagleDraftInput.forReqs, length_map]
  rw [hall]

variable {d' : EagleDraftInput}

theorem forReqs_gather (hkept : gather keep reqs = some kept)
    (h : (EagleDraftInput.forReqs reqs).filterBatch keep false = some d') :
    d' = EagleDraftInput.forReqs kept := by
  simp only [EagleDraftInput.filterBatch, EagleDraftInput.forReqs, gather_map Row.of hkept,
    bind_eq_bind, bind_some, Bool.false_eq_true, if_false, Option.pure_def, some.injEq] at h
  exact h.symm

theorem forReqs_take (h : (EagleDraftInput.forReqs reqs).filterBatch keep true = some d') :
    d' = EagleDraftInput.forReqs (reqs.take keep.length) := by
  simp only [EagleDraftInput.filterBatch, EagleDraftInput.forReqs, bind_eq_bind,
    bind_some, if_true, Option.pure_def, some.injEq, ← map_take] at h
  exact h.symm

/-- The draft state in a cut, if it is ready. -/
theorem draft_select (ok : DraftOk finished b)
    (hready : DraftReady b (b.keepIndices finished exclude given) given (hasBeenFiltered exclude))
    (hsel : Selected cfg b (b.keepIndices finished exclude given) (hasBeenFiltered exclude) b') :
    ∀ d, b'.specInfo = some d → d = EagleDraftInput.forReqs b'.reqs := by
  intro d' hd'
  have hspec := hsel.specInfo
  cases hd : b.specInfo with
  | none =>
    rw [filterSpecInfo, hd, hd'] at hspec
    cases hspec
  | some d =>
    rw [filterSpecInfo, hd] at hspec
    rcases map_eq_some_iff.mp hspec with ⟨d'', hcut, heq⟩
    rw [hd'] at heq
    cases heq
    unfold DraftReady at hready
    cases hflag : hasBeenFiltered exclude with
    | false =>
      -- The draft state has a row for each request, and is cut as the requests are.
      rw [hflag, if_neg Bool.false_ne_true] at hready
      rw [hflag, whole_eq ok hd (hready d hd)] at hcut
      exact forReqs_gather hsel.reqs hcut
    | true =>
      rw [hflag, if_pos rfl] at hready
      rw [hflag] at hcut
      rcases hready with ⟨hgiven, hlen⟩ | ⟨hwhole, hrange⟩
      · -- The worker has removed exactly the finished requests.
        rcases ok d hd with ⟨has, hhas, hdeq⟩
        have hkeep : b.keepIndices finished exclude given
            = positions (stays finished exclude) b.reqs := hgiven ▸ rfl
        have hreqs := hsel.reqs
        rw [hkeep, gather_positions, some.injEq] at hreqs
        have hlen' := hlen d hd
        rw [hdeq, hkeep, length_positions, EagleDraftInput.forReqs, length_map] at hlen'
        have hsame : b.reqs.filter has
            = b.reqs.filter (stays finished exclude) := by
          refine filter_eq_of_length (fun req hreq hstay => hhas req hreq ?_) hlen'
          rw [stays, Bool.and_eq_true, Bool.not_eq_true'] at hstay
          exact hstay.1
        rw [hdeq, hsame] at hcut
        have htake := forReqs_take hcut
        rwa [hkeep, length_positions, take_length, hreqs] at htake
      · -- Removal from the back takes the front part.
        rw [whole_eq ok hd (hwhole d hd)] at hcut
        have hreqs := hsel.reqs
        rw [hrange] at hreqs
        rw [forReqs_take hcut, ← gather_range hreqs]

/-- A filter that is ready leaves one row for each request in every array. -/
theorem settled_filter (hinv : BatchInv cfg finished b)
    (hready : FilterReady finished exclude given b)
    (h : b.filterBatch cfg finished exclude given = some b') : b'.reqs = [] ∨ Settled cfg b' := by
  rcases hinv with hnil | ⟨ok, hout, hmask, hdraft⟩
  · exact .inl (filterBatch_nil hnil h)
  rcases filterBatch_cases h with ⟨-, rfl⟩ | ⟨hne, hlen, rfl⟩ | ⟨hne, hlen, hsel⟩
  · exact .inl rfl
  · obtain ⟨hshape, -, hready⟩ := hready.resolve_left hne
    refine .inr ⟨ok, fun rows hrows => hout rows hrows (hshape rows hrows), hmask,
      fun d hd => whole_eq hdraft hd ?_⟩
    unfold DraftReady at hready
    split at hready
    · rcases hready with ⟨-, hrows⟩ | ⟨hwhole, -⟩
      · rw [hrows d hd, hlen]
      · exact hwhole d hd
    · exact hready d hd
  · obtain ⟨hshape, hnomask, hready⟩ := hready.resolve_left hne
    refine .inr ⟨ok.select hsel, fun rows hrows => ?_, fun rows hrows => ?_,
      draft_select hdraft hready hsel⟩
    · rcases hsel.outputIds with ⟨old, new, hold, hcut, hnew⟩
      cases hnew.symm.trans hrows
      exact gather_rows hsel.reqs (hout old hold (hshape old hold)) hcut
    · rw [filterBatch_vocabMask hsel.samplingInfo, hnomask.resolve_left hlen] at hrows
      cases hrows

end Filter

section Merge

/-- A merge, field by field. -/
structure Merged (cfg : Config) (b other b' : ScheduleBatch) : Prop where
  reqs : b'.reqs = b.reqs ++ other.reqs
  reqPoolIndices : b'.reqPoolIndices = b.reqPoolIndices ++ other.reqPoolIndices
  seqLens : b'.seqLens = b.seqLens ++ other.seqLens
  seqLensCpu : b'.seqLensCpu = b.seqLensCpu ++ other.seqLensCpu
  origSeqLens : b'.origSeqLens = b.origSeqLens ++ other.origSeqLens
  multimodalInputs : extendIfSome b.multimodalInputs other.multimodalInputs
    = some b'.multimodalInputs
  encoderLens : b'.encoderLens
    = if cfg.isEncoderDecoder then b.encoderLens ++ other.encoderLens else b.encoderLens
  encoderLensCpu : b'.encoderLensCpu
    = if cfg.isEncoderDecoder then b.encoderLensCpu ++ other.encoderLensCpu else b.encoderLensCpu
  outputIds : extendIfSome b.outputIds other.outputIds = some b'.outputIds
  returnLogprob : b'.returnLogprob = (b.returnLogprob || other.returnLogprob)
  topLogprobsNums : mergeLogprobs b other b.topLogprobsNums other.topLogprobsNums
    = some b'.topLogprobsNums
  tokenIdsLogprobs :
    mergeLogprobs b other b.tokenIdsLogprobs other.tokenIdsLogprobs = some b'.tokenIdsLogprobs
  samplingInfo :
    b'.samplingInfo = b.samplingInfo.mergeBatch other.samplingInfo b.reqs other.reqs
  specInfo : b.mergeSpecInfo other = some b'.specInfo

variable {cfg : Config} {b' b other : ScheduleBatch}

theorem merged_of_mergeBatch (h : b.mergeBatch cfg other = some b') : Merged cfg b other b' := by
  unfold mergeBatch at h
  simp only [bind_eq_bind, bind_eq_some_iff] at h
  obtain ⟨_, h1, _, h2, _, h3, _, h4, _, h5, h⟩ := h
  cases h
  exact
    { reqs := rfl, reqPoolIndices := rfl, seqLens := rfl, seqLensCpu := rfl, origSeqLens := rfl
      multimodalInputs := h4, encoderLens := rfl, encoderLensCpu := rfl, outputIds := h1
      returnLogprob := rfl, topLogprobsNums := h2, tokenIdsLogprobs := h3
      samplingInfo := rfl, specInfo := h5 }

/-- An array that is extended unless it is missing. -/
theorem extendIfSome_rows {own theirs out : Option Column} {reqs otherReqs : List Req}
    (hown : ∀ rows, own = some rows → rows = reqs.map Row.of)
    (htheirs : ∀ rows, theirs = some rows → rows = otherReqs.map Row.of)
    (h : extendIfSome own theirs = some out) :
    ∀ rows, out = some rows → rows = (reqs ++ otherReqs).map Row.of := by
  intro rows hrows
  cases own with
  | none =>
    cases h
    cases hrows
  | some column =>
    cases theirs with
    | none => cases h
    | some other =>
      cases h
      cases hrows
      rw [hown column rfl, htheirs other rfl, map_append]

/-- Merging fills in for the batch that returns none. -/
theorem LogprobsOk.merge {own theirs out : Option Column}
    (ok : LogprobsOk b.reqs b.returnLogprob own)
    (okOther : LogprobsOk other.reqs other.returnLogprob theirs)
    (hown : b.returnLogprob = b.reqs.any (fun req => req.returnLogprob))
    (hother : other.returnLogprob = other.reqs.any (fun req => req.returnLogprob))
    (h : mergeLogprobs b other own theirs = some out) :
    LogprobsOk (b.reqs ++ other.reqs) (b.returnLogprob || other.returnLogprob) out := by
  -- Where a batch wants none, none of its requests does, and defaults are right.
  have hfill : ∀ reqs : List Req, reqs.any (fun req => req.returnLogprob) = false →
      List.Forall₂ (Row.For (fun req => req.returnLogprob)) reqs
        (List.replicate reqs.length Row.fill) := by
    intro reqs hnone
    exact forall₂_fill fun req hreq =>
      Bool.eq_false_iff.mpr (any_eq_false.mp hnone req hreq)
  unfold mergeLogprobs at h
  cases hb : b.returnLogprob with
  | false =>
    cases ho : other.returnLogprob with
    | false =>
      rw [hb, ho] at h
      refine ⟨fun _ => ?_, nofun⟩
      cases h
      exact ok.off hb
    | true =>
      rw [hb, ho] at h
      rcases okOther.on ho with ⟨rows, hrows, hR⟩
      rw [hrows] at h
      refine ⟨nofun, fun _ => ⟨_, (some.inj h).symm, ?_⟩⟩
      exact rel_append (hfill b.reqs (hown ▸ hb)) hR
  | true =>
    rcases ok.on hb with ⟨rows, hrows, hR⟩
    cases ho : other.returnLogprob with
    | false =>
      rw [hb, ho, hrows] at h
      refine ⟨nofun, fun _ => ⟨_, (some.inj h).symm, ?_⟩⟩
      exact rel_append hR (hfill other.reqs (hother ▸ ho))
    | true =>
      rcases okOther.on ho with ⟨rows', hrows', hR'⟩
      rw [hb, ho, hrows, hrows'] at h
      exact ⟨nofun, fun _ =>
        ⟨_, (some.inj h).symm, rel_append hR hR'⟩⟩

theorem encoder_merge {reqs otherReqs : List Req} {own theirs : Column}
    (hown : own = if cfg.isEncoderDecoder then reqs.map Row.of else [])
    (htheirs : theirs = if cfg.isEncoderDecoder then otherReqs.map Row.of else []) :
    (if cfg.isEncoderDecoder then own ++ theirs else own)
      = if cfg.isEncoderDecoder then (reqs ++ otherReqs).map Row.of else [] := by
  split_ifs at hown htheirs ⊢
  · rw [hown, htheirs, map_append]
  · exact hown

/-- The arrays treated alike stay right in a merge. -/
theorem StateOk.merge (ok : StateOk cfg b)
    (okOther : StateOk cfg other) (hm : Merged cfg b other b') : StateOk cfg b' := by
  refine
    { reqPoolIndices := ?_, seqLens := ?_, seqLensCpu := ?_, origSeqLens := ?_
      multimodalInputs := ?_, encoderLens := ?_, encoderLensCpu := ?_, returnLogprob := ?_
      topLogprobsNums := ?_, tokenIdsLogprobs := ?_, sampling := ?_
      outputIds := fun hspec => ?_, specInfo := fun hspec => ?_ }
  · rw [hm.reqPoolIndices, ok.reqPoolIndices, okOther.reqPoolIndices, hm.reqs, map_append]
  · rw [hm.seqLens, ok.seqLens, okOther.seqLens, hm.reqs, map_append]
  · rw [hm.seqLensCpu, ok.seqLensCpu, okOther.seqLensCpu, hm.reqs, map_append]
  · rw [hm.origSeqLens, ok.origSeqLens, okOther.origSeqLens, hm.reqs, map_append]
  · have h := hm.multimodalInputs
    rw [ok.multimodalInputs, okOther.multimodalInputs, extendIfSome, some.injEq] at h
    rw [← h, hm.reqs, map_append]
  · rw [hm.encoderLens, hm.reqs]
    exact encoder_merge ok.encoderLens okOther.encoderLens
  · rw [hm.encoderLensCpu, hm.reqs]
    exact encoder_merge ok.encoderLensCpu okOther.encoderLensCpu
  · rw [hm.returnLogprob, hm.reqs, any_append, ok.returnLogprob, okOther.returnLogprob]
  · rw [hm.returnLogprob, hm.reqs]
    exact ok.topLogprobsNums.merge okOther.topLogprobsNums ok.returnLogprob
      okOther.returnLogprob hm.topLogprobsNums
  · rw [hm.returnLogprob, hm.reqs]
    exact ok.tokenIdsLogprobs.merge okOther.tokenIdsLogprobs ok.returnLogprob
      okOther.returnLogprob hm.tokenIdsLogprobs
  · rw [hm.samplingInfo, hm.reqs]
    exact ok.sampling.merge okOther.sampling
  · rw [hm.reqs]
    exact extendIfSome_rows (ok.outputIds hspec) (okOther.outputIds hspec) hm.outputIds
  · have h := hm.specInfo
    rw [mergeSpecInfo, ok.specInfo hspec, some.injEq] at h
    exact h.symm

/-- What a merge has to find. -/
def MergeReady (b other : ScheduleBatch) : Prop :=
  OutputShaped b ∧ OutputShaped other ∧ b.samplingInfo.vocabMask = none ∧
    DraftWhole b ∧ DraftWhole other

instance (b other : ScheduleBatch) : Decidable (MergeReady b other) :=
  inferInstanceAs (Decidable (_ ∧ _))

/-- A merge that is ready leaves one row for each request in every array. -/
theorem settled_merge {finished : Req → Bool}
    (hb : StateOk cfg b ∧ OutputOk b ∧ MaskOk b ∧ DraftOk finished b)
    (hother : StateOk cfg other ∧ OutputOk other ∧ MaskOk other ∧ DraftOk finished other)
    (hready : MergeReady b other) (hm : Merged cfg b other b') : Settled cfg b' := by
  rcases hb with ⟨ok, hout, -, hdraft⟩
  rcases hother with ⟨okOther, houtOther, -, hdraftOther⟩
  rcases hready with ⟨hshape, hshapeOther, hnomask, hwhole, hwholeOther⟩
  refine ⟨ok.merge okOther hm, ?_, fun rows hrows => ?_, fun d hd => ?_⟩
  · rw [hm.reqs]
    exact extendIfSome_rows (fun rows hrows => hout rows hrows (hshape rows hrows))
      (fun rows hrows => houtOther rows hrows (hshapeOther rows hrows)) hm.outputIds
  · rw [hm.samplingInfo, SamplingBatchInfo.mergeBatch, hnomask] at hrows
    cases hrows
  · have h := hm.specInfo
    unfold mergeSpecInfo at h
    rw [hd] at h
    cases hown : b.specInfo with
    | none => rw [hown] at h; cases h
    | some own =>
      cases htheirs : other.specInfo with
      | none => rw [hown, htheirs] at h; cases h
      | some theirs =>
        rw [hown, htheirs] at h
        cases h
        rw [whole_eq hdraft hown (hwhole own hown),
          whole_eq hdraftOther htheirs (hwholeOther theirs htheirs), hm.reqs]
        simp [EagleDraftInput.mergeBatch, EagleDraftInput.forReqs]

end Merge

end SglangInc.Batching
