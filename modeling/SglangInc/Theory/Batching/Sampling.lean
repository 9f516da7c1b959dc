import SglangInc.Core.ScheduleBatch
import SglangInc.Lib.Lookup

/-!
# Sampling Parameters Follow Their Requests

The arrays of a batch's sampling parameters, through a filter and a merge.

Most of these arrays hold a row for every request, and what has to be shown is
that the same index list reaches each of them. Three kinds can be missing: the
logit bias, the state of a penalizer and whatever belongs to custom logit
processors is only there if some request asks for it. A merge with a batch that
has none then writes default rows, which is right exactly if no request of that
batch asked. So the invariants carry, besides the rows, that a missing array is
missing because nobody asked (`SamplingOk`, `CustomOk`), and a filter that drops
an array has to drop it for that reason.

## Theorems

* `PenalizersOk.filter`, `PenalizersOk.merge`: For the penalizers.
* `CustomOk.filter`, `CustomOk.merge`: For the custom logit processors.
* `SamplingOk.filter`, `SamplingOk.merge`: For all of them.
-/

namespace SglangInc.Batching

open List Columns Lookup Option SamplingBatchInfo Orchestrator Penalizer

/-- A row computed for the request, or a default and the request did not ask for
    anything else. -/
def Row.For (asks : Req → Bool) (req : Req) : Row → Prop
  | .of r => r = req
  | .fill => asks req = false

/-- Every request has its own row. -/
theorem forall₂_rows (asks : Req → Bool) (reqs : List Req) :
    List.Forall₂ (Row.For asks) reqs (reqs.map Row.of) :=
  forall₂_map_right_iff.mpr (forall₂_same.mpr fun _ _ => rfl)

/-- Default rows are right where nobody asks. -/
theorem forall₂_fill {asks : Req → Bool} {reqs : List Req} (h : ∀ req ∈ reqs, asks req = false) :
    List.Forall₂ (Row.For asks) reqs (List.replicate reqs.length Row.fill) :=
  forall₂_replicate h

section Penalizers

/-- Every array of every prepared penalizer has the requests' own rows, and an
    orchestrator that is not required has no prepared penalizer. -/
structure PenalizersOk (o : Orchestrator) (reqs : List Req) : Prop where
  idle : o.isRequired = false → ∀ pen, o.arrays pen = none
  rows : ∀ pen columns, o.arrays pen = some columns → columns = pen.prepare reqs

theorem not_isRequired {reqs : List Req} (h : anyRequired reqs = false) (pen : Penalizer) :
    pen.isRequired reqs = false := by
  simp only [anyRequired, Bool.or_eq_false_iff] at h
  cases pen
  exacts [h.1.1, h.1.2, h.2]

theorem penalizersOk_init (reqs : List Req) : PenalizersOk (Orchestrator.init reqs) reqs := by
  have harrays : ∀ pen, (Orchestrator.init reqs).arrays pen
      = prepareIfRequired pen reqs := by
    intro pen
    cases pen <;> rfl
  refine ⟨fun hidle pen => ?_, fun pen columns h => ?_⟩
  · rw [harrays, prepareIfRequired, not_isRequired hidle pen]
    rfl
  · rw [harrays, prepareIfRequired] at h
    split_ifs at h
    exact (some.inj h).symm

variable {kept reqs theirReqs : List Req} {keep : List Nat} {pen : Penalizer}

/-- Arrays that are all the same are cut alike. -/
theorem mapM_gather_replicate (n : Nat) (hkept : gather keep reqs = some kept) :
    (List.replicate n (reqs.map Row.of)).mapM (gather keep)
      = some (List.replicate n (kept.map Row.of)) := by
  induction n with
  | zero => rfl
  | succ n ih =>
    rw [replicate_succ, mapM_cons, ih, gather_map Row.of hkept]
    rfl

/-- One penalizer in a filter: what is left of it is required and has the rows of
    the requests that stay. -/
theorem Penalizer.filter_ok {arrays out : Option (List Column)}
    (hkept : gather keep reqs = some kept)
    (hrows : ∀ columns, arrays = some columns → columns = pen.prepare reqs)
    (h : pen.filter kept keep arrays = some out) :
    ∀ columns, out = some columns → pen.isRequired kept = true ∧ columns = pen.prepare kept := by
  intro columns hout
  unfold filter at h
  split_ifs at h with hreq
  · refine ⟨hreq, ?_⟩
    cases arrays with
    | none =>
      cases h
      cases hout
    | some old =>
      rw [hrows old rfl] at h
      simp only [prepare, mapM_gather_replicate pen.width hkept] at h
      cases h
      cases hout
      rfl
  · cases h
    cases hout

/-- A penalizer that no request needs is torn down. -/
theorem PenalizersOk.filter {o o' : Orchestrator}
    (ok : PenalizersOk o reqs) (hkept : gather keep reqs = some kept)
    (h : o.filter kept keep = some o') : PenalizersOk o' kept := by
  unfold Orchestrator.filter at h
  split_ifs at h with hidle hnil
  · cases h
    refine ⟨ok.idle, fun pen columns hcols => ?_⟩
    cases (ok.idle hidle pen).symm.trans hcols
  · cases h
    have hnone : ∀ pen, release.arrays pen = none := by
      intro pen
      cases pen <;> rfl
    refine ⟨fun _ => hnone, fun pen columns hcols => ?_⟩
    cases (hnone pen).symm.trans hcols
  rcases bind_eq_some_iff.mp h with ⟨frequency, hf, h⟩
  rcases bind_eq_some_iff.mp h with ⟨minNewTokens, hm, h⟩
  rcases bind_eq_some_iff.mp h with ⟨presence, hp, h⟩
  cases h
  have hall : ∀ pen columns,
      arrays ⟨anyRequired kept, frequency, minNewTokens, presence⟩ pen
        = some columns → pen.isRequired kept = true ∧ columns = pen.prepare kept := by
    intro pen
    cases pen with
    | frequency => exact filter_ok hkept (ok.rows .frequency) hf
    | minNewTokens => exact filter_ok hkept (ok.rows .minNewTokens) hm
    | presence => exact filter_ok hkept (ok.rows .presence) hp
  refine ⟨fun hany pen => ?_, fun pen columns hcols => (hall pen columns hcols).2⟩
  -- Without a required penalizer every one of them has been torn down.
  cases hcols : arrays ⟨anyRequired kept, frequency, minNewTokens, presence⟩ pen with
  | none => rfl
  | some columns =>
    cases (hall pen columns hcols).1.symm.trans (not_isRequired hany pen)

/-- One penalizer in a merge. -/
theorem Penalizer.merge_ok {arrays theirs : Option (List Column)}
    (hrows : ∀ columns, arrays = some columns → columns = pen.prepare reqs)
    (htheirs : ∀ columns, theirs = some columns → columns = pen.prepare theirReqs) :
    ∀ columns, pen.merge reqs theirReqs arrays theirs = some columns →
      columns = pen.prepare (reqs ++ theirReqs) := by
  have hjoin : List.zipWith (· ++ ·) (pen.prepare reqs) (pen.prepare theirReqs)
      = pen.prepare (reqs ++ theirReqs) := by
    simp [prepare]
  have hown : ∀ {arrays reqs}, (∀ columns, arrays = some columns → columns = pen.prepare reqs) →
      arrays.getD (pen.prepare reqs) = pen.prepare reqs := by
    intro arrays reqs hrows
    cases arrays with
    | none => rfl
    | some columns => exact hrows columns rfl
  intro columns h
  unfold merge at h
  split at h
  · cases h
  · rw [hown hrows, hown htheirs, hjoin] at h
    cases h
    rfl

theorem PenalizersOk.merge {o their : Orchestrator} (ok : PenalizersOk o reqs)
    (okTheir : PenalizersOk their theirReqs) :
    PenalizersOk (o.merge their reqs theirReqs) (reqs ++ theirReqs) := by
  unfold Orchestrator.merge
  split_ifs with hidle
  · refine ⟨ok.idle, fun pen columns hcols => ?_⟩
    cases (ok.idle hidle.1 pen).symm.trans hcols
  · refine ⟨nofun, fun pen => ?_⟩
    cases pen with
    | frequency => exact merge_ok (ok.rows .frequency) (okTheir.rows .frequency)
    | minNewTokens => exact merge_ok (ok.rows .minNewTokens) (okTheir.rows .minNewTokens)
    | presence => exact merge_ok (ok.rows .presence) (okTheir.rows .presence)

end Penalizers

section Custom

/-- Whether a request uses a given custom logit processor, or any. -/
def usesProcessor (k : Nat) (req : Req) : Bool :=
  req.customLogitProcessor == some k

/-- The request has a processor. -/
def usesAnyProcessor (req : Req) : Bool :=
  req.customLogitProcessor.isSome

/-- A dictionary of masks: each matches the requests, and no processor that is in
    use is missing. -/
structure MasksOk (processors : List (Nat × Column)) (reqs : List Req) : Prop where
  rows : ∀ e ∈ processors, List.Forall₂ (Row.For (usesProcessor e.1)) reqs e.2
  complete : ∀ req ∈ reqs, ∀ k, req.customLogitProcessor = some k → k ∈ processors.map Prod.fst

/-- The parts of the sampling parameters for custom logit processors. The flag is
    only down if nobody uses one. -/
structure CustomOk (cfg : Config) (info : SamplingBatchInfo) (reqs : List Req) : Prop where
  off : info.hasCustomLogitProcessor = false →
    info.customLogitProcessor = none ∧ info.customParams = none ∧
      (cfg.enableCustomLogitProcessor = true → ∀ req ∈ reqs, req.customLogitProcessor = none)
  on : info.hasCustomLogitProcessor = true → cfg.enableCustomLogitProcessor = true ∧
    ∃ processors params, info.customLogitProcessor = some processors ∧
      info.customParams = some params ∧ MasksOk processors reqs ∧
      List.Forall₂ (Row.For usesAnyProcessor) reqs params

theorem customOk_fromScheduleBatch (cfg : Config) (reqs : List Req) :
    CustomOk cfg (fromScheduleBatch cfg reqs) reqs := by
  refine ⟨fun (hflag : (_ && _) = false) => ?_, fun (hflag : (_ && _) = true) => ?_⟩
  · refine ⟨?_, ?_, fun henable req hreq => ?_⟩
    iterate 2 · simp [fromScheduleBatch, hflag]
    · rw [henable, Bool.true_and, List.any_eq_false] at hflag
      exact not_isSome_iff_eq_none.mp (hflag req hreq)
  · refine ⟨(Bool.and_eq_true_iff.mp hflag).1,
      (reqs.filterMap (fun req => req.customLogitProcessor)).eraseDups.map
        (fun k => (k, reqs.map Row.of)), reqs.map Row.of, ?_, ?_, ?_, forall₂_rows _ reqs⟩
    iterate 2 · simp [fromScheduleBatch, hflag]
    · refine ⟨forall_mem_map.mpr fun k _ => forall₂_rows _ reqs, fun req hreq k hk => ?_⟩
      rw [List.map_map]
      refine mem_map.mpr ⟨k, ?_, rfl⟩
      rw [mem_eraseDups]
      exact mem_filterMap.mpr ⟨req, hreq, hk⟩

variable {reqs : List Req} {k : Nat} {processors : List (Nat × Column)} {info : SamplingBatchInfo}
variable {cfg : Config} {masks : List (Nat × Column)} {kept : List Req} {keep : List Nat}

/-- In a mask that matches the requests, the bit of one that uses the processor is
    set. -/
theorem any_bit_of_uses {mask : Column}
    (h : List.Forall₂ (Row.For (usesProcessor k)) reqs mask) {req : Req} (hreq : req ∈ reqs)
    (huses : req.customLogitProcessor = some k) : mask.any (Row.bit k) = true := by
  induction h with
  | nil => exact absurd hreq not_mem_nil
  | @cons r row reqs mask hrow _ ih =>
    rw [any_cons, Bool.or_eq_true]
    rcases mem_cons.mp hreq with rfl | htail
    · left
      cases row with
      | of r' =>
        have hr : r' = req := hrow
        rw [hr, Row.bit, huses, beq_self_eq_true]
      | fill =>
        have hno : usesProcessor k req = false := hrow
        rw [usesProcessor, huses, beq_self_eq_true] at hno
        cases hno
    · exact .inr (ih htail)

/-- Cutting every mask of a dictionary. -/
theorem MasksOk.gather (ok : MasksOk processors reqs) (hkept : gather keep reqs = some kept)
    (h : processors.mapM (fun e => (Columns.gather keep e.2).map (Prod.mk e.1)) = some masks) :
    MasksOk masks kept := by
  have hboth : masks.map Prod.fst = processors.map Prod.fst ∧
      ∀ e ∈ masks, List.Forall₂ (Row.For (usesProcessor e.1)) kept e.2 := by
    have hrows := ok.rows
    clear ok
    induction processors generalizing masks with
    | nil =>
      cases h
      exact ⟨rfl, forall_mem_nil _⟩
    | cons e processors ih =>
      rw [mapM_cons] at h
      rcases bind_eq_some_iff.mp h with ⟨cut, hcut, h⟩
      rcases bind_eq_some_iff.mp h with ⟨rest, hrest, h⟩
      cases h
      rcases ih hrest (forall_mem_cons.mp hrows).2 with ⟨hkeys, hmasks⟩
      rcases gather_forall₂ (hrows e mem_cons_self) hkept with ⟨out, hout, hR⟩
      rw [hout] at hcut
      cases hcut
      exact ⟨by rw [map_cons, map_cons, hkeys], forall_mem_cons.mpr ⟨hR, hmasks⟩⟩
  refine ⟨hboth.2, fun req hreq k hk => ?_⟩
  rw [hboth.1]
  exact ok.complete req (mem_of_gather hkept hreq) k hk

/-- Dropping the masks without a set bit loses no processor in use. -/
theorem MasksOk.dropUnused (ok : MasksOk masks reqs) :
    MasksOk (masks.filter fun e => e.2.any (Row.bit e.1)) reqs := by
  refine ⟨fun e he => ok.rows e (mem_filter.mp he).1, fun req hreq k hk => ?_⟩
  rcases mem_map.mp (ok.complete req hreq k hk) with ⟨e, he, rfl⟩
  exact mem_map.mpr ⟨e, mem_filter.mpr ⟨he, any_bit_of_uses (ok.rows e he) hreq hk⟩, rfl⟩

/-- A processor goes with the last request that uses it. -/
theorem CustomOk.filter {info' : SamplingBatchInfo} (ok : CustomOk cfg info reqs)
    (hkept : Columns.gather keep reqs = some kept) (hon : info.hasCustomLogitProcessor = true)
    (h : info.filterBatchCustomLogitProcessor keep = some info') : CustomOk cfg info' kept := by
  rcases ok.on hon with ⟨henable, processors, params, hprocs, hparams, hmasks, hrows⟩
  unfold filterBatchCustomLogitProcessor at h
  rw [hprocs, hparams] at h
  rcases bind_eq_some_iff.mp h with ⟨_, hp, h⟩
  cases hp
  rcases bind_eq_some_iff.mp h with ⟨masks, hcut, h⟩
  rcases bind_eq_some_iff.mp h with ⟨_, hp', h⟩
  cases hp'
  rcases bind_eq_some_iff.mp h with ⟨keptParams, hkeptParams, h⟩
  have hdropped := (hmasks.gather hkept hcut).dropUnused
  rcases gather_forall₂ hrows hkept with ⟨out, hout, hR⟩
  cases hkeptParams.symm.trans hout
  split_ifs at h with hnil
  · cases h
    refine ⟨fun _ => ⟨rfl, rfl, fun _ req hreq => ?_⟩, nofun⟩
    -- A request in use of a processor would have kept its mask in the dictionary.
    cases huses : req.customLogitProcessor with
    | none => rfl
    | some k =>
      have hmem := hdropped.complete req hreq k huses
      rw [hnil] at hmem
      exact absurd hmem not_mem_nil
  · cases h
    refine ⟨fun hoff => ?_, fun _ => ⟨henable, _, _, rfl, rfl, hdropped, hR⟩⟩
    have hflag : info.hasCustomLogitProcessor = false := hoff
    cases hon.symm.trans hflag

/-- A mask, or zeros for a processor nobody here uses. -/
theorem MasksOk.maskOr (ok : MasksOk processors reqs) (k : Nat) :
    List.Forall₂ (Row.For (usesProcessor k)) reqs (maskOr processors k reqs.length) := by
  unfold SamplingBatchInfo.maskOr
  cases hlook : processors.lookup k with
  | some mask => exact ok.rows _ (mem_of_lookup hlook)
  | none =>
    refine forall₂_fill fun req hreq => ?_
    by_contra huses
    have hk : req.customLogitProcessor = some k := by
      rwa [Bool.not_eq_false, usesProcessor, beq_iff_eq] at huses
    exact not_mem_keys_of_lookup hlook (ok.complete req hreq k hk)

/-- The dictionary of either flag, as `lhs or {}` reads it, and the parameters as
    `custom_params or [None] * len(self)` does. -/
theorem CustomOk.parts (ok : CustomOk cfg info reqs)
    (henable : cfg.enableCustomLogitProcessor = true) :
    MasksOk (info.customLogitProcessor.getD []) reqs ∧ List.Forall₂ (Row.For usesAnyProcessor) reqs
        (paramsOr info.customParams reqs.length) := by
  cases hflag : info.hasCustomLogitProcessor with
  | false =>
    rcases ok.off hflag with ⟨hprocs, hparams, hnone⟩
    rw [hprocs, hparams]
    refine ⟨⟨forall_mem_nil _, fun req hreq k hk => ?_⟩, forall₂_fill fun req hreq => ?_⟩
    · cases (hnone henable req hreq).symm.trans hk
    · rw [usesAnyProcessor, hnone henable req hreq]
      rfl
  | true =>
    rcases ok.on hflag with ⟨-, processors, params, hprocs, hparams, hmasks, hrows⟩
    rw [hprocs, hparams]
    refine ⟨hmasks, ?_⟩
    -- An empty list of parameters is replaced too, by as many defaults as there
    -- are requests: none.
    cases params with
    | nil =>
      cases hrows
      exact .nil
    | cons row rows => exact hrows

theorem mergeCustom_eq {lhs rhs : Option (List (Nat × Column))} {bs1 bs2 : Nat}
    (h : lhs ≠ none ∨ rhs ≠ none) : mergeCustomLogitProcessor lhs rhs bs1 bs2
      = some ((((lhs.getD []).map Prod.fst ++ (rhs.getD []).map Prod.fst).eraseDups).map fun k =>
          (k, maskOr (lhs.getD []) k bs1 ++ maskOr (rhs.getD []) k bs2)) := by
  unfold mergeCustomLogitProcessor
  split
  · rcases h with h | h <;> exact absurd rfl h
  · rfl

/-- A processor of one batch has false in the rows of the other. -/
theorem CustomOk.merge {other : SamplingBatchInfo}
    {otherReqs : List Req} (ok : CustomOk cfg info reqs) (okOther : CustomOk cfg other otherReqs)
    (hlen : info.len = reqs.length) (hlenOther : other.len = otherReqs.length) :
    CustomOk cfg (info.mergeBatch other reqs otherReqs) (reqs ++ otherReqs) := by
  constructor
  · intro hoff
    have hflags : (info.hasCustomLogitProcessor || other.hasCustomLogitProcessor) = false := hoff
    rcases Bool.or_eq_false_iff.mp hflags with ⟨hown, hother⟩
    rcases ok.off hown with ⟨hprocs, hparams, hnone⟩
    rcases okOther.off hother with ⟨-, -, hnoneOther⟩
    refine ⟨?_, ?_, fun henable => forall_mem_append.mpr ⟨hnone henable, hnoneOther henable⟩⟩
    · simp [mergeBatch, hflags, hprocs]
    · simp [mergeBatch, hflags, hparams]
  · intro hon
    have hflags : (info.hasCustomLogitProcessor || other.hasCustomLogitProcessor) = true := hon
    obtain ⟨henable, hsome⟩ : cfg.enableCustomLogitProcessor = true ∧
        (info.customLogitProcessor ≠ none ∨ other.customLogitProcessor ≠ none) := by
      rcases Bool.or_eq_true_iff.mp hflags with h | h
      · rcases ok.on h with ⟨henable, processors, _, hprocs, _⟩
        exact ⟨henable, .inl (hprocs ▸ some_ne_none _)⟩
      · rcases okOther.on h with ⟨henable, processors, _, hprocs, _⟩
        exact ⟨henable, .inr (hprocs ▸ some_ne_none _)⟩
    -- A batch without masks counts as one with no processors.
    rcases ok.parts henable with ⟨hmasks, hparams⟩
    rcases okOther.parts henable with ⟨hmasksOther, hparamsOther⟩
    have hmerged : (info.mergeBatch other reqs otherReqs).customLogitProcessor
        = mergeCustomLogitProcessor info.customLogitProcessor
          other.customLogitProcessor reqs.length otherReqs.length := by
      simp [mergeBatch, hflags, hlen, hlenOther]
    refine ⟨henable, _, _, hmerged.trans (mergeCustom_eq hsome), ?_,
      ⟨forall_mem_map.mpr fun k _ => rel_append (hmasks.maskOr k) (hmasksOther.maskOr k),
        fun req hreq k hk => ?_⟩, rel_append hparams hparamsOther⟩
    · simp [mergeBatch, hflags, hlen, hlenOther]
    · rw [List.map_map]
      refine mem_map.mpr ⟨k, ?_, rfl⟩
      rw [mem_eraseDups, mem_append]
      rcases mem_append.mp hreq with hl | hr
      · exact .inl (hmasks.complete req hl k hk)
      · exact .inr (hmasksOther.complete req hr k hk)

end Custom

section Sampling

/-- All arrays of the sampling parameters but the vocabulary mask, against the
    requests. -/
structure SamplingOk (cfg : Config) (info : SamplingBatchInfo) (reqs : List Req) : Prop where
  temperatures : info.temperatures = reqs.map Row.of
  topPs : info.topPs = reqs.map Row.of
  topKs : info.topKs = reqs.map Row.of
  minPs : info.minPs = reqs.map Row.of
  samplingSeed : info.samplingSeed
    = if cfg.enableDeterministicInference then some (reqs.map Row.of) else none
  noBias : info.logitBias = none → ∀ req ∈ reqs, req.logitBias = false
  logitBias : ∀ column, info.logitBias = some column →
    List.Forall₂ (Row.For (fun req => req.logitBias)) reqs column
  penalizers : PenalizersOk info.penalizerOrchestrator reqs
  custom : CustomOk cfg info reqs

variable {info info' : SamplingBatchInfo} {reqs kept : List Req} {cfg : Config} {keep : List Nat}

theorem SamplingOk.len_eq (ok : SamplingOk cfg info reqs) : info.len = reqs.length := by
  rw [SamplingBatchInfo.len, ok.temperatures, length_map]

/-- A new batch is built from its requests. -/
theorem samplingOk_fromScheduleBatch (cfg : Config) (reqs : List Req) :
    SamplingOk cfg (fromScheduleBatch cfg reqs) reqs where
  temperatures := rfl
  topPs := rfl
  topKs := rfl
  minPs := rfl
  samplingSeed := rfl
  noBias := by
    intro h req hreq
    by_contra hbias
    have hany : reqs.any (fun req => req.logitBias) = true :=
      any_eq_true.mpr ⟨req, hreq, Bool.not_eq_false _ ▸ hbias⟩
    simp only [fromScheduleBatch, hany, if_true] at h
    cases h
  logitBias := by
    intro column h
    simp only [fromScheduleBatch] at h
    split at h
    · cases h
      exact forall₂_rows _ reqs
    · cases h
  penalizers := penalizersOk_init reqs
  custom := customOk_fromScheduleBatch cfg reqs

variable {cut : SamplingBatchInfo}

/-- The custom logit processors are cut by a function that leaves the other arrays
    alone. -/
theorem cut_frame (h : info.filterCustomIfAny keep = some cut) :
    cut.temperatures = info.temperatures ∧ cut.topPs = info.topPs ∧ cut.topKs = info.topKs ∧
      cut.minPs = info.minPs ∧ cut.samplingSeed = info.samplingSeed ∧
      cut.logitBias = info.logitBias ∧ cut.vocabMask = info.vocabMask := by
  unfold filterCustomIfAny at h
  split at h
  · unfold filterBatchCustomLogitProcessor at h
    simp only [bind_eq_bind, bind_eq_some_iff] at h
    obtain ⟨_, -, _, -, _, -, _, -, h⟩ := h
    split at h <;> (rw [← some.inj h]; exact ⟨rfl, rfl, rfl, rfl, rfl, rfl, rfl⟩)
  · cases h
    exact ⟨rfl, rfl, rfl, rfl, rfl, rfl, rfl⟩

/-- A filter taken apart: the cut of the custom logit processors, then one cut for
    each array. -/
theorem filterBatch_parts (h : info.filterBatch kept keep = some info') :
    ∃ cut, info.filterCustomIfAny keep = some cut ∧
      info.penalizerOrchestrator.filter kept keep = some info'.penalizerOrchestrator ∧
      gather keep info.temperatures = some info'.temperatures ∧
      gather keep info.topPs = some info'.topPs ∧ gather keep info.topKs = some info'.topKs ∧
      gather keep info.minPs = some info'.minPs ∧
      gatherIfSome keep info.samplingSeed = some info'.samplingSeed ∧
      gatherIfSome keep info.logitBias = some info'.logitBias ∧
      info'.vocabMask = info.vocabMask ∧
      info'.hasCustomLogitProcessor = cut.hasCustomLogitProcessor ∧
      info'.customLogitProcessor = cut.customLogitProcessor ∧
      info'.customParams = cut.customParams := by
  unfold filterBatch at h
  simp only [bind_eq_bind, bind_eq_some_iff] at h
  obtain ⟨penalizers, hpen, cut, hcut, temperatures, h1, topPs, h2, topKs, h3, minPs, h4,
    samplingSeed, h5, logitBias, h6, h⟩ := h
  cases h
  simp only [cut_frame hcut] at h1 h2 h3 h4 h5 h6
  exact ⟨cut, hcut, hpen, h1, h2, h3, h4, h5, h6, (cut_frame hcut).2.2.2.2.2.2, rfl, rfl, rfl⟩

/-- What the cut of the custom logit processors leaves is right for the requests
    that stay. -/
theorem customOk_cut (ok : CustomOk cfg info reqs) (hkept : gather keep reqs = some kept)
    (h : info.filterCustomIfAny keep = some cut) : CustomOk cfg cut kept := by
  unfold filterCustomIfAny at h
  cases hflag : info.hasCustomLogitProcessor with
  | true =>
    rw [hflag, if_pos rfl] at h
    exact ok.filter hkept hflag h
  | false =>
    rw [hflag, if_neg Bool.false_ne_true] at h
    cases h
    rcases ok.off hflag with ⟨hprocs, hparams, hnone⟩
    refine ⟨fun _ => ⟨hprocs, hparams, fun henable req hreq =>
      hnone henable req (mem_of_gather hkept hreq)⟩, fun hon => ?_⟩
    cases hflag.symm.trans hon

/-- The vocabulary mask survives a filter unchanged. -/
theorem filterBatch_vocabMask (h : info.filterBatch kept keep = some info') :
    info'.vocabMask = info.vocabMask := by
  rcases filterBatch_parts h with ⟨cut, -, -, -, -, -, -, -, -, hmask, -⟩
  exact hmask

/-- A column of own rows, cut. -/
theorem gather_rows {column out : Column}
    (hkept : gather keep reqs = some kept) (hcol : column = reqs.map Row.of)
    (h : gather keep column = some out) : out = kept.map Row.of := by
  rw [hcol, gather_map Row.of hkept] at h
  cases h
  rfl

variable (ok : SamplingOk cfg info reqs)

include ok

/-- All arrays are cut alike. -/
theorem SamplingOk.filter
    (hkept : gather keep reqs = some kept) (h : info.filterBatch kept keep = some info') :
    SamplingOk cfg info' kept := by
  rcases filterBatch_parts h with
    ⟨cut, hcut, hpen, h1, h2, h3, h4, h5, h6, -, hflag, hprocs, hparams⟩
  have hcustom := customOk_cut ok.custom hkept hcut
  refine
    { temperatures := gather_rows hkept ok.temperatures h1
      topPs := gather_rows hkept ok.topPs h2
      topKs := gather_rows hkept ok.topKs h3
      minPs := gather_rows hkept ok.minPs h4
      samplingSeed := ?_
      noBias := fun hnone req hreq => ?_
      logitBias := fun column hcol => ?_
      penalizers := ok.penalizers.filter hkept hpen
      custom := ?_ }
  · rw [ok.samplingSeed] at h5
    split_ifs at h5 ⊢
    · rw [gatherIfSome, gather_map Row.of hkept, map_some, some.injEq] at h5
      exact h5.symm
    · exact (some.inj h5).symm
  · cases hbias : info.logitBias with
    | none => exact ok.noBias hbias req (mem_of_gather hkept hreq)
    | some old =>
      rw [hbias, hnone] at h6
      obtain ⟨out, -, hout⟩ := map_eq_some_iff.mp h6
      cases hout
  · cases hbias : info.logitBias with
    | none =>
      rw [hbias, gatherIfSome, hcol] at h6
      cases h6
    | some old =>
      rcases gather_forall₂ (ok.logitBias old hbias) hkept with ⟨out, hout, hR⟩
      rw [hbias, gatherIfSome, hout, hcol] at h6
      cases h6
      exact hR
  · constructor <;> rw [hflag, hprocs, hparams]
    exacts [hcustom.off, hcustom.on]

/-- A batch without a bias is merged as one of filled rows. -/
theorem SamplingOk.biasRows :
    List.Forall₂ (Row.For (fun req => req.logitBias)) reqs
      (info.logitBias.getD (List.replicate reqs.length Row.fill)) := by
  cases h : info.logitBias with
  | none => exact forall₂_fill (ok.noBias h)
  | some column => exact ok.logitBias column h

/-- All arrays are joined alike. -/
theorem SamplingOk.merge {other : SamplingBatchInfo}
    {otherReqs : List Req}
    (okOther : SamplingOk cfg other otherReqs) :
    SamplingOk cfg (info.mergeBatch other reqs otherReqs) (reqs ++ otherReqs) where
  temperatures := by
    simp [mergeBatch, ok.temperatures, okOther.temperatures]
  topPs := by simp [mergeBatch, ok.topPs, okOther.topPs]
  topKs := by simp [mergeBatch, ok.topKs, okOther.topKs]
  minPs := by simp [mergeBatch, ok.minPs, okOther.minPs]
  samplingSeed := by
    simp only [mergeBatch, ok.samplingSeed, okOther.samplingSeed]
    split
    · rw [catIfBoth, map_append]
    · rfl
  noBias := by
    intro hnone
    simp only [mergeBatch] at hnone
    unfold mergeBiasTensor at hnone
    split at hnone
    · rename_i hl hr
      exact forall_mem_append.mpr ⟨ok.noBias hl, okOther.noBias hr⟩
    · cases hnone
  logitBias := by
    intro column h
    simp only [mergeBatch, ok.len_eq, okOther.len_eq] at h
    unfold mergeBiasTensor at h
    split at h
    · cases h
    · cases h
      exact rel_append ok.biasRows okOther.biasRows
  penalizers := ok.penalizers.merge okOther.penalizers
  custom := ok.custom.merge okOther.custom ok.len_eq okOther.len_eq

/-- A new vocabulary mask leaves the other arrays as they are. -/
theorem SamplingOk.setMask (mask : Option Column) :
    SamplingOk cfg { info with vocabMask := mask } reqs :=
  { ok with custom := ⟨ok.custom.off, ok.custom.on⟩ }

end Sampling

end SglangInc.Batching
