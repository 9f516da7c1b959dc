import SglangInc.Lib.Runs
import SglangInc.Theory.Batching.FilterMerge

/-!
# Batch Rows Follow Their Requests

Row `i` of every array of a batch belongs to request `i`, through whole runs of
the scheduler.

For the arrays that are treated alike this is an invariant of every run. For the
draft state, the output tokens and the vocabulary mask it depends on what each
filter and merge of the run finds (`Ready`). Runs of the scheduler need not be
ready: a request that finishes while the results of its prefill are processed, a
preempted request in the middle of the batch and a merge before the running batch
was filtered all leave draft rows at the wrong position, and so does a
verification that accepts a draft token for the output tokens.

What a step can do is said once (`Effect`), and both invariants are read off it.

## Theorems

* `rowsAligned_of_ready`: All runs.
* `not_rowsAligned_prefillRun`: A run that is not ready.
-/

namespace SglangInc.Batching

open List Columns Option ScheduleBatch

section Forward

theorem stateOk_prepareForExtend (cfg : Config) (reqs : List Req) :
    StateOk cfg (prepareForExtend cfg reqs) := by
  have hlogprobs : LogprobsOk reqs (reqs.any fun req => req.returnLogprob)
      (if reqs.any (fun req => req.returnLogprob) then some (reqs.map Row.of) else none) := by
    cases hany : reqs.any (fun req => req.returnLogprob) with
    | false => exact ⟨fun _ => rfl, nofun⟩
    | true => exact ⟨nofun, fun _ => ⟨_, rfl, forall₂_rows _ reqs⟩⟩
  exact
    { reqPoolIndices := rfl, seqLens := rfl, seqLensCpu := rfl, origSeqLens := rfl
      multimodalInputs := rfl, encoderLens := rfl, encoderLensCpu := rfl, returnLogprob := rfl
      topLogprobsNums := hlogprobs, tokenIdsLogprobs := hlogprobs
      sampling := samplingOk_fromScheduleBatch cfg reqs
      outputIds := fun _ rows hrows => (nomatch hrows), specInfo := fun _ => rfl }

theorem settled_prepareForExtend (cfg : Config) (reqs : List Req) :
    Settled cfg (prepareForExtend cfg reqs) :=
  ⟨stateOk_prepareForExtend cfg reqs, fun _ h => (nomatch h), fun _ h => (nomatch h),
    fun _ h => (nomatch h)⟩

variable {b b' : ScheduleBatch} {finished : Req → Bool} {accepted : List Nat} {cfg : Config}

/-- A forward pass writes the output tokens, the vocabulary mask and the draft
    state, and nothing else. -/
theorem StateOk.forward (ok : StateOk cfg b) (output : Option Column) (mask : Option Column)
    (spec : Option EagleDraftInput)
    (houtput : cfg.speculative = false → ∀ rows, output = some rows → rows = b.reqs.map Row.of)
    (hspec : cfg.speculative = false → spec = none) :
    StateOk cfg { b with
      outputIds := output
      samplingInfo := { b.samplingInfo with vocabMask := mask }
      specInfo := spec } :=
  { ok with sampling := ok.sampling.setMask mask, outputIds := houtput, specInfo := hspec }

/-- The vocabulary mask after an extend batch. -/
def extendMask (b : ScheduleBatch) : Option Column :=
  if b.isPrefillOnly && !b.returnLogprob then b.samplingInfo.vocabMask else b.sampled.vocabMask

theorem runExtend_eq (h : b.runExtend cfg finished = some b') :
    ∃ spec, b.extendSpecInfo cfg finished = some spec ∧
      b' = { b with
        outputIds := some (b.reqs.map Row.of)
        samplingInfo := { b.samplingInfo with vocabMask := extendMask b }
        specInfo := spec } := by
  rcases bind_eq_some_iff.mp h with ⟨spec, hspec, h⟩
  refine ⟨spec, hspec, ?_⟩
  cases h
  rw [extendMask]
  split <;> rfl

theorem sampled_mask {rows : Column} (h : b.sampled.vocabMask = some rows) :
    rows = b.reqs.map Row.of := by
  simp only [sampled, SamplingBatchInfo.updateRegexVocabMask] at h
  split at h
  · exact (some.inj h).symm
  · cases h

/-- The rows that the draft forward of an extend batch leaves: all, or those of the
    requests that have not finished. -/
theorem forwardDraftExtend_eq {reqs : List Req} {d : EagleDraftInput}
    (h : forwardDraftExtend finished reqs = some d) :
    ∃ has : Req → Bool, (∀ req ∈ reqs, finished req = false → has req = true) ∧
      d = EagleDraftInput.forReqs (reqs.filter has) := by
  unfold forwardDraftExtend at h
  split at h
  · refine ⟨fun req => !finished req, fun req _ hfin => (Bool.not_eq_true' _).mpr hfin, ?_⟩
    exact forReqs_gather (gather_positions _ reqs) h
  · refine ⟨fun _ => true, fun _ _ _ => rfl, ?_⟩
    rw [filter_true]
    exact (some.inj h).symm

theorem runExtend_ok (ok : b.reqs = [] ∨ StateOk cfg b) (h : b.runExtend cfg finished = some b') :
    b'.reqs = [] ∨ StateOk cfg b' := by
  rcases runExtend_eq h with ⟨spec, hspec, rfl⟩
  refine ok.imp id fun ok => ok.forward _ _ _ (fun _ rows hrows => (some.inj hrows).symm)
    fun hnospec => ?_
  rw [extendSpecInfo, hnospec, if_neg Bool.false_ne_true, ok.specInfo hnospec] at hspec
  exact (some.inj hspec).symm

/-- A prefill leaves one row for each request. -/
theorem runExtend_inv (hinv : BatchInv cfg finished b) (h : b.runExtend cfg finished = some b') :
    BatchInv cfg finished b' := by
  rcases hinv with hnil | ⟨ok, -, hmask, hdraft⟩
  · rcases runExtend_eq h with ⟨spec, -, rfl⟩
    exact .inl hnil
  rcases runExtend_ok (.inr ok) h with hnil | ok'
  · exact .inl hnil
  rcases runExtend_eq h with ⟨spec, hspec, rfl⟩
  refine .inr ⟨ok', fun rows hrows _ => (some.inj hrows).symm, fun rows hrows => ?_, fun d hd => ?_⟩
  · have hrows' : extendMask b = some rows := hrows
    unfold extendMask at hrows'
    split at hrows'
    · exact hmask rows hrows'
    · exact sampled_mask hrows'
  · have hd' : spec = some d := hd
    rw [hd'] at hspec
    unfold extendSpecInfo at hspec
    split at hspec
    · rcases map_eq_some_iff.mp hspec with ⟨d', hdraft', heq⟩
      exact forwardDraftExtend_eq (heq ▸ hdraft')
    · exact hdraft d (some.inj hspec)

variable (hspec : cfg.speculative = false)

include hspec

theorem runDecode_eq :
    (b.prepareForDecode cfg).runDecode = { b with
      outputIds := some (b.reqs.map Row.of)
      samplingInfo := { b.samplingInfo with vocabMask := b.sampled.vocabMask }
      specInfo := b.specInfo } := by
  rw [prepareForDecode, hspec, if_neg Bool.false_ne_true]
  rfl

theorem runDecode_ok (ok : StateOk cfg b) :
    StateOk cfg (b.prepareForDecode cfg).runDecode := by
  rw [runDecode_eq hspec]
  exact ok.forward _ _ _ (fun _ rows hrows => (some.inj hrows).symm) ok.specInfo

theorem runDecode_inv
    (hinv : StateOk cfg b ∧ OutputOk b ∧ MaskOk b ∧ DraftOk finished b) :
    BatchInv cfg finished (b.prepareForDecode cfg).runDecode := by
  rcases hinv with ⟨ok, -, -, hdraft⟩
  refine .inr ⟨runDecode_ok hspec ok, ?_⟩
  rw [runDecode_eq hspec]
  exact ⟨fun rows hrows _ => (some.inj hrows).symm, fun rows hrows => sampled_mask hrows, hdraft⟩

omit hspec

theorem runVerify_eq (finished : Req → Bool) (accepted : List Nat) (masked : Bool)
    (b : ScheduleBatch) :
    b.runVerify finished accepted masked = { b with
      outputIds := some (verifiedRows b.reqs accepted)
      samplingInfo := { b.samplingInfo with
        vocabMask := if b.hasGrammar && masked then none else b.samplingInfo.vocabMask }
      specInfo := some (EagleDraftInput.forReqs (b.reqs.filter fun req => !finished req)) } := by
  unfold runVerify
  split <;> rfl

theorem runVerify_ok {masked : Bool} (hspec : cfg.speculative = true) (ok : StateOk cfg b) :
    StateOk cfg (b.runVerify finished accepted masked) := by
  have hno : cfg.speculative ≠ false := Bool.ne_false_iff.mpr hspec
  rw [runVerify_eq]
  exact ok.forward _ _ _ (fun h => absurd h hno) (fun h => absurd h hno)

/-- There are at least as many verified tokens as requests, and as many only if no
    draft token was accepted: then they are one for each request. -/
theorem verifiedRows_eq {reqs : List Req} (hlen : accepted.length = reqs.length) :
    reqs.length ≤ (verifiedRows reqs accepted).length ∧
      ((verifiedRows reqs accepted).length = reqs.length →
        verifiedRows reqs accepted = reqs.map Row.of) := by
  induction reqs generalizing accepted with
  | nil => exact ⟨Nat.zero_le _, fun _ => by cases accepted <;> rfl⟩
  | cons req reqs ih =>
    cases accepted with
    | nil => cases hlen
    | cons n accepted =>
      rcases ih (Nat.succ.inj hlen) with ⟨hle, heq⟩
      have hsplit : verifiedRows (req :: reqs) (n :: accepted)
          = List.replicate (n + 1) (Row.of req) ++ verifiedRows reqs accepted := by
        simp [verifiedRows]
      rw [hsplit, length_append, length_replicate, length_cons]
      refine ⟨by omega, fun h => ?_⟩
      have hn : n = 0 := by omega
      have hrest : (verifiedRows reqs accepted).length = reqs.length := by omega
      rw [hn, heq hrest]
      rfl

theorem runVerify_inv {masked : Bool} (hspec : cfg.speculative = true)
    (hlen : accepted.length = b.reqs.length) (ok : StateOk cfg b) (hmask : MaskOk b) :
    BatchInv cfg finished (b.runVerify finished accepted masked) := by
  refine .inr ⟨runVerify_ok hspec ok, ?_⟩
  rw [runVerify_eq]
  refine ⟨fun rows hrows hshape => ?_, fun rows hrows => ?_, fun d hd => ?_⟩
  · cases hrows
    exact (verifiedRows_eq hlen).2 hshape
  · have hrows' : (if b.hasGrammar && masked then none else b.samplingInfo.vocabMask)
        = some rows := hrows
    split at hrows'
    · cases hrows'
    · exact hmask rows hrows'
  · refine ⟨fun req => !finished req, fun req _ hfin => (Bool.not_eq_true' _).mpr hfin, ?_⟩
    exact (some.inj hd).symm

/-- More requests finish. -/
theorem BatchInv.mono {finished' : Req → Bool} (hinv : BatchInv cfg finished b)
    (hmono : ∀ req, finished' req = false → finished req = false) : BatchInv cfg finished' b := by
  refine hinv.imp id fun ⟨ok, hout, hmask, hdraft⟩ => ⟨ok, hout, hmask, fun d hd => ?_⟩
  rcases hdraft d hd with ⟨has, hhas, heq⟩
  exact ⟨has, fun req hreq hfin => hhas req hreq (hmono req hfin), heq⟩

end Forward

section Steps

/-- Whether `mergeLast` merges, and does not drop or replace. -/
def merges (s : Scheduler) (last : ScheduleBatch) : Bool :=
  !(last.isEmpty || last.isPrefillOnly) && !s.running.isEmpty

/-- The batch that a step has just filtered or merged. -/
def touched (s : Scheduler) (op : Op) (t : Scheduler) : Option ScheduleBatch :=
  match op with
  | .filterLast _ => t.last
  | .preempt _ => some t.running
  | .filterRunning => some t.running
  | .retract _ _ => some t.running
  | .mergeLast => s.last.bind fun last => if merges s last then some t.running else none
  | .mix => t.last
  | _ => none

/-- The condition on a step, in the state before it. -/
def Ready (cfg : Config) (s : Scheduler) (op : Op) : Prop :=
  match op with
  | .filterLast chunked =>
    ∀ last ∈ s.last, FilterReady s.isFinished (some chunked) none last
  | .preempt preemptible =>
    FilterReady s.isFinished none (some (s.preemptIndices preemptible)) s.running
  | .filterRunning => FilterReady s.isFinished none none s.running
  | .retract sortedIndices remaining =>
    FilterReady s.isFinished none (some (s.retractIndices cfg sortedIndices remaining)) s.running
  | .mergeLast => ∀ last ∈ s.last, merges s last = true → MergeReady s.running last
  | .mix => ∀ last ∈ s.last, MergeReady last (s.running.prepareForDecode cfg)
  | _ => True

instance (cfg : Config) (s : Scheduler) : (op : Op) → Decidable (Ready cfg s op)
  | .filterLast _ => inferInstanceAs (Decidable (∀ _ ∈ s.last, _))
  | .preempt _ | .filterRunning | .retract _ _ => inferInstanceAs (Decidable (FilterReady ..))
  | .mergeLast | .mix => inferInstanceAs (Decidable (∀ _ ∈ s.last, _))
  | .newBatch _ | .runExtend | .finish _ | .decode | .verify _ _ _ =>
    inferInstanceAs (Decidable True)

/-- A property of the two batches of the scheduler. -/
def BothBatches (P : ScheduleBatch → Prop) (s : Scheduler) : Prop :=
  P s.running ∧ ∀ last, s.last = some last → P last

theorem BothBatches.intro {P : ScheduleBatch → Prop} {running last : ScheduleBatch}
    {finished : List Req} (hrunning : P running) (hlast : P last) :
    BothBatches P ⟨running, some last, finished⟩ :=
  ⟨hrunning, fun _ hl => Option.some.inj hl ▸ hlast⟩

theorem BothBatches.alone {P : ScheduleBatch → Prop} {running : ScheduleBatch}
    {finished : List Req} (h : P running) : BothBatches P ⟨running, none, finished⟩ :=
  ⟨h, fun _ hl => nomatch hl⟩

variable {cfg : Config} {b : ScheduleBatch}

theorem stateOk_prepareForDecode (ok : StateOk cfg b) : StateOk cfg (b.prepareForDecode cfg) := by
  unfold prepareForDecode
  split
  · exact ok
  · exact { ok with outputIds := fun _ rows hrows => (nomatch hrows) }

variable {s t : Scheduler} {op : Op} {last : ScheduleBatch}

/-- What a step does to the scheduler, one alternative for each kind: a new batch,
    a forward pass of one of the two, more finished requests, a filter of one of
    the two, or a merge. -/
inductive Effect (cfg : Config) (s : Scheduler) : Op → Scheduler → Prop
  | newBatch (reqs : List Req) :
      Effect cfg s (.newBatch reqs)
        { s with last := some (prepareForExtend cfg reqs) }
  | mix (last merged : ScheduleBatch) (hlast : s.last = some last) (hne : last.reqs ≠ [])
      (hrun : s.running.reqs ≠ []) (hm : Merged cfg last (s.running.prepareForDecode cfg) merged) :
      Effect cfg s .mix
        { s with running := ScheduleBatch.empty cfg
                 last := some { merged with isPrefillOnly := false } }
  | runExtend (last ran : ScheduleBatch) (hlast : s.last = some last)
      (hran : last.runExtend cfg s.isFinished = some ran) :
      Effect cfg s .runExtend { s with last := some ran }
  | finish (reqs : List Req) : Effect cfg s (.finish reqs) { s with finished := s.finished ++ reqs }
  | filterLast (chunked : List Req) (last kept : ScheduleBatch) (hlast : s.last = some last)
      (hkept : last.filterBatch cfg s.isFinished (some chunked) none = some kept) :
      Effect cfg s (.filterLast chunked) { s with last := some kept }
  | dropLast (last : ScheduleBatch) (hlast : s.last = some last) (hno : merges s last = false) :
      Effect cfg s .mergeLast { s with last := none }
  | replaceRunning (last : ScheduleBatch) (hlast : s.last = some last)
      (hno : merges s last = false) :
      Effect cfg s .mergeLast { s with running := last, last := none }
  | mergeLast (last merged : ScheduleBatch) (hlast : s.last = some last)
      (hyes : merges s last = true) (hne : last.reqs ≠ []) (hrun : s.running.reqs ≠ [])
      (hm : Merged cfg s.running last merged) :
      Effect cfg s .mergeLast { s with running := merged, last := none }
  | filterRunning (op : Op) (given : Option (List Nat)) (kept : ScheduleBatch)
      (htouched : ∀ t, touched s op t = some t.running)
      (hready : Ready cfg s op = FilterReady s.isFinished none given s.running)
      (hkept : s.running.filterBatch cfg s.isFinished none given = some kept) :
      Effect cfg s op { s with running := kept }
  | decode (hspec : cfg.speculative = false) (hrun : s.running.reqs ≠ []) :
      Effect cfg s .decode { s with running := (s.running.prepareForDecode cfg).runDecode }
  | verify (finishing : List Req) (accepted : List Nat) (masked : Bool)
      (hspec : cfg.speculative = true) (hrun : s.running.reqs ≠ [])
      (hlen : accepted.length = s.running.reqs.length) :
      Effect cfg s (.verify finishing accepted masked)
        { s with
          finished := s.finished ++ finishing
          running := s.running.runVerify
            (fun req => (s.finished ++ finishing).contains req) accepted masked }

theorem not_isEmpty (h : b.isEmpty = false) : b.reqs ≠ [] := by
  intro hnil
  rw [ScheduleBatch.isEmpty, hnil] at h
  cases h

theorem effect_mix (hlast : s.last = some last) (h : s.mix cfg last = some t) :
    Effect cfg s .mix t := by
  unfold Scheduler.mix at h
  split at h
  · cases h
  rename_i hguard
  simp only [Bool.or_eq_true, not_or, Bool.not_eq_true] at hguard
  rcases map_eq_some_iff.mp h with ⟨merged, hm, rfl⟩
  exact .mix last merged hlast (not_isEmpty hguard.1.1.1.1.2) (not_isEmpty hguard.1.1.2)
    (merged_of_mergeBatch hm)

/-- The last batch is dropped, replaces the running one or is merged into it. -/
theorem effect_mergeLast (hlast : s.last = some last) (h : s.mergeLast cfg last = some t) :
    Effect cfg s .mergeLast t := by
  unfold Scheduler.mergeLast at h
  split_ifs at h with hdrop hempty
  · cases h
    exact .dropLast last hlast (by rw [merges, hdrop]; rfl)
  · cases h
    exact .replaceRunning last hlast (by rw [merges, hempty, Bool.not_true, Bool.and_false])
  rcases map_eq_some_iff.mp h with ⟨merged, hm, rfl⟩
  refine .mergeLast last merged hlast ?_ (fun hnil => ?_) (not_isEmpty ?_)
    (merged_of_mergeBatch hm)
  · rw [merges, Bool.eq_false_iff.mpr hdrop, Bool.eq_false_iff.mpr hempty]
    rfl
  · exact hdrop (by rw [ScheduleBatch.isEmpty, hnil]; rfl)
  · exact Bool.eq_false_iff.mpr hempty

/-- Every step has one of the effects. -/
theorem effect_of_step (h : Scheduler.Step cfg s op t) : Effect cfg s op t := by
  unfold Scheduler.Step at h
  cases op with
  | newBatch reqs =>
    rw [Scheduler.step] at h
    split at h
    · cases h
    · cases h
      exact .newBatch reqs
  | mix =>
    rcases bind_eq_some_iff.mp h with ⟨last, hlast, h⟩
    exact effect_mix hlast h
  | runExtend =>
    rcases bind_eq_some_iff.mp h with ⟨last, hlast, h⟩
    rcases bind_eq_some_iff.mp h with ⟨ran, hran, h⟩
    cases h
    exact .runExtend last ran hlast hran
  | finish reqs =>
    cases h
    exact .finish reqs
  | filterLast chunked =>
    rcases bind_eq_some_iff.mp h with ⟨last, hlast, h⟩
    rcases bind_eq_some_iff.mp h with ⟨kept, hkept, h⟩
    cases h
    exact .filterLast chunked last kept hlast hkept
  | mergeLast =>
    rcases bind_eq_some_iff.mp h with ⟨last, hlast, h⟩
    exact effect_mergeLast hlast h
  | preempt | filterRunning =>
    rcases bind_eq_some_iff.mp h with ⟨kept, hkept, h⟩
    cases h
    exact .filterRunning _ _ kept (fun _ => rfl) rfl hkept
  | retract sortedIndices remaining =>
    rw [Scheduler.step] at h
    split at h
    · rcases bind_eq_some_iff.mp h with ⟨kept, hkept, h⟩
      cases h
      exact .filterRunning _ _ kept (fun _ => rfl) rfl hkept
    · cases h
  | decode =>
    -- The guard of the step is what the effect asks for.
    rw [Scheduler.step] at h
    split at h
    · cases h
    · rename_i hguard
      rw [Bool.or_eq_true, not_or, Bool.not_eq_true, Bool.not_eq_true] at hguard
      cases h
      exact .decode hguard.1 (not_isEmpty hguard.2)
  | verify finishing accepted masked =>
    rw [Scheduler.step] at h
    split at h
    · rename_i hguard
      simp only [Bool.and_eq_true, Bool.not_eq_true', beq_iff_eq] at hguard
      cases h
      exact .verify finishing accepted masked hguard.1.1.1 (not_isEmpty hguard.1.1.2) hguard.2
    · cases h

/-- The arrays treated alike, along any step. -/
theorem stateOk_step (hs : BothBatches (fun b => b.reqs = [] ∨ StateOk cfg b) s)
    (h : Scheduler.Step cfg s op t) : BothBatches (fun b => b.reqs = [] ∨ StateOk cfg b) t := by
  rcases hs with ⟨hrunning, hlasts⟩
  cases effect_of_step h with
  | newBatch reqs =>
    exact .intro hrunning (.inr (stateOk_prepareForExtend cfg reqs))
  | mix last merged hlast hne hrun hm =>
    have hok := ((hlasts last hlast).resolve_left hne).merge
      (stateOk_prepareForDecode (hrunning.resolve_left hrun)) hm
    exact .intro (.inl rfl) (.inr { hok with })
  | runExtend last ran hlast hran =>
    exact .intro hrunning (runExtend_ok (hlasts last hlast) hran)
  | finish reqs => exact ⟨hrunning, hlasts⟩
  | filterLast chunked last kept hlast hkept =>
    exact .intro hrunning (stateOk_filter (hlasts last hlast) hkept)
  | dropLast last hlast hno => exact .alone hrunning
  | replaceRunning last hlast hno => exact .alone (hlasts last hlast)
  | mergeLast last merged hlast hyes hne hrun hm =>
    exact .alone (.inr ((hrunning.resolve_left hrun).merge
      ((hlasts last hlast).resolve_left hne) hm))
  | filterRunning op given kept htouched hready hkept =>
    exact ⟨stateOk_filter hrunning hkept, hlasts⟩
  | decode hspec hrun => exact ⟨.inr (runDecode_ok hspec (hrunning.resolve_left hrun)), hlasts⟩
  | verify finishing accepted masked hspec hrun hlen =>
    exact ⟨.inr (runVerify_ok hspec (hrunning.resolve_left hrun)), hlasts⟩

/-- All arrays, along a step that is ready: the batches are as they may be between
    two filters, and the one just filtered or merged is settled. -/
theorem inv_step (hs : BothBatches (BatchInv cfg s.isFinished) s) (hready : Ready cfg s op)
    (h : Scheduler.Step cfg s op t) : BothBatches (BatchInv cfg t.isFinished) t ∧
      ∀ b, touched s op t = some b → b.reqs = [] ∨ Settled cfg b := by
  rcases hs with ⟨hrunning, hlasts⟩
  -- A filtered or merged batch settles, and settled batches keep the invariant.
  have hsettle : ∀ {b : ScheduleBatch}, (b.reqs = [] ∨ Settled cfg b) →
      BatchInv cfg s.isFinished b := fun hb => hb.elim .inl Settled.inv
  have hmono : ∀ reqs req, (s.finished ++ reqs).contains req = false →
      s.isFinished req = false := by
    intro reqs req hreq
    rw [contains_append, Bool.or_eq_false_iff] at hreq
    exact hreq.1
  cases effect_of_step h with
  | newBatch reqs =>
    exact ⟨.intro hrunning (settled_prepareForExtend cfg reqs).inv, fun b hb => nomatch hb⟩
  | mix last merged hlast hne hrun hm =>
    have hown := (hlasts last hlast).resolve_left hne
    have hother := hrunning.resolve_left hrun
    have hother' : StateOk cfg (s.running.prepareForDecode cfg) ∧
        OutputOk (s.running.prepareForDecode cfg) ∧ MaskOk (s.running.prepareForDecode cfg) ∧
        DraftOk s.isFinished (s.running.prepareForDecode cfg) := by
      refine ⟨stateOk_prepareForDecode hother.1, ?_⟩
      unfold prepareForDecode
      split
      · exact hother.2
      · exact ⟨fun rows hrows => (nomatch hrows), hother.2.2.1, hother.2.2.2⟩
    have hmerged := settled_merge hown hother' (hready last hlast) hm
    have hsettled : Settled cfg { merged with isPrefillOnly := false } :=
      ⟨{ hmerged.state with }, hmerged.outputIds, hmerged.vocabMask, hmerged.specInfo⟩
    refine ⟨.intro (.inl rfl) hsettled.inv, fun b hb => ?_⟩
    cases hb
    exact .inr hsettled
  | runExtend last ran hlast hran =>
    exact ⟨.intro hrunning (runExtend_inv (hlasts last hlast) hran), fun b hb => nomatch hb⟩
  | finish reqs =>
    exact ⟨⟨hrunning.mono (hmono reqs), fun last hl => (hlasts last hl).mono (hmono reqs)⟩,
      fun b hb => nomatch hb⟩
  | filterLast chunked last kept hlast hkept =>
    have hkept' := settled_filter (hlasts last hlast) (hready last hlast) hkept
    refine ⟨.intro hrunning (hsettle hkept'), fun b hb => ?_⟩
    cases hb
    exact hkept'
  | dropLast last hlast hno =>
    refine ⟨.alone hrunning, fun b hb => ?_⟩
    rw [touched, hlast, bind_some, hno] at hb
    cases hb
  | replaceRunning last hlast hno =>
    refine ⟨.alone (hlasts last hlast), fun b hb => ?_⟩
    rw [touched, hlast, bind_some, hno] at hb
    cases hb
  | mergeLast last merged hlast hyes hne hrun hm =>
    have hmerged := settled_merge (hrunning.resolve_left hrun)
      ((hlasts last hlast).resolve_left hne) (hready last hlast hyes) hm
    refine ⟨.alone hmerged.inv, fun b hb => ?_⟩
    rw [touched, hlast, bind_some, hyes] at hb
    cases hb
    exact .inr hmerged
  | filterRunning op given kept htouched hfilter hkept =>
    have hkept' := settled_filter hrunning (hfilter ▸ hready) hkept
    refine ⟨⟨hsettle hkept', hlasts⟩, fun b hb => ?_⟩
    rw [htouched] at hb
    cases hb
    exact hkept'
  | decode hspec hrun =>
    exact ⟨⟨runDecode_inv hspec (hrunning.resolve_left hrun), hlasts⟩, fun b hb => nomatch hb⟩
  | verify finishing accepted masked hspec hrun hlen =>
    have hok := hrunning.resolve_left hrun
    exact ⟨⟨runVerify_inv hspec hlen hok.1 hok.2.2.1,
      fun last hl => (hlasts last hl).mono (hmono finishing)⟩, fun b hb => nomatch hb⟩

end Steps

section Runs

variable {cfg : Config} {op : Op}

/-- The batch a step touched is one of the two batches after it. -/
theorem touched_mem {s t : Scheduler} {b : ScheduleBatch} {P : ScheduleBatch → Prop}
    (ht : BothBatches P t) (hb : touched s op t = some b) : P b := by
  cases op with
  | filterLast | mix => exact ht.2 b hb
  | preempt | filterRunning | retract => exact some.inj hb ▸ ht.1
  | mergeLast =>
    rcases bind_eq_some_iff.mp hb with ⟨last, -, hb⟩
    split at hb
    · exact some.inj hb ▸ ht.1
    · cases hb
  | newBatch | runExtend | finish | decode | verify => cases hb

/-- Every run keeps the rows of nearly all arrays with their requests, and a run
    whose filters and merges are all ready keeps those of every array. -/
theorem rowsAligned_of_ready {tr : List (Scheduler × Op × Scheduler)} {t : Scheduler}
    (hr : Run (Scheduler.Step cfg) (Scheduler.init cfg) tr t) :
    (∀ e ∈ tr, ∀ b, touched e.1 e.2.1 e.2.2 = some b → StateAligned cfg b) ∧
      ((∀ e ∈ tr, Ready cfg e.1 e.2.1) →
        ∀ e ∈ tr, ∀ b, touched e.1 e.2.1 e.2.2 = some b → RowsAligned cfg b) := by
  constructor
  · intro e he b hb
    have hboth := (hr.inv_mem (P := BothBatches fun b => b.reqs = [] ∨ StateOk cfg b)
      (.alone (.inl rfl)) (fun _ _ _ => stateOk_step) e he).2
    rcases touched_mem hboth hb with hnil | hok
    · exact stateAligned_nil hnil
    · exact hok.aligned
  · intro hready e he b hb
    have hguarded := hr.guarded hready
    have hbefore := (hguarded.inv_mem (P := fun s => BothBatches (BatchInv cfg s.isFinished) s)
      (.alone (.inl rfl))
      (fun _ _ _ hs h => (inv_step hs h.2 h.1).1) e he).1
    rcases (inv_step hbefore (hready e he) (hr.step_of_mem e he)).2 b hb with hnil | hsettled
    · exact rowsAligned_nil hnil
    · exact hsettled.aligned

/-- The state after a call that does not fail. -/
def after (cfg : Config) (s : Scheduler) (op : Op) (h : (s.step cfg op).isSome = true) :
    Scheduler :=
  (s.step cfg op).get h

theorem step_after {s : Scheduler} (h : (s.step cfg op).isSome = true) :
    Scheduler.Step cfg s op (after cfg s op h) :=
  (Option.some_get h).symm

/-- A server with a draft model, and two requests. -/
def eagle : Config :=
  { enableDeterministicInference := false, enableCustomLogitProcessor := false
    isEncoderDecoder := false, speculative := true }

/-- The two requests. -/
def first : Req := { rid := 0 }

def second : Req := { rid := 1 }

/-- Both are in one prefill batch. -/
def started : Scheduler :=
  after eagle (Scheduler.init eagle) (.newBatch [first, second]) rfl

/-- The prefill has run. -/
def prefilled : Scheduler :=
  after eagle started .runExtend rfl

/-- Both go on. -/
def kept : Scheduler :=
  after eagle prefilled (.filterLast []) rfl

/-- They are in the running batch. -/
def decoding : Scheduler :=
  after eagle kept .mergeLast rfl

/-- The first finishes in a verification, which accepts no draft token. -/
def verified : Scheduler :=
  after eagle decoding (.verify [first] [0, 0] false) rfl

/-- It is filtered out. -/
def filtered : Scheduler :=
  after eagle verified .filterRunning rfl

/-- All these steps. -/
def verifyRun : List (Scheduler × Op × Scheduler) :=
  [(Scheduler.init eagle, .newBatch [first, second], started), (started, .runExtend, prefilled),
    (prefilled, .filterLast [], kept), (kept, .mergeLast, decoding),
    (decoding, .verify [first] [0, 0] false, verified), (verified, .filterRunning, filtered)]

theorem run_verifyRun : Run (Scheduler.Step eagle) (Scheduler.init eagle) verifyRun filtered :=
  .cons _ (step_after rfl) (.cons _ (step_after rfl) (.cons _ (step_after rfl)
    (.cons _ (step_after rfl) (.cons _ (step_after rfl) (.cons _ (step_after rfl) .nil)))))

/-- A run that is ready: the last filter finds one draft row, for the one request
    that is left. -/
theorem rowsAligned_of_ready_verifyRun :
    Run (Scheduler.Step eagle) (Scheduler.init eagle) verifyRun filtered ∧
      (∀ e ∈ verifyRun, Ready eagle e.1 e.2.1) ∧
      filtered.running.reqs = [second] ∧ RowsAligned eagle filtered.running :=
  ⟨run_verifyRun, by decide, by decide, (rowsAligned_of_ready run_verifyRun).2 (by decide)
    (verified, .filterRunning, filtered) (by simp [verifyRun])
    _ rfl⟩

/-- The first finishes while the results of the prefill are processed. -/
def processed : Scheduler :=
  after eagle prefilled (.finish [first]) rfl

/-- The last batch is filtered. -/
def cut : Scheduler :=
  after eagle processed (.filterLast []) rfl

/-- The steps to there. -/
def prefillRun : List (Scheduler × Op × Scheduler) :=
  [(Scheduler.init eagle, .newBatch [first, second], started), (started, .runExtend, prefilled),
    (prefilled, .finish [first], processed), (processed, .filterLast [], cut)]

/-- A run that is not: the filter keeps the second request and the draft row of the
    first. -/
theorem not_rowsAligned_prefillRun :
    Run (Scheduler.Step eagle) (Scheduler.init eagle) prefillRun cut ∧
      ∃ b, touched processed (.filterLast []) cut = some b ∧ b.reqs = [second] ∧
        (∃ d, b.specInfo = some d ∧ d.topkP = [Row.of first]) ∧ ¬ RowsAligned eagle b := by
  refine ⟨.cons _ (step_after rfl) (.cons _ (step_after rfl) (.cons _ (step_after rfl)
    (.cons _ (step_after rfl) .nil))), _, rfl, rfl, ⟨_, rfl, rfl⟩, fun h => ?_⟩
  rcases h.topkP _ rfl 0 second rfl with ⟨row, hrow, hfor⟩
  cases hrow
  exact absurd hfor (by decide : ¬ first = second)

end Runs

end SglangInc.Batching
