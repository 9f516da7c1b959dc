import SglangInc.Core.Overlap
import SglangInc.Lib.Checked
import SglangInc.Lib.Runs
import Mathlib.Tactic.Linarith

/-!
# Live Futures Are Not Recycled

Over any run of the overlap loop, an index that is resolved still holds what the
launch that reserved it has stored for the request (`futures_live`).

A request that waits in the running batch was last launched by the newest decode
launch or after it, because a decode launch takes the whole running batch and
gives all of it new indices. So at the next decode launch its index is at most as
old as the rows of one decode batch and of the prefill batches since. With `M`
rows for the one and `M * (1 + N)` for the others this is less than
`future_limit = M * (3 + N)`, and `Ring.Kept` does the rest. A mixed batch decodes
the running batch too and counts as a decode launch.

The prefill batches in front of the first decode launch have to be counted as well
(`sinceDecode`). And without speculative decoding the ids of a prompt must not be
negative: `resolve_future` takes every negative id for an index, and an id that
came with a prompt reads what was stored for some other request
(`prompt_reads_other`).
-/

namespace SglangInc.Overlap

open List FutureMap

variable {δ : Type}

/-- A property of every launch of a log, given those before it. -/
def EveryLaunch (P : Launch δ → List (Launch δ) → Prop) (log : List (Launch δ)) : Prop :=
  ∀ newer launch older, log = newer ++ launch :: older → P launch older

section Log

variable {P : Launch δ → List (Launch δ) → Prop} {log newer older : List (Launch δ)}
  {launch : Launch δ}

theorem everyLaunch_nil : EveryLaunch P [] := by
  intro newer launch older h
  exact absurd h (by simp)

theorem EveryLaunch.cons (h : EveryLaunch P log) (hl : P launch log) :
    EveryLaunch P (launch :: log) := by
  intro newer launch' older heq
  cases newer with
  | nil =>
    obtain ⟨rfl, rfl⟩ := List.cons.inj heq
    exact hl
  | cons l newer => exact h newer launch' older (List.cons.inj heq).2

/-- The number of rows that were launched. -/
def rows (log : List (Launch δ)) : Nat := (log.map (·.batch.bs)).sum

@[simp] theorem rows_cons : rows (launch :: log) = launch.batch.bs + rows log := rfl

@[simp] theorem rows_append : rows (newer ++ older) = rows newer + rows older := by
  simp [rows]

/-- What the launches have stored, each with the position of its first row. -/
def blocks : List (Launch δ) → List (Nat × List (Option (Stored δ)))
  | [] => []
  | launch :: older => (rows older, launch.results.map some) :: blocks older

theorem mem_blocks (h : log = newer ++ launch :: older) :
    (rows older, launch.results.map some) ∈ blocks log := by
  subst h
  induction newer with
  | nil => exact mem_cons_self
  | cons l newer ih => exact mem_cons_of_mem _ ih

/-- The rows of the prefill batches after the newest decode launch, or from the
    start of the loop on. -/
def sinceDecode : List (Launch δ) → Nat
  | [] => 0
  | launch :: older => if launch.batch.decode = [] then launch.batch.bs + sinceDecode older else 0

theorem rows_le_sinceDecode (hnewer : ∀ l ∈ newer, l.batch.decode = []) :
    rows newer ≤ sinceDecode (newer ++ older) := by
  induction newer with
  | nil => exact Nat.zero_le _
  | cons l newer ih =>
    have hrest := ih (forall_mem_cons.mp hnewer).2
    simp only [cons_append, sinceDecode, hnewer l mem_cons_self, if_true, rows_cons]
    omega

end Log

/-- A launch reserved an index for its request number `i`. -/
def Launch.Allocated (launch : Launch δ) (i rid index : Nat) : Prop :=
  launch.batch.rids[i]? = some rid ∧ launch.indices.indices[i]? = some index

/-- A value is what the launch that reserved an index for a request stored there,
    and none of the later ones has that index. -/
def ReadsOwn (log : List (Launch δ)) (rid index : Nat) (value : Option (Stored δ)) : Prop :=
  ∃ newer launch older i v, log = newer ++ launch :: older ∧ launch.Allocated i rid index ∧
    launch.results[i]? = some v ∧ value = some v ∧ ∀ l ∈ newer, index ∉ l.indices.indices

/-- What a launch gets and reads. -/
structure Reads (algo : SpecAlgorithm) (futureBufferLen : Nat) (launch : Launch δ)
    (older : List (Launch δ)) : Prop where
  inside : ∀ index ∈ launch.indices.indices, 1 ≤ index ∧ index ≤ futureBufferLen - 1
  /-- Every negative input id. -/
  token : algo = .none → ∀ (p rid : Nat) (id : Int), launch.batch.inputIds[p]? = some (rid, id) →
    id < 0 → ∃ value, launch.resolved[p]? = some value ∧ ReadsOwn older rid (-id).toNat value
  /-- Every draft state. -/
  draft : algo = .eagle → launch.batch.prefill = [] → ∀ (p : Nat) (row : Row),
    launch.batch.decode[p]? = some row →
      ∃ value, launch.resolved[p]? = some value ∧ ReadsOwn older row.rid row.futureIndex value

/-- The batch that is launched has at most `M` rows, and if it is a decode launch,
    at most `M * (1 + N)` were prefilled since the one before. -/
def Within (M N : Nat) (s : State δ) (it : Iteration δ) : Prop :=
  ∀ batch, (s.getNextBatchToRun it.keepLast it.next).2 = some batch →
    batch.bs ≤ M ∧ (batch.decode ≠ [] → sinceDecode s.log ≤ M * (1 + N))

/-- The ids of the prompts are not negative. -/
def PlainPrompt (s : State δ) (it : Iteration δ) : Prop :=
  ∀ batch, (s.getNextBatchToRun it.keepLast it.next).2 = some batch →
    ∀ req ∈ batch.prefill, ∀ id ∈ req.inputIds, 0 ≤ id

/-- Where a launch is in the buffer. -/
structure Laid (limit M : Nat) (launch : Launch δ) (older : List (Launch δ)) : Prop where
  indices : launch.indices = ⟨1 + rows older % limit, 1 + rows older % limit + launch.batch.bs⟩
  results : launch.results.length = launch.batch.bs
  bs_le : launch.batch.bs ≤ M

/-- A request that waits for its next token since the newest decode launch. -/
structure Pending (log : List (Launch δ)) (row : Row) : Prop where
  outputId : row.outputId = -(row.futureIndex : Int)
  source : ∃ newer launch older i, log = newer ++ launch :: older ∧
    (∀ l ∈ newer, l.batch.decode = []) ∧ launch.Allocated i row.rid row.futureIndex

/-- The buffer, also while it has not been made. -/
def FutureMap.cells (m : FutureMap δ) : List (Option (Stored δ)) :=
  m.buf.getD (List.replicate m.futureBufferLen none)

/-- The map has its size, and what was stored for a waiting request is still there. -/
structure Inv (M N : Nat) (algo : SpecAlgorithm) (s : State δ) : Prop where
  specAlgo : s.futureMap.specAlgo = algo
  limit : s.futureMap.futureLimit = M * (3 + N)
  bufferLen : s.futureMap.futureBufferLen = M * (3 + N) + 2 * M
  cells : s.futureMap.cells.length = s.futureMap.futureBufferLen
  made : algo = .none ∨ s.log ≠ [] → s.futureMap.buf.isSome = true
  ct : s.futureMap.futureCt = rows s.log % (M * (3 + N))
  laid : EveryLaunch (Laid (M * (3 + N)) M) s.log
  kept : Ring.Kept (M * (3 + N)) 1 s.futureMap.cells (rows s.log) (blocks s.log)
  pending : ∀ row ∈ s.runningBatch ++ s.lastBatch, Pending s.log row
  reads : EveryLaunch (Reads algo (M * (3 + N) + 2 * M)) s.log

section Reading

variable {M N : Nat} {log : List (Launch δ)} {row : Row}

variable {limit index : Nat} {older : List (Launch δ)} {launch : Launch δ}

variable (h : Laid limit M launch older)

include h

theorem Laid.indices_eq :
    launch.indices.indices = List.range' (1 + rows older % limit) launch.batch.bs := by
  rw [FutureIndices.indices, h.indices, Nat.add_sub_cancel_left]

theorem Laid.mem_indices : index ∈ launch.indices.indices ↔
      ∃ i, i < launch.batch.bs ∧ index = 1 + (rows older % limit + i) := by
  rw [h.indices_eq, mem_range'_1]
  constructor
  · intro hi
    exact ⟨index - (1 + rows older % limit), by omega, by omega⟩
  · rintro ⟨i, hi, rfl⟩
    omega

theorem Laid.allocated {i rid : Nat}
    (ha : launch.Allocated i rid index) :
    i < launch.batch.bs ∧ index = 1 + (rows older % limit + i) := by
  have hindex := ha.2
  rw [h.indices_eq, List.getElem?_eq_some_iff] at hindex
  obtain ⟨hi, hget⟩ := hindex
  rw [length_range'] at hi
  rw [getElem_range'] at hget
  constructor <;> omega

omit h

/-- The index of a request that waits still holds what was stored for it. -/
theorem Pending.read {cells : List (Option (Stored δ))} (h : Pending log row)
    (hlaid : EveryLaunch (Laid (M * (3 + N)) M) log)
    (hkept : Ring.Kept (M * (3 + N)) 1 cells (rows log) (blocks log))
    (hsince : sinceDecode log ≤ M * (1 + N)) : ∃ v, cells[row.futureIndex]? = some (some v) ∧
      ReadsOwn log row.rid row.futureIndex (some v) := by
  obtain ⟨newer, launch, older, i, hlog, hnewer, ha⟩ := h.source
  have hl := hlaid newer launch older hlog
  obtain ⟨hi, hindex⟩ := hl.allocated ha
  have hrows : rows log = rows newer + (launch.batch.bs + rows older) := by
    rw [hlog, rows_append, rows_cons]
  -- The rows since, with those of the launch itself.
  have hage : rows log ≤ rows older + M * (3 + N) := by
    have hle : rows newer ≤ M * (1 + N) := by
      refine Nat.le_trans ?_ hsince
      rw [hlog]
      exact rows_le_sinceDecode hnewer
    have := hl.bs_le
    nlinarith
  obtain ⟨v, hv⟩ : ∃ v, launch.results[i]? = some v :=
    ⟨_, getElem?_eq_getElem (by rw [hl.results]; exact hi)⟩
  refine ⟨v, ?_, newer, launch, older, i, v, hlog, ha, hv, rfl, ?_⟩
  · have hread := (hkept _ (mem_blocks hlog)).2 hage i (by rw [length_map, hl.results]; exact hi)
    rw [hindex, ← Nat.add_assoc, hread, getElem?_map, hv]
    rfl
  · intro l hmem hin
    obtain ⟨n1, n2, rfl⟩ := append_of_mem hmem
    have hl' := hlaid n1 l (n2 ++ launch :: older) (by rw [hlog]; simp)
    obtain ⟨j, hj, heq⟩ := hl'.mem_indices.mp hin
    simp only [rows_append, rows_cons] at heq hrows
    have hne : rows older % (M * (3 + N)) + i ≠
        (rows n2 + (launch.batch.bs + rows older)) % (M * (3 + N)) + j :=
      Ring.cell_ne hi (by omega) (show _ + l.batch.bs ≤ _ by omega) hj
    omega

end Reading

section Store

variable {m : FutureMap δ} {start : Nat} {values : List (Stored δ)}

theorem FutureMap.getBuf_eq (h : m.buf.isSome = true) : m.getBuf = .ok m.cells := by
  obtain ⟨buf, hbuf⟩ := Option.isSome_iff_exists.mp h
  simp [getBuf, cells, hbuf]

theorem FutureMap.assign_eq {buf : List (Option (Stored δ))}
    (hfit : start + values.length ≤ buf.length) :
    assign buf ⟨start, start + values.length⟩ values =
      .ok (Ring.write buf start (values.map some)) := by
  have hstart : min start buf.length = start := by omega
  have hstop : min (start + values.length) buf.length = start + values.length := by omega
  simp [assign, hstart, hstop]

/-- A store to indices that are inside the buffer. -/
theorem FutureMap.storeToMap_eq (hcells : m.cells.length = m.futureBufferLen)
    (hmade : m.specAlgo = .none → m.buf.isSome = true) (hne : 0 < values.length)
    (hfit : start + values.length ≤ m.futureBufferLen) :
    m.storeToMap ⟨start, start + values.length⟩ values =
      .ok { m with buf := some (Ring.write m.cells start (values.map some)) } := by
  have hassign := assign_eq (hcells ▸ hfit)
  cases halgo : m.specAlgo with
  | none =>
    simp only [storeToMap, halgo, getBuf_eq (hmade halgo), bind, Except.bind, hassign]
    rfl
  | eagle =>
    have hslice : m.isEmptySlice ⟨start, start + values.length⟩ = false := by
      simp only [isEmptySlice, decide_eq_false_iff_not]
      omega
    simp only [cells] at hassign ⊢
    simp only [storeToMap, halgo, hslice, Bool.false_eq_true, if_false, bind, Except.bind, hassign]
    rfl

end Store

section Iteration

variable {M N : Nat} {algo : SpecAlgorithm} {s : State δ} {row : Row}

theorem mem_filterBatch {rows : List Row} {keepIndices : List Nat}
    (h : row ∈ filterBatch rows keepIndices) : row ∈ rows := by
  obtain ⟨i, -, hi⟩ := mem_filterMap.mp h
  exact mem_of_getElem? hi

/-- The batch that is launched next, with what stays in the running batch. -/
structure Chosen (s : State δ) (running : List Row) (batch : Batch) : Prop where
  pos : 0 < batch.bs
  decode : ∀ row ∈ batch.decode, row ∈ s.runningBatch ++ s.lastBatch
  mixed : batch.prefill ≠ [] → batch.decode ≠ [] → running = []

variable {keepLast : List Nat} {batch : Batch} {running : List Row} {log : List (Launch δ)}

theorem mem_running (h : row ∈ s.runningBatch ++ filterBatch s.lastBatch keepLast) :
    row ∈ s.runningBatch ++ s.lastBatch := by
  rcases mem_append.mp h with h | h
  · exact mem_append_left _ h
  · exact mem_append_right _ (mem_filterBatch h)

/-- Where the rows of the next batch come from. -/
theorem chosen_of_getNext {next : Next}
    (h : s.getNextBatchToRun keepLast next = (running, some batch)) : Chosen s running batch := by
  cases next with
  | prefill reqs mixed =>
    simp only [State.getNextBatchToRun] at h
    split at h
    · cases h
    next hreqs =>
      have hpos := length_pos_of_ne_nil hreqs
      cases mixed with
      | none =>
        cases h
        exact ⟨hpos, forall_mem_nil _, fun _ hne => absurd rfl hne⟩
      | some keepIndices =>
        cases h
        exact ⟨hpos.trans_le (Nat.le_add_right _ _),
          fun _ hrow => mem_running (mem_filterBatch hrow), fun _ _ => rfl⟩
  | decode keepIndices =>
    obtain ⟨rfl, hb⟩ := Prod.mk.inj h
    split at hb
    · cases hb
    · next hne =>
        cases hb
        exact ⟨(length_pos_of_ne_nil hne).trans_le (Nat.le_add_left _ _),
          fun _ hrow => mem_running (mem_filterBatch hrow), fun hne => absurd rfl hne⟩
  | idle => cases h

theorem mem_of_getNext {next : Next} (h : row ∈ (s.getNextBatchToRun keepLast next).1) :
    row ∈ s.runningBatch ++ s.lastBatch := by
  cases next with
  | prefill reqs mixed =>
    simp only [State.getNextBatchToRun] at h
    split at h
    · exact mem_running h
    · cases mixed with
      | none => exact mem_running h
      | some => cases h
  | decode keepIndices => exact mem_running (mem_filterBatch h)
  | idle => exact mem_running h

theorem Batch.of_mem_inputIds {rid : Nat} {id : Int}
    (h : (rid, id) ∈ batch.inputIds) : (∃ req ∈ batch.prefill, id ∈ req.inputIds) ∨
      ∃ row ∈ batch.decode, row.rid = rid ∧ row.outputId = id := by
  rcases mem_append.mp h with h | h
  · obtain ⟨req, hreq, hid⟩ := mem_flatMap.mp h
    obtain ⟨id', hid', heq⟩ := mem_map.mp hid
    obtain ⟨-, rfl⟩ := Prod.mk.inj heq
    exact .inl ⟨req, hreq, hid'⟩
  · obtain ⟨row, hrow, heq⟩ := mem_map.mp h
    obtain ⟨hrid, hid⟩ := Prod.mk.inj heq
    exact .inr ⟨row, hrow, hrid, hid⟩

theorem Pending.log_ne_nil (h : Pending log row) : log ≠ [] := by
  obtain ⟨newer, launch, older, i, rfl, -⟩ := h.source
  simp

/-- The two clauses of `Reads` about the input. -/
def Resolves (algo : SpecAlgorithm) (log : List (Launch δ)) (batch : Batch)
    (resolved : List (Option (Stored δ))) : Prop :=
  (algo = .none → ∀ (p rid : Nat) (id : Int), batch.inputIds[p]? = some (rid, id) → id < 0 →
    ∃ value, resolved[p]? = some value ∧ ReadsOwn log rid (-id).toNat value) ∧
  (algo = .eagle → batch.prefill = [] → ∀ (p : Nat) (row : Row), batch.decode[p]? = some row →
    ∃ value, resolved[p]? = some value ∧ ReadsOwn log row.rid row.futureIndex value)

/-- `resolve_future` of a batch whose running requests wait. -/
theorem resolveFuture_spec (hM : 1 ≤ M) (h : Inv M N algo s) (hc : Chosen s running batch)
    (hsince : batch.decode ≠ [] → sinceDecode s.log ≤ M * (1 + N))
    (hplain : algo = .none → ∀ req ∈ batch.prefill, ∀ id ∈ req.inputIds, 0 ≤ id) {m : FutureMap δ}
    (hspec : m.specAlgo = s.futureMap.specAlgo) (hm : m.buf = s.futureMap.buf) :
    ∃ resolved, m.resolveFuture (batch.inputIds.map (·.2)) batch.futureIndices = .ok resolved ∧
      Resolves algo s.log batch resolved := by
  have hread : ∀ row ∈ batch.decode, row.outputId = -(row.futureIndex : Int) ∧
      ∃ v, s.futureMap.cells[row.futureIndex]? = some (some v) ∧
        ReadsOwn s.log row.rid row.futureIndex (some v) := by
    intro row hrow
    have hp := h.pending row (hc.decode row hrow)
    exact ⟨hp.outputId, hp.read h.laid h.kept (hsince (ne_nil_of_mem hrow))⟩
  have halgo : m.specAlgo = algo := hspec.trans h.specAlgo
  have hbuf : algo = .none ∨ s.log ≠ [] → m.getBuf = .ok s.futureMap.cells := by
    intro hmade
    rw [← getBuf_eq (h.made hmade), getBuf, getBuf, hm]
  cases algo with
  | none =>
    -- What is read for one id: of a prompt the cell 0, of a request that waits its own.
    have hentry : ∀ e ∈ batch.inputIds, ∃ entry,
        FutureMap.read s.futureMap.cells (max (-e.2) 0).toNat = .ok entry ∧
          (e.2 < 0 → ReadsOwn s.log e.1 (-e.2).toNat entry) := by
      rintro ⟨rid, id⟩ he
      rcases Batch.of_mem_inputIds he with ⟨req, hreq, hid⟩ | ⟨row, hrow, rfl, rfl⟩
      · have hnn := hplain rfl req hreq id hid
        have hindex : (max (-id) 0).toNat = 0 := by omega
        have hlen : 0 < s.futureMap.cells.length := by
          rw [h.cells, h.bufferLen]
          omega
        exact ⟨_, by rw [hindex, FutureMap.read, getElem?_eq_getElem hlen], by omega⟩
      · obtain ⟨hout, v, hv, hown⟩ := hread row hrow
        have hindex : (max (-row.outputId) 0).toNat = row.futureIndex := by omega
        have hindex' : (-row.outputId).toNat = row.futureIndex := by omega
        exact ⟨some v, by rw [hindex, FutureMap.read, hv], fun _ => hindex' ▸ hown⟩
    obtain ⟨resolved, hresolved, hall⟩ : ∃ resolved, resolveFutureTokenIds
        s.futureMap.cells (batch.inputIds.map (·.2)) = .ok resolved ∧ ∀ (p : Nat) e,
        batch.inputIds[p]? = some e → ∃ value, resolved[p]? = some value ∧
          (e.2 < 0 → ReadsOwn s.log e.1 (-e.2).toNat value) := by
      refine Checked.mapM_map_ok _ fun e he => ?_
      obtain ⟨entry, hentry, hown⟩ := hentry e he
      simp only [hentry, bind, Except.bind]
      exact ⟨_, rfl, fun hneg => (if_pos hneg).symm ▸ hown hneg⟩
    refine ⟨resolved, ?_, fun _ p rid id hp hneg => ?_, nofun⟩
    · simp only [resolveFuture, halgo, hbuf (.inl rfl)]
      exact hresolved
    · obtain ⟨value, hget, hown⟩ := hall p (rid, id) hp
      exact ⟨value, hget, hown hneg⟩
  | eagle =>
    by_cases hprefill : batch.prefill = []
    · -- A batch is not empty, so there is a request that waits.
      obtain ⟨row, hrow⟩ : ∃ row, row ∈ batch.decode := by
        refine exists_mem_of_length_pos ?_
        have := hc.pos
        simpa only [Batch.bs, hprefill, length_nil, Nat.zero_add] using this
      have hlog := (h.pending row (hc.decode row hrow)).log_ne_nil
      obtain ⟨resolved, hresolved, hall⟩ : ∃ resolved, (batch.decode.map (·.futureIndex)).mapM
          (FutureMap.read s.futureMap.cells) = .ok resolved ∧ ∀ (p : Nat) row,
          batch.decode[p]? = some row → ∃ value, resolved[p]? = some value ∧
            ReadsOwn s.log row.rid row.futureIndex value := by
        refine Checked.mapM_map_ok _ fun row hrow => ?_
        obtain ⟨-, v, hv, hown⟩ := hread row hrow
        exact ⟨some v, by rw [FutureMap.read, hv], hown⟩
      refine ⟨resolved, ?_, nofun, fun _ _ => hall⟩
      simp only [resolveFuture, halgo, Batch.futureIndices, if_pos hprefill, hbuf (.inr hlog)]
      exact hresolved
    · refine ⟨[], ?_, nofun, fun _ he => absurd he hprefill⟩
      simp [resolveFuture, halgo, Batch.futureIndices, if_neg hprefill]

/-- The launch of a batch, with what it resolves and stores. -/
def launchOf (s : State δ) (batch : Batch) (resolved : List (Option (Stored δ)))
    (results : List (Stored δ)) : Launch δ :=
  ⟨batch, (s.futureMap.allocFutureIndices batch.bs).1, resolved, results⟩

/-- The future map after a launch. -/
def mapAfter (s : State δ) (batch : Batch) (results : List (Stored δ)) : FutureMap δ :=
  { (s.futureMap.allocFutureIndices batch.bs).2 with
    buf := some (Ring.write s.futureMap.cells (1 + s.futureMap.futureCt) (results.map some)) }

variable {resolved : List (Option (Stored δ))} {it : Iteration δ}

theorem iterate_eq
    (hnext : s.getNextBatchToRun it.keepLast it.next = (running, some batch))
    (hresolve : (s.futureMap.allocFutureIndices batch.bs).2.resolveFuture
      (batch.inputIds.map (·.2)) batch.futureIndices = .ok resolved)
    (hstore : (s.futureMap.allocFutureIndices batch.bs).2.storeToMap
      (s.futureMap.allocFutureIndices batch.bs).1 it.results = .ok (mapAfter s batch it.results)) :
    s.iterate it = .ok (
      let launch := launchOf s batch resolved it.results
      let rows := State.rowsOf batch.rids launch.indices
      if batch.prefill = [] then ⟨mapAfter s batch it.results, rows, [], launch :: s.log⟩
      else ⟨mapAfter s batch it.results, running, rows, launch :: s.log⟩) := by
  cases hdelay : it.delaySample
  all_goals
    simp only [State.iterate, hnext, State.runBatch, hresolve, hdelay, Bool.false_eq_true, if_false,
      if_true, hstore, State.launchBatchSampleIfNeeded, bind, Except.bind, pure, Except.pure]
    rfl

/-- The block of a launch is inside the buffer. -/
theorem Inv.fit (hM : 1 ≤ M) (h : Inv M N algo s) {bs : Nat} (hbs : bs ≤ M) :
    1 + s.futureMap.futureCt + bs ≤ s.futureMap.futureBufferLen := by
  have hlt : rows s.log % (M * (3 + N)) < M * (3 + N) := Nat.mod_lt _ (by positivity)
  rw [h.ct, h.bufferLen]
  omega

/-- A launch keeps the invariant, for any requests that wait after it. -/
theorem Inv.launch (hM : 1 ≤ M) (h : Inv M N algo s) {results : List (Stored δ)}
    (hbs : batch.bs ≤ M) (hresults : results.length = batch.bs)
    (hres : Resolves algo s.log batch resolved) {last : List Row}
    (hpending : ∀ row ∈ running ++ last, Pending (launchOf s batch resolved results :: s.log) row) :
    Inv M N algo ⟨mapAfter s batch results, running, last,
      launchOf s batch resolved results :: s.log⟩ := by
  have hlaid : Laid (M * (3 + N)) M (launchOf s batch resolved results) s.log := by
    refine ⟨?_, hresults, hbs⟩
    simp [launchOf, allocFutureIndices, h.ct, Nat.add_comm 1]
  have hfit := h.fit hM hbs
  have hfit' : 1 + s.futureMap.futureCt + (results.map some).length ≤ s.futureMap.cells.length := by
    rwa [length_map, hresults, h.cells]
  refine ⟨h.specAlgo, h.limit, h.bufferLen, (Ring.length_write hfit').trans h.cells,
    fun _ => rfl, ?_, h.laid.cons hlaid, ?_, hpending, h.reads.cons ⟨?_, hres.1, hres.2⟩⟩
  · have hct : (mapAfter s batch results).futureCt =
        (s.futureMap.futureCt + batch.bs) % s.futureMap.futureLimit := rfl
    rw [hct, h.ct, h.limit, Nat.mod_add_mod, rows_cons, Nat.add_comm]
    rfl
  · rw [h.ct] at hfit'
    have hwrite := h.kept.write hfit'
    rwa [← h.ct, length_map, hresults, Nat.add_comm (rows s.log)] at hwrite
  · intro index hindex
    obtain ⟨i, hi, rfl⟩ := hlaid.mem_indices.mp hindex
    rw [← h.ct, ← h.bufferLen]
    have : i < batch.bs := hi
    omega

variable {launch : Launch δ}

theorem pending_rowsOf (hrow : row ∈ State.rowsOf launch.batch.rids launch.indices) :
    Pending (launch :: log) row := by
  obtain ⟨i, hi⟩ := mem_iff_getElem?.mp hrow
  rw [State.rowsOf, getElem?_zipWith_eq_some] at hi
  obtain ⟨rid, index, hrid, hindex, rfl⟩ := hi
  exact ⟨rfl, [], launch, log, i, rfl, forall_mem_nil _, hrid, hindex⟩

/-- A request goes on waiting while prefill batches are launched. -/
theorem Pending.cons (h : Pending log row) (hdecode : launch.batch.decode = []) :
    Pending (launch :: log) row := by
  obtain ⟨newer, launch', older, i, rfl, hnewer, ha⟩ := h.source
  exact ⟨h.outputId, launch :: newer, launch', older, i, rfl,
    forall_mem_cons.mpr ⟨hdecode, hnewer⟩, ha⟩

/-- An iteration that meets the conditions returns, and keeps the invariant. -/
theorem iterate_spec (hM : 1 ≤ M) (h : Inv M N algo s)
    (hw : Within M N s it) (hp : algo = .none → PlainPrompt s it)
    (hresults : ∀ batch, (s.getNextBatchToRun it.keepLast it.next).2 = some batch →
      it.results.length = batch.bs) : ∃ s', s.iterate it = .ok s' ∧ Inv M N algo s' := by
  obtain ⟨running, next, hnext⟩ :
      ∃ running next, s.getNextBatchToRun it.keepLast it.next = (running, next) := ⟨_, _, rfl⟩
  cases next with
  | none =>
    refine ⟨{ s with runningBatch := running, lastBatch := [] }, ?_, ?_⟩
    · simp [State.iterate, hnext]
    · refine { h with pending := fun row hrow => ?_ }
      rw [List.append_nil] at hrow
      exact h.pending row (mem_of_getNext (by rw [hnext]; exact hrow))
  | some batch =>
    have hc := chosen_of_getNext hnext
    obtain ⟨hbs, hsince⟩ := hw batch (by rw [hnext])
    have hplain := fun ha => hp ha batch (by rw [hnext])
    have hlen := hresults batch (by rw [hnext])
    obtain ⟨resolved, hresolve, hres⟩ := resolveFuture_spec hM h hc hsince hplain
      (m := (s.futureMap.allocFutureIndices batch.bs).2) rfl rfl
    have hstore : (s.futureMap.allocFutureIndices batch.bs).2.storeToMap
        (s.futureMap.allocFutureIndices batch.bs).1 it.results =
          .ok (mapAfter s batch it.results) := by
      have hfit := h.fit hM hbs
      have heq := FutureMap.storeToMap_eq (m := (s.futureMap.allocFutureIndices batch.bs).2) h.cells
        (fun ha => h.made (.inl (h.specAlgo.symm.trans ha))) (by rw [hlen]; exact hc.pos)
        (show 1 + s.futureMap.futureCt + it.results.length ≤ _ by rw [hlen]; exact hfit)
      rw [hlen, Nat.add_comm 1] at heq
      rwa [mapAfter, Nat.add_comm 1]
    rw [iterate_eq hnext hresolve hstore]
    refine ⟨_, rfl, ?_⟩
    by_cases hprefill : batch.prefill = []
    · simp only [if_pos hprefill]
      refine h.launch hM hbs hlen hres fun row hrow => ?_
      rw [List.append_nil] at hrow
      exact pending_rowsOf hrow
    -- Next to a prefill, the rows of the running batch wait for what they waited for.
    simp only [if_neg hprefill]
    refine h.launch hM hbs hlen hres fun row hrow => ?_
    rcases mem_append.mp hrow with hrow | hrow
    · by_cases hdecode : batch.decode = []
      · exact (h.pending row (mem_of_getNext (by rw [hnext]; exact hrow))).cons hdecode
      · rw [hc.mixed hprefill hdecode] at hrow
        cases hrow
    · exact pending_rowsOf hrow

end Iteration

theorem inv_init (M : Nat) (chunkedPrefillSize : Option Nat) (contextLen : Nat)
    (algo : SpecAlgorithm) : Inv M (maxNumChunks chunkedPrefillSize contextLen) algo
      (State.init M chunkedPrefillSize contextLen algo : State δ) where
  specAlgo := rfl
  limit := rfl
  bufferLen := rfl
  cells := by
    cases algo with
    | none | eagle => exact length_replicate
  made := by
    rintro (rfl | hne)
    · rfl
    · exact absurd rfl hne
  ct := (Nat.zero_mod _).symm
  laid := everyLaunch_nil
  kept := forall_mem_nil _
  pending := forall_mem_nil _
  reads := everyLaunch_nil

/-- Over any run in which every launched batch has at most `M` rows, the prefill
    batches between two decode launches have at most `M * (1 + N)`, and, without
    speculative decoding, no prompt has a negative id: every index is inside the
    buffer, every negative id and every draft state is replaced by what was stored
    for its request, and no further iteration raises. -/
theorem futures_live (M : Nat) (hM : 1 ≤ M) (chunkedPrefillSize : Option Nat) (contextLen : Nat)
    (algo : SpecAlgorithm) {tr : List (State δ × Iteration δ × State δ)} {s : State δ}
    (hr : Run Step (State.init M chunkedPrefillSize contextLen algo) tr s)
    (hG : ∀ e ∈ tr, Within M (maxNumChunks chunkedPrefillSize contextLen) e.1 e.2.1 ∧
      (algo = .none → PlainPrompt e.1 e.2.1)) :
    (∀ newer launch older, s.log = newer ++ launch :: older →
      Reads algo s.futureMap.futureBufferLen launch older) ∧
    ∀ it : Iteration δ, Within M (maxNumChunks chunkedPrefillSize contextLen) s it →
      (algo = .none → PlainPrompt s it) →
      (∀ batch, (s.getNextBatchToRun it.keepLast it.next).2 = some batch →
        it.results.length = batch.bs) → ∃ s', s.iterate it = .ok s' := by
  have h : Inv M (maxNumChunks chunkedPrefillSize contextLen) algo s := by
    refine (hr.inv_of_guard
      (G := fun t it => Within M _ t it ∧ (algo = .none → PlainPrompt t it)) hG
      (inv_init M chunkedPrefillSize contextLen algo) ?_).1
    rintro t it u hinv ⟨hw, hp⟩ hs
    cases hs with
    | iterate hresults hit =>
      obtain ⟨u', hu', hinv'⟩ := iterate_spec hM hinv hw hp hresults
      cases hit.symm.trans hu'
      exact hinv'
  refine ⟨fun newer launch older hlog => ?_, fun it hw hp hresults => ?_⟩
  · rw [h.bufferLen]
    exact h.reads newer launch older hlog
  · obtain ⟨s', hs', -⟩ := iterate_spec hM h hw hp hresults
    exact ⟨s', hs'⟩

/-- A request is prefilled and then decoded: its token is read back. -/
theorem futures_live_decode : ∃ (tr : List (State Unit × Iteration Unit × State Unit))
    (s : State Unit), Run Step (State.init 1 (some 4) 8 .none) tr s ∧
      (∀ e ∈ tr, Within 1 2 e.1 e.2.1 ∧ (SpecAlgorithm.none = .none → PlainPrompt e.1 e.2.1)) ∧
      s.log.head?.map (·.resolved) = some [some (.token 7)] ∧
      ∀ newer launch older, s.log = newer ++ launch :: older →
        Reads .none s.futureMap.futureBufferLen launch older := by
  have hr : Run Step (State.init 1 (some 4) 8 .none : State Unit) _ _ :=
    .snoc ⟨[0], .decode [0], [.token 8], true⟩
      (.snoc ⟨[], .prefill [⟨0, [5]⟩] none, [.token 7], false⟩ .nil
        (.iterate (by rintro batch ⟨rfl⟩; rfl) rfl))
      (.iterate (by rintro batch ⟨rfl⟩; rfl) rfl)
  refine ⟨_, _, hr, ?guard, rfl, (futures_live 1 (by decide) (some 4) 8 .none hr ?guard).1⟩
  refine forall_mem_append.mpr ⟨forall_mem_singleton.mpr ?_, forall_mem_singleton.mpr ?_⟩
  all_goals exact ⟨by rintro batch ⟨rfl⟩; decide, by rintro - batch ⟨rfl⟩; decide⟩

/-- A prompt with a negative id gets the token of another request. -/
theorem prompt_reads_other : ∃ s s' : State Unit,
    (State.init 2 none 8 .none).iterate ⟨[], .prefill [⟨0, [5]⟩] none, [.token 7], false⟩ = .ok s ∧
    s.iterate ⟨[0], .prefill [⟨1, [-1]⟩] none, [.token 9], false⟩ = .ok s' ∧
    s'.log.map (fun launch => (launch.batch.rids, launch.resolved)) =
      [([1], [some (.token 7)]), ([0], [some (.token 5)])] :=
  ⟨_, _, rfl, rfl, rfl⟩

/-- Why the prefill batches in front of the first decode launch are counted: request
    0 waits while six others are prefilled, and then reads the token of the last of
    them. -/
example : ∃ s : State Unit, List.foldlM (fun s it => s.iterate it) (State.init 2 none 8 .none)
      (⟨[], .prefill [⟨0, [5]⟩] none, [.token 7], false⟩ ::
        ⟨[0], .prefill [⟨1, [5]⟩] none, [.token 8], false⟩ ::
        List.replicate 5 ⟨[], .prefill [⟨2, [5]⟩] none, [.token 9], false⟩ ++
        [⟨[], .decode [0], [.token 7], false⟩]) = .ok s ∧
    s.log.head?.map (fun launch => (launch.batch.rids, launch.resolved)) =
      some ([0], [some (.token 9)]) :=
  ⟨_, rfl, rfl⟩

end SglangInc.Overlap
