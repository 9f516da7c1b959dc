import SglangInc.Theory.Eagle.VerifyKernels

/-!
# The Tokens That Are Kept

The loop of `verify` over the accepted tokens cuts the path of a request behind the
token at which it finishes (`kept`). What is made of its rows later on, the lengths, the
flat index and the rows of the unfinished requests, describes the paths that are left.
-/

namespace SglangInc.Eagle

open List Lanes

/-- The nodes of a path up to the one at which the request finishes. -/
def kept (finishes : List Int → Bool) (token : Nat → Int) : List Int → List Nat → List Nat
  | _, [] => []
  | ids, c :: path =>
    c :: if finishes (ids ++ [token c]) then [] else kept finishes token (ids ++ [token c]) path

section Kept

variable {finishes : List Int → Bool} {token : Nat → Int}

theorem kept_isPrefix (ids : List Int) (path : List Nat) :
    kept finishes token ids path <+: path := by
  induction path generalizing ids with
  | nil => exact nil_prefix
  | cons c path ih =>
    rw [kept]
    split_ifs
    · exact ⟨path, rfl⟩
    · exact (prefix_cons_inj c).mpr (ih _)

theorem kept_ne_nil {ids : List Int} {path : List Nat} (hpath : path ≠ []) :
    kept finishes token ids path ≠ [] := by
  cases path with
  | nil => exact absurd rfl hpath
  | cons c path => exact cons_ne_nil _ _

end Kept

/-- A row of `accept_index`. -/
def indexRow (node : Nat → Nat) (path : List Nat) (m : Nat) : List Int :=
  path.map (fun c => (node c : Int)) ++ List.replicate m (-1)

section Row

variable {node : Nat → Nat}

variable (path : List Nat)

theorem filter_indexRow (node : Nat → Nat) (m : Nat) :
    ((indexRow node path m).filter (· != -1)).map Int.toNat = path.map node := by
  have hall : (path.map fun c => (node c : Int)).filter (· != -1) =
      path.map fun c => (node c : Int) :=
    List.filter_eq_self.mpr (forall_mem_map.mpr fun c _ => bne_iff_ne.mpr (by omega))
  have hnone : (List.replicate m (-1 : Int)).filter (· != -1) = [] := by
    simp
  rw [indexRow, filter_append, hall, hnone, List.append_nil, map_map]
  exact map_congr_left fun c _ => Int.toNat_natCast _

theorem countP_indexRow (m : Nat) :
    (indexRow node path m).countP (· != -1) = path.length := by
  have h := congrArg List.length (filter_indexRow path node m)
  rwa [length_map, length_map, ← countP_eq_length_filter] at h

theorem unfinishedRow_indexRow (m : Nat) :
    (unfinishedRow (indexRow node path m)).map Int.toNat = path.map node := by
  have hnone : (path.map fun c => (node c : Int)).findIdx? (· == -1) = none :=
    findIdx?_eq_none_iff.mpr (forall_mem_map.mpr fun c _ => beq_eq_false_iff_ne.mpr (by omega))
  rw [unfinishedRow, indexRow, findIdx?_append, hnone]
  cases m <;> simp

/-- The loop keeps the tokens up to the one at which the request finishes. -/
theorem acceptTokens_spec (check : List Int → Bool) (predict : Nat → Int) (m : Nat)
    (path : List Nat) (req : Req) {r : AcceptedRow}
    (hr : r = acceptTokens check predict req (indexRow node path m)) {nodes : List Nat}
    (hnodes : nodes = kept (fun ids => req.finished || check ids) (fun c => predict (node c))
      req.outputIds path) :
    (∃ m', r.row = indexRow node nodes m') ∧
    r.req = { req with
      outputIds := req.outputIds ++ nodes.map fun c => predict (node c)
      finished := r.req.finished } ∧
    (path ≠ [] ∨ req.finished = false → r.hasFinished = r.req.finished) ∧
    (r.req.finished = false → nodes = path) := by
  induction path generalizing req r nodes with
  | nil =>
    have hreq : r = ⟨req, indexRow node [] m, false⟩ := by
      rw [hr]
      cases m with
      | zero | succ => rfl
    subst hreq hnodes
    refine ⟨⟨m, rfl⟩, ?_, fun h => ?_, fun _ => rfl⟩
    · show req = { req with outputIds := req.outputIds ++ [], finished := req.finished }
      rw [List.append_nil]
    · rcases h with h | h
      · exact absurd rfl h
      · exact h.symm
  | cons c path ih =>
    set req' : Req := { req with
      outputIds := req.outputIds ++ [predict (node c)]
      finished := req.finished || check (req.outputIds ++ [predict (node c)]) } with hreq'
    have hunfold : r = if req'.finished then
        ⟨req', (node c : Int) :: (indexRow node path m).map fun _ => -1, true⟩
      else
        let r' := acceptTokens check predict req' (indexRow node path m)
        ⟨r'.req, (node c : Int) :: r'.row, r'.hasFinished⟩ := by
      rw [hr, show indexRow node (c :: path) m = (node c : Int) :: indexRow node path m from rfl,
        acceptTokens, if_neg (show (node c : Int) ≠ -1 by omega)]
      rfl
    rw [kept] at hnodes
    split_ifs at hunfold with hfin
    · rw [if_pos hfin] at hnodes
      subst hunfold hnodes
      refine ⟨⟨(indexRow node path m).length, ?_⟩, ?_, fun _ => hfin.symm, fun h => ?_⟩
      · rw [map_const']
        rfl
      · rfl
      · exact absurd hfin (by rw [show req'.finished = false from h]; decide)
    rw [if_neg hfin] at hnodes
    have hfalse : req'.finished = false := Bool.eq_false_iff.mpr hfin
    -- The request was not finished before either, so the rest is cut in the same way.
    have hbefore : req.finished = false := (Bool.or_eq_false_iff.mp hfalse).1
    obtain ⟨⟨m', hrow⟩, hreq, hhas, hall⟩ := ih req' rfl rfl
    rw [hfalse] at hreq hall
    rw [hbefore] at hnodes
    subst hunfold hnodes
    refine ⟨⟨m', ?_⟩, ?_, fun _ => hhas (.inr hfalse), fun h => ?_⟩
    · show (node c : Int) :: _ = _
      rw [hrow, hfalse]
      rfl
    · rw [hreq, hreq', map_cons, append_assoc, singleton_append]
    · exact congrArg (c :: ·) (hall h)

end Row

/-- An acceptance has chosen a path for each request: its nodes are different nodes of
    the draft tree, and in a chain they are the first ones. -/
structure Accepts (bs n topk : Nat) (path : Nat → List Nat) (acceptIndex : Nat → List Int)
    (acceptLength : Nat → Nat) : Prop where
  row : ∀ b < bs, ∃ m, acceptIndex b = indexRow (b * n + ·) (path b) m
  length : ∀ b < bs, acceptLength b + 1 = (path b).length
  nodup : ∀ b < bs, (path b).Nodup
  lt : ∀ b < bs, ∀ c ∈ path b, c < n
  chain : topk = 1 → ∀ b < bs, path b = List.range (path b).length

/-- The nodes of request `b` that are kept. -/
def keptNodes (n : Nat) (checkFinished : Nat → List Int → Bool) (predict : Nat → Int)
    (reqs : Nat → Req) (path : Nat → List Nat) (b : Nat) : List Nat :=
  kept (fun ids => (reqs b).finished || checkFinished b ids) (fun c => predict (b * n + c))
    (reqs b).outputIds (path b)

/-- What the loop over the requests finds out, for the nodes that are kept. -/
structure Acceptance.Keeps (acc : Acceptance) (bs n topk : Nat) (nodes : Nat → List Nat) :
    Prop where
  length : ∀ b < bs, acc.acceptLength b + 1 = (nodes b).length
  le : ∀ b < bs, (nodes b).length ≤ n
  lt : ∀ b < bs, ∀ c ∈ nodes b, c < n
  chain : topk = 1 → ∀ b < bs, nodes b = List.range (nodes b).length
  acceptIndex : acc.acceptIndex = (List.range bs).flatMap fun b => (nodes b).map (b * n + ·)
  unfinishedIndex : acc.unfinishedIndex = (List.range bs).filter fun b => !(acc.rows b).req.finished
  unfinishedAcceptIndex : acc.unfinishedAcceptIndex =
    acc.unfinishedIndex.flatMap fun b => (nodes b).map (b * n + ·)
  hasFinished : acc.hasFinished = false → acc.unfinishedIndex = List.range bs

theorem prefix_range {l : List Nat} {m : Nat} (h : l <+: List.range m) :
    l = List.range l.length := by
  rw [prefix_iff_eq_take.mp h, take_range, length_range]

section Batch

variable {bs n topk : Nat} (checkFinished : Nat → List Int → Bool) (predict : Nat → Int)
  (reqs : Nat → Req) {path : Nat → List Nat} {acceptIndex : Nat → List Int}
  {acceptLength : Nat → Nat}

/-- The loop over the requests keeps a beginning of each path. -/
theorem acceptBatch_spec (h : Accepts bs n topk path acceptIndex acceptLength) :
    let acc := acceptBatch bs checkFinished predict reqs acceptIndex acceptLength
    let nodes := keptNodes n checkFinished predict reqs path
    acc.Keeps bs n topk nodes ∧
    ∀ b < bs, (acc.rows b).req =
        { reqs b with
          outputIds := (reqs b).outputIds ++ (nodes b).map fun c => predict (b * n + c)
          finished := (acc.rows b).req.finished } ∧
      ((acc.rows b).req.finished = false → nodes b = path b) := by
  intro acc nodes
  have hne : ∀ b < bs, path b ≠ [] := fun b hb =>
    ne_nil_of_length_pos (h.length b hb ▸ Nat.succ_pos _)
  -- Each request by itself; the lists of the batch are these rows one after the other.
  have hrow : ∀ b < bs, (∃ m, (acc.rows b).row = indexRow (b * n + ·) (nodes b) m) ∧
      (acc.rows b).req = { reqs b with
        outputIds := (reqs b).outputIds ++ (nodes b).map fun c => predict (b * n + c)
        finished := (acc.rows b).req.finished } ∧
      (acc.rows b).hasFinished = (acc.rows b).req.finished ∧
      ((acc.rows b).req.finished = false → nodes b = path b) := by
    intro b hb
    obtain ⟨m, hm⟩ := h.row b hb
    obtain ⟨hrow, hreq, hhas, hall⟩ := acceptTokens_spec (checkFinished b) predict m
      (path b) (reqs b) (show acc.rows b = acceptTokens _ _ _ (indexRow (b * n + ·) _ _) by
        rw [← hm]; rfl) (show nodes b = _ from rfl)
    exact ⟨hrow, hreq, hhas (.inl (hne b hb)), hall⟩
  have hpre : ∀ b, nodes b <+: path b := fun b => kept_isPrefix _ _
  have hpos : ∀ b < bs, 0 < (nodes b).length := fun b hb =>
    length_pos_iff.mpr (kept_ne_nil (hne b hb))
  have hlt : ∀ b < bs, ∀ c ∈ nodes b, c < n :=
    fun b hb c hc => h.lt b hb c ((hpre b).subset hc)
  have hindex : acc.unfinishedIndex =
      (List.range bs).filter fun b => !(acc.rows b).req.finished := rfl
  have hnone : acc.hasFinished = false → ∀ b < bs, (acc.rows b).req.finished = false := by
    intro hfalse b hb
    rw [← (hrow b hb).2.2.1]
    have hany : ((List.range bs).any fun i => (acc.rows i).hasFinished) = false := hfalse
    exact Bool.eq_false_iff.mpr (any_eq_false.mp hany b (mem_range.mpr hb))
  refine ⟨⟨fun b hb => ?_, fun b hb => ?_, hlt, fun htopk b hb => ?_, ?_, hindex, ?_, fun hf => ?_⟩,
    fun b hb => ⟨(hrow b hb).2.1, (hrow b hb).2.2.2⟩⟩
  · obtain ⟨⟨m, hm⟩, -, -, hall⟩ := hrow b hb
    have hb' := hpos b hb
    show (if acc.hasFinished then fun i => (acc.rows i).row.countP (· != -1) - 1
      else acceptLength) b + 1 = _
    split_ifs with hf
    · show (acc.rows b).row.countP (· != -1) - 1 + 1 = _
      rw [hm, countP_indexRow]
      omega
    · rw [h.length b hb, hall (hnone (Bool.eq_false_iff.mpr hf) b hb)]
  · -- Different nodes below `n` are at most `n`.
    have hnodup : (nodes b).Nodup := (h.nodup b hb).sublist (hpre b).sublist
    have hsub : nodes b ⊆ List.range n := fun c hc => mem_range.mpr (hlt b hb c hc)
    have := (subperm_of_subset hnodup hsub).length_le
    rwa [length_range] at this
  · exact prefix_range (h.chain htopk b hb ▸ hpre b)
  · refine flatMap_congr fun b hb => ?_
    obtain ⟨m, hm⟩ := (hrow b (mem_range.mp hb)).1
    show ((acc.rows b).row.filter (· != -1)).map Int.toNat = _
    rw [hm, filter_indexRow]
  · refine flatMap_congr fun b hb => ?_
    obtain ⟨m, hm⟩ := (hrow b (mem_range.mp (mem_of_mem_filter hb))).1
    show (unfinishedRow (acc.rows b).row).map Int.toNat = _
    rw [hm, unfinishedRow_indexRow]
  · rw [hindex]
    refine List.filter_eq_self.mpr fun b hb => ?_
    rw [hnone hf b (mem_range.mp hb)]
    rfl

end Batch

end SglangInc.Eagle
