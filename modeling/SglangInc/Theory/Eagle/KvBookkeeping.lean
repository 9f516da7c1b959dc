import SglangInc.Theory.Eagle.Acceptance
import Mathlib.Data.List.Induction

/-!
# Slots After a Verification

What `verify` gives back, and what the rows of the requests have then (`verify_exact`).

A page of slots belongs to one request and has consecutive positions (`Layout`). So a
slot is known by its request and its position, and the page of a slot by its request
and the number of that page in the row. The three ways of giving slots back are one
statement then: the slots of a request that go are those behind the page of its last
kept position, or with single slots those of the nodes that were not kept
(`freedOf`). The slots that stay are in other pages.

The row of a request has its accepted slots after `assign_req_to_token_pool`. A path in
a tree with pages is copied to the front of its slots instead, where the row points
already.
-/

namespace SglangInc.Eagle

open List Function Lanes VerifyConfig

variable {α : Type}

/-- The draft slots of a batch: `page b j` is page `j` of the row of request `b`. -/
structure Layout (c : VerifyConfig) (batch : Batch α) (page : Nat → Nat → Nat) : Prop where
  pageSize_pos : 0 < c.pageSize
  /-- The programs of a kernel are those of the batch. -/
  order : ∀ kernel, (c.order kernel).Perm (List.range batch.bs)
  slot : ∀ b < batch.bs, ∀ i < c.draftTokenNum, batch.outCacheLoc (b * c.draftTokenNum + i) =
      page b ((batch.seqLens b + i) / c.pageSize) * c.pageSize + (batch.seqLens b + i) % c.pageSize
  page_inj : ∀ b < batch.bs, ∀ i < c.draftTokenNum, ∀ b' < batch.bs, ∀ i' < c.draftTokenNum,
    page b ((batch.seqLens b + i) / c.pageSize) = page b' ((batch.seqLens b' + i') / c.pageSize) →
    b = b' ∧ (batch.seqLens b + i) / c.pageSize = (batch.seqLens b' + i') / c.pageSize
  fits : ∀ b < batch.bs, batch.seqLens b + c.draftTokenNum ≤ batch.poolLen
  rows_inj : ∀ b < batch.bs, ∀ b' < batch.bs,
    batch.reqPoolIndices b = batch.reqPoolIndices b' → b = b'

/-- The entry of `req_to_token` for a position of request `b`. -/
def Batch.entry (batch : Batch α) (reqToToken : Nat → Nat) (b position : Nat) : Nat :=
  reqToToken (batch.reqPoolIndices b * batch.poolLen + position)

/-- The slots that are given back for request `b`, of which `nodes` are kept. -/
def freedOf (c : VerifyConfig) (batch : Batch α) (nodes : List Nat) (b : Nat) : List Nat :=
  ((List.range c.draftTokenNum).filter fun i =>
    if c.pageSize = 1 then decide (i ∉ nodes)
    else decide (pageEnd c.pageSize (batch.seqLens b) nodes.length ≤ batch.seqLens b + i)).map
      fun i => batch.outCacheLoc (b * c.draftTokenNum + i)

theorem row_inj {n b b' i i' : Nat} (hi : i < n) (hi' : i' < n) (h : b * n + i = b' * n + i') :
    b = b' ∧ i = i' := by
  have hb := Slots.div_mod_slot b hi
  rw [h, (Slots.div_mod_slot b' hi').1, (Slots.div_mod_slot b' hi').2] at hb
  exact ⟨hb.1.symm, hb.2.symm⟩

theorem mem_flatMap_rows {bs n b i : Nat} {nodes : Nat → List Nat}
    (hlt : ∀ b < bs, ∀ c ∈ nodes b, c < n) (hb : b < bs) (hi : i < n) :
    b * n + i ∈ ((List.range bs).flatMap fun b => (nodes b).map (b * n + ·)) ↔ i ∈ nodes b := by
  rw [mem_flatMap]
  constructor
  · rintro ⟨b', hb', hmem⟩
    obtain ⟨i', hi', heq⟩ := mem_map.mp hmem
    obtain ⟨rfl, rfl⟩ := row_inj (hlt b' (mem_range.mp hb') i' hi') hi heq
    exact hi'
  · exact fun hmem => ⟨b, mem_range.mpr hb, mem_map.mpr ⟨i, hmem, rfl⟩⟩

theorem map_eq_map_range {β : Type} (f : Nat → β) (l : List Nat) :
    l.map f = (List.range l.length).map fun k => f (l.getD k 0) := by
  refine ext_getElem (by simp) fun k hk _ => ?_
  rw [length_map] at hk
  rw [getElem_map, getElem_map, getElem_range, getD_eq_getElem _ _ hk]

theorem flatMap_ite {ι β : Type} (l : List ι) (p : ι → Bool) (f : ι → List β) :
    (l.flatMap fun x => if p x then f x else []) = (l.filter p).flatMap f := by
  induction l with
  | nil => rfl
  | cons x l ih =>
    rw [flatMap_cons, ih]
    split_ifs with hx
    · rw [filter_cons_of_pos hx, flatMap_cons]
    · rw [filter_cons_of_neg hx, nil_append]

namespace Layout

variable {c : VerifyConfig} {batch : Batch α} {page : Nat → Nat → Nat} (h : Layout c batch page)

include h

variable {b i : Nat} {kernel : Kernel}

theorem slot_div (hb : b < batch.bs) (hi : i < c.draftTokenNum) :
    batch.outCacheLoc (b * c.draftTokenNum + i) / c.pageSize =
      page b ((batch.seqLens b + i) / c.pageSize) := by
  rw [h.slot b hb i hi, Nat.mul_comm, Nat.mul_add_div h.pageSize_pos,
    Nat.div_eq_of_lt (Nat.mod_lt _ h.pageSize_pos), Nat.add_zero]

theorem page_eq {b' i' : Nat} (hb : b < batch.bs) (hi : i < c.draftTokenNum)
    (hb' : b' < batch.bs) (hi' : i' < c.draftTokenNum)
    (heq : batch.outCacheLoc (b * c.draftTokenNum + i) / c.pageSize =
      batch.outCacheLoc (b' * c.draftTokenNum + i') / c.pageSize) :
    b = b' ∧ (batch.seqLens b + i) / c.pageSize = (batch.seqLens b' + i') / c.pageSize := by
  rw [h.slot_div hb hi, h.slot_div hb' hi'] at heq
  exact h.page_inj b hb i hi b' hb' i' hi' heq

theorem slot_inj {b' i' : Nat} (hb : b < batch.bs) (hi : i < c.draftTokenNum)
    (hb' : b' < batch.bs) (hi' : i' < c.draftTokenNum)
    (heq : batch.outCacheLoc (b * c.draftTokenNum + i) =
      batch.outCacheLoc (b' * c.draftTokenNum + i')) : b = b' ∧ i = i' := by
  obtain ⟨rfl, hpage⟩ := h.page_eq hb hi hb' hi' (congrArg (· / c.pageSize) heq)
  have hmod : (batch.seqLens b + i) % c.pageSize = (batch.seqLens b + i') % c.pageSize := by
    rw [h.slot b hb i hi, h.slot b hb' i' hi', hpage] at heq
    omega
  have hi := Nat.div_add_mod (batch.seqLens b + i) c.pageSize
  have hi' := Nat.div_add_mod (batch.seqLens b + i') c.pageSize
  rw [hpage, hmod] at hi
  exact ⟨rfl, by omega⟩

theorem mem_order : b ∈ c.order kernel ↔ b < batch.bs :=
  (h.order kernel).mem_iff.trans mem_range

theorem nodup_order (kernel : Kernel) : (c.order kernel).Nodup :=
  (h.order kernel).nodup_iff.mpr nodup_range

/-- A program of the batch has a lane for each request before it. -/
theorem le_upper (hb : b ∈ c.order kernel) : b ≤ nextPowerOf2 batch.bs := by
  have := h.mem_order.mp hb
  have := le_nextPowerOf2 batch.bs
  omega

end Layout

section Assign

variable {c : VerifyConfig} {batch : Batch α} {page : Nat → Nat → Nat}

/-- The rows get consecutive parts of a list of slots. -/
theorem assignFunc_spec (h : Layout c batch page) {len : Nat → Nat}
    (hlen : ∀ b < batch.bs, len b ≤ c.draftTokenNum) {endOffset : Nat → Nat}
    (hend : ∀ b, endOffset b = batch.seqLens b + len b) (value : Nat → Nat → Nat) {b k : Nat}
    (hb : b < batch.bs) (hk : k < len b) : batch.entry (c.assignFunc batch endOffset
      ((List.range batch.bs).flatMap fun b => (List.range (len b)).map (value b))) b
      (batch.seqLens b + k) = value b k := by
  have hdiff : (fun b => endOffset b - batch.seqLens b) = len :=
    funext fun b => by rw [hend b, Nat.add_sub_cancel_left]
  have hwrite : c.assignFunc batch endOffset
      ((List.range batch.bs).flatMap fun b => (List.range (len b)).map (value b)) =
      (c.order .assignReqToTokenPool).foldl (fun mem b =>
        write mem (batch.reqPoolIndices b * batch.poolLen + batch.seqLens b) (len b) fun lane =>
          ((List.range batch.bs).flatMap fun b => (List.range (len b)).map (value b)).getD
            (offset len b + lane) 0) batch.reqToToken := by
    refine foldl_ext _ _ _ fun mem b hb => ?_
    rw [assignReqToTokenPool_eq (h.le_upper hb), hdiff, hend b, Nat.add_sub_cancel_left]
  rw [Batch.entry, hwrite, ← Nat.add_assoc]
  refine (foldl_write (h.nodup_order _) (fun b hb b' hb' hne => ?_) _ b (h.mem_order.mpr hb) k
    hk).trans (getD_flatMap hb hk 0)
  -- Rows of different requests are apart.
  have hbs := h.mem_order.mp hb
  have hbs' := h.mem_order.mp hb'
  have hfit := h.fits b hbs
  have hfit' := h.fits b' hbs'
  have hl := hlen b hbs
  have hl' := hlen b' hbs'
  have hrow : batch.reqPoolIndices b' ≠ batch.reqPoolIndices b :=
    fun heq => hne (h.rows_inj b' hbs' b hbs heq)
  rcases Nat.lt_or_gt_of_ne hrow with hlt | hlt
  all_goals
    have := Nat.mul_le_mul_right batch.poolLen hlt
    rw [Nat.succ_mul] at this
    omega

end Assign

section Free

variable {c : VerifyConfig} {batch : Batch α} {page : Nat → Nat → Nat} {acc : Acceptance}
  {nodes : Nat → List Nat}

/-- The slots under a mask, request by request. -/
theorem selectMask_eq {mask : Nat → Bool} {f : Nat → Nat → Bool}
    (hmask : ∀ b < batch.bs, ∀ i < c.draftTokenNum, mask (b * c.draftTokenNum + i) = f b i) :
    c.selectMask batch.bs batch.outCacheLoc mask = (List.range batch.bs).flatMap fun b =>
      ((List.range c.draftTokenNum).filter (f b)).map fun i =>
        batch.outCacheLoc (b * c.draftTokenNum + i) := by
  rw [selectMask, filter_range_mul, map_flatMap]
  refine flatMap_congr fun b hb => ?_
  rw [map_map, filter_congr fun i hi => hmask b (mem_range.mp hb) i (mem_range.mp hi)]
  rfl

/-- The mask of a chain, after all the programs. -/
theorem alignMask_spec (h : Layout c batch page) (hacc : acc.Keeps batch.bs c.draftTokenNum 1 nodes)
    {b i : Nat} (hb : b < batch.bs) (hi : i < c.draftTokenNum) :
    (c.order .alignEvictMaskToPageSize).foldl
      (alignEvictMaskToPageSize batch.seqLens c.pageSize c.draftTokenNum
        (nextPowerOf2 c.draftTokenNum)) (fun k => decide (k ∉ acc.acceptIndex))
      (b * c.draftTokenNum + i) =
    decide (pageEnd c.pageSize (batch.seqLens b) (nodes b).length ≤ batch.seqLens b + i) := by
  set n := c.draftTokenNum
  -- A program of the grid writes the row of its own request only.
  have hall := Grid.foldl_spec
    (alignEvictMaskToPageSize batch.seqLens c.pageSize n (nextPowerOf2 n))
    (fun b mask => b < batch.bs ∧ ∀ i < n, mask (b * n + i) = decide ((nodes b).length ≤ i))
    (fun b mask => ∀ i < n, mask (b * n + i) =
      decide (pageEnd c.pageSize (batch.seqLens b) (nodes b).length ≤ batch.seqLens b + i)) (by
      rintro b mask ⟨hb, hmask⟩
      have hpos : 0 < (nodes b).length := hacc.length b hb ▸ Nat.succ_pos _
      have hrun := alignEvictMaskToPageSize_eq batch.seqLens h.pageSize_pos hpos (hacc.le b hb)
        hmask
      have hother : ∀ b', b' ≠ b → ∀ i < n, alignEvictMaskToPageSize batch.seqLens c.pageSize n
          (nextPowerOf2 n) mask b (b' * n + i) = mask (b' * n + i) := by
        intro b' hne i hi
        rw [hrun, if_neg]
        rintro ⟨hle, hlt⟩
        exact hne (row_inj hi (show b' * n + i - b * n < n by omega) (by omega)).1
      refine ⟨fun i hi => ?_, fun b' hne => ⟨fun ⟨hb', hmask'⟩ => ⟨hb', fun i hi => ?_⟩,
        fun hmask' i hi => ?_⟩⟩
      · rw [hrun, if_pos (by omega), Nat.add_sub_cancel_left]
      · rw [hother b' hne i hi, hmask' i hi]
      · rw [hother b' hne i hi, hmask' i hi])
    (h.nodup_order .alignEvictMaskToPageSize) (s := fun k => decide (k ∉ acc.acceptIndex)) (by
      intro b hb
      have hbs := h.mem_order.mp hb
      refine ⟨hbs, fun i hi => ?_⟩
      rw [hacc.acceptIndex]
      refine decide_eq_decide.mpr ?_
      rw [mem_flatMap_rows hacc.lt hbs hi, hacc.chain rfl b hbs, mem_range, length_range]
      omega)
  exact hall b (h.mem_order.mpr hb) i hi

variable {topk : Nat}

/-- The list of the accepted nodes, with the lengths as they are computed. -/
theorem Acceptance.Keeps.acceptIndex_range {bs n : Nat} (hacc : acc.Keeps bs n topk nodes) :
    acc.acceptIndex = (List.range bs).flatMap fun b =>
      (List.range (acc.acceptLength b + 1)).map fun k => b * n + (nodes b).getD k 0 := by
  rw [hacc.acceptIndex]
  refine flatMap_congr fun b hb => ?_
  rw [map_eq_map_range, hacc.length b (mem_range.mp hb)]

/-- The end of a row, as it is counted and as it is filtered. -/
theorem filter_range_last {n m : Nat} (hm : m ≤ n) :
    (List.range n).filter (fun i => decide (n - m ≤ i)) = (List.range m).map (n - m + ·) := by
  obtain ⟨r, rfl⟩ := Nat.exists_eq_add_of_le' hm
  have hnil : (List.range r).filter (fun i => decide (r ≤ i)) = [] :=
    filter_eq_nil_iff.mpr fun i hi => by simpa using hi
  rw [Nat.add_sub_cancel, range_add, filter_append, hnil, nil_append]
  exact List.filter_eq_self.mpr
    (forall_mem_map.mpr fun k _ => decide_eq_true (Nat.le_add_right r k))

/-- All but what is left of the last kept page is counted. -/
theorem toFreeNumSlots_eq (hpage : 0 < c.pageSize) (seqLens acceptLength : Nat → Nat) (b : Nat) :
    c.toFreeNumSlots seqLens acceptLength b = seqLens b + c.draftTokenNum -
      min (pageEnd c.pageSize (seqLens b) (acceptLength b + 1)) (seqLens b + c.draftTokenNum) := by
  have hceil : (seqLens b + acceptLength b + 1 + c.pageSize - 1) / c.pageSize * c.pageSize =
      pageEnd c.pageSize (seqLens b) (acceptLength b + 1) := by
    rw [pageEnd, ← Nat.add_div_right _ hpage]
    congr 2
    omega
  simp only [toFreeNumSlots, hceil]

theorem toFreeNumSlots_le (hpage : 0 < c.pageSize) (seqLens acceptLength : Nat → Nat) (b : Nat) :
    c.toFreeNumSlots seqLens acceptLength b ≤ c.draftTokenNum := by
  have hend := lt_pageEnd hpage (seqLens b) (acceptLength b + 1)
  rw [toFreeNumSlots_eq hpage]
  omega

/-- `tgt_cache_loc` and `to_free_slots` after all the programs. -/
def targetBufs (c : VerifyConfig) (batch : Batch α) (acc : Acceptance) :
    (Nat → Nat) × (Nat → Nat) :=
  (c.order .getTargetCacheLoc).foldl
    (getTargetCacheLoc acc.acceptLength (c.toFreeNumSlots batch.seqLens acc.acceptLength)
      batch.outCacheLoc c.draftTokenNum (nextPowerOf2 c.draftTokenNum) (nextPowerOf2 batch.bs))
    (c.uninit, c.uninit)

/-- They have the front of each row, and its end. -/
theorem targetBufs_spec (h : Layout c batch page)
    (hacc : acc.Keeps batch.bs c.draftTokenNum topk nodes) {b : Nat} (hb : b < batch.bs) :
    (∀ k < acc.acceptLength b + 1,
      (targetBufs c batch acc).1 (offset (fun b => acc.acceptLength b + 1) b + k) =
        batch.outCacheLoc (b * c.draftTokenNum + k)) ∧
    ∀ k < c.toFreeNumSlots batch.seqLens acc.acceptLength b, (targetBufs c batch acc).2
        (offset (c.toFreeNumSlots batch.seqLens acc.acceptLength) b + k) =
        batch.outCacheLoc (b * c.draftTokenNum +
          (c.draftTokenNum - c.toFreeNumSlots batch.seqLens acc.acceptLength b) + k) := by
  set n := c.draftTokenNum
  set free := c.toFreeNumSlots batch.seqLens acc.acceptLength
  -- The two buffers are written independently of each other.
  have hsplit : ∀ (order : List Nat) (bufs : (Nat → Nat) × (Nat → Nat)),
      (∀ b ∈ order, b ∈ c.order .getTargetCacheLoc) →
      order.foldl (getTargetCacheLoc acc.acceptLength free batch.outCacheLoc n (nextPowerOf2 n)
        (nextPowerOf2 batch.bs)) bufs =
      (order.foldl (fun mem b => write mem (offset (fun b => acc.acceptLength b + 1) b)
          (acc.acceptLength b + 1) fun k => batch.outCacheLoc (b * n + k)) bufs.1,
        order.foldl (fun mem b => write mem (offset free b) (free b)
          fun k => batch.outCacheLoc (b * n + (n - free b) + k)) bufs.2) := by
    intro order
    induction order with
    | nil => exact fun bufs _ => rfl
    | cons b order ih =>
      intro bufs hmem
      have hb := hmem b mem_cons_self
      have hlen := hacc.length b (h.mem_order.mp hb)
      have hle := hacc.le b (h.mem_order.mp hb)
      rw [foldl_cons, getTargetCacheLoc_eq (h.le_upper hb) (by omega)
        (toFreeNumSlots_le h.pageSize_pos _ _ _), ih _ fun b hb => hmem b
        (mem_cons_of_mem _ hb)]
      rfl
  rw [targetBufs, hsplit _ _ fun b hb => hb]
  refine ⟨fun k hk => ?_, fun k hk => ?_⟩
  · exact foldl_write_offset (fun b k => batch.outCacheLoc (b * n + k)) (h.nodup_order _) _
      (h.mem_order.mpr hb) hk
  · exact foldl_write_offset (fun b k => batch.outCacheLoc (b * n + (n - free b) + k))
      (h.nodup_order _) _ (h.mem_order.mpr hb) hk

/-- In every layout, what is given back is the same. -/
theorem freeUnaccepted_alloc (h : Layout c batch page)
    (hacc : acc.Keeps batch.bs c.draftTokenNum c.topk nodes) :
    (c.freeUnaccepted batch acc).alloc = batch.alloc.free
      ((List.range batch.bs).flatMap fun b => freedOf c batch (nodes b) b) := by
  unfold freeUnaccepted freedOf
  by_cases hpage : c.pageSize = 1
  · simp only [hpage, if_true]
    refine congrArg batch.alloc.free (selectMask_eq fun b hb i hi => ?_)
    rw [hacc.acceptIndex]
    exact decide_eq_decide.mpr (not_congr (mem_flatMap_rows hacc.lt hb hi))
  by_cases htopk : c.topk = 1
  · simp only [hpage, htopk, if_true, if_false]
    rw [htopk] at hacc
    exact congrArg batch.alloc.free (selectMask_eq fun b hb i hi => alignMask_spec h hacc hb hi)
  simp only [hpage, htopk, if_false]
  refine congrArg batch.alloc.free ((map_range_offset fun b hb k hk =>
    (targetBufs_spec h hacc hb).2 k hk).trans (flatMap_congr fun b hb => ?_))
  have hb' := mem_range.mp hb
  -- With pages the last slots go, behind the page of the last kept one.
  have hlast : (List.range c.draftTokenNum).filter (fun i => decide
      (pageEnd c.pageSize (batch.seqLens b) (nodes b).length ≤ batch.seqLens b + i)) =
      (List.range (c.toFreeNumSlots batch.seqLens acc.acceptLength b)).map
        (c.draftTokenNum - c.toFreeNumSlots batch.seqLens acc.acceptLength b + ·) := by
    rw [← filter_range_last (toFreeNumSlots_le h.pageSize_pos _ _ _)]
    refine filter_congr fun i hi => decide_eq_decide.mpr ?_
    have hi := mem_range.mp hi
    rw [toFreeNumSlots_eq h.pageSize_pos, hacc.length b hb']
    omega
  rw [hlast, map_map]
  refine map_congr_left fun k _ => ?_
  rw [Nat.add_assoc]
  rfl

/-- `tgt_cache_loc` as a list. -/
theorem tgtCacheLoc_eq (h : Layout c batch page)
    (hacc : acc.Keeps batch.bs c.draftTokenNum topk nodes) :
    (List.range acc.acceptIndex.length).map (targetBufs c batch acc).1 =
      (List.range batch.bs).flatMap fun b => (List.range (acc.acceptLength b + 1)).map fun k =>
        batch.outCacheLoc (b * c.draftTokenNum + k) := by
  rw [hacc.acceptIndex_range, length_flatMap_range]
  exact map_range_offset fun b hb => (targetBufs_spec h hacc hb).1

theorem freeUnaccepted_reqs (b : Nat) :
    ((c.freeUnaccepted batch acc).reqs b).outputIds = (acc.rows b).req.outputIds ∧
    ((c.freeUnaccepted batch acc).reqs b).finished = (acc.rows b).req.finished := by
  unfold freeUnaccepted
  split_ifs
  all_goals exact ⟨rfl, rfl⟩

end Free

section Move

variable {ι : Type} {l : List ι}

/-- Targets that differ get what their sources had. -/
theorem foldl_update_of_inj (target : ι → Nat) {value : ι → α}
    (hinj : ∀ x ∈ l, ∀ y ∈ l, target x = target y → x = y) (kv : Nat → α) :
    ∀ x ∈ l, l.foldl (fun kv y => update kv (target y) (value y)) kv (target x) = value x := by
  induction l using reverseRecOn with
  | nil => exact forall_mem_nil _
  | append_singleton l y ih =>
    intro x hx
    rw [foldl_append, foldl_cons, foldl_nil]
    by_cases hxy : target x = target y
    · obtain rfl := hinj x hx y (by simp) hxy
      exact update_self _ _ _
    · rw [update_of_ne hxy]
      refine ih (fun x hx y hy => hinj x (mem_append_left _ hx) y (mem_append_left _ hy)) x ?_
      rcases mem_append.mp hx with hx | hx
      · exact hx
      · exact absurd (congrArg target (mem_singleton.mp hx)) hxy

end Move

section Verify

variable {c : VerifyConfig} {batch : Batch α} {page : Nat → Nat → Nat} {acc : Acceptance}
  {nodes : Nat → List Nat}

/-- The node whose slot the row has for the `k`-th accepted one. -/
def rowNode (c : VerifyConfig) (nodes : List Nat) (k : Nat) : Nat :=
  if c.pageSize = 1 ∨ c.topk = 1 then nodes.getD k 0 else k

/-- The slots of a row, when the row has been assigned. -/
theorem rowSlots_indexed (hindexed : c.pageSize = 1 ∨ c.topk = 1) (b : Nat) :
    ((List.range (nodes b).length).map fun k =>
      batch.outCacheLoc (b * c.draftTokenNum + rowNode c (nodes b) k)) =
      ((nodes b).map (b * c.draftTokenNum + ·)).map batch.outCacheLoc := by
  rw [map_map, map_eq_map_range _ (nodes b)]
  refine map_congr_left fun k _ => ?_
  rw [rowNode, if_pos hindexed]
  rfl

variable {b k : Nat} (h : Layout c batch page)
  (hacc : acc.Keeps batch.bs c.draftTokenNum c.topk nodes)
include hacc

theorem rowNode_lt (hb : b < batch.bs) (hk : k < (nodes b).length) :
    rowNode c (nodes b) k < c.draftTokenNum := by
  unfold rowNode
  split_ifs
  · rw [getD_eq_getElem _ _ hk]
    exact hacc.lt b hb _ (getElem_mem hk)
  · exact hk.trans_le (hacc.le b hb)

/-- With pages, the row has the slots of its positions. -/
theorem rowNode_eq (hpage : c.pageSize ≠ 1) (hb : b < batch.bs) (hk : k < (nodes b).length) :
    rowNode c (nodes b) k = k := by
  unfold rowNode
  split_ifs with hindexed
  · rw [hacc.chain (hindexed.resolve_left hpage) b hb, getD_eq_getElem _ _ (by
      rwa [length_range]), getElem_range]
  · rfl

include h

/-- The slots of a row are in pages that are not given back. -/
theorem rowNode_not_freed (hb : b < batch.bs) (hk : k < (nodes b).length) :
    batch.outCacheLoc (b * c.draftTokenNum + rowNode c (nodes b) k) / c.pageSize ∉
      ((List.range batch.bs).flatMap fun b => freedOf c batch (nodes b) b).map
        (· / c.pageSize) := by
  intro hmem
  obtain ⟨slot, hslot, hdiv⟩ := mem_map.mp hmem
  obtain ⟨b', hb', hslot⟩ := mem_flatMap.mp hslot
  obtain ⟨i, hi, rfl⟩ := mem_map.mp hslot
  obtain ⟨hi, htest⟩ := mem_filter.mp hi
  have hi := mem_range.mp hi
  have hlt := rowNode_lt hacc hb hk
  have hpages := h.page_eq hb hlt (mem_range.mp hb') hi hdiv.symm
  obtain ⟨rfl, hpages⟩ := hpages
  by_cases hpage : c.pageSize = 1
  · -- Single slots: the node would have been kept.
    rw [if_pos hpage, decide_eq_true_eq] at htest
    rw [hpage, Nat.div_one, Nat.div_one] at hpages
    obtain rfl : rowNode c (nodes b) k = i := by omega
    refine htest ?_
    rw [rowNode, if_pos (.inl hpage), getD_eq_getElem _ _ hk]
    exact getElem_mem hk
  rw [if_neg hpage, decide_eq_true_eq] at htest
  rw [rowNode_eq hacc hpage hb hk] at hpages
  have hle : (batch.seqLens b + k) / c.pageSize ≤
      (batch.seqLens b + (nodes b).length - 1) / c.pageSize :=
    Nat.div_le_div_right (by omega)
  have hge : (batch.seqLens b + (nodes b).length - 1) / c.pageSize + 1 ≤
      (batch.seqLens b + i) / c.pageSize :=
    (Nat.le_div_iff_mul_le h.pageSize_pos).mpr htest
  omega

/-- The slots of a row have the content of the accepted nodes. -/
theorem freeUnaccepted_kv (hb : b < batch.bs) (hk : k < (nodes b).length) :
    (c.freeUnaccepted batch acc).kv
      (batch.outCacheLoc (b * c.draftTokenNum + rowNode c (nodes b) k)) =
      batch.kv (batch.outCacheLoc (b * c.draftTokenNum + (nodes b).getD k 0)) := by
  unfold freeUnaccepted rowNode
  by_cases hpage : c.pageSize = 1
  · simp [hpage]
  by_cases htopk : c.topk = 1
  · simp [hpage, htopk]
  simp only [hpage, htopk, if_false, or_self]
  -- The pairs of requests and places, in the order of both lists.
  set l := (List.range batch.bs).flatMap fun b =>
    (List.range (acc.acceptLength b + 1)).map fun k => (b, k) with hl
  have hsrc : acc.acceptIndex.map batch.outCacheLoc = l.map fun x =>
      batch.outCacheLoc (x.1 * c.draftTokenNum + (nodes x.1).getD x.2 0) := by
    rw [hacc.acceptIndex_range, hl, map_flatMap, map_flatMap]
    simp [comp_def]
  have htgt : (List.range (acc.acceptIndex.map batch.outCacheLoc).length).map
      (targetBufs c batch acc).1 =
        l.map fun x => batch.outCacheLoc (x.1 * c.draftTokenNum + x.2) := by
    rw [length_map, tgtCacheLoc_eq h hacc, hl, map_flatMap]
    simp [comp_def]
  show moveKvCache batch.kv ((List.range (acc.acceptIndex.map batch.outCacheLoc).length).map
    (targetBufs c batch acc).1) _ _ = _
  rw [htgt, hsrc]
  have hmem : ∀ x ∈ l, x.1 < batch.bs ∧ x.2 < c.draftTokenNum := by
    intro x hx
    obtain ⟨b, hb, hx⟩ := mem_flatMap.mp hx
    obtain ⟨k, hk, rfl⟩ := mem_map.mp hx
    have hb := mem_range.mp hb
    have hk := mem_range.mp hk
    have hlen := hacc.length b hb
    have hle := hacc.le b hb
    exact ⟨hb, show k < c.draftTokenNum by omega⟩
  rw [moveKvCache, zip_map', foldl_map]
  refine foldl_update_of_inj (fun x => batch.outCacheLoc (x.1 * c.draftTokenNum + x.2))
    (fun x hx y hy heq => ?_) batch.kv (b, k) ?_
  · obtain ⟨hb, hi⟩ := h.slot_inj (hmem x hx).1 (hmem x hx).2 (hmem y hy).1 (hmem y hy).2 heq
    exact Prod.ext hb hi
  · refine mem_flatMap.mpr ⟨b, mem_range.mpr hb, mem_map.mpr ⟨k, ?_, rfl⟩⟩
    rwa [mem_range, hacc.length b hb]

/-- The rows of the requests that have not finished, moved together. -/
theorem filterFinished_spec :
    (List.range (acc.unfinishedIndex.length + (acc.unfinishedIndex.map acc.acceptLength).sum)).map
      ((c.order .filterFinishedCacheLoc).foldl
        (filterFinishedCacheLoc (targetBufs c batch acc).1 acc.acceptLength
          (acceptLengthFilter acc) (nextPowerOf2 batch.bs)
          (nextPowerOf2 c.draftTokenNum)) c.uninit) =
      acc.unfinishedIndex.flatMap fun b => (List.range (acc.acceptLength b + 1)).map fun k =>
        batch.outCacheLoc (b * c.draftTokenNum + k) := by
  set len := acceptLengthFilter acc with hlen
  have hle : ∀ b < batch.bs, len b ≤ acc.acceptLength b + 1 := by
    intro b _
    rw [hlen, acceptLengthFilter]
    split_ifs
    · exact le_rfl
    · exact Nat.zero_le _
  -- A finished request has an empty row.
  have hrows : ∀ value : Nat → Nat → Nat,
      ((List.range batch.bs).flatMap fun b => (List.range (len b)).map (value b)) =
        acc.unfinishedIndex.flatMap fun b =>
          (List.range (acc.acceptLength b + 1)).map (value b) := by
    intro value
    rw [hacc.unfinishedIndex, ← flatMap_ite]
    refine flatMap_congr fun b hb => ?_
    have hmem : b ∈ acc.unfinishedIndex ↔ (!(acc.rows b).req.finished) = true := by
      rw [hacc.unfinishedIndex, mem_filter]
      exact and_iff_right hb
    rw [hlen, acceptLengthFilter, apply_ite List.range, apply_ite (List.map (value b))]
    exact if_congr hmem rfl rfl
  have hsize : acc.unfinishedIndex.length + (acc.unfinishedIndex.map acc.acceptLength).sum =
      offset len batch.bs := by
    rw [← length_flatMap_range (fun _ _ => 0), hrows, length_flatMap]
    simp only [length_map, length_range]
    generalize acc.unfinishedIndex = l
    induction l with
    | nil => rfl
    | cons b l ih =>
      rw [length_cons, map_cons, map_cons, sum_cons, sum_cons]
      omega
  have hwrite : (c.order .filterFinishedCacheLoc).foldl
      (filterFinishedCacheLoc (targetBufs c batch acc).1 acc.acceptLength len
        (nextPowerOf2 batch.bs) (nextPowerOf2 c.draftTokenNum)) c.uninit =
      (c.order .filterFinishedCacheLoc).foldl (fun mem b => write mem (offset len b) (len b)
        fun k => (targetBufs c batch acc).1
          (offset (fun b => acc.acceptLength b + 1) b + k)) c.uninit := by
    refine foldl_ext _ _ _ fun mem b hb => ?_
    have hb' := h.mem_order.mp hb
    have := hle b hb'
    have := hacc.length b hb'
    have := hacc.le b hb'
    exact filterFinishedCacheLoc_eq (h.le_upper hb) (by omega) mem
  rw [hsize, hwrite, ← hrows]
  refine map_range_offset fun b hb k hk => ?_
  rw [foldl_write_offset _ (h.nodup_order _) _ (h.mem_order.mpr hb) hk]
  exact (targetBufs_spec h hacc hb).1 k (hk.trans_le (hle b hb))

/-- What a verification leaves behind, for the nodes of each request that are kept. -/
structure Exact (c : VerifyConfig) (batch : Batch α) (predict : Nat → Int)
    (nodes : Nat → List Nat) (out : VerifyOutput α) : Prop where
  /-- What is given back. -/
  freed : out.alloc = batch.alloc.free
    ((List.range batch.bs).flatMap fun b => freedOf c batch (nodes b) b)
  /-- The row has a slot that stays for each node, with its content. -/
  row : ∀ b < batch.bs, ∀ k i, (nodes b)[k]? = some i →
    (∃ i' < c.draftTokenNum, batch.entry out.reqToToken b (batch.seqLens b + k) =
      batch.outCacheLoc (b * c.draftTokenNum + i')) ∧
    batch.entry out.reqToToken b (batch.seqLens b + k) / c.pageSize ∉
      ((List.range batch.bs).flatMap fun b => freedOf c batch (nodes b) b).map (· / c.pageSize) ∧
    out.kv (batch.entry out.reqToToken b (batch.seqLens b + k)) =
      batch.kv (batch.outCacheLoc (b * c.draftTokenNum + i))
  outputIds : ∀ b < batch.bs, (out.reqs b).outputIds = (batch.reqs b).outputIds ++
    (nodes b).map fun i => predict (b * c.draftTokenNum + i)
  /-- The requests that go on, in order. -/
  unfinished : ∀ l, l = (List.range batch.bs).filter (fun b => !(out.reqs b).finished) → l ≠ [] →
    out.outCacheLoc = (l.flatMap fun b => (List.range (nodes b).length).map fun k =>
      batch.entry out.reqToToken b (batch.seqLens b + k)) ∧
    (∀ b ∈ l, out.seqLens b = batch.seqLens b + (nodes b).length) ∧
    out.draftInput = some
      { verifiedId := l.flatMap fun b => (nodes b).map fun i => predict (b * c.draftTokenNum + i)
        acceptLength := l.map fun b => (nodes b).length - 1
        seqLensForDraftExtend := l.map fun b => batch.seqLens b + (nodes b).length
        seqLensForDraftExtendCpu := l.map fun b => batch.seqLensCpu b + (nodes b).length
        reqPoolIndicesForDraftExtend := l.map batch.reqPoolIndices }

/-- The row of a request after a verification. -/
theorem assigned_row (hprepared : ∀ b < batch.bs, ∀ i < c.draftTokenNum,
      batch.entry batch.reqToToken b (batch.seqLens b + i) =
        batch.outCacheLoc (b * c.draftTokenNum + i))
    (hb : b < batch.bs) (hk : k < (nodes b).length) :
    batch.entry (if decide (c.pageSize = 1 ∨ c.topk = 1) then
        c.assignFunc batch (fun i => batch.seqLens i + acc.acceptLength i + 1)
          (acc.acceptIndex.map batch.outCacheLoc) else batch.reqToToken) b (batch.seqLens b + k) =
      batch.outCacheLoc (b * c.draftTokenNum + rowNode c (nodes b) k) := by
  unfold rowNode
  by_cases hindexed : c.pageSize = 1 ∨ c.topk = 1
  · rw [if_pos (decide_eq_true hindexed), if_pos hindexed, hacc.acceptIndex_range, map_flatMap]
    simp only [map_map, comp_def]
    refine assignFunc_spec h (fun b hb => ?_) (fun b => Nat.add_assoc _ _ _)
      (fun b k => batch.outCacheLoc (b * c.draftTokenNum + (nodes b).getD k 0)) hb ?_
    · rw [hacc.length b hb]
      exact hacc.le b hb
    · rwa [hacc.length b hb]
  · rw [if_neg (by rwa [decide_eq_true_eq]), if_neg hindexed]
    exact hprepared b hb k (hk.trans_le (hacc.le b hb))

/-- The new `out_cache_loc`, in terms of the rows. -/
theorem newCacheLoc :
    let rows := acc.unfinishedIndex.flatMap fun b => (List.range (nodes b).length).map fun k =>
      batch.outCacheLoc (b * c.draftTokenNum + rowNode c (nodes b) k)
    (acc.hasFinished = false →
      (if decide (c.pageSize = 1 ∨ c.topk = 1) then acc.acceptIndex.map batch.outCacheLoc
        else (List.range acc.acceptIndex.length).map (c.freeUnaccepted batch acc).tgtCacheLoc) =
      rows) ∧
    c.unfinishedCacheLoc batch acc (c.freeUnaccepted batch acc).tgtCacheLoc = rows := by
  by_cases hindexed : c.pageSize = 1 ∨ c.topk = 1
  · simp only [rowSlots_indexed hindexed, unfinishedCacheLoc, hindexed, decide_true, if_true]
    refine ⟨fun hnone => ?_, ?_⟩
    · rw [hacc.hasFinished hnone, hacc.acceptIndex, map_flatMap]
    · rw [hacc.unfinishedAcceptIndex, map_flatMap]
  -- A path with pages was copied to the front of its slots.
  have htgt : (c.freeUnaccepted batch acc).tgtCacheLoc = (targetBufs c batch acc).1 := by
    rw [not_or] at hindexed
    rw [freeUnaccepted, if_neg hindexed.1, if_neg hindexed.2]
    rfl
  have hslots : ∀ b < batch.bs, ((List.range (nodes b).length).map fun k =>
        batch.outCacheLoc (b * c.draftTokenNum + rowNode c (nodes b) k)) =
      (List.range (acc.acceptLength b + 1)).map fun k =>
        batch.outCacheLoc (b * c.draftTokenNum + k) := by
    intro b hb
    rw [hacc.length b hb]
    refine map_congr_left fun k _ => ?_
    rw [rowNode, if_neg hindexed]
  simp only [htgt, unfinishedCacheLoc, hindexed, decide_false, if_false, Bool.false_eq_true]
  refine ⟨fun hnone => ?_, ?_⟩
  · rw [hacc.hasFinished hnone, tgtCacheLoc_eq h hacc]
    exact flatMap_congr fun b hb => (hslots b (mem_range.mp hb)).symm
  · rw [filterFinished_spec h hacc]
    refine flatMap_congr fun b hb => (hslots b ?_).symm
    rw [hacc.unfinishedIndex] at hb
    exact mem_range.mp (mem_of_mem_filter hb)

omit h hacc in
/-- After a verification, exactly the slots behind the kept part of each path have been
    given back. The row of a request has a slot that stays for each of its accepted
    tokens, with its content, and the requests that have not finished go on with these
    slots and tokens. -/
theorem verify_exact (h : Layout c batch page) (hprepared : ∀ b < batch.bs, ∀ i < c.draftTokenNum,
      batch.entry batch.reqToToken b (batch.seqLens b + i) =
        batch.outCacheLoc (b * c.draftTokenNum + i))
    {path : Nat → List Nat} {acceptIndex : Nat → List Int} {acceptLength : Nat → Nat}
    (haccepts : Accepts batch.bs c.draftTokenNum c.topk path acceptIndex acceptLength)
    (checkFinished : Nat → List Int → Bool) (predict : Nat → Int) :
    Exact c batch predict (keptNodes c.draftTokenNum checkFinished predict batch.reqs path)
        (c.verify batch checkFinished predict acceptIndex acceptLength) ∧
      ∀ b < batch.bs, ((c.verify batch checkFinished predict acceptIndex
        acceptLength).reqs b).finished = false →
        keptNodes c.draftTokenNum checkFinished predict batch.reqs path b = path b := by
  obtain ⟨hacc, hreqs⟩ := acceptBatch_spec checkFinished predict batch.reqs haccepts
  set acc := acceptBatch batch.bs checkFinished predict batch.reqs acceptIndex acceptLength
    with hacc'
  set nodes := keptNodes c.draftTokenNum checkFinished predict batch.reqs path
  set out := c.verify batch checkFinished predict acceptIndex acceptLength with hout
  set freed := c.freeUnaccepted batch acc with hfreed
  have hfields : out.alloc = freed.alloc ∧ out.kv = freed.kv ∧ out.reqs = freed.reqs ∧
      out.reqToToken = if decide (c.pageSize = 1 ∨ c.topk = 1) then
          c.assignFunc batch (fun i => batch.seqLens i + acc.acceptLength i + 1)
            (acc.acceptIndex.map batch.outCacheLoc)
        else batch.reqToToken := by
    rw [hout, verify, ← hacc', ← hfreed]
    by_cases hf : !acc.hasFinished
    · simp [hf]
    · simp [hf]
  obtain ⟨halloc, hkv, hout_reqs, hrows⟩ := hfields
  -- What a row has is said by `rowNode`, whether it was assigned or copied.
  have hentry : ∀ b < batch.bs, ∀ k < (nodes b).length,
      batch.entry out.reqToToken b (batch.seqLens b + k) =
        batch.outCacheLoc (b * c.draftTokenNum + rowNode c (nodes b) k) := by
    intro b hb k hk
    rw [hrows]
    exact assigned_row h hacc hprepared hb hk
  have hfinished : ∀ b, (out.reqs b).finished = (acc.rows b).req.finished := by
    intro b
    rw [hout_reqs]
    exact (freeUnaccepted_reqs b).2
  refine ⟨⟨?_, fun b hb k i hi => ?_, fun b hb => ?_, fun l hl hne => ?_⟩, fun b hb hfin => ?_⟩
  · rw [halloc]
    exact freeUnaccepted_alloc h hacc
  · obtain ⟨hk, hget⟩ := List.getElem?_eq_some_iff.mp hi
    rw [hentry b hb k hk]
    refine ⟨⟨_, rowNode_lt hacc hb hk, rfl⟩, rowNode_not_freed h hacc hb hk, ?_⟩
    rw [hkv, freeUnaccepted_kv h hacc hb hk, getD_eq_getElem _ _ hk, hget]
  · rw [hout_reqs, (freeUnaccepted_reqs b).1, (hreqs b hb).1]
  · have hl' : l = acc.unfinishedIndex := by
      rw [hl, hacc.unfinishedIndex]
      exact filter_congr fun b _ => by rw [hfinished b]
    have hlen : ∀ b ∈ l, acc.acceptLength b + 1 = (nodes b).length := fun b hb =>
      hacc.length b (mem_range.mp (mem_of_mem_filter (hl ▸ hb)))
    have hcache := newCacheLoc h hacc
    have hslots : (l.flatMap fun b => (List.range (nodes b).length).map fun k =>
        batch.entry out.reqToToken b (batch.seqLens b + k)) =
        acc.unfinishedIndex.flatMap fun b => (List.range (nodes b).length).map fun k =>
          batch.outCacheLoc (b * c.draftTokenNum + rowNode c (nodes b) k) := by
      rw [← hl']
      refine flatMap_congr fun b hb => map_congr_left fun k hk => ?_
      exact hentry b (mem_range.mp (mem_of_mem_filter (hl ▸ hb))) k (mem_range.mp hk)
    have hdraft : l.map acc.acceptLength = (l.map fun b => (nodes b).length - 1) ∧
        (∀ f : Nat → Nat, (l.map fun b => f b + (acc.acceptLength b + 1)) =
          l.map fun b => f b + (nodes b).length) := by
      refine ⟨map_congr_left fun b hb => ?_, fun f => map_congr_left fun b hb => ?_⟩
      · rw [← hlen b hb, Nat.add_sub_cancel]
      · rw [hlen b hb]
    have hids : ∀ l : List Nat, (l.flatMap fun b => (nodes b).map (b * c.draftTokenNum + ·)).map
        predict = l.flatMap fun b => (nodes b).map fun i => predict (b * c.draftTokenNum + i) := by
      intro l
      rw [map_flatMap]
      simp [comp_def]
    rw [hslots, hout, verify, ← hacc', ← hfreed]
    -- All rows go on as they are, or those of the unfinished requests are gathered.
    cases hf : acc.hasFinished with
    | false =>
      have hall : l = List.range batch.bs := hl'.trans (hacc.hasFinished hf)
      simp only [Bool.not_false, if_true]
      refine ⟨hcache.1 hf, fun b hb => by rw [hlen b hb], ?_⟩
      rw [hacc.acceptIndex, hids, ← hall, hdraft.1, hdraft.2, hdraft.2]
    | true =>
      have hsome : decide (acc.unfinishedIndex ≠ []) = true := decide_eq_true (hl' ▸ hne)
      simp only [Bool.not_true, Bool.false_eq_true, if_false, hsome, if_true, Bool.or_true]
      refine ⟨hcache.2, fun b hb => by rw [hlen b hb], ?_⟩
      rw [hacc.unfinishedAcceptIndex, hids, ← hl', hdraft.1, hdraft.2, hdraft.2]
  · rw [hfinished b] at hfin
    exact (hreqs b hb).2 hfin

end Verify

/-- Pages of two slots, and trees of three nodes. -/
def pairConfig : VerifyConfig :=
  { pageSize := 2
    topk := 2
    draftTokenNum := 3
    order := fun _ => [1, 0]
    uninit := fun _ => 0 }

/-- Two requests with three tokens each. The content of a slot is its number. -/
def pairBatch : Batch Nat :=
  { bs := 2
    seqLens := fun _ => 3
    seqLensCpu := fun _ => 3
    reqPoolIndices := id
    reqs := fun _ => ⟨[], false, 3, 3⟩
    reqToToken := fun k => 20 * (k / 8) + k % 8
    poolLen := 8
    outCacheLoc := fun k => 20 * (k / 3) + 3 + k % 3
    alloc := Kv.Allocator.init 40 2 false
    kv := id }

/-- Nodes 0 and 2 of the first request are accepted, and nodes 0 and 1 of the second. -/
def pairPath : Nat → List Nat
  | 0 => [0, 2]
  | _ => [0, 1]

theorem pairLayout : Layout pairConfig pairBatch fun b j => 10 * b + j := by
  refine ⟨by decide, fun kernel => List.Perm.swap 0 1 [], by decide,
    fun b hb i hi b' hb' i' hi' h => ?_, by decide, fun b _ b' _ h => h⟩
  simp only [pairConfig, pairBatch] at *
  omega

theorem pairAccepts : Accepts 2 3 2 pairPath
    (fun b => indexRow (b * 3 + ·) (pairPath b) 1) (fun _ => 1) := by
  refine ⟨fun b _ => ⟨1, rfl⟩, by decide, by decide, by decide, fun htopk => ?_⟩
  exact absurd htopk (by decide)

/-- The second request finishes at its first token. Its page behind that is given back,
    and the first request goes on with its two accepted tokens in its first slots. -/
theorem verify_exact_pair : Exact pairConfig pairBatch (fun k => k)
      (keptNodes 3 (fun b _ => b == 1) (fun k => k) pairBatch.reqs pairPath)
      (pairConfig.verify pairBatch (fun b _ => b == 1) (fun k => k)
        (fun b => indexRow (b * 3 + ·) (pairPath b) 1) fun _ => 1) ∧
    ((List.range 2).flatMap fun b => freedOf pairConfig pairBatch
      (keptNodes 3 (fun b _ => b == 1) (fun k => k) pairBatch.reqs pairPath b) b) = [24, 25] := by
  refine ⟨(verify_exact pairLayout (by decide) pairAccepts (fun b _ => b == 1) fun k => k).1, ?_⟩
  decide +kernel

end SglangInc.Eagle
