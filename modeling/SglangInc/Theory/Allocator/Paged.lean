import SglangInc.Core.PagedAllocator
import SglangInc.Theory.Serving.Requests
import Mathlib.Tactic.Linarith

/-!
# Conservation in the Paged Allocator

Over any sequence of operations, the free list, the release list, the pages
that wait in an open free group and the pages that are handed out divide the
pages of the pool among them. An allocation fails exactly when the two lists
together are too short, and then leaves them as they were up to their order.

The first part is a count for each page, as for the requests of the server. An
allocation takes pages from the front of the free list. That these are the
pages of the indices it returns, apart from a last page that the caller has
already, is what the kernels were shown to do (`Grant`).

The second part is about the estimates. An allocation sorts only if the free
list is shorter than its estimate, so the estimate must never be below the
number of pages needed. A request needs at most one page more than its tokens
fill, which is what the batch size is added for.

## Theorems

* `paged_conserved`: The pages in every state reached.
* `paged_layout`: The slots that an allocation gives to each request.
-/

namespace SglangInc.Kv

open List Slots Serving Allocator

variable {pageSize numPages page : Nat} {a a' : Allocator} {handed : Finset Nat}

/-- The pages that wait in an open free group, as they will be freed. -/
def Allocator.pendingPages (a : Allocator) : List Nat :=
  if a.isNotInFreeGroup then [] else a.freeGroup.flatMap (freedPages a.pageSize)

/-- A request needs at most one page more than its new tokens fill. -/
theorem numNewPages_le (hps : 0 < pageSize) {pre seq : Nat} (hle : pre ≤ seq) :
    numNewPages pageSize pre seq ≤ (seq - pre) / pageSize + 1 := by
  obtain ⟨n, rfl⟩ := Nat.exists_eq_add_of_le hle
  have hfill : pre + n ≤ (pagesFor pageSize pre + (n / pageSize + 1)) * pageSize := by
    have hpre := le_pagesFor_mul hps pre
    have hn := Nat.lt_div_mul_add (a := n) hps
    rw [Nat.add_mul, Nat.add_mul, Nat.one_mul]
    omega
  have hmono := pagesFor_mono pageSize hfill
  rw [pagesFor_mul hps] at hmono
  rw [numNewPages, Nat.add_sub_cancel_left]
  exact Nat.sub_le_iff_le_add'.mpr hmono

/-- The estimate of `alloc_extend` is enough. -/
theorem extendPages_le (hps : 0 < pageSize) (batch : List Extend)
    (hle : ∀ req ∈ batch, req.prefixLen ≤ req.seqLen) : extendPages pageSize batch ≤
      (batch.map fun req => req.seqLen - req.prefixLen).sum / pageSize + batch.length := by
  induction batch with
  | nil => exact Nat.zero_le _
  | cons req batch ih =>
    have hreq := numNewPages_le hps (hle req mem_cons_self)
    have hrest := ih (forall_mem_cons.mp hle).2
    have hadd := Nat.div_add_div_le_add_div (x := req.seqLen - req.prefixLen)
      (y := (batch.map fun req => req.seqLen - req.prefixLen).sum) (z := pageSize)
    rw [extendPages_cons, map_cons, sum_cons, length_cons]
    linarith

section Failure

variable {β : Type} {estimate n : Nat} {outIndices : List Nat → β}

theorem sortFor_perm (a : Allocator) (needed : Nat) :
    ((a.sortFor needed).freePages ++ (a.sortFor needed).releasePages).Perm
      (a.freePages ++ a.releasePages) := by
  unfold sortFor mergeAndSortFree
  split_ifs
  · rw [List.append_nil]
    exact mergeSort_perm _ _
  all_goals exact List.Perm.refl _

/-- An allocation fails exactly when the two lists together are too short. -/
theorem takePages_none_iff (hrelease : a.needSort = false → a.releasePages = [])
    (hest : n ≤ estimate) : (a.takePages estimate n outIndices).1 = none ↔
      a.freePages.length + a.releasePages.length < n := by
  have hnone : (a.takePages estimate n outIndices).1 = none ↔
      (a.sortFor estimate).freePages.length < n := by
    rw [takePages]
    split_ifs with hshort <;> simpa using hshort
  rw [hnone]
  -- After the sort the release list is empty, or the free list is long enough.
  unfold sortFor mergeAndSortFree
  cases hneed : a.needSort with
  | false => simp [hrelease hneed]
  | true =>
    simp only [Bool.true_and, decide_eq_true_eq]
    split_ifs
    · rw [length_mergeSort, length_append]
    all_goals omega

/-- A failed allocation keeps the free pages. -/
theorem takePages_none_perm (h : (a.takePages estimate n outIndices).1 = none) :
    ((a.takePages estimate n outIndices).2.freePages ++
      (a.takePages estimate n outIndices).2.releasePages).Perm (a.freePages ++ a.releasePages) := by
  unfold takePages at h ⊢
  simp only at h ⊢
  split_ifs at h ⊢
  exact sortFor_perm a estimate

end Failure

section Pages

/-- Indices that are in new pages and in pages handed out before, with an index
    in every new page. -/
def Covers (pageSize : Nat) (handed : Finset Nat) (out new : List Nat) : Prop :=
  (∀ page ∈ new, page ∈ pagesOf pageSize out) ∧
  ∀ page ∈ pagesOf pageSize out, page ∈ handed ∨ page ∈ new

/-- A page that is taken was in the allocator, so it was not handed out. -/
theorem Covers.balance {out new : List Nat} (h : Covers pageSize handed out new)
    {before after total : Nat} (hcount : before = after + new.count page)
    (hbefore : before + (if page ∈ handed then 1 else 0) = total) (htotal : total ≤ 1) :
    after + (if page ∈ handed ∪ pagesOf pageSize out then 1 else 0) = total := by
  simp only [Finset.mem_union]
  by_cases hmem : page ∈ new
  · have hpos := count_pos_iff.mpr hmem
    rw [if_pos (.inr (h.1 page hmem))]
    split_ifs at hbefore <;> omega
  have hzero := List.count_eq_zero.mpr hmem
  have hiff : page ∈ handed ∨ page ∈ pagesOf pageSize out ↔ page ∈ handed :=
    ⟨fun hor => hor.elim id fun hp => (h.2 page hp).resolve_right hmem, .inl⟩
  rw [hzero, Nat.add_zero] at hcount
  simp only [hiff, ← hcount]
  exact hbefore

variable {indices : List Nat}

theorem mem_pagesOf : page ∈ pagesOf pageSize indices ↔ page ∈ indices.map (· / pageSize) :=
  mem_toFinset

theorem mem_pagesOf_of_mem (pageSize : Nat) {i : Nat} (h : i ∈ indices) :
    i / pageSize ∈ pagesOf pageSize indices :=
  mem_pagesOf.mpr (mem_map_of_mem h)

variable (hps : 0 < pageSize)

include hps

/-- The last slot determines as much of a list of pages as the kernels read. -/
theorem LastSlot.pages {n : Nat} {lastSlot : Int}
    (h : LastSlot pageSize handed n lastSlot) :
    ∃ pages, pages.length = pagesFor pageSize n ∧ lastSlot = lastLoc (slots pageSize pages n) ∧
      ∀ page ∈ pages.drop ((n - 1) / pageSize), page ∈ handed := by
  rcases h with ⟨rfl, rfl⟩ | ⟨loc, hn, rfl, hmod, hmem⟩
  · exact ⟨[], (pagesFor_zero hps).symm, rfl, fun page hpage => absurd hpage (by simp)⟩
  obtain ⟨m, rfl⟩ : ∃ m, n = m + 1 := ⟨n - 1, (Nat.sub_add_cancel hn).symm⟩
  rw [Nat.add_sub_cancel] at hmod ⊢
  refine ⟨List.replicate (m / pageSize) 0 ++ [loc / pageSize], ?_, ?_, fun page hpage => ?_⟩
  · rw [length_append, length_replicate, length_singleton, pagesFor,
      show m + 1 + pageSize - 1 = m + pageSize by omega, Nat.add_div_right _ hps]
  · rw [lastLoc_slots_succ, getD_eq_getElem?_getD, getElem?_append_right (by simp),
      length_replicate, Nat.sub_self, getElem?_cons_zero, Option.getD_some, ← hmod,
      Nat.div_add_mod']
  · rw [drop_left' length_replicate, mem_singleton] at hpage
    rwa [hpage]

/-- What one request gets covers its new pages. -/
theorem grant_covers {req : Extend} {out new : List Nat}
    (h : Grant pageSize req out new) (hle : req.prefixLen ≤ req.seqLen)
    (hlast : LastSlot pageSize handed req.prefixLen req.lastLoc) :
    Covers pageSize handed out new := by
  obtain ⟨pre, seq, lastSlot⟩ := req
  simp only at hle hlast
  rcases hlast.pages hps with ⟨pages, hpages, rfl, hhanded⟩
  have hnew := h.1
  have hslots := h.2 pages hpages rfl
  simp only at hnew hslots
  constructor
  · intro page hpage
    have hheads := (Grant.extend hps (by rwa [length_slots]) ⟨pages, pre, hpages, rfl⟩
      (by rwa [length_slots])).2.2 page
    have hfirst : page * pageSize ∈ out := count_pos_iff.mp (by
      rw [heads] at hheads
      rw [hheads]
      exact count_pos_iff.mpr hpage)
    have := mem_pagesOf_of_mem pageSize hfirst
    rwa [Nat.mul_div_cancel _ hps] at this
  · intro page hpage
    rcases mem_map.mp (mem_pagesOf.mp hpage) with ⟨i, hi, rfl⟩
    -- Everything returned lies in the last page or after it.
    obtain ⟨q, hq⟩ : ∃ q, (pre - 1) / pageSize = q := ⟨_, rfl⟩
    have hqle : q * pageSize ≤ pre := by
      have := Nat.div_mul_le_self (pre - 1) pageSize
      rw [hq] at this
      omega
    have hall : (pages ++ new).length = pagesFor pageSize seq := by
      have := pagesFor_mono pageSize hle
      rw [length_append, hnew, numNewPages, hpages]
      omega
    have hin : i ∈ slots pageSize ((pages ++ new).drop q) (seq - q * pageSize) := by
      rw [← slots_drop hps, ← hslots]
      refine mem_of_mem_drop (i := pre - q * pageSize) ?_
      rwa [drop_drop, Nat.add_sub_cancel' hqle, drop_left' length_slots]
    have hlen : ((pages ++ new).drop q).length = pagesFor pageSize (seq - q * pageSize) := by
      have hsplit := pagesFor_add hps q (seq - q * pageSize)
      rw [Nat.add_sub_cancel' (hqle.trans hle)] at hsplit
      rw [List.length_drop, hall, hsplit, Nat.add_sub_cancel_left]
    have hmem := div_mem_of_mem_slots hps hlen hin
    rw [drop_append] at hmem
    rcases mem_append.mp hmem with hold | hfresh
    · exact .inl (hhanded _ (hq ▸ hold))
    · exact .inr (mem_of_mem_drop hfresh)

/-- The slots of a batch are in new pages, or in pages that were handed out. -/
theorem granted_covers {batch : List Extend} {outs : List (List Nat)}
    {new : List Nat} (h : Granted pageSize batch outs new)
    (hbatch : ∀ req ∈ batch, req.prefixLen ≤ req.seqLen ∧
      LastSlot pageSize handed req.prefixLen req.lastLoc) :
    Covers pageSize handed outs.flatten new := by
  induction h with
  | nil => exact ⟨forall_mem_nil _, fun page hpage =>
    absurd (mem_pagesOf.mp hpage) not_mem_nil⟩
  | @cons req out new batch outs pages hgrant _ ih =>
    have hreq := hbatch req mem_cons_self
    have hfirst := grant_covers hps hgrant hreq.1 hreq.2
    have hrest := ih (forall_mem_cons.mp hbatch).2
    have hsplit : ∀ page, page ∈ pagesOf pageSize (out :: outs).flatten ↔
        page ∈ pagesOf pageSize out ∨ page ∈ pagesOf pageSize outs.flatten := by
      intro page
      simp [mem_pagesOf]
    constructor
    · exact forall_mem_append.mpr ⟨fun page hmem => (hsplit page).mpr (.inl (hfirst.1 page hmem)),
        fun page hmem => (hsplit page).mpr (.inr (hrest.1 page hmem))⟩
    · intro page hpage
      rcases (hsplit page).mp hpage with hmem | hmem
      · exact (hfirst.2 page hmem).imp_right (mem_append_left _)
      · exact (hrest.2 page hmem).imp_right (mem_append_right _)

theorem extend_covers (batch : List Extend)
    (hbatch : ∀ req ∈ batch, req.prefixLen ≤ req.seqLen ∧
      LastSlot pageSize handed req.prefixLen req.lastLoc) (freePages : List Nat)
    (hfree : extendPages pageSize batch ≤ freePages.length) :
    Covers pageSize handed (allocExtendOut pageSize freePages 0 batch).flatten
      (freePages.take (extendPages pageSize batch)) := by
  have hgranted := allocExtendOut_granted hps freePages batch (fun req hreq => (hbatch req hreq).1)
    0 (by rw [Nat.zero_add]; exact hfree)
  exact granted_covers hps hgranted hbatch

omit hps

theorem decode_covers (hone : 1 < pageSize) {batch : List Decode}
    (hbatch : ∀ req ∈ batch, 0 < req.seqLen ∧
      LastSlot pageSize handed (req.seqLen - 1) req.lastLoc) (freePages : List Nat)
    (hfree : decodePages pageSize batch ≤ freePages.length) :
    Covers pageSize handed (allocDecodeOut pageSize freePages 0 batch)
      (freePages.take (decodePages pageSize batch)) := by
  have hps := Nat.one_pos.trans hone
  have hpos : ∀ req ∈ batch, 0 < req.seqLen := fun req hreq => (hbatch req hreq).1
  rw [decodePages_eq hone.ne' hps hpos] at hfree ⊢
  have hcovers := extend_covers hps (batch.map Decode.toExtend) (forall_mem_map.mpr
    fun r hr => ⟨Nat.sub_le _ _, (hbatch r hr).2⟩) freePages hfree
  -- The two kernels return the same indices for these lengths.
  rwa [allocDecodeOut_eq hps freePages hpos, ← flatMap_def, flatMap_singleton'] at hcovers

theorem alloc_covers (hps : 0 < pageSize) (handed : Finset Nat) (new : List Nat) :
    Covers pageSize handed (new.flatMap fun page =>
      (List.range pageSize).map fun offset => page * pageSize + offset) new := by
  constructor
  · intro page hpage
    have hmem : page * pageSize ∈ new.flatMap fun page =>
        (List.range pageSize).map fun offset => page * pageSize + offset :=
      mem_flatMap.mpr ⟨page, hpage, mem_map.mpr ⟨0, mem_range.mpr hps, rfl⟩⟩
    have := mem_pagesOf_of_mem pageSize hmem
    rwa [Nat.mul_div_cancel _ hps] at this
  · intro page hpage
    rcases mem_map.mp (mem_pagesOf.mp hpage) with ⟨i, hi, rfl⟩
    rcases mem_flatMap.mp hi with ⟨p, hp, hi⟩
    rcases mem_map.mp hi with ⟨offset, hoffset, rfl⟩
    rw [(div_mod_slot p (mem_range.mp hoffset)).1]
    exact .inr hp

end Pages

section Invariant

/-- Every page of the pool is in one place: in the allocator or handed out. -/
structure PoolOk (size pageSize : Nat) (s : Pool) : Prop where
  size_eq : s.alloc.size = size
  pageSize_eq : s.alloc.pageSize = pageSize
  released : Released s.alloc
  balance : ∀ page, pagesIn s.alloc page + (if page ∈ s.handed then 1 else 0) =
    if 0 < page ∧ page ≤ size / pageSize then 1 else 0

variable {size : Nat} {s s' : Pool}

theorem PoolOk.le_one (h : PoolOk size pageSize s) (page : Nat) : pagesIn s.alloc page ≤ 1 := by
  have hbalance := h.balance page
  split_ifs at hbalance <;> omega

/-- An operation that moves pages only between the allocator and those handed out. -/
theorem PoolOk.keep (h : PoolOk size pageSize s) (hkeeps : Keeps s.alloc a)
    (hbalance : ∀ page, pagesIn a page + (if page ∈ handed then 1 else 0) =
      if 0 < page ∧ page ≤ size / pageSize then 1 else 0) : PoolOk size pageSize ⟨a, handed⟩ :=
  ⟨hkeeps.size.trans h.size_eq, hkeeps.pageSize.trans h.pageSize_eq, hkeeps.released h.released,
    hbalance⟩

/-- An allocation that covers the pages it takes. -/
theorem takePages_ok (h : PoolOk size pageSize s) {estimate n : Nat}
    {outIndices : List Nat → List Nat} (hout : ∀ freePages, n ≤ freePages.length →
      Covers pageSize s.handed (outIndices freePages) (freePages.take n)) :
    PoolOk size pageSize (s.after (s.alloc.takePages estimate n outIndices)) := by
  rcases sortFor_keeps s.alloc estimate with ⟨hkeeps, _, hcount⟩
  have htook := took_drop s.alloc estimate n
  unfold takePages Pool.after
  simp only
  split_ifs with hshort
  · exact h.keep hkeeps fun page => by
      rw [hcount]
      exact h.balance page
  · refine h.keep htook.toKeeps fun page => ?_
    have hcovers := hout _ (not_lt.mp hshort)
    rw [h.pageSize_eq]
    exact hcovers.balance (htook.count page) (h.balance page) (by split_ifs <;> omega)

/-- A free that puts every page back once. -/
theorem free_ok (h : PoolOk size pageSize s) {freeIndex : List Nat}
    (hmem : ∀ i ∈ freeIndex, i / pageSize ∈ s.handed)
    (hcount : ∀ page, (freedPages pageSize freeIndex).count page =
      if page ∈ freeIndex.map (· / pageSize) then 1 else 0) :
    PoolOk size pageSize ⟨s.alloc.free freeIndex, s.handed \ pagesOf pageSize freeIndex⟩ := by
  refine h.keep (free_keeps s.alloc freeIndex) fun page => ?_
  have hbalance := h.balance page
  simp only [pagesIn_free_eq, h.pageSize_eq, hcount, Finset.mem_sdiff, mem_pagesOf]
  by_cases hin : page ∈ freeIndex.map (· / pageSize)
  · have hhanded : page ∈ s.handed := by
      rcases mem_map.mp hin with ⟨i, hi, rfl⟩
      exact hmem i hi
    rw [if_pos hhanded] at hbalance
    rwa [if_pos hin, if_neg fun hc => hc.2 hin]
  · simp only [hin, not_false_eq_true, and_true]
    exact hbalance

theorem poolOk_init (size pageSize : Nat) (needSort : Bool) :
    PoolOk size pageSize ⟨Allocator.init size pageSize needSort, ∅⟩ where
  size_eq := rfl
  pageSize_eq := rfl
  released := fun _ => rfl
  balance := fun page => by
    simp only [Allocator.init, pagesIn, count_nil, if_true, Finset.notMem_empty, if_false,
      Nat.add_zero, count_range'_one]

theorem clear_ok (h : PoolOk size pageSize s) : PoolOk size pageSize ⟨s.alloc.clear, ∅⟩ := by
  rw [Allocator.clear, h.size_eq, h.pageSize_eq]
  exact poolOk_init size pageSize _

/-- Every operation keeps the invariant. -/
theorem poolOk_step (hone : 1 < pageSize) (h : PoolOk size pageSize s) {op : PoolOp}
    (hstep : PoolStep s op s') : PoolOk size pageSize s' := by
  have hps := Nat.one_pos.trans hone
  cases op with
  | alloc needSize =>
    rw [show s' = _ from hstep]
    refine takePages_ok h fun freePages _ => ?_
    rw [h.pageSize_eq]
    exact alloc_covers hps _ _
  | allocExtend batch extendNumTokens =>
    rcases hstep with ⟨hbatch, _, rfl⟩
    rw [h.pageSize_eq] at hbatch
    refine takePages_ok h fun freePages hfree => ?_
    rw [h.pageSize_eq] at hfree ⊢
    exact extend_covers hps _ hbatch freePages hfree
  | allocDecode batch =>
    rcases hstep with ⟨hbatch, rfl⟩
    rw [h.pageSize_eq] at hbatch
    refine takePages_ok h fun freePages hfree => ?_
    rw [h.pageSize_eq] at hfree ⊢
    exact decode_covers hone hbatch freePages hfree
  | free freeIndex =>
    -- A page is freed once, however many of its slots are given.
    rcases hstep with ⟨hmem, rfl⟩
    rw [h.pageSize_eq] at hmem ⊢
    refine free_ok h hmem fun page => ?_
    rw [freedPages, if_neg hone.ne', count_unique]
  | freeGroupBegin =>
    rcases hstep with ⟨hclosed, rfl⟩
    refine ⟨h.size_eq, h.pageSize_eq, h.released, fun page => ?_⟩
    simp only [pagesIn_freeGroupBegin s.alloc hclosed]
    exact h.balance page
  | freeGroupEnd =>
    rcases hstep with ⟨hopen, rfl⟩
    refine h.keep (freeGroupEnd_keeps s.alloc) fun page => ?_
    rw [pagesIn_freeGroupEnd s.alloc hopen (h.le_one page)]
    exact h.balance page
  | clear =>
    rw [show s' = _ from hstep]
    exact clear_ok h

end Invariant

section Conservation

/-- An allocation that needs `need` pages fails exactly when there are fewer,
    and then keeps the free pages. -/
def Complete (a : Allocator) (need : Nat) (result : Option (List Nat) × Allocator) : Prop :=
  (result.1 = none ↔ a.freePages.length + a.releasePages.length < need) ∧
  (result.1 = none → (result.2.freePages ++ result.2.releasePages).Perm
    (a.freePages ++ a.releasePages))

variable {size : Nat} {s : Pool}

theorem takePages_complete (h : PoolOk size pageSize s) {estimate n : Nat} (hest : n ≤ estimate)
    (outIndices : List Nat → List Nat) :
    Complete s.alloc n (s.alloc.takePages estimate n outIndices) :=
  ⟨takePages_none_iff h.released hest, takePages_none_perm⟩

/-- In every state that is reached, each page is free, waiting or handed out, once.
    An allocation fails only for want of pages. -/
theorem paged_conserved (size pageSize : Nat) (needSort : Bool) (hone : 1 < pageSize)
    {tr : List (Pool × PoolOp × Pool)} {s : Pool}
    (hr : Run PoolStep ⟨Allocator.init size pageSize needSort, ∅⟩ tr s) :
    (s.alloc.freePages ++ s.alloc.releasePages ++ s.alloc.pendingPages).Nodup ∧
    (∀ page ∈ s.alloc.freePages ++ s.alloc.releasePages ++ s.alloc.pendingPages, page ∉ s.handed) ∧
    (∀ page, page ∈ s.alloc.freePages ++ s.alloc.releasePages ++ s.alloc.pendingPages ∨
      page ∈ s.handed ↔ 0 < page ∧ page ≤ size / pageSize) ∧
    (∀ needSize, Complete s.alloc (needSize / pageSize) (s.alloc.pagedAlloc needSize)) ∧
    (∀ batch : List Extend, (∀ req ∈ batch, req.prefixLen ≤ req.seqLen) →
      Complete s.alloc (extendPages pageSize batch) (s.alloc.allocExtend batch
          (batch.map fun req => req.seqLen - req.prefixLen).sum)) ∧
    (∀ batch : List Decode, (∀ req ∈ batch, 0 < req.seqLen) →
      Complete s.alloc (extendPages pageSize (batch.map Decode.toExtend))
        (s.alloc.allocDecode batch)) := by
  have hok : PoolOk size pageSize s := hr.inv (poolOk_init size pageSize needSort)
    fun _ _ _ h hstep => poolOk_step hone h hstep
  -- Every page of the pool is counted once, in one of the lists or as handed out.
  have hcount : ∀ page, (s.alloc.freePages ++ s.alloc.releasePages ++
      s.alloc.pendingPages).count page + (if page ∈ s.handed then 1 else 0) =
      if 0 < page ∧ page ≤ size / pageSize then 1 else 0 := fun page => by
    rw [← hok.balance page, pagesIn, pendingPages, count_append, count_append]
    split_ifs <;> rfl
  generalize s.alloc.freePages ++ s.alloc.releasePages ++ s.alloc.pendingPages = pages at hcount ⊢
  refine ⟨nodup_iff_count_le_one.mpr fun page => ?_, fun page hpage hhanded => ?_,
    fun page => ?_, fun needSize => ?_, fun batch hle => ?_, fun batch hpos => ?_⟩
  · have := hcount page
    split_ifs at this <;> omega
  · have hpos := count_pos_iff.mpr hpage
    have htotal := hcount page
    split_ifs at htotal
    omega
  · have := hcount page
    rw [← count_pos_iff]
    by_cases hhanded : page ∈ s.handed
    · simp only [hhanded, or_true, true_iff]
      by_contra hout
      rw [if_neg hout, if_pos hhanded] at this
      omega
    · simp only [hhanded, or_false, if_false, Nat.add_zero] at this ⊢
      rw [this]
      split_ifs with hin
      · exact iff_of_true Nat.one_pos hin
      · exact iff_of_false (lt_irrefl 0) hin
  · unfold pagedAlloc
    rw [hok.pageSize_eq]
    exact takePages_complete hok le_rfl _
  · unfold allocExtend
    rw [hok.pageSize_eq]
    have := extendPages_le (Nat.one_pos.trans hone) batch hle
    exact takePages_complete hok (by omega) _
  · unfold allocDecode
    rw [hok.pageSize_eq, ← decodePages_eq hone.ne' (Nat.one_pos.trans hone) hpos]
    exact takePages_complete hok countP_le_length _

/-- One of two pages was given back and is in the release list, the other one
    was never taken. -/
theorem paged_conserved_released : let s : Pool := ⟨⟨4, 2, true, [2], [1], true, []⟩, ∅⟩
    Complete s.alloc 2 (s.alloc.pagedAlloc 4) := by
  intro s
  have hstart : PoolStep ⟨Allocator.init 4 2 true, ∅⟩ (.alloc 2)
      ⟨⟨4, 2, true, [2], [], true, []⟩, {1}⟩ := rfl
  have hfree : PoolStep ⟨⟨4, 2, true, [2], [], true, []⟩, {1}⟩ (.free [2, 3]) s := by
    refine ⟨by decide, ?_⟩
    simp [s, Allocator.free, unique, pagesOf]
  exact (paged_conserved 4 2 true (by decide) ((Run.nil.snoc _ hstart).snoc _ hfree)).2.2.2.1 4

end Conservation

section Layout

/-- A request whose last slot is where its prefix ends in a page. -/
structure Fits (pageSize : Nat) (req : Extend) : Prop where
  le : req.prefixLen ≤ req.seqLen
  last : -1 ≤ req.lastLoc
  mod : (req.lastLoc + 1) % pageSize = (req.prefixLen % pageSize : Nat)

/-- The slots of the tokens from `prefixLen` on, in pages that go on after
    `lastLoc` and then in the new pages. -/
def Layout (pageSize : Nat) (req : Extend) (out new : List Nat) : Prop :=
  new.length = numNewPages pageSize req.prefixLen req.seqLen ∧
  ∃ pages, Continues pageSize pages req.prefixLen req.lastLoc ∧
    out = (List.range (req.seqLen - req.prefixLen)).map fun i =>
      (pages ++ new).getD ((req.prefixLen + i) / pageSize) 0 * pageSize +
        (req.prefixLen + i) % pageSize

/-- An allocation from a free list of distinct pages that is long enough: each
    request has its own of the first pages, which are taken off the list. -/
def Lays (pageSize : Nat) (batch : List Extend) (free : List Nat)
    (result : Option (List Nat) × Allocator) : Prop :=
  free.Nodup → extendPages pageSize batch ≤ free.length →
  ∃ rows : List (List Nat × List Nat), result.1 = some (rows.flatMap Prod.fst) ∧
    result.2.freePages = free.drop (extendPages pageSize batch) ∧
    rows.flatMap Prod.snd = free.take (extendPages pageSize batch) ∧
    (rows.flatMap Prod.snd).Nodup ∧
    Forall₂ (fun req row => Layout pageSize req row.1 row.2) batch rows

theorem Fits.continues (hps : 0 < pageSize) {req : Extend} (h : Fits pageSize req) :
    ∃ pages, Continues pageSize pages req.prefixLen req.lastLoc := by
  rcases h with ⟨-, hlast, hmod⟩
  obtain ⟨next, hnext⟩ := Int.eq_ofNat_of_zero_le (show 0 ≤ req.lastLoc + 1 by omega)
  refine ⟨replicate _ (next / pageSize), length_replicate, fun hpos => ?_⟩
  have hlt : req.prefixLen / pageSize < pagesFor pageSize req.prefixLen := by
    refine Nat.div_lt_of_lt_mul (Nat.lt_of_le_of_ne ?_ fun heq => hpos ?_)
    · rw [Nat.mul_comm]
      exact le_pagesFor_mul hps _
    · rw [heq, Nat.mul_mod_right]
  rw [hnext, ← Int.natCast_emod, Int.natCast_inj] at hmod
  rw [hnext, getD_eq_getElem?_getD, getElem?_replicate_of_lt hlt, Option.getD_some, ← hmod,
    Nat.div_add_mod']

/-- The kernel lays one request out. -/
theorem allocExtendKernel_layout (hps : 0 < pageSize) {req : Extend} (h : Fits pageSize req)
    (freePages : List Nat) {start : Nat}
    (hstart : start + numNewPages pageSize req.prefixLen req.seqLen ≤ freePages.length) :
    Layout pageSize req (allocExtendKernel pageSize req freePages start)
      ((freePages.drop start).take (numNewPages pageSize req.prefixLen req.seqLen)) := by
  obtain ⟨pages, hpages⟩ := h.continues hps
  refine ⟨(allocExtendKernel_grant hps h.le freePages hstart).1, pages, hpages, ?_⟩
  have hle := le_pagesFor_mul hps req.prefixLen
  rw [← hpages.1] at hle
  have hall := allocExtendKernel_slots hps h.le freePages start hpages
  nth_rewrite 2 [← Nat.add_sub_cancel' h.le] at hall
  rw [slots_add, slots_append_left hle] at hall
  exact append_cancel_left hall

variable {batch : List Extend}

/-- The kernels lay out a batch, each request in its own pages. -/
theorem allocExtendOut_rows (hps : 0 < pageSize) (freePages : List Nat)
    (h : ∀ req ∈ batch, Fits pageSize req) (start : Nat)
    (hstart : start + extendPages pageSize batch ≤ freePages.length) :
    ∃ rows : List (List Nat × List Nat),
      allocExtendOut pageSize freePages start batch = rows.map Prod.fst ∧
      rows.flatMap Prod.snd =
        (freePages.drop start).take (extendPages pageSize batch) ∧
      Forall₂ (fun req row => Layout pageSize req row.1 row.2) batch rows := by
  induction batch generalizing start with
  | nil => exact ⟨[], rfl, rfl, .nil⟩
  | cons req batch ih =>
    rw [extendPages_cons] at hstart ⊢
    rcases ih (forall_mem_cons.mp h).2 _ (by rwa [Nat.add_assoc]) with ⟨rows, hout, hnew, hrows⟩
    refine ⟨(_, _) :: rows, congrArg (_ :: ·) hout, ?_,
      .cons (allocExtendKernel_layout hps (h req mem_cons_self) freePages (by omega)) hrows⟩
    rw [flatMap_cons, hnew, take_add, drop_drop]

theorem takePages_lays {estimate : Nat} {outIndices : List Nat → List Nat}
    (hps : 0 < pageSize) (h : ∀ req ∈ batch, Fits pageSize req) (hout : ∀ freePages,
      (allocExtendOut pageSize freePages 0 batch).flatten = outIndices freePages) :
    Lays pageSize batch (a.sortFor estimate).freePages
      (a.takePages estimate (extendPages pageSize batch) outIndices) := by
  intro hnodup hlong
  rcases allocExtendOut_rows hps _ h 0 (by rwa [Nat.zero_add]) with ⟨rows, hrow, hnew, hrows⟩
  rw [takePages, if_neg hlong.not_gt, ← hout, hrow]
  exact ⟨rows, rfl, rfl, hnew, hnew ▸ hnodup.sublist (take_sublist _ _), hrows⟩

/-- The slots that `alloc_extend` and, for pages of more than one slot,
    `alloc_decode` give to the requests of a batch. The kernels agree for any page size. -/
theorem paged_layout (a : Allocator) (hps : 0 < a.pageSize) :
    (∀ batch, (∀ req ∈ batch, Fits a.pageSize req) → ∀ extendNumTokens,
      extendNumTokens = (batch.map fun req => req.seqLen - req.prefixLen).sum →
      Lays a.pageSize batch
        (a.sortFor (extendNumTokens / a.pageSize + batch.length + 1)).freePages
        (a.allocExtend batch extendNumTokens)) ∧
    ∀ batch : List Decode, (∀ req ∈ batch, 0 < req.seqLen ∧ Fits a.pageSize req.toExtend) →
      (∀ freePages, (allocExtendOut a.pageSize freePages 0 (batch.map Decode.toExtend)).flatten =
        allocDecodeOut a.pageSize freePages 0 batch) ∧
      (1 < a.pageSize → Lays a.pageSize (batch.map Decode.toExtend)
        (a.sortFor batch.length).freePages (a.allocDecode batch)) := by
  refine ⟨fun batch h n _ => takePages_lays hps h fun _ => rfl, fun batch h => ?_⟩
  have hpos : ∀ req ∈ batch, 0 < req.seqLen := fun req hreq => (h req hreq).1
  have hsame : ∀ freePages,
      (allocExtendOut a.pageSize freePages 0 (batch.map Decode.toExtend)).flatten =
        allocDecodeOut a.pageSize freePages 0 batch := fun freePages => by
    rw [allocDecodeOut_eq hps freePages hpos, ← flatMap_def, flatMap_singleton']
  refine ⟨hsame, fun hone => ?_⟩
  rw [allocDecode, decodePages_eq hone.ne' hps hpos]
  exact takePages_lays hps (forall_mem_map.mpr fun req hreq => (h req hreq).2) hsame

/-- A request that goes on inside a page, and one that starts a page. -/
theorem paged_layout_two : Lays 4 [⟨3, 9, 6⟩, ⟨8, 9, 15⟩] [9, 5, 7]
    ((⟨64, 4, false, [9, 5, 7], [], true, []⟩ : Allocator).allocExtend
      [⟨3, 9, 6⟩, ⟨8, 9, 15⟩] 7) :=
  (paged_layout ⟨64, 4, false, [9, 5, 7], [], true, []⟩ (by decide)).1 _ (forall_mem_cons.mpr
    ⟨⟨by decide, by decide, by decide⟩, forall_mem_singleton.mpr
      ⟨by decide, by decide, by decide⟩⟩) 7 rfl

/-- With pages of one slot, `alloc_decode` counts no new page, and the page that
    it hands out stays free. -/
theorem allocDecode_counts_none : Fits 1 (Decode.toExtend ⟨1, -1⟩) ∧
    let result := (⟨8, 1, false, [5, 6], [], true, []⟩ : Allocator).allocDecode [⟨1, -1⟩]
    result.1 = some [5] ∧ result.2.freePages = [5, 6] ∧
      ¬ Lays 1 [Decode.toExtend ⟨1, -1⟩] [5, 6] result := by
  refine ⟨⟨by decide, by decide, by decide⟩, rfl, rfl, fun h => ?_⟩
  rcases h (by decide) (by decide) with ⟨_, _, hfree, _⟩
  cases hfree

end Layout

end SglangInc.Kv
