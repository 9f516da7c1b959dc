import SglangInc.Core.Serving

/-!
# What the Allocator Gives and Takes

The allocator as a set of pages. An allocation for a batch takes pages out of
it, and each request's list of slots goes on in its last page and then in its
own new pages. A free puts back the pages that are touched.

One description serves all allocations (`Granted`). With a page size of one the
slots are the pages. A decode step is an extension by one slot, for which the
two kernels agree (`allocDecodeKernel_eq`).

Pages are counted over the free list, the release list and, inside a free
group, the group. A free counts each page once however many of its slots are
given, so it is exact for lists of slots that have no page twice.

## Theorems

* `allocForExtend_granted`, `allocForDecode_granted`: The allocations.
-/

namespace SglangInc.Serving

open List Kv Slots Allocator

variable {pageSize : Nat} {pages more : List Nat} {n m : Nat}

theorem lastLoc_slots_succ (pages : List Nat) (n : Nat) : lastLoc (slots pageSize pages (n + 1)) =
      (pages.getD (n / pageSize) 0 * pageSize + n % pageSize : Nat) := by
  rw [slots_add]
  simp [lastLoc]

/-- What one request of a batch gets: slots that go on after the ones it has,
    in the last page and in the new pages. -/
def Grant (pageSize : Nat) (req : Extend) (out new : List Nat) : Prop :=
  new.length = numNewPages pageSize req.prefixLen req.seqLen ∧
  ∀ pages, pages.length = pagesFor pageSize req.prefixLen →
    req.lastLoc = lastLoc (slots pageSize pages req.prefixLen) →
    slots pageSize pages req.prefixLen ++ out = slots pageSize (pages ++ new) req.seqLen

/-- The slots go on after `loc`, where the prefix ends inside a page. -/
def Continues (pageSize : Nat) (pages : List Nat) (pre : Nat) (loc : Int) : Prop :=
  pages.length = pagesFor pageSize pre ∧ (pre % pageSize ≠ 0 →
    loc + 1 = (pages.getD (pre / pageSize) 0 * pageSize + pre % pageSize : Nat))

theorem continues_lastLoc (hps : 0 < pageSize) {pre : Nat}
    (hk : pages.length = pagesFor pageSize pre) :
    Continues pageSize pages pre (lastLoc (slots pageSize pages pre)) := by
  refine ⟨hk, fun hpos => ?_⟩
  obtain ⟨q, r, hr, rfl⟩ := exists_slot hps pre
  rw [(div_mod_slot q hr).2] at hpos ⊢
  obtain ⟨r, rfl⟩ := Nat.exists_eq_succ_of_ne_zero hpos
  rcases div_mod_slot q (Nat.lt_of_succ_lt hr) with ⟨hdiv, hmod⟩
  rw [(div_mod_slot q hr).1, Nat.succ_eq_add_one, ← Nat.add_assoc, lastLoc_slots_succ, hdiv, hmod]
  omega

/-- Part 1 fills the last page. -/
theorem slots_part1 (hps : 0 < pageSize) {pre k : Nat} {loc : Int}
    (h : Continues pageSize pages pre loc) (hle : pre + k ≤ pages.length * pageSize) :
    slots pageSize pages pre ++ (List.range k).map (fun offset : Nat =>
      (loc + 1 + offset).toNat) = slots pageSize pages (pre + k) := by
  rw [slots_add]
  congr 1
  refine map_congr_left fun i hi => ?_
  have hi := mem_range.mp hi
  obtain ⟨hk, hloc⟩ := h
  obtain ⟨q, r, hr, rfl⟩ := exists_slot hps pre
  rw [(div_mod_slot q hr).1, (div_mod_slot q hr).2] at hloc
  rw [hk, pagesFor_add hps] at hle
  -- There is room in the last page, so the prefix ends inside it.
  rcases Nat.eq_zero_or_pos r with rfl | hpos
  · rw [pagesFor_zero hps, Nat.add_zero, Nat.add_zero] at hle
    omega
  · rw [pagesFor_of_le hpos hr.le, Nat.succ_mul] at hle
    rcases div_mod_slot q (show r + i < pageSize by omega) with ⟨hdiv, hmod⟩
    rw [hloc hpos.ne', Nat.add_assoc, hdiv, hmod]
    omega

theorem getD_take_drop (freePages : List Nat) (start : Nat) {k i : Nat} (hi : i < k) :
    ((freePages.drop start).take k).getD i 0 = freePages.getD (start + i) 0 := by
  rw [getD_eq_getElem?_getD, getD_eq_getElem?_getD, getElem?_take_of_lt hi, getElem?_drop]

/-- The kernel of an extension gives the slots of the next free pages. -/
theorem allocExtendKernel_slots (hps : 0 < pageSize) {req : Extend}
    (hle : req.prefixLen ≤ req.seqLen) (freePages : List Nat) (start : Nat)
    (h : Continues pageSize pages req.prefixLen req.lastLoc) :
    slots pageSize pages req.prefixLen ++ allocExtendKernel pageSize req freePages start =
      slots pageSize (pages ++ (freePages.drop start).take
        (numNewPages pageSize req.prefixLen req.seqLen)) req.seqLen := by
  obtain ⟨pre, seq, loc⟩ := req
  have hk := h.1
  simp only at hk h ⊢
  have hpre := le_pagesFor_mul hps pre
  rw [← hk] at hpre
  simp only [allocExtendKernel, ← hk]
  by_cases hin : seq ≤ pages.length * pageSize
  · -- The last page has room for all.
    have hfill : min seq (pages.length * pageSize) - pre = seq - pre := by
      rw [Nat.min_eq_left hin]
    rw [hfill, if_pos (Nat.add_sub_cancel' hle), slots_part1 hps h (by omega),
      Nat.add_sub_cancel' hle, slots_append_left hin]
  have hfill : min seq (pages.length * pageSize) - pre = pages.length * pageSize - pre := by
    rw [Nat.min_eq_right (by omega)]
  obtain ⟨q, r, hr, rfl⟩ : ∃ q r, r < pageSize ∧ seq = (pages.length + q) * pageSize + r := by
    refine ⟨seq / pageSize - pages.length, seq % pageSize, Nat.mod_lt _ hps, ?_⟩
    have hq : pages.length ≤ seq / pageSize := (Nat.le_div_iff_mul_le hps).mpr (by omega)
    rw [Nat.add_sub_cancel' hq]
    exact (Nat.div_add_mod' seq pageSize).symm
  rcases div_mod_slot (pages.length + q) hr with ⟨hdiv, _⟩
  have hseq : (pages.length + q) * pageSize + r =
      pages.length * pageSize + (q * pageSize + r) := by
    rw [Nat.add_mul, Nat.add_assoc]
  have hnew : numNewPages pageSize pre ((pages.length + q) * pageSize + r) =
      q + pagesFor pageSize r := by
    rw [numNewPages, ← hk, pagesFor_add hps]
    omega
  have hfull : (pages.length + q) * pageSize - pages.length * pageSize = q * pageSize := by
    omega
  -- The second part, as slots of the new pages.
  have hpart2 : (List.range (q * pageSize)).map (fun offset =>
      freePages.getD (start + offset / pageSize) 0 * pageSize + offset % pageSize) =
      slots pageSize ((freePages.drop start).take (q + pagesFor pageSize r)) (q * pageSize) := by
    refine map_congr_left fun i hi => ?_
    have hlt : i / pageSize < q := Nat.div_lt_of_lt_mul (by
      rw [Nat.mul_comm]
      exact mem_range.mp hi)
    rw [getD_take_drop _ _ (by omega)]
  rw [hfill, Nat.add_sub_cancel' hpre, hdiv, hfull, hnew, hpart2, if_neg (by omega), hseq,
    slots_append hps]
  split_ifs with hend
  · have hzero : r = 0 := by omega
    rw [← append_assoc, slots_part1 hps h (by omega), Nat.add_sub_cancel' hpre, hzero, Nat.add_zero]
  have hpos : 0 < r := by omega
  have hone := pagesFor_of_le hpos hr.le
  have hrest : pages.length * pageSize + (q * pageSize + r) -
      (pages.length + q) * pageSize = r := by
    omega
  rw [← append_assoc, ← append_assoc, slots_part1 hps h (by omega),
    Nat.add_sub_cancel' hpre, append_assoc, slots_add _ (q * pageSize) r, hrest]
  congr 2
  refine map_congr_left fun i hi => ?_
  rcases div_mod_slot q ((mem_range.mp hi).trans hr) with ⟨hdivi, hmodi⟩
  rw [hdivi, hmodi, getD_take_drop _ _ (by omega), hone]
  rfl

theorem allocExtendKernel_grant (hps : 0 < pageSize) {req : Extend}
    (hle : req.prefixLen ≤ req.seqLen) (freePages : List Nat) {start : Nat}
    (hstart : start + numNewPages pageSize req.prefixLen req.seqLen ≤ freePages.length) :
    Grant pageSize req (allocExtendKernel pageSize req freePages start)
      ((freePages.drop start).take (numNewPages pageSize req.prefixLen req.seqLen)) :=
  ⟨length_take_of_le (by rw [List.length_drop]; omega), fun _ hk hloc =>
    allocExtendKernel_slots hps hle freePages start (hloc ▸ continues_lastLoc hps hk)⟩

/-- The pages of one more slot. -/
theorem numNewPages_succ (hps : 0 < pageSize) (n : Nat) :
    numNewPages pageSize n (n + 1) = if n % pageSize = 0 then 1 else 0 := by
  obtain ⟨q, r, hr, rfl⟩ := exists_slot hps n
  rw [numNewPages, Nat.add_assoc, pagesFor_add hps, pagesFor_add hps, (div_mod_slot q hr).2,
    pagesFor_of_le (Nat.succ_pos r) hr]
  rcases Nat.eq_zero_or_pos r with rfl | hpos
  · rw [pagesFor_zero hps, if_pos rfl]
    omega
  · rw [pagesFor_of_le hpos hr.le, if_neg hpos.ne']
    omega

/-- `get_num_new_pages` looks only at the length to see that a decode step
    starts a page. -/
theorem succ_mod_eq_one_iff (hone : pageSize ≠ 1) (hps : 0 < pageSize) (n : Nat) :
    (n + 1) % pageSize = 1 ↔ n % pageSize = 0 := by
  rw [Nat.add_mod, Nat.mod_eq_of_lt (show 1 < pageSize by omega)]
  have hlt := Nat.mod_lt n hps
  by_cases hlast : n % pageSize + 1 = pageSize
  · rw [hlast, Nat.mod_self]
    omega
  · rw [Nat.mod_eq_of_lt (by omega)]
    omega

theorem decode_new_page (hone : pageSize ≠ 1) (hps : 0 < pageSize) (n : Nat) :
    (if (n + 1) % pageSize == 1 then 1 else 0) = numNewPages pageSize n (n + 1) := by
  simp [numNewPages_succ hps, succ_mod_eq_one_iff hone hps]

/-- The kernel of a decode step is the kernel of an extension by one slot. -/
theorem allocDecodeKernel_eq (hps : 0 < pageSize) (n : Nat) (loc : Int) (freePages : List Nat)
    (start : Nat) : allocExtendKernel pageSize ⟨n, n + 1, loc⟩ freePages start =
      [allocDecodeKernel pageSize ⟨n + 1, loc⟩ freePages start] := by
  obtain ⟨q, r, hr, rfl⟩ := exists_slot hps n
  have hnew := numNewPages_succ hps (q * pageSize + r)
  rw [(div_mod_slot q hr).2] at hnew
  simp only [allocExtendKernel, allocDecodeKernel, Nat.add_sub_cancel, hnew, pagesFor_add hps]
  rcases Nat.eq_zero_or_pos r with rfl | hpos
  · -- A new page is started, with its first slot.
    have hmin : min (q * pageSize + 1) (q * pageSize) - q * pageSize = 0 := by omega
    simp only [pagesFor_zero hps, Nat.add_zero, hmin, range_zero, map_nil, nil_append, if_true]
    by_cases hone : pageSize = 1
    · subst hone
      simp
    · rcases div_mod_slot q (show 1 < pageSize by omega) with ⟨hdiv, _⟩
      rw [hdiv, if_neg (by omega), Nat.sub_self, Nat.add_sub_cancel_left]
      simp
  · have hfill : min (q * pageSize + r + 1) ((q + 1) * pageSize) - (q * pageSize + r) = 1 := by
      rw [Nat.succ_mul]
      omega
    rw [pagesFor_of_le hpos hr.le, hfill, if_pos rfl, if_neg hpos.ne', if_pos rfl]
    simp

section Batches

/-- What the requests of a batch get: the pages are those of the first
    request, then those of the others. -/
inductive Granted (pageSize : Nat) : List Extend → List (List Nat) → List Nat → Prop
  | nil : Granted pageSize [] [] []
  | cons {req : Extend} {out new : List Nat} {batch : List Extend} {outs : List (List Nat)}
      {pages : List Nat} : Grant pageSize req out new → Granted pageSize batch outs pages →
      Granted pageSize (req :: batch) (out :: outs) (new ++ pages)

theorem extendPages_cons (pageSize : Nat) (req : Extend) (batch : List Extend) :
    extendPages pageSize (req :: batch) =
      numNewPages pageSize req.prefixLen req.seqLen + extendPages pageSize batch :=
  sum_cons

theorem allocExtendOut_granted (hps : 0 < pageSize) (freePages : List Nat) (batch : List Extend)
    (hle : ∀ req ∈ batch, req.prefixLen ≤ req.seqLen) (start : Nat)
    (hstart : start + extendPages pageSize batch ≤ freePages.length) :
    Granted pageSize batch (allocExtendOut pageSize freePages start batch)
      ((freePages.drop start).take (extendPages pageSize batch)) := by
  induction batch generalizing start with
  | nil => exact .nil
  | cons req batch ih =>
    rw [extendPages_cons] at hstart ⊢
    rw [take_add, drop_drop]
    exact .cons (allocExtendKernel_grant hps (hle req mem_cons_self) freePages (by omega))
      (ih (forall_mem_cons.mp hle).2 _ (by omega))

variable {batch : List Decode}

theorem allocDecodeOut_eq (hps : 0 < pageSize) (freePages : List Nat)
    (hpos : ∀ req ∈ batch, 0 < req.seqLen) (start : Nat) :
    allocExtendOut pageSize freePages start (batch.map Decode.toExtend) =
      (allocDecodeOut pageSize freePages start batch).map (fun loc => [loc]) := by
  induction batch generalizing start with
  | nil => rfl
  | cons req batch ih =>
    have hkernel := allocDecodeKernel_eq hps (req.seqLen - 1) req.lastLoc freePages start
    rw [Nat.sub_add_cancel (hpos req mem_cons_self)] at hkernel
    simp only [map_cons, allocExtendOut, allocDecodeOut, Decode.toExtend, hkernel]
    rw [ih (forall_mem_cons.mp hpos).2]

/-- The count of `alloc_decode` is that of the same extension. -/
theorem decodePages_eq (hone : pageSize ≠ 1) (hps : 0 < pageSize)
    (hpos : ∀ req ∈ batch, 0 < req.seqLen) : decodePages pageSize batch =
      extendPages pageSize (batch.map Decode.toExtend) := by
  induction batch with
  | nil => rfl
  | cons req batch ih =>
    have hreq := decode_new_page hone hps (req.seqLen - 1)
    rw [Nat.sub_add_cancel (hpos req mem_cons_self)] at hreq
    have hrest := ih (forall_mem_cons.mp hpos).2
    unfold decodePages at hrest ⊢
    rw [countP_cons, hreq, hrest, map_cons, extendPages_cons, Nat.add_comm]
    rfl

/-- With a page size of one, the slots are the pages. -/
theorem slots_one (h : n ≤ pages.length) : slots 1 pages n = pages.take n := by
  refine ext_getElem (by rw [length_slots, length_take_of_le h]) fun i h1 h2 => ?_
  rw [length_slots] at h1
  rw [getElem_slots, Nat.div_one, Nat.mod_one, Nat.mul_one, Nat.add_zero, getD_eq_getElem?_getD,
    getElem?_eq_getElem (by omega), Option.getD_some, getElem_take]

theorem pagesFor_one (n : Nat) : pagesFor 1 n = n := by
  rw [pagesFor, Nat.div_one, Nat.add_sub_cancel]

theorem grant_one {req : Extend} (hle : req.prefixLen ≤ req.seqLen) {new : List Nat}
    (hlen : new.length = req.seqLen - req.prefixLen) : Grant 1 req new new := by
  refine ⟨by rw [hlen, numNewPages, pagesFor_one, pagesFor_one], fun pages hk _ => ?_⟩
  rw [pagesFor_one] at hk
  have hall : (pages ++ new).length = req.seqLen := by
    rw [length_append]
    omega
  rw [slots_one (by omega), slots_one (by omega), take_of_length_le (by omega),
    take_of_length_le (by omega)]

theorem cut_granted (batch : List Extend) (hle : ∀ req ∈ batch, req.prefixLen ≤ req.seqLen)
    (out : List Nat) (hlen : out.length = (batch.map fun req => req.seqLen - req.prefixLen).sum) :
    Granted 1 batch (cut (batch.map fun req => req.seqLen - req.prefixLen) out) out := by
  induction batch generalizing out with
  | nil =>
    rw [eq_nil_of_length_eq_zero hlen]
    exact .nil
  | cons req batch ih =>
    rw [map_cons, sum_cons] at hlen
    have hreq := hle req mem_cons_self
    have hrest := ih (forall_mem_cons.mp hle).2
      (out.drop (req.seqLen - req.prefixLen)) (by rw [List.length_drop]; omega)
    have htake : (out.take (req.seqLen - req.prefixLen)).length = req.seqLen - req.prefixLen :=
      length_take_of_le (by omega)
    have := Granted.cons (grant_one hreq htake) hrest
    rwa [take_append_drop] at this

end Batches

section Pages

/-- The pages that a free takes a list of slots for. -/
def freedPages (pageSize : Nat) (freeIndex : List Nat) : List Nat :=
  if pageSize = 1 then freeIndex else unique (freeIndex.map (· / pageSize))

/-- How often the allocator has a page. -/
def pagesIn (a : Allocator) (page : Nat) : Nat :=
  a.freePages.count page + a.releasePages.count page +
    if a.isNotInFreeGroup then 0 else (a.freeGroup.flatMap (freedPages a.pageSize)).count page

/-- The pages of a new allocator. -/
theorem count_range'_one (numPages page : Nat) : (List.range' 1 numPages).count page =
    if 0 < page ∧ page ≤ numPages then 1 else 0 := by
  split_ifs with hin
  · refine count_eq_one_of_mem nodup_range' (mem_range'_1.mpr ?_)
    omega
  · refine List.count_eq_zero.mpr fun hmem => hin ?_
    have := mem_range'_1.mp hmem
    omega

/-- Pages are released only to be sorted. -/
def Released (a : Allocator) : Prop := a.needSort = false → a.releasePages = []

/-- What the operations of the allocator keep. -/
structure Keeps (a a' : Allocator) : Prop where
  size : a'.size = a.size
  pageSize : a'.pageSize = a.pageSize
  released : Released a → Released a'

theorem Keeps.trans {a a₁ a₂ : Allocator} (h : Keeps a a₁) (h' : Keeps a₁ a₂) : Keeps a a₂ :=
  ⟨h'.size.trans h.size, h'.pageSize.trans h.pageSize, h'.released ∘ h.released⟩

theorem sortFor_keeps (a : Allocator) (needed : Nat) : Keeps a (a.sortFor needed) ∧
    (a.sortFor needed).isNotInFreeGroup = a.isNotInFreeGroup ∧
    ∀ page, pagesIn (a.sortFor needed) page = pagesIn a page := by
  unfold sortFor mergeAndSortFree
  split_ifs
  · refine ⟨⟨rfl, rfl, fun _ _ => rfl⟩, rfl, fun page => ?_⟩
    have hperm := mergeSort_perm (a.freePages ++ a.releasePages) (fun x y => decide (x ≤ y))
    simp [pagesIn, hperm.count_eq]
  all_goals exact ⟨⟨rfl, rfl, id⟩, rfl, fun _ => rfl⟩

/-- Pages taken from the front of the free list. -/
theorem pagesIn_drop (a : Allocator) (k page : Nat) :
    pagesIn a page = pagesIn { a with freePages := a.freePages.drop k } page +
      (a.freePages.take k).count page := by
  have hcount : a.freePages.count page =
      (a.freePages.take k).count page + (a.freePages.drop k).count page := by
    rw [← count_append, take_append_drop]
  simp only [pagesIn, hcount]
  omega

/-- An allocation of some pages, which are those that the allocator has no
    longer. -/
structure Took (a : Allocator) (pages : List Nat) (a' : Allocator) : Prop extends Keeps a a' where
  inGroup : a'.isNotInFreeGroup = a.isNotInFreeGroup
  count : ∀ page, pagesIn a page = pagesIn a' page + pages.count page

variable {β : Type} {a a' : Allocator} {out : List Nat → β} {x : β} {k : Nat}

theorem taken_eq_some {result : Option β × Allocator} :
    taken result = some (x, a') ↔ result = (some x, a') := by
  rcases result with ⟨_ | y, b⟩ <;> simp [taken]

theorem took_drop (a : Allocator) (needed k : Nat) : Took a ((a.sortFor needed).freePages.take k)
      { a.sortFor needed with freePages := (a.sortFor needed).freePages.drop k } := by
  rcases sortFor_keeps a needed with ⟨hkeeps, hgroup, hcount⟩
  exact ⟨⟨hkeeps.size, hkeeps.pageSize, hkeeps.released⟩, hgroup,
    fun page => by rw [← hcount, pagesIn_drop]⟩

/-- An allocation that succeeds takes its pages from the front of the free list. -/
theorem takePages_took (h : taken (a.takePages m k out) = some (x, a')) :
    k ≤ (a.sortFor m).freePages.length ∧ x = out (a.sortFor m).freePages ∧
      Took a ((a.sortFor m).freePages.take k) a' := by
  rw [taken_eq_some, takePages] at h
  split_ifs at h with hshort
  · cases h
  · cases h
    exact ⟨not_lt.mp hshort, rfl, took_drop a _ _⟩

theorem alloc_took {out : List Nat} (h : a.alloc n = some (out, a')) :
    out.length = n ∧ Took a out a' := by
  rcases takePages_took h with ⟨hlong, rfl, htook⟩
  exact ⟨length_take_of_le hlong, htook⟩

/-- The kernel of an extension writes one slot for each new token. -/
theorem length_allocExtendKernel (hps : 0 < pageSize) {req : Extend}
    (hle : req.prefixLen ≤ req.seqLen) (freePages : List Nat) (start : Nat) :
    (allocExtendKernel pageSize req freePages start).length = req.seqLen - req.prefixLen := by
  have hpre := le_pagesFor_mul hps req.prefixLen
  have hseq := Nat.div_mul_le_self req.seqLen pageSize
  unfold allocExtendKernel
  simp only
  split_ifs with hin hfull
  · rw [length_map, length_range]
    omega
  · rw [length_append, length_map, length_map, length_range, length_range]
    omega
  · -- The new tokens go beyond the last page, so it is filled.
    have hout : pagesFor pageSize req.prefixLen ≤ req.seqLen / pageSize :=
      (Nat.le_div_iff_mul_le hps).mpr (by omega)
    have := Nat.mul_le_mul_right pageSize hout
    simp only [length_append, length_map, length_range]
    omega

theorem cut_flatten (rows : List (List Nat)) : cut (rows.map length) rows.flatten = rows := by
  induction rows with
  | nil => rfl
  | cons row rows ih => rw [map_cons, flatten_cons, cut, take_left, drop_left, ih]

theorem cut_allocExtendOut (hps : 0 < pageSize) (freePages : List Nat) {batch : List Extend}
    (hle : ∀ req ∈ batch, req.prefixLen ≤ req.seqLen) (start : Nat) :
    cut (batch.map fun req => req.seqLen - req.prefixLen)
      (allocExtendOut pageSize freePages start batch).flatten =
        allocExtendOut pageSize freePages start batch := by
  refine Eq.trans (congrArg (cut · _) ?_) (cut_flatten _)
  induction batch generalizing start with
  | nil => rfl
  | cons req batch ih =>
    rw [map_cons, allocExtendOut, map_cons, ih (forall_mem_cons.mp hle).2,
      length_allocExtendKernel hps (hle req mem_cons_self)]

/-- What `alloc_for_extend` asks for. -/
def extendBatch (batch : List Req) : List Extend :=
  batch.map fun req => ⟨req.prefixIndices.length, req.fillIds.length, lastLoc req.prefixIndices⟩

/-- A prefill gives each request the slots of its new tokens. -/
theorem allocForExtend_granted (hps : 0 < a.pageSize) {batch : List Req}
    (hle : ∀ req ∈ batch, req.prefixIndices.length ≤ req.fillIds.length)
    {outs : List (List Nat)} (h : allocForExtend a batch = some (outs, a')) :
    ∃ pages, Granted a.pageSize (extendBatch batch) outs pages ∧ Took a pages a' := by
  have hbatch : ∀ req ∈ extendBatch batch, req.prefixLen ≤ req.seqLen := forall_mem_map.mpr hle
  have hlens : (extendBatch batch).map (fun req => req.seqLen - req.prefixLen) =
      batch.map (fun req => req.fillIds.length - req.prefixIndices.length) := by
    rw [extendBatch, map_map]
    rfl
  rcases Option.map_eq_some_iff.mp h with ⟨⟨out, a1⟩, halloc, ⟨rfl, rfl⟩⟩
  rw [← hlens] at halloc ⊢
  split_ifs at halloc with hone
  · rcases alloc_took halloc with ⟨hlen, htook⟩
    exact ⟨_, hone ▸ cut_granted _ hbatch _ hlen, htook⟩
  · rcases takePages_took halloc with ⟨hlong, rfl, htook⟩
    refine ⟨_, ?_, htook⟩
    change Granted _ _ (cut _ (allocExtendOut _ _ 0 (extendBatch batch)).flatten) _
    rw [cut_allocExtendOut hps _ hbatch]
    exact allocExtendOut_granted hps _ (extendBatch batch) hbatch 0 (by rwa [Nat.zero_add])

/-- What `alloc_for_decode` asks for. -/
def decodeBatch (batch : List Req) : List Extend :=
  batch.map fun req => ⟨req.kvCommittedLen, req.kvCommittedLen + 1, lastLoc req.reqToToken⟩

theorem cut_ones (l : List Nat) : cut (List.replicate l.length 1) l = l.map fun loc => [loc] := by
  induction l with
  | nil => rfl
  | cons x l ih =>
    rw [length_cons, replicate_succ, cut, drop_succ_cons, drop_zero, ih]
    rfl

/-- A decode step gives each request one slot. -/
theorem allocForDecode_granted (hps : 0 < a.pageSize) {batch : List Req}
    {outs : List Nat} (h : allocForDecode a batch = some (outs, a')) :
    ∃ pages, Granted a.pageSize (decodeBatch batch) (outs.map fun loc => [loc]) pages ∧
      Took a pages a' := by
  have hbatch : ∀ req ∈ decodeBatch batch, req.prefixLen ≤ req.seqLen :=
    forall_mem_map.mpr fun _ _ => Nat.le_succ _
  unfold allocForDecode at h
  split_ifs at h with hone
  · rcases alloc_took h with ⟨hlen, htook⟩
    refine ⟨_, ?_, htook⟩
    rw [hone]
    have hlens : (decodeBatch batch).map (fun req => req.seqLen - req.prefixLen) =
        List.replicate batch.length 1 := by
      rw [decodeBatch, map_map, ← map_const']
      refine map_congr_left fun r _ => ?_
      exact Nat.add_sub_cancel_left r.kvCommittedLen 1
    have hgranted := cut_granted (decodeBatch batch) hbatch outs (by
      rw [hlens, hlen, sum_replicate_nat, Nat.mul_one])
    rwa [hlens, ← hlen, cut_ones] at hgranted
  -- With pages a decode step is an extension by one token.
  rcases takePages_took h with ⟨hlong, rfl, htook⟩
  refine ⟨_, ?_, htook⟩
  have hpos : ∀ req ∈ batch.map fun req =>
      (⟨req.kvCommittedLen + 1, lastLoc req.reqToToken⟩ : Decode), 0 < req.seqLen :=
    forall_mem_map.mpr fun _ _ => Nat.succ_pos _
  have hmap : (batch.map fun req => (⟨req.kvCommittedLen + 1, lastLoc req.reqToToken⟩ :
      Decode)).map Decode.toExtend = decodeBatch batch := map_map
  rw [decodePages_eq hone hps hpos, hmap] at hlong ⊢
  rw [← allocDecodeOut_eq hps _ hpos, hmap]
  exact allocExtendOut_granted hps _ (decodeBatch batch) hbatch 0 (by rwa [Nat.zero_add])

end Pages

section Free

variable {page : Nat} {freeIndex : List Nat}

theorem count_freedPages (hps : 0 < pageSize) (h : Paged pageSize freeIndex)
    (hone : heads pageSize page freeIndex ≤ 1) :
    (freedPages pageSize freeIndex).count page = heads pageSize page freeIndex := by
  unfold freedPages
  split_ifs with h1
  · rw [heads, h1, Nat.mul_one]
  rw [count_unique]
  have hmem := h.mem_pages_iff hps page
  split_ifs with hin
  · have := hmem.mp hin
    omega
  · have : ¬ 0 < heads pageSize page freeIndex := fun hpos => hin (hmem.mpr hpos)
    omega

variable (a : Allocator)

theorem free_keeps (freeIndex : List Nat) : Keeps a (a.free freeIndex) := by
  unfold Allocator.free
  split_ifs with _ _ _ hsort hsort
  any_goals exact ⟨rfl, rfl, id⟩
  -- A free releases pages only where it may sort.
  all_goals exact ⟨rfl, rfl, fun _ hneed => absurd (hneed.symm.trans hsort) Bool.false_ne_true⟩

theorem free_group (freeIndex : List Nat) :
    (a.free freeIndex).isNotInFreeGroup = a.isNotInFreeGroup := by
  unfold Allocator.free
  split_ifs <;> rfl

theorem freeGroupEnd_keeps : Keeps a a.freeGroupEnd := by
  unfold freeGroupEnd
  simp only
  split_ifs
  · have h := free_keeps { a with isNotInFreeGroup := true } a.freeGroup.flatten
    exact ⟨h.size, h.pageSize, h.released⟩
  · exact ⟨rfl, rfl, id⟩

/-- Where the pages of a free go. -/
theorem pagesIn_free_eq (freeIndex : List Nat) (page : Nat) :
    pagesIn (a.free freeIndex) page =
      pagesIn a page + (freedPages a.pageSize freeIndex).count page := by
  unfold Allocator.free
  split_ifs with hempty hgroup hone hsort hsort
  · have hnil := eq_nil_of_length_eq_zero hempty
    rw [hnil]
    simp [freedPages, unique]
  iterate 4
    · simp only [pagesIn, freedPages, hgroup, hone, if_true, if_false, count_append]
      omega
  · simp only [pagesIn, hgroup, if_false, flatMap_append, count_append,
      flatMap_singleton, Bool.false_eq_true]
    omega

/-- A free of slots adds their pages, when no page is among them twice. -/
theorem pagesIn_free (hps : 0 < a.pageSize) (h : Paged a.pageSize freeIndex)
    (hone : heads a.pageSize page freeIndex ≤ 1) :
    pagesIn (a.free freeIndex) page = pagesIn a page + heads a.pageSize page freeIndex := by
  rw [pagesIn_free_eq, count_freedPages hps h hone]

theorem pagesIn_freeGroupBegin (h : a.isNotInFreeGroup = true) (page : Nat) :
    pagesIn a.freeGroupBegin page = pagesIn a page := by
  simp [pagesIn, freeGroupBegin, h]

/-- At the end of a group its slots are freed at once, and a page that the
    group has once is put back once. -/
theorem pagesIn_freeGroupEnd (h : a.isNotInFreeGroup = false)
    (hone : pagesIn a page ≤ 1) : pagesIn a.freeGroupEnd page = pagesIn a page := by
  have hgroup : pagesIn { a with isNotInFreeGroup := true } page +
      (a.freeGroup.flatMap (freedPages a.pageSize)).count page = pagesIn a page := by
    simp [pagesIn, h]
  have hflat : (freedPages a.pageSize a.freeGroup.flatten).count page =
      (a.freeGroup.flatMap (freedPages a.pageSize)).count page := by
    unfold freedPages at hgroup ⊢
    split_ifs with h1
    · simp
    simp only [if_neg h1] at hgroup ⊢
    -- A page in two lists of the group would be counted twice.
    have hmem : page ∈ a.freeGroup.flatten.map (· / a.pageSize) ↔
        page ∈ a.freeGroup.flatMap (fun l => unique (l.map (· / a.pageSize))) := by
      simp only [unique, mem_map, mem_flatten, mem_flatMap, mem_mergeSort, mem_dedup]
      constructor
      · rintro ⟨i, ⟨l, hl, hi⟩, rfl⟩
        exact ⟨l, hl, i, hi, rfl⟩
      · rintro ⟨l, hl, i, hi, rfl⟩
        exact ⟨i, ⟨l, hl, hi⟩, rfl⟩
    rw [count_unique]
    split_ifs with hin
    · have := count_pos_iff.mpr (hmem.mp hin)
      omega
    · exact (List.count_eq_zero.mpr fun hc => hin (hmem.mpr hc)).symm
  unfold freeGroupEnd
  simp only
  split_ifs with hne
  · rw [pagesIn_free_eq]
    rw [← hgroup, ← hflat]
  · have hnil : a.freeGroup = [] := by simpa using hne
    rw [← hgroup, hnil]
    rfl

end Free

end SglangInc.Serving
