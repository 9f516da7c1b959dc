import SglangInc.Core.SwaAllocator
import SglangInc.Theory.Allocator.Paged
import Mathlib.Order.Interval.Finset.Nat

/-!
# The Table of the Sliding Window Allocator

In every state reached, the table from full slots to sliding window slots links
some of the allocated full slots, one to one, with all the allocated sliding
window slots. So a slot is never given back twice, and both available sizes can
be read off the allocated indices.

Each inner allocator keeps its own slots, which is the invariant of the paged
allocator for a page size of one. The table connects the two. It is written
where slots are allocated, for full slots that had no entry, and every free
erases the entries that it has read. An index that waits in a free group keeps
its full slot but may lose its entry, and then nothing is read for it at the end
of the group.

## Theorems

* `token_alloc`, `token_free`: The allocator of single slots.
* `swa_mapping_linked`: The table in every state reached.
-/

namespace SglangInc.Kv

open List Slots Serving IndexMap SwaPool

section Tokens

variable {size pageSize : Nat} {a a' : Allocator} {handed : Finset Nat}

/-- The available size and the pages handed out. -/
theorem PoolOk.length_add_card {s : Pool} (h : PoolOk size pageSize s)
    (hclosed : s.alloc.isNotInFreeGroup = true) :
    s.alloc.freePages.length + s.alloc.releasePages.length + s.handed.card = size / pageSize := by
  obtain ⟨free, hfree⟩ : ∃ free, s.alloc.freePages ++ s.alloc.releasePages = free := ⟨_, rfl⟩
  have hcount : ∀ page, free.count page + (if page ∈ s.handed then 1 else 0) =
      if 0 < page ∧ page ≤ size / pageSize then 1 else 0 := fun page => by
    have := h.balance page
    rwa [pagesIn, if_pos hclosed, Nat.add_zero, ← count_append, hfree] at this
  have hnodup : free.Nodup := nodup_iff_count_le_one.mpr fun page => by
    have := hcount page
    split_ifs at this <;> omega
  have hdisjoint : Disjoint free.toFinset s.handed := by
    refine Finset.disjoint_left.mpr fun page hin hhanded => ?_
    have hpos := count_pos_iff.mpr (mem_toFinset.mp hin)
    have := hcount page
    split_ifs at this
    omega
  have hunion : free.toFinset ∪ s.handed = Finset.Icc 1 (size / pageSize) := by
    ext page
    have := hcount page
    rw [Finset.mem_union, mem_toFinset, Finset.mem_Icc, ← count_pos_iff]
    split_ifs at this with hhanded hin hin
    · exact iff_of_true (.inr hhanded) hin
    · exact iff_of_true (.inl (by omega)) hin
    · exact iff_of_false (fun hor => hor.elim (by omega) hhanded) hin
  rw [← length_append, hfree, ← toFinset_card_of_nodup hnodup,
    ← Finset.card_union_of_disjoint hdisjoint, hunion, Nat.card_Icc, Nat.add_sub_cancel]

theorem availableSize_add_card (h : PoolOk size 1 ⟨a, handed⟩)
    (hclosed : a.isNotInFreeGroup = true) : a.availableSize + handed.card = size := by
  have hcard := h.length_add_card hclosed
  have hps : a.pageSize = 1 := h.pageSize_eq
  rw [Nat.div_one] at hcard
  rwa [Allocator.availableSize, hps, Nat.mul_one]

theorem mem_pagesOf_one {l : List Nat} {i : Nat} : i ∈ pagesOf 1 l ↔ i ∈ l := by
  simp [mem_pagesOf]

theorem pagesOf_one (l : List Nat) : pagesOf 1 l = l.toFinset := by
  ext i
  rw [mem_pagesOf_one, mem_toFinset]

variable (h : PoolOk size 1 ⟨a, handed⟩)
include h

/-- What an allocation returns was not handed out, and is now. -/
theorem token_alloc {n : Nat} {out : List Nat} (halloc : a.alloc n = some (out, a')) :
    PoolOk size 1 ⟨a', handed ∪ out.toFinset⟩ ∧ a'.isNotInFreeGroup = a.isNotInFreeGroup ∧
    out.length = n ∧ out.Nodup ∧ ∀ i ∈ out, i ∉ handed ∧ i ≠ 0 := by
  have hok : PoolOk size 1 (Pool.after ⟨a, handed⟩ (a.takePages n n (·.take n))) :=
    takePages_ok h fun freePages _ => ⟨fun page hpage => mem_pagesOf_one.mpr hpage,
      fun page hpage => .inr (mem_pagesOf_one.mp hpage)⟩
  have hps : a.pageSize = 1 := h.pageSize_eq
  simp only [taken_eq_some.mp halloc, Pool.after, hps, pagesOf_one] at hok
  rcases alloc_took halloc with ⟨hlen, htook⟩
  -- The allocator had each slot at most once.
  have hbalance : ∀ i, pagesIn a i + (if i ∈ handed then 1 else 0) =
      if 0 < i ∧ i ≤ size / 1 then 1 else 0 := h.balance
  refine ⟨hok, htook.inGroup, hlen, ?_, ?_⟩
  · refine nodup_iff_count_le_one.mpr fun i => ?_
    have hcount := htook.count i
    have hone : pagesIn a i ≤ 1 := h.le_one i
    omega
  · intro i hi
    have hcount := htook.count i
    have hpos := count_pos_iff.mpr hi
    have := hbalance i
    by_cases hin : i ∈ handed
    · split_ifs at this
      omega
    · refine ⟨hin, fun hzero => ?_⟩
      rw [if_neg (show ¬ (0 < i ∧ _) from fun hc => absurd hc.1 (by omega))] at this
      omega

theorem token_free {indices : List Nat}
    (hnodup : indices.Nodup) (hmem : ∀ i ∈ indices, i ∈ handed) :
    PoolOk size 1 ⟨a.free indices, handed \ indices.toFinset⟩ := by
  rw [← pagesOf_one]
  refine free_ok h (fun i hi => ?_) fun i => ?_
  · rw [Nat.div_one]
    exact hmem i hi
  · simp only [freedPages, if_true, Nat.div_one, map_id']
    exact hnodup.count

end Tokens

/-- Both allocators keep their slots, and the table links them. -/
structure SwaOk (size sizeSwa : Nat) (s : SwaPool) : Prop where
  fullOk : PoolOk size 1 ⟨s.alloc.fullAttnAllocator, s.full⟩
  swaOk : PoolOk sizeSwa 1 ⟨s.alloc.swaAttnAllocator, s.swa⟩
  fullClosed : s.alloc.fullAttnAllocator.isNotInFreeGroup = true
  swaClosed : s.alloc.swaAttnAllocator.isNotInFreeGroup = true
  links : Links s.alloc.fullToSwaIndexMapping s.full s.swa
  pending : s.Held s.pending

variable {size sizeSwa : Nat} {s s' : SwaPool}

theorem swaOk_init (size sizeSwa : Nat) (needSort : Bool) :
    SwaOk size sizeSwa (SwaPool.init size sizeSwa needSort) where
  fullOk := poolOk_init size 1 needSort
  swaOk := poolOk_init sizeSwa 1 needSort
  fullClosed := rfl
  swaClosed := rfl
  links := Links.empty
  pending := ⟨nodup_nil, forall_mem_nil _⟩

section

variable (h : SwaOk size sizeSwa s)
include h

theorem SwaOk.fullAvailable : s.alloc.fullAvailableSize + s.full.card = size :=
  availableSize_add_card h.fullOk h.fullClosed

theorem SwaOk.swaAvailable : s.alloc.swaAvailableSize + s.swa.card = sizeSwa :=
  availableSize_add_card h.swaOk h.swaClosed

/-- The two assertions of `free`. -/
theorem SwaOk.asserts : s.alloc.fullAvailableSize ≤ s.alloc.fullAttnAllocator.size ∧
    s.alloc.swaAvailableSize ≤ s.alloc.swaAttnAllocator.size := by
  have hfull : s.alloc.fullAttnAllocator.size = size := h.fullOk.size_eq
  have hswa : s.alloc.swaAttnAllocator.size = sizeSwa := h.swaOk.size_eq
  have := h.fullAvailable
  have := h.swaAvailable
  omega

/-- An allocation links new slots of the two pools. -/
theorem swa_alloc_ok (n : Nat) : SwaOk size sizeSwa (s.afterAlloc n) := by
  unfold afterAlloc
  rcases halloc : s.alloc.alloc n with _ | ⟨out, a⟩
  · exact h
  unfold SwaAllocator.alloc at halloc
  split_ifs at halloc
  rcases Option.bind_eq_some_iff.mp halloc with ⟨⟨out', full⟩, hfull, hrest⟩
  rcases Option.bind_eq_some_iff.mp hrest with ⟨⟨outSwa, swa⟩, hswa, heq⟩
  rcases heq with ⟨rfl, rfl⟩
  rcases token_alloc h.fullOk hfull with ⟨hfullOk, hfullGroup, hlen, hnodup, hfresh⟩
  rcases token_alloc h.swaOk hswa with ⟨hswaOk, hswaGroup, hlenSwa, hnodupSwa, hfreshSwa⟩
  simp only [hswa, Option.elim_some]
  exact ⟨hfullOk, hswaOk, hfullGroup.trans h.fullClosed, hswaGroup.trans h.swaClosed,
    h.links.assign (hlen.trans hlenSwa.symm) hnodup hnodupSwa (fun i hi => (hfresh i hi).1)
      hfreshSwa,
    h.pending.1, fun i hi => Finset.mem_union_left _ (h.pending.2 i hi)⟩

end

variable {indices : List Nat} {op : SwaOp}

theorem held_pending_closed (h : s.alloc.isNotInFreeGroup = true) : s.Held s.pending := by
  rw [show s.pending = [] from if_pos h]
  exact ⟨nodup_nil, forall_mem_nil _⟩

theorem afterFree_none (s : SwaPool) (op : SwaOp) (h : s.freedFull op = [] ∧ s.freedSwa op = [])
    (a : SwaAllocator) : s.afterFree op a = ⟨a, s.full, s.swa⟩ := by
  rw [afterFree, h.1, h.2, toFinset_nil, Finset.sdiff_empty, Finset.sdiff_empty]

section

variable (h : SwaOk size sizeSwa s)
include h

theorem free_swaAttn_ok (hnodup : indices.Nodup) :
    PoolOk sizeSwa 1 ⟨s.alloc.swaAttnAllocator.free (s.alloc.swaIndices indices),
      s.swa \ (s.alloc.swaIndices indices).toFinset⟩ :=
  token_free h.swaOk (h.links.nodup_entries hnodup) fun _ hq => h.links.mem_of_mem_entries hq

theorem swa_freeSwa_ok (hheld : s.Held indices) :
    SwaOk size sizeSwa (s.afterFree (.freeSwa indices) (s.alloc.freeSwa indices)) := by
  have hfull : s.full \ (s.freedFull (.freeSwa indices)).toFinset = s.full := by
    simp [freedFull]
  unfold afterFree
  rw [hfull]
  exact { h with
    swaOk := free_swaAttn_ok h hheld.1
    swaClosed := (free_group _ _).trans h.swaClosed
    links := (h.links.erase indices).mono Finset.sdiff_subset }

/-- A free keeps the invariant, and its assertions hold. -/
theorem swa_free_ok (hfreeable : s.Freeable indices) : ∃ a, s.alloc.free indices = some a ∧
      SwaOk size sizeSwa (s.afterFree (.free indices) a) := by
  rcases hfreeable with ⟨⟨hnodup, hmem⟩, hpending⟩
  by_cases hempty : indices.length = 0
  · have hnil := eq_nil_of_length_eq_zero hempty
    subst hnil
    refine ⟨s.alloc, if_pos rfl, ?_⟩
    rwa [afterFree_none s (.free []) ⟨ite_self _, ite_self _⟩]
  by_cases hgroup : s.alloc.isNotInFreeGroup = true
  · have hok : SwaOk size sizeSwa (s.afterFree (.free indices) ({ s.alloc with
          fullAttnAllocator := s.alloc.fullAttnAllocator.free indices }.freeSwa indices)) := by
      simp only [afterFree, freedFull, freedSwa, if_pos hgroup]
      refine ⟨token_free h.fullOk hnodup hmem, free_swaAttn_ok h hnodup,
        (free_group _ _).trans h.fullClosed, (free_group _ _).trans h.swaClosed,
        h.links.erase indices, ?_⟩
      exact held_pending_closed hgroup
    refine ⟨_, ?_, hok⟩
    rw [SwaAllocator.free, if_neg hempty, if_pos hgroup]
    exact if_pos hok.asserts
  -- In an open group the slots wait, behind those that wait already.
  have hheld := h.pending
  rw [show s.pending = s.alloc.freeGroup.flatten from if_neg hgroup] at hheld hpending
  have hok : SwaOk size sizeSwa
      ⟨{ s.alloc with freeGroup := s.alloc.freeGroup ++ [indices] }, s.full, s.swa⟩ := by
    refine { h with pending := ?_ }
    have hflat : (s.alloc.freeGroup ++ [indices]).flatten =
        s.alloc.freeGroup.flatten ++ indices := by
      rw [flatten_append, flatten_singleton]
    change SwaPool.Held _ (if s.alloc.isNotInFreeGroup = true then [] else
      (s.alloc.freeGroup ++ [indices]).flatten)
    rw [if_neg hgroup, hflat]
    refine ⟨nodup_append.mpr ⟨hheld.1, hnodup, fun i hi j hj heq => ?_⟩, fun i hi => ?_⟩
    · exact hpending j hj (heq ▸ hi)
    · exact (mem_append.mp hi).elim (hheld.2 i) (hmem i)
  refine ⟨_, ?_, (afterFree_none s (.free indices) ⟨if_neg hgroup, if_neg hgroup⟩ _).symm ▸ hok⟩
  rw [SwaAllocator.free, if_neg hempty, if_neg hgroup]
  exact if_pos hok.asserts

/-- The end of a group frees what waits in it. -/
theorem swa_freeGroupEnd_ok
    (hopen : s.alloc.isNotInFreeGroup = false) : ∃ a, s.alloc.freeGroupEnd = some a ∧
      SwaOk size sizeSwa (s.afterFree .freeGroupEnd a) := by
  have hheld := h.pending
  simp only [pending, hopen, Bool.false_eq_true, if_false] at hheld
  have hclosed : SwaOk size sizeSwa { s with alloc := { s.alloc with isNotInFreeGroup := true } } :=
    { h with pending := held_pending_closed rfl }
  have hfreeable : SwaPool.Freeable { s with alloc := { s.alloc with isNotInFreeGroup := true } }
      s.alloc.freeGroup.flatten := ⟨hheld, fun _ _ => not_mem_nil⟩
  rcases swa_free_ok hclosed hfreeable with ⟨a, hfree, hok⟩
  unfold SwaAllocator.freeGroupEnd
  simp only
  split_ifs with hne
  · exact ⟨a, hfree, hok⟩
  · have hnil : s.alloc.freeGroup = [] := of_not_not hne
    refine ⟨_, rfl, ?_⟩
    rwa [afterFree_none _ _ (by simp [freedFull, freedSwa, SwaAllocator.swaIndices, entries, hnil])]

/-- Every operation keeps the invariant. -/
theorem swaOk_step (hstep : SwaStep s op s') : SwaOk size sizeSwa s' := by
  cases op with
  | alloc needSize =>
    rw [show s' = _ from hstep]
    exact swa_alloc_ok h needSize
  | free indices =>
    rcases hstep with ⟨hfreeable, a, hfree, rfl⟩
    rcases swa_free_ok h hfreeable with ⟨a', hfree', hok⟩
    cases hfree.symm.trans hfree'
    exact hok
  | freeSwa indices =>
    rcases hstep with ⟨hheld, rfl⟩
    exact swa_freeSwa_ok h hheld
  | freeGroupBegin =>
    rcases hstep with ⟨_, rfl⟩
    exact { h with pending := ⟨nodup_nil, forall_mem_nil _⟩ }
  | freeGroupEnd =>
    rcases hstep with ⟨hopen, a, hend, rfl⟩
    rcases swa_freeGroupEnd_ok h hopen with ⟨a', hend', hok⟩
    cases hend.symm.trans hend'
    exact hok
  | clear =>
    rw [show s' = _ from hstep]
    exact ⟨clear_ok h.fullOk, clear_ok h.swaOk, rfl, rfl, Links.empty, nodup_nil, forall_mem_nil _⟩

/-- What an operation gives back to the sliding window allocator is distinct and
    allocated. -/
theorem freedSwa_held (hstep : SwaStep s op s') :
    (s.freedSwa op).Nodup ∧ ∀ q ∈ s.freedSwa op, q ∈ s.swa := by
  have hentries : ∀ indices : List Nat, indices.Nodup →
      (s.alloc.swaIndices indices).Nodup ∧ ∀ q ∈ s.alloc.swaIndices indices, q ∈ s.swa :=
    fun indices hnodup => ⟨h.links.nodup_entries hnodup, fun _ hq => h.links.mem_of_mem_entries hq⟩
  have hnone : ([] : List Nat).Nodup ∧ ∀ q ∈ ([] : List Nat), q ∈ s.swa :=
    ⟨nodup_nil, forall_mem_nil _⟩
  cases op with
  | alloc needSize => exact hnone
  | free indices =>
    unfold freedSwa
    split_ifs
    · exact hentries indices hstep.1.1.1
    · exact hnone
  | freeSwa indices => exact hentries indices hstep.1.1
  | freeGroupBegin => exact hnone
  | freeGroupEnd =>
    have hheld := h.pending
    rw [show s.pending = s.alloc.freeGroup.flatten from
      if_neg (Bool.eq_false_iff.mp hstep.1)] at hheld
    exact hentries _ hheld.1
  | clear => exact hnone

end

/-- In every state that is reached, the table links the allocated indices to the
    allocated window slots one to one, no call frees a window slot twice, and the
    two sizes add up. -/
theorem swa_mapping_linked (size sizeSwa : Nat) (needSort : Bool)
    {tr : List (SwaPool × SwaOp × SwaPool)} {s : SwaPool}
    (hr : Run SwaStep (SwaPool.init size sizeSwa needSort) tr s) :
    (∀ i ∈ s.full, ∀ j ∈ s.full, s.alloc.fullToSwaIndexMapping i = s.alloc.fullToSwaIndexMapping j →
      s.alloc.fullToSwaIndexMapping i ≠ 0 → i = j) ∧
    (∀ q, q ∈ s.swa ↔ q ≠ 0 ∧ ∃ i ∈ s.full, s.alloc.fullToSwaIndexMapping i = q) ∧
    (∀ e ∈ tr, (e.1.freedSwa e.2.1).Nodup ∧ ∀ q ∈ e.1.freedSwa e.2.1, q ∈ e.1.swa) ∧
    s.alloc.fullAvailableSize + s.full.card = size ∧ s.alloc.swaAvailableSize +
      (s.full.filter (s.alloc.fullToSwaIndexMapping · ≠ 0)).card = sizeSwa ∧
    (∀ indices, s.Freeable indices → (s.alloc.free indices).isSome) ∧
    (s.alloc.isNotInFreeGroup = false → s.alloc.freeGroupEnd.isSome) := by
  have hinit := swaOk_init size sizeSwa needSort
  have hstep : ∀ t op u, SwaOk size sizeSwa t → SwaStep t op u → SwaOk size sizeSwa u :=
    fun _ _ _ h hs => swaOk_step h hs
  have hok := hr.inv hinit hstep
  refine ⟨fun i _ j _ => hok.links.inj i j, fun q => ?_, fun e he => ?_, hok.fullAvailable, ?_,
    fun indices hfreeable => ?_, fun hopen => ?_⟩
  · rw [hok.links.mem_rng]
    refine and_congr_right fun hq => exists_congr fun i => ?_
    exact ⟨fun heq => ⟨hok.links.mem_dom i (heq ▸ hq), heq⟩, And.right⟩
  · exact freedSwa_held (hr.inv_mem hinit hstep e he).1 (hr.step_of_mem e he)
  · rw [← hok.links.card_eq]
    exact hok.swaAvailable
  · rcases swa_free_ok hok hfreeable with ⟨a, hfree, _⟩
    rw [hfree]
    rfl
  · rcases swa_freeGroupEnd_ok hok hopen with ⟨a, hend, _⟩
    rw [hend]
    rfl

/-- Two slots are allocated, and the first one has given back its sliding window
    slot. -/
def oneUnmapped : SwaPool :=
  ((SwaPool.init 2 2 true).afterAlloc 2).afterFree (.freeSwa [1])
    (((SwaPool.init 2 2 true).afterAlloc 2).alloc.freeSwa [1])

theorem swa_mapping_linked_oneUnmapped : oneUnmapped.alloc.swaAvailableSize +
      (oneUnmapped.full.filter (oneUnmapped.alloc.fullToSwaIndexMapping · ≠ 0)).card = 2 := by
  have hfree : SwaStep ((SwaPool.init 2 2 true).afterAlloc 2) (.freeSwa [1]) oneUnmapped :=
    ⟨⟨by decide, by decide⟩, rfl⟩
  have hr : Run SwaStep (SwaPool.init 2 2 true) _ oneUnmapped :=
    (Run.nil.snoc (.alloc 2) rfl).snoc _ hfree
  exact (swa_mapping_linked 2 2 true hr).2.2.2.2.1

end SglangInc.Kv
