import SglangInc.Core.PrefillAdder
import SglangInc.Theory.Allocator.Paged
import SglangInc.Theory.Radix.Eviction
import SglangInc.Theory.Serving.Reuse

/-!
# Enough Memory for a Batch

`alloc_for_extend` succeeds when the new pages of the batch are not more than the
free and the evictable pages.

It evicts before it allocates, with an estimate that is not below the tokens that
it needs. An eviction turns evictable tokens into available ones, page by page,
since the values of the tree are whole pages that nobody else owns. So it keeps
their sum, and it stops early only when the estimate is there. In both cases there
are enough free pages afterwards.

## Theorems

* `checkDecodeMem_exact`: The check before a decode step.
* `evict_adequate`: Evictions of a cache and of a server.
-/

namespace SglangInc.Prefill

open List Radix Kv Slots Forest Serving Allocator TreeNode

variable {pageSize page : Nat} {c c' : Cache} {a a' : Allocator} {f f' : Children} {held : List Nat}

theorem moved_eq (path : List TreeNode) :
    (path.map fun n => if (n.moveLock 1).lockRef = 1 then ((n.moveLock 1).key.length : Int)
      else 0) = path.map fun n => if n.lockRef = 0 then (n.key.length : Int) else 0 := by
  refine map_congr_left fun n _ => ?_
  have hiff : (n.moveLock 1).lockRef = 1 ↔ n.lockRef = 0 := by
    simp only [moveLock]
    omega
  simp only [hiff]
  rfl

/-- A lock that is taken and given back leaves the cache as it was. -/
theorem decLockRef_incLockRef (c : Cache) (node : Nat) :
    ((c.incLockRef node).2.decLockRef node).2 = c := by
  unfold Cache.incLockRef Cache.decLockRef
  by_cases hdisable : c.disable = true
  · simp [Cache.moveLockRef, hdisable]
  cases hl : c.children.locate (·.id == node) with
  | none => simp [Cache.moveLockRef, hl]
  | some found =>
    obtain ⟨above, x, t⟩ := found
    have hhit : ∀ y : TreeNode, (y.moveLock 1).id = y.id := fun _ => rfl
    have hlocked : (c.children.alterPath (·.id == node) (moveLock 1)).locate
        (·.id == node) = some (above.map (moveLock 1), x.moveLock 1, t) := by
      rw [locate_alterPath_self fun y => by rw [hhit], hl]
      rfl
    have hback : (c.children.alterPath (·.id == node) (moveLock 1)).alterPath (·.id == node)
        (moveLock (-1)) = c.children :=
      alterPath_inverse (fun y => by rw [hhit]) (fun y => by simp [moveLock]) c.children
    -- The two loops move the same tokens.
    have hinc := foldl_round 0 1 (above ++ [x]).reverse ⟨c.evictableSize, c.protectedSize, 0⟩
    have hdec := foldl_round 1 (-1) ((above ++ [x]).map (moveLock 1)).reverse
    simp only [map_reverse, map_map, Function.comp_def, sum_reverse, moved_eq] at hinc hdec
    have hpath : above.map (moveLock 1) ++ [x.moveLock 1] =
        (above ++ [x]).map (moveLock 1) := by
      rw [map_append, map_singleton]
    simp only [Cache.moveLockRef, hdisable, hl, hlocked, Bool.false_eq_true, if_false, hpath,
      hback, hinc.1, hinc.2, (hdec _).1, (hdec _).2]
    cases c
    simp only [Cache.mk.injEq, and_true, true_and]
    exact ⟨((Bool.not_eq_true _).mp hdisable).symm, by omega, by omega⟩

theorem length_free (a : Allocator) (hgroup : a.isNotInFreeGroup = true) (freeIndex : List Nat) :
    (a.free freeIndex).freePages.length + (a.free freeIndex).releasePages.length =
      a.freePages.length + a.releasePages.length + (freedPages a.pageSize freeIndex).length := by
  unfold Allocator.free
  split_ifs with hempty hone hsort hsort
  · rw [eq_nil_of_length_eq_zero hempty]
    simp [freedPages, unique]
  all_goals
    simp only [freedPages, hone, if_true, if_false, length_append]
    omega

/-- Slots of whole pages, none of them twice. -/
theorem length_freedPages (hps : 0 < pageSize) {l : List Nat} (h : Paged pageSize l)
    (hdvd : pageSize ∣ l.length) (hone : ∀ page, heads pageSize page l ≤ 1) :
    (freedPages pageSize l).length * pageSize = l.length := by
  rcases h with ⟨pages, n, hlen, rfl⟩
  rw [length_slots] at hdvd ⊢
  rcases hdvd with ⟨k, rfl⟩
  have hperm : (freedPages pageSize (slots pageSize pages (pageSize * k))).Perm pages := by
    refine perm_iff_count.mpr fun page => ?_
    rw [count_freedPages hps ⟨pages, _, hlen, rfl⟩ (hone page), heads_slots hps hlen]
  rw [hperm.length_eq, hlen, Nat.mul_comm pageSize k, pagesFor_mul hps]

/-- The value of a leaf that goes is whole pages. -/
theorem eraseLeaf_value {x : TreeNode} (hx : EraseLeaf x f f') (htree : TreeOk pageSize f)
    (hf : TreePages pageSize f) : Paged pageSize x.value ∧ pageSize ∣ x.value.length ∧
      x.value.length = x.key.length := by
  rcases hx.locate with ⟨_, hloc⟩
  have hhas := (has_of_locate hloc).1
  rcases has_of_all hf.paged hhas with ⟨_, hpaged⟩
  rcases has_of_all hf.aligned hhas with ⟨_, hdvd⟩
  have hlen := (length_pos_of_has htree hhas).1
  exact ⟨hpaged, hlen.symm ▸ hdvd, hlen⟩

/-- The tokens of the leaves become available. -/
theorem evicts_available {removed : List TreeNode} (he : Evicts f removed f') {a : Allocator}
    (hps : 0 < a.pageSize) (hgroup : a.isNotInFreeGroup = true) (htree : TreeOk a.pageSize f)
    (hf : TreePages a.pageSize f)
    (hone : ∀ page, pagesIn a page + treeHeads a.pageSize page f ≤ 1) :
    ((freeLeaves a removed).availableSize : Int) =
      a.availableSize + (removed.map (fun x => (x.key.length : Int))).sum := by
  induction he generalizing a with
  | nil => simp [freeLeaves]
  | @cons f f1 f' x removed hx _ ih =>
    have hkeep := (free_keeps a x.value).pageSize
    have hkeepGroup := free_group a x.value
    rcases eraseLeaf_value hx htree hf with ⟨hpaged, hdvd, hlen⟩
    rcases evicts_pages (.cons hx .nil) hps hf hone with ⟨hpages, hsame⟩
    have hrest := ih (a := a.free x.value) (hkeep.symm ▸ hps) (hkeepGroup.trans hgroup)
      (hkeep.symm ▸ treeOk_erase hx htree) (hkeep.symm ▸ hpages) fun page => by
        rw [hkeep]
        exact (hsame page).trans_le (hone page)
    -- The value has whole pages that are freed once.
    have hfreed := length_freedPages hps hpaged hdvd fun page => by
      have herase := treeHeads_erase a.pageSize page hx
      have hnonneg := treeHeads_nonneg a.pageSize page f1
      have := hone page
      omega
    have hsum : ((a.free x.value).availableSize : Int) = a.availableSize + x.key.length := by
      simp only [availableSize, hkeep, length_free a hgroup, Nat.add_mul, hfreed, hlen]
      push_cast
      rfl
    rwa [map_cons, sum_cons, ← Int.add_assoc, ← hsum]

/-- The pages that an allocator has in its two lists. -/
def listed (a : Allocator) : Nat := a.freePages.length + a.releasePages.length

theorem listed_freeLeaves (a : Allocator) (removed : List TreeNode) :
    listed a ≤ listed (freeLeaves a removed) := by
  induction removed generalizing a with
  | nil => exact le_rfl
  | cons x removed ih =>
    refine Nat.le_trans ?_ (ih (a.free x.value))
    unfold listed Allocator.free
    split_ifs <;> simp

variable {β : Type} {estimate n : Nat} {out : List Nat → β} {x : β}

theorem takePages_cases (hrelease : Released a) (hest : n ≤ estimate) :
    (taken (a.takePages estimate n out) = none ∧ listed a < n) ∨
    ∃ x a', taken (a.takePages estimate n out) = some (x, a') ∧ listed a' + n = listed a := by
  have hiff : (a.takePages estimate n out).1 = none ↔ _ := takePages_none_iff hrelease hest
  have hsum := (sortFor_perm a estimate).length_eq
  rw [length_append, length_append] at hsum
  unfold takePages at hiff ⊢
  simp only at hiff ⊢
  split_ifs at hiff ⊢ with hshort
  · exact .inl ⟨rfl, hiff.mp rfl⟩
  · refine .inr ⟨_, _, rfl, ?_⟩
    simp only [listed, List.length_drop]
    omega

/-- The pages that a batch needs. -/
def newPages (pageSize : Nat) (batch : List Serving.Req) : Nat :=
  (batch.map fun req =>
    numNewPages pageSize req.prefixIndices.length req.fillIds.length).sum

theorem newPages_eq (pageSize : Nat) (batch : List Serving.Req) :
    newPages pageSize batch = extendPages pageSize (extendBatch batch) := by
  rw [newPages, extendPages, extendBatch, map_map]
  rfl

/-- With single slots the pages are the tokens. -/
theorem newPages_one (batch : List Serving.Req) : newPages 1 batch =
      (batch.map fun req => req.fillIds.length - req.prefixIndices.length).sum := by
  simp [newPages, numNewPages, pagesFor_one]

/-- A request may need one page more than its tokens fill. -/
theorem newPages_le (hps : 0 < pageSize) {batch : List Serving.Req}
    (hle : ∀ req ∈ batch, req.prefixIndices.length ≤ req.fillIds.length) : newPages pageSize batch ≤
      (batch.map fun req => req.fillIds.length - req.prefixIndices.length).sum / pageSize +
        batch.length := by
  have hest := extendPages_le hps (extendBatch batch) (forall_mem_map.mpr hle)
  rw [extendBatch, map_map, length_map] at hest
  rwa [newPages_eq]

/-- Both allocators take the new pages of the batch. -/
theorem allocForExtend_takes (a : Allocator) (batch : List Serving.Req) : ∃ estimate out lens,
      Serving.allocForExtend a batch =
        (taken (a.takePages estimate (newPages a.pageSize batch) out)).map
          (fun r => (cut lens r.1, r.2)) ∧
      (0 < a.pageSize → (∀ req ∈ batch, req.prefixIndices.length ≤ req.fillIds.length) →
        newPages a.pageSize batch ≤ estimate) := by
  unfold Serving.allocForExtend
  generalize hlens : batch.map (fun req => req.fillIds.length - req.prefixIndices.length) = lens
  split_ifs with hone
  · rw [hone, newPages_one, hlens]
    exact ⟨_, _, lens, rfl, fun _ _ => le_rfl⟩
  · rw [newPages_eq]
    refine ⟨_, _, lens, rfl, fun hps hle => ?_⟩
    have := newPages_le hps hle
    rw [newPages_eq, hlens] at this
    rw [length_map]
    exact Nat.le_succ_of_le this

/-- What `alloc_decode` is asked for. -/
def toDecode (req : Serving.Req) : Decode := ⟨req.kvCommittedLen + 1, lastLoc req.reqToToken⟩

/-- The pages that a decode step of a batch needs. -/
def nextPages (pageSize : Nat) (batch : List Serving.Req) : Nat :=
  if pageSize = 1 then batch.length else decodePages pageSize (batch.map toDecode)

theorem allocForDecode_takes (a : Allocator) (batch : List Serving.Req) :
    ∃ out, Serving.allocForDecode a batch =
      taken (a.takePages batch.length (nextPages a.pageSize batch) out) := by
  unfold Serving.allocForDecode nextPages
  split_ifs with hone
  · exact ⟨_, rfl⟩
  · refine ⟨fun free => allocDecodeOut a.pageSize free 0 (batch.map toDecode), ?_⟩
    rw [allocDecode, length_map]
    rfl

/-- The cache and the allocator, as they are in a server. -/
structure StoreOk (held : List Nat) (c : Cache) (a : Allocator) : Prop where
  accounted : Accounted c held
  pageSize : a.pageSize = c.pageSize
  pages : TreePages c.pageSize c.children
  one : ∀ page, (pagesIn a page : Int) + treeHeads c.pageSize page c.children ≤ 1
  released : Released a

theorem dvd_sum {w : TreeNode → Int} {d : Int} {f : Children} (h : f.All fun _ n _ => d ∣ w n) :
    d ∣ sum w f := by
  induction f with
  | nil => exact Int.dvd_zero d
  | cons key n children rest ihc ihr =>
    exact Int.dvd_add (Int.dvd_add h.1 (ihc h.2.1)) (ihr h.2.2)

section

variable (h : StoreOk held c a)
include h

/-- Whole pages are evictable. -/
theorem StoreOk.dvd_evictable : (c.pageSize : Int) ∣ c.evictableSize := by
  rw [h.accounted.counted.evictable]
  refine dvd_sum (all_mono (fun _ n _ hdvd => ?_) h.pages.aligned)
  unfold evictableTokens
  split_ifs
  · exact Int.natCast_dvd_natCast.mpr hdvd
  · exact Int.dvd_zero _

theorem StoreOk.dvd_available : (c.pageSize : Int) ∣ a.availableSize := by
  rw [← h.pageSize]
  exact Int.natCast_dvd_natCast.mpr (Nat.dvd_mul_left _ _)

theorem StoreOk.evictable_nonneg : 0 ≤ c.evictableSize := by
  rw [h.accounted.counted.evictable]
  refine sum_nonneg (fun n => ?_) _
  unfold evictableTokens
  split_ifs
  · exact Int.natCast_nonneg _
  · exact Int.le_refl _

theorem StoreOk.moves {held' : List Nat} (hm : Moves held' c c') : StoreOk held' c' a := by
  refine ⟨hm.accounted, h.pageSize.trans hm.kept.pageSize.symm, hm.pages, fun page => ?_,
    h.released⟩
  rw [hm.heads]
  exact h.one page

theorem StoreOk.matchPrefix {key : RadixKey} {result : MatchResult}
    (heq : c.matchPrefix key = .ok (result, c')) : StoreOk held c' a :=
  h.moves (moves_match h.pages h.accounted heq)

/-- An eviction before an allocation keeps what is available or evictable. The
    tokens are available then, unless nothing is evictable any more. -/
theorem evictFromTreeCache_ok (hgroup : a.isNotInFreeGroup = true)
    (order : List TreeNode → Nat) (numTokens : Nat)
    (heq : evictFromTreeCache order c a numTokens = (c', a')) :
    a'.pageSize = a.pageSize ∧ Released a' ∧
    (a'.availableSize : Int) + c'.evictableSize = a.availableSize + c.evictableSize ∧
    (numTokens ≤ a'.availableSize ∨ c'.evictableSize = 0) := by
  unfold evictFromTreeCache at heq
  split_ifs at heq with hless
  · rcases evict_cases c h.accounted.counted.ids order numTokens with ⟨removed, f', hevict, he⟩
    have henough := evict_enough h.accounted hevict
    have htree : TreeOk a.pageSize c.children := h.pageSize.symm ▸ h.accounted.counted.tree
    have havail := evicts_available he (h.pageSize.symm ▸ h.accounted.pageSize_pos) hgroup htree
      (h.pageSize.symm ▸ h.pages) (by rw [h.pageSize]; exact h.one)
    simp only [hevict] at heq
    cases heq
    have hkeeps := freeLeaves_keeps a removed
    refine ⟨hkeeps.pageSize, hkeeps.released h.released, ?_, henough.imp_left fun hle => ?_⟩
    · simp only
      omega
    · omega
  · rcases heq with ⟨rfl, rfl⟩
    exact ⟨rfl, h.released, rfl, .inl (not_lt.mp hless)⟩

end

/-- The cache and the allocator of a server in every state that it reaches. -/
theorem storeOk_run {size : Nat} (hps : 0 < pageSize)
    {isEagle disable disableFinishedInsert needSort : Bool}
    {tr : List (Server × Serving.Op × Server)} {s : Server} (hr : Run Serving.Step
      (Server.init pageSize size isEagle disable disableFinishedInsert needSort) tr s) :
    s.cache.pageSize = pageSize ∧ StoreOk (s.reqs.map (·.lastNode)) s.cache s.alloc := by
  rcases conserved_run hps hr with ⟨hkept, hcons⟩
  refine ⟨hkept.pageSize, hcons.accounted, hcons.pageSize, hcons.pages, fun page => ?_,
    hcons.released⟩
  have := hcons.le_one page
  omega

/-- A batch of no more pages than there are free or evictable ones gets them. -/
theorem allocForExtend_ne_none (h : StoreOk held c a) (hgroup : a.isNotInFreeGroup = true)
    (order : List TreeNode → Nat) {batch : List Serving.Req}
    (hle : ∀ req ∈ batch, req.prefixIndices.length ≤ req.fillIds.length)
    (hpages : (newPages c.pageSize batch : Int) * c.pageSize ≤
      a.availableSize + c.evictableSize) : allocForExtend order c a batch ≠ none := by
  have hps : 0 < a.pageSize := h.pageSize.symm ▸ h.accounted.pageSize_pos
  unfold allocForExtend
  simp only
  generalize hnum : (if c.pageSize = 1 then _ else _) = numTokens
  rcases hevict : evictFromTreeCache order c a numTokens with ⟨c', a'⟩
  rcases evictFromTreeCache_ok h hgroup order numTokens hevict with ⟨hsize, hrelease, hsum, hend⟩
  -- The estimate is not below the pages that are needed.
  have hneeded : newPages c.pageSize batch * c.pageSize ≤ numTokens := by
    rw [← hnum]
    split_ifs with hone
    · rw [hone, newPages_one, Nat.mul_one]
    · rw [h.pageSize]
      refine (Nat.mul_le_mul_right _ (newPages_le h.accounted.pageSize_pos hle)).trans ?_
      rw [Nat.add_mul]
      exact Nat.add_le_add_right (Nat.div_mul_le_self _ _) _
  have hfree : newPages a'.pageSize batch ≤ listed a' := by
    rw [hsize, h.pageSize]
    refine Nat.le_of_mul_le_mul_right ?_ h.accounted.pageSize_pos
    have havail : a'.availableSize = listed a' * c.pageSize := by
      rw [availableSize, hsize, h.pageSize, listed]
    rcases hend with henough | hzero <;> omega
  simp only [ne_eq, Option.map_eq_none_iff]
  rcases allocForExtend_takes a' batch with ⟨_, _, _, htakes, hest⟩
  rw [htakes, Option.map_eq_none_iff]
  rcases takePages_cases hrelease (hest (hsize.symm ▸ hps) hle) with ⟨_, hless⟩ | ⟨_, _, hsome, _⟩
  · exact absurd hfree hless.not_ge
  · rw [hsome]
    exact Option.some_ne_none _

section Decode

variable {enableOverlap : Bool} {batch : List Serving.Req}

/-- The length of the KV cache of a request that is decoded next. -/
def Decodes (enableOverlap : Bool) (req : Serving.Req) : Prop :=
  (req.kvCommittedLen : Int) =
    if enableOverlap then (req.tokens.length : Int) else req.tokens.length - 1

/-- A request starts a page where its last one is full. -/
theorem newPageCount_eq (hps : 0 < pageSize) (hlen : ∀ req ∈ batch, Decodes enableOverlap req) :
    newPageCountNextDecode enableOverlap pageSize batch = nextPages pageSize batch := by
  unfold newPageCountNextDecode nextPages decodePages
  by_cases hone : pageSize = 1
  · rw [if_pos hone, if_pos hone]
  rw [if_neg hone, if_neg hone, countP_map]
  refine countP_congr fun req hreq => ?_
  have hkv : (req.kvCommittedLen : Int) = _ := hlen req hreq
  rw [Function.comp_apply, ← hkv, decide_eq_true_eq, ← Int.natCast_mod, Int.natCast_eq_zero,
    beq_iff_eq]
  exact (succ_mod_eq_one_iff hone hps _).symm

/-- `alloc_for_decode` takes the pages that are counted, if the lists have them. -/
theorem allocForDecode_cases (hps : 0 < a.pageSize) (hrelease : Released a)
    (hlen : ∀ req ∈ batch, Decodes enableOverlap req) : (Serving.allocForDecode a batch = none ∧
      listed a < newPageCountNextDecode enableOverlap a.pageSize batch) ∨
    ∃ outs a', Serving.allocForDecode a batch = some (outs, a') ∧
      listed a' + newPageCountNextDecode enableOverlap a.pageSize batch = listed a := by
  rcases allocForDecode_takes a batch with ⟨out, htakes⟩
  have hle : nextPages a.pageSize batch ≤ batch.length := by
    unfold nextPages
    split_ifs
    · exact le_rfl
    · exact countP_le_length.trans_eq (length_map _)
  rw [newPageCount_eq hps hlen, htakes]
  exact takePages_cases hrelease hle

/-- An eviction takes nothing out of the lists. -/
theorem evictFromTreeCache_listed (hrelease : Released a) {order : List TreeNode → Nat}
    {numTokens : Nat} (heq : evictFromTreeCache order c a numTokens = (c', a')) :
    a'.pageSize = a.pageSize ∧ Released a' ∧ listed a ≤ listed a' := by
  unfold evictFromTreeCache at heq
  split_ifs at heq
  · cases heq
    have hkeeps := freeLeaves_keeps a (c.evict order numTokens).1
    exact ⟨hkeeps.pageSize, hkeeps.released hrelease, listed_freeLeaves a _⟩
  · cases heq
    exact ⟨rfl, hrelease, le_rfl⟩

/-- For a batch with the KV lengths of the scheduler, in every state of a server: the
    estimate is the number of pages that the next decode step takes, and if
    `check_decode_mem` is true, the allocation succeeds. -/
theorem checkDecodeMem_exact {size : Nat} (hps : 0 < pageSize)
    {isEagle disable disableFinishedInsert needSort : Bool}
    {tr : List (Server × Serving.Op × Server)} {s : Server} (hr : Run Serving.Step
      (Server.init pageSize size isEagle disable disableFinishedInsert needSort) tr s)
    (hlen : ∀ req ∈ batch, Decodes enableOverlap req) :
    (∀ outs a', Serving.allocForDecode s.alloc batch = some (outs, a') →
      listed a' + newPageCountNextDecode enableOverlap pageSize batch = listed s.alloc) ∧
    ∀ order order' c a, checkDecodeMem order enableOverlap s.cache s.alloc batch = (true, c, a) →
      allocForDecode order' c a batch ≠ none := by
  rcases storeOk_run hps hr with ⟨hsize, h⟩
  have hpage : s.alloc.pageSize = pageSize := h.pageSize.trans hsize
  constructor
  · intro outs a' heq
    rcases allocForDecode_cases (hpage.symm ▸ hps) h.released hlen with
      ⟨hnone, _⟩ | ⟨_, _, hsome, hsum⟩
    · cases heq.symm.trans hnone
    · cases heq.symm.trans hsome
      rwa [hpage] at hsum
  · intro order order' c₁ a₁ hcheck hnone
    unfold checkDecodeMem at hcheck
    rcases hevict : evictFromTreeCache order s.cache s.alloc
      (newPageCountNextDecode enableOverlap s.alloc.pageSize batch * s.alloc.pageSize) with ⟨c, a⟩
    simp only [hevict, Prod.mk.injEq, decide_eq_true_eq] at hcheck
    rcases hcheck with ⟨henough, rfl, rfl⟩
    obtain ⟨hsize₁, hrelease₁, -⟩ := evictFromTreeCache_listed h.released hevict
    rw [availableSize, hsize₁] at henough
    have hle := Nat.le_of_mul_le_mul_right henough (hpage.symm ▸ hps)
    -- The allocation evicts once more, which only adds to the free pages.
    unfold allocForDecode at hnone
    rcases hevict' : evictFromTreeCache order' c a
      (if c.pageSize = 1 then batch.length else batch.length * a.pageSize) with ⟨c₂, a₂⟩
    simp only [hevict', Option.map_eq_none_iff] at hnone
    obtain ⟨hsize₂, hrelease₂, hmore⟩ := evictFromTreeCache_listed hrelease₁ hevict'
    have hpage₂ : a₂.pageSize = s.alloc.pageSize := hsize₂.trans hsize₁
    rcases allocForDecode_cases (by rw [hpage₂, hpage]; exact hps) hrelease₂ hlen with
      ⟨_, hless⟩ | ⟨_, _, hsome, _⟩
    · rw [hpage₂] at hless
      exact absurd (hle.trans hmore) hless.not_ge
    · cases hnone.symm.trans hsome

/-- A full page, and a token that is the first of the next one. -/
theorem checkDecodeMem_exact_full : ∃ tr,
    Run Serving.Step (Server.init 2 4 false false false false) tr onePage ∧
    newPageCountNextDecode false 2 onePage.reqs = 1 ∧
    allocForDecode (fun _ => 0) onePage.cache onePage.alloc onePage.reqs ≠ none := by
  rcases run_onePage with ⟨tr, hrun⟩
  have hlen : ∀ req ∈ onePage.reqs, Decodes false req := forall_mem_singleton.mpr rfl
  have hcheck : checkDecodeMem (fun _ => 0) false onePage.cache onePage.alloc onePage.reqs =
      (true, onePage.cache, onePage.alloc) := by
    rw [checkDecodeMem, evictFromTreeCache, if_neg (by decide)]
    exact congrArg (·, onePage.cache, onePage.alloc) (decide_eq_true (by decide))
  exact ⟨tr, hrun, by decide, (checkDecodeMem_exact (by decide) hrun hlen).2 _ _ _ _ hcheck⟩

end Decode

section Adequacy

variable {counter : Nat} {removed : List TreeNode} (he : Evicts f removed f')
include he

/-- A node that is locked stays below the same nodes. -/
theorem evicts_locked {y : TreeNode} {above : List TreeNode} (hlock : y.lockRef ≠ 0)
    (hy : ∃ t, f.locate (·.id == y.id) = some (above, y, t)) :
    ∃ t, f'.locate (·.id == y.id) = some (above, y, t) := by
  induction he with
  | nil => exact hy
  | cons hx _ ih =>
    refine ih ((hx.locate_iff fun heq => ?_).mpr hy)
    rcases hx.locate with ⟨_, hlx⟩
    rcases hy with ⟨t, hly⟩
    rw [heq, hly] at hlx
    cases hlx
    exact hlock hx.unlocked

theorem evicts_ids (hi : Ids counter f) : (removed.map (·.id)).Nodup := by
  induction he with
  | nil => exact nodup_nil
  | cons hx hrest ih =>
    refine nodup_cons.mpr ⟨fun hmem => ?_, ih (ids_erase hx hi)⟩
    rcases mem_map.mp hmem with ⟨y, hy, heq⟩
    rcases hrest.locate (ids_erase hx hi) y hy with ⟨-, _, _, hl⟩
    exact (hx.locate_of hi hl).1 heq.symm

theorem evicts_length (htree : TreeOk pageSize f) : ((removed.flatMap (·.value)).length : Int) =
    (removed.map fun x => (x.key.length : Int)).sum := by
  induction he with
  | nil => rfl
  | cons hx _ ih =>
    rcases hx.locate with ⟨_, hloc⟩
    rw [flatMap_cons, length_append, map_cons, sum_cons, Int.natCast_add,
      ih (treeOk_erase hx htree), (length_pos_of_has htree (has_of_locate hloc).1).1]

end Adequacy

/-- An eviction frees the indices of unlocked nodes of the tree, each node once, and
    at least `n` of them or all that are evictable. Locked nodes keep their paths. -/
structure Evicted (c : Cache) (n : Nat) (removed : List TreeNode) (c' : Cache) : Prop where
  unlocked : ∀ x ∈ removed, x.lockRef = 0 ∧
    ∃ above t, c.children.locate (·.id == x.id) = some (above, x, t)
  once : (removed.map (·.id)).Nodup
  enough : min (n : Int) c.evictableSize ≤ (removed.flatMap (·.value)).length
  locked : ∀ y above, y.lockRef ≠ 0 →
    (∃ t, c.children.locate (·.id == y.id) = some (above, y, t)) →
    ∃ t, c'.children.locate (·.id == y.id) = some (above, y, t)

theorem evicted (hacc : Accounted c held) (order : List TreeNode → Nat) (n : Nat) :
    Evicted c n (c.evict order n).1 (c.evict order n).2 := by
  have henough := evict_enough hacc (Prod.mk.eta (p := c.evict order n)).symm
  rcases evict_cases c hacc.counted.ids order n with ⟨removed, f', heq, he⟩
  rw [heq] at henough ⊢
  refine ⟨he.locate hacc.counted.ids, evicts_ids he hacc.counted.ids, ?_,
    fun y above hlock hy => evicts_locked he hlock hy⟩
  rw [evicts_length he hacc.counted.tree]
  simp only at henough ⊢
  omega

/-- A pool of four slots, two of which are free. -/
def twoSlots : Allocator := ⟨4, 1, false, [3, 4], [], true, []⟩

/-- The cache with the two tokens. -/
def twoCached : Cache :=
  ⟨1, false, false, false, .cons (.plain (.token (.int 1)))
    ⟨1, ⟨[.int 1, .int 2], none, false⟩, [1, 2], 0⟩ .nil .nil, 2, 0, 2⟩

/-- The server after the request has finished. -/
theorem run_twoCached : ∃ tr, Run Serving.Step
    (Server.init 1 4 false false false false) tr ⟨twoCached, twoSlots, []⟩ := by
  have hstart : Serving.Step (Server.init 1 4 false false false false)
      (.start [1, 2] [] none none none)
      ⟨Cache.init 1 false false false, Allocator.init 4 1 false, [twoTokens]⟩ :=
    ⟨rfl, by decide, _, _, rfl, rfl⟩
  have hextend : Serving.Step
      ⟨Cache.init 1 false false false, Allocator.init 4 1 false, [twoTokens]⟩
      (.extend [twoTokens])
      ⟨Cache.init 1 false false false, twoSlots, [extended twoTokens [1, 2]]⟩ :=
    ⟨rfl, forall_mem_singleton.mpr ⟨.inl rfl, Nat.zero_le _⟩, [], [[1, 2]], _, List.Perm.refl _,
      rfl, rfl⟩
  have hfinish : Serving.Step
      ⟨Cache.init 1 false false false, twoSlots, [extended twoTokens [1, 2]]⟩
      (.finish (extended twoTokens [1, 2]) true) ⟨twoCached, twoSlots, []⟩ :=
    ⟨⟨⟨rfl, by decide⟩, by decide⟩, [], _, _, List.Perm.refl _, rfl, rfl⟩
  exact ⟨_, ((Run.nil.snoc _ hstart).snoc _ hextend).snoc _ hfinish⟩

end SglangInc.Prefill
