import SglangInc.Theory.Radix.Accounting

/-!
# An Eviction Finds What Can Be Evicted

`evict(num_tokens)` takes out as many tokens as asked for, or all that are
evictable.

`evict_cases` says that an eviction only takes out unlocked leaves. Here is the
other half: it does not stop early. The heap starts with every unlocked leaf, and
the only node an erasure can turn into a leaf is the one above, which goes on the
heap in the same round. So an empty heap means that no unlocked leaf is left. A
lock is counted on all nodes above, hence below an unlocked node there is an
unlocked leaf, and without unlocked leaves nothing is evictable any more.

## Theorems

* `evictFull_leaf`, `evictLoop_full`: One round, and the loop.
-/

namespace SglangInc.Radix

open List Forest Cache

variable {pageSize counter : Nat} {f : Children}

/-- Every unlocked leaf is on the heap, and the tokens are counted. -/
structure EvictFull (pageSize : Nat) (s : Cache.Evicting) : Prop where
  tree : TreeOk pageSize s.children
  evicted : (s.numEvicted : Int) = (s.removed.map (fun x => (x.key.length : Int))).sum
  full : ∀ y, Has y .nil s.children → y.lockRef = 0 → y ∈ s.heap

variable {y x : TreeNode} {heap : List TreeNode} {s : Cache.Evicting} {order : List TreeNode → Nat}

/-- The scan finds every unlocked leaf. -/
theorem mem_collectLeaves_of_has (h : Has y .nil f) (hlock : y.lockRef = 0) :
    y ∈ collectLeaves f := by
  fun_induction collectLeaves f with
  | case1 => exact h.elim
  | case2 key node rest hnode ih =>
    rcases h with ⟨rfl, -⟩ | h | h
    · exact mem_cons_self
    · exact h.elim
    · exact mem_cons_of_mem _ (ih h)
  | case3 key node rest hnode ih =>
    rcases h with ⟨rfl, -⟩ | h | h
    · exact absurd hlock hnode
    · exact h.elim
    · exact ih h
  | case4 key node children rest hne ihc ihr =>
    rcases h with ⟨-, hnil⟩ | h | h
    · exact (hne hnil).elim
    · exact mem_append_left _ (ihc h)
    · exact mem_append_right _ (ihr h)

theorem length_pos_of_has (hf : TreeOk pageSize f) {t : Children} (hx : Has x t f) :
    x.value.length = x.key.length ∧ 0 < x.key.length := by
  rcases has_of_all hf.nodes hx with ⟨_, hok⟩
  exact ⟨hok.value_length, length_pos_iff.mpr hok.nonempty⟩

/-- The nodes of a heap after a round: those that were there, and maybe the node
    above the erased leaf. -/
theorem mem_evictLeaf_heap (hy : y ∈ heap) : y ∈ (evictLeaf s x heap).heap := by
  simp only [evictLeaf]
  split
  · exact hy
  · split
    · split_ifs
      · exact mem_cons_of_mem _ hy
      · exact hy
    · exact hy

/-- A round keeps all unlocked leaves in the heap: the parent joins when it becomes
    one. -/
theorem evictFull_leaf {evictable : Int}
    (h : EvictInv counter f evictable s) (hfull : EvictFull pageSize s)
    (hpop : (x :: heap).Perm s.heap) : EvictFull pageSize (evictLeaf s x heap) := by
  rcases h.leaf x (hpop.subset mem_cons_self) with ⟨hx, hlock⟩
  have herase := eraseLeaf_of_has h.ids hx hlock
  rcases herase.locate with ⟨above, hloc⟩
  have hids := ids_erase herase h.ids
  refine ⟨treeOk_erase herase hfull.tree, ?_, fun y hy hunlocked => ?_⟩
  · have hlen := (length_pos_of_has hfull.tree hx).1
    simp only [evictLeaf, map_append, sum_append, map_cons, map_nil,
      sum_cons, sum_nil, ← hfull.evicted, hlen]
    push_cast
    omega
  · rcases (erases_of_locate hloc).leaf hy with hold | hlast
    · -- A leaf from before is on the heap, and it is not the one erased.
      have hne : y ≠ x := by
        rintro rfl
        have hone : 1 ≤ count (·.id == y.id) (s.children.eraseNode (·.id == y.id)) :=
          one_le_count_of_has hy (by simp)
        have hzero := count_erase herase y.id
        have hle := h.ids.unique y.id
        omega
      rcases mem_cons.mp (hpop.symm.subset (hfull.full y hold hunlocked)) with heq | hmem
      · exact absurd heq hne
      · exact mem_evictLeaf_heap hmem
    · -- The node above the erased leaf, which is an unlocked leaf now.
      change Has y .nil (s.children.eraseNode (·.id == x.id)) at hy
      rcases locate_of_has (·.id == y.id) hy (by simp) (hids.unique y.id) with
        ⟨above', hloc'⟩
      simp only [evictLeaf, hloc, Option.bind_some, hlast, hloc', if_pos hunlocked]
      exact mem_cons_self

theorem heap_eq_nil (h : heappop order heap = none) : heap = [] := by
  rw [heappop, Option.map_eq_none_iff, List.getElem?_eq_none_iff] at h
  by_contra hne
  have := Nat.mod_lt (order heap) (length_pos_iff.mpr hne)
  omega

/-- With a round for each token that is missing, the loop ends with enough tokens
    or with an empty heap. -/
theorem evictLoop_full {evictable : Int} (order : List TreeNode → Nat) (numTokens rounds : Nat)
    (h : EvictInv counter f evictable s) (hfull : EvictFull pageSize s)
    (hrounds : numTokens ≤ s.numEvicted + rounds) :
    EvictFull pageSize (evictLoop order numTokens rounds s) ∧
      (numTokens ≤ (evictLoop order numTokens rounds s).numEvicted ∨
        (evictLoop order numTokens rounds s).heap = []) := by
  induction rounds generalizing s with
  | zero => exact ⟨hfull, .inl hrounds⟩
  | succ rounds ih =>
    simp only [evictLoop]
    split_ifs with hless
    · cases hpop : heappop order s.heap with
      | none =>
        exact ⟨hfull, .inr (heap_eq_nil hpop)⟩
      | some popped =>
        have hperm := heappop_perm hpop
        have hx := (h.leaf popped.1 (hperm.subset mem_cons_self)).1
        have hlen := length_pos_of_has hfull.tree hx
        refine ih (evictInv_leaf h hperm) (evictFull_leaf h hfull hperm) ?_
        simp only [evictLeaf]
        omega
    · exact ⟨hfull, .inl (not_lt.mp hless)⟩

/-- Where no leaf is unlocked, no node is: locks are counted on the nodes above. -/
theorem all_locked {f : Children} (hle : f.All fun _ n below =>
      ∀ k child t, below.lookup k = some (child, t) → child.lockRef ≤ n.lockRef)
    (hleaf : ∀ y, Has y .nil f → 0 < y.lockRef) : f.All fun _ n _ => 0 < n.lockRef := by
  induction f with
  | nil => trivial
  | cons key node children rest ihc ihr =>
    rcases hle with ⟨hnode, hchildren, hrest⟩
    have hbelow := ihc hchildren fun y hy => hleaf y (.inr (.inl hy))
    refine ⟨?_, hbelow, ihr hrest fun y hy => hleaf y (.inr (.inr hy))⟩
    cases children with
    | nil => exact hleaf node (.inl ⟨rfl, rfl⟩)
    | cons k child t r =>
      have hchild := hnode k child t (by simp [Forest.lookup])
      have hpos := hbelow.1
      omega

theorem sum_evictable_eq_zero {f : Children} (h : f.All fun _ n _ => 0 < n.lockRef) :
    sum evictableTokens f = 0 := by
  induction f with
  | nil => rfl
  | cons key node children rest ihc ihr =>
    rw [Forest.sum, ihc h.2.1, ihr h.2.2, evictableTokens, if_neg (Int.ne_of_gt h.1)]
    rfl

/-- A tree without unlocked leaves has nothing to evict. -/
theorem evictable_eq_zero {c : Cache} {held : List Nat} (h : Accounted c held)
    (hleaf : ∀ y, Has y .nil c.children → y.lockRef ≠ 0) : c.evictableSize = 0 := by
  rw [h.counted.evictable]
  refine sum_evictable_eq_zero (all_locked (all_mono (fun _ _ _ hn => hn.child_le) h.node) ?_)
  intro y hy
  rcases has_of_all h.node hy with ⟨_, hnode⟩
  have := hleaf y hy
  have := hnode.nonneg
  omega

/-- An eviction takes out as many tokens as asked for, or leaves nothing that is
    evictable. -/
theorem evict_enough {c c' : Cache} {held : List Nat} (h : Accounted c held) {numTokens : Nat}
    {removed : List TreeNode} (heq : c.evict order numTokens = (removed, c')) :
    (numTokens : Int) ≤ (removed.map (fun x => (x.key.length : Int))).sum ∨
      c'.evictableSize = 0 := by
  have hacc : Accounted c' held := by
    have hstep := h.evict order numTokens
    rwa [heq] at hstep
  unfold evict at heq
  split_ifs at heq with hdisable
  · -- A disabled cache is empty.
    cases heq
    right
    refine evictable_eq_zero hacc fun y hy => ?_
    rw [h.disabled hdisable] at hy
    exact hy.elim
  rcases evictLoop_full order numTokens numTokens (evictInv_start h.counted.ids c.evictableSize)
    ⟨h.counted.tree, rfl, fun y hy hlock => mem_collectLeaves_of_has hy hlock⟩
    (by simp) with ⟨hfull, hend⟩
  rw [Prod.mk.injEq] at heq
  rcases hend with henough | hempty
  · left
    rw [← heq.1, ← hfull.evicted]
    exact Int.ofNat_le.mpr henough
  right
  refine evictable_eq_zero hacc fun y hy hlock => ?_
  rw [← heq.2] at hy
  have hmem := hfull.full y hy hlock
  rw [hempty] at hmem
  cases hmem

end SglangInc.Radix
