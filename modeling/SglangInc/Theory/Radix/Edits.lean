import SglangInc.Theory.Radix.Walk
import SglangInc.Lib.Checked
import Mathlib.Data.List.Nodup
import Mathlib.Data.List.Perm.Basic

/-!
# What the Operations Change

Each operation of the cache as a sequence of edits of its tree.

A match splits at most one node. An insertion splits at most one node and adds
at most one leaf. An eviction takes out unlocked leaves, one after the other:
its heap only ever holds unlocked leaves of the tree, each once, although it is
filled before the first leaf goes and grows while the tree shrinks. The
theorems `matchPrefix_cases`, `insert_cases` and `evict_cases` say this, and
the rest of the file says what one edit does to the well-formedness of the
tree and to a sum over its nodes.

## Theorems

* `treeOk_split`, `treeOk_add`, `treeOk_erase`: Edits keep the tree well formed.
* `sum_split`, `sum_add`, `sum_eraseLeaf`: What edits do to sums.
-/

namespace SglangInc.Radix

open List Forest Cache

variable {pageSize : Nat} {f f' : Children} {path : List TreeNode}

section Split

variable {n : TreeNode} {s : Children} {j newId : Nat}

theorem nodeOk_upper {k : ChildKey} (hn : NodeOk pageSize k n) (hj : 0 < j)
    (hlt : j < n.key.length) (hal : pageSize ∣ j) (newId : Nat) :
    NodeOk pageSize k (n.upper j newId) where
  nonempty := by
    refine tokenIds_ne_nil (show 0 < (n.key.take j).length from ?_)
    rw [RadixKey.take, RadixKey.length, length_take]
    exact Nat.lt_min.mpr ⟨hj, (Nat.zero_le _).trans_lt hlt⟩
  value_length := by
    simp [TreeNode.upper, RadixKey.take, RadixKey.length, hn.value_length]
  slot := by
    -- The upper part has the whole first page.
    rw [← hn.slot]
    refine getChildKey_congr rfl ?_
    simp only [TreeNode.upper, RadixKey.take]
    rw [take_take, Nat.min_eq_left (Nat.le_of_dvd hj hal)]

theorem nodeOk_lower {k below : ChildKey} (hn : NodeOk pageSize k n) (hlt : j < n.key.length)
    (hbelow : getChildKey pageSize (n.key.drop j) = .ok below) :
    NodeOk pageSize below (n.lower j) where
  nonempty := by
    refine tokenIds_ne_nil (show 0 < (n.key.drop j).length from ?_)
    rw [length_drop]
    omega
  value_length := by
    simp [TreeNode.lower, RadixKey.drop, RadixKey.length, hn.value_length]
  slot := hbelow

variable (h : Edit (SplitAt pageSize n s j newId) path f f')
include h

theorem treeOk_split (hf : TreeOk pageSize f) : TreeOk pageSize f' := by
  refine ⟨h.all ?_ (fun _ _ _ _ _ _ hx => hx) hf.nodes, h.distinct ?_ hf.distinct⟩
  · rintro f _ ⟨hl, hj, hlt, hal, hbelow⟩ hall
    rcases all_lookup hall hl with ⟨hn, hs⟩
    exact all_set hall (nodeOk_upper hn hj hlt hal newId) ⟨nodeOk_lower hn hlt hbelow, hs, trivial⟩
  · rintro f _ ⟨hl, _, _, _, _⟩ hd
    exact distinct_set hd _ _ ⟨not_mem_nil, distinct_lookup hd hl, trivial⟩

/-- A property of the nodes that both parts of the split one have. -/
theorem all_split {P : TreeNode → Prop} (hsplit : P n → P (n.upper j newId) ∧ P (n.lower j))
    (hf : f.All fun _ n _ => P n) : f'.All fun _ n _ => P n := by
  refine h.all ?_ (fun _ _ _ _ _ _ hx => hx) hf
  rintro f _ ⟨hl, _, _, _, _⟩ hall
  rcases all_lookup hall hl with ⟨hn, hs⟩
  exact all_set hall (hsplit hn).1 ⟨(hsplit hn).2, hs, trivial⟩

theorem sum_split (g : TreeNode → Int) :
    sum g f' = sum g f + (g (n.upper j newId) + g (n.lower j) - g n) := by
  refine h.sum ?_
  rintro f _ ⟨hl, _, _, _, _⟩
  rw [sum_set hl]
  simp only [Forest.sum]
  omega

/-- The split node is one of the tree, and is split inside. -/
theorem has_of_split : Has n s f ∧ 0 < j ∧ j < n.key.length ∧ pageSize ∣ j := by
  induction h with
  | here hr =>
    rcases hr with ⟨hl, hj, hlt, hal, _⟩
    exact ⟨has_of_lookup hl, hj, hlt, hal⟩
  | down hl _ ih => exact ⟨has_trans (has_of_lookup hl) ih.1, ih.2⟩

end Split

section Add

variable {leaf : TreeNode}

theorem treeOk_add (h : Edit (AddLeaf pageSize leaf) path f f')
    (hne : leaf.key.tokenIds ≠ []) (hv : leaf.value.length = leaf.key.length)
    (hf : TreeOk pageSize f) : TreeOk pageSize f' := by
  refine ⟨h.all ?_ (fun _ _ _ _ _ _ hx => hx) hf.nodes, h.distinct ?_ hf.distinct⟩
  · rintro f _ ⟨_, hk⟩ hall
    exact all_set hall ⟨hne, hv, hk⟩ trivial
  · rintro f _ ⟨_, _⟩ hd
    exact distinct_set hd _ _ trivial

theorem all_add {P : TreeNode → Prop} (h : Edit (AddLeaf pageSize leaf) path f f')
    (hleaf : P leaf) (hf : f.All fun _ n _ => P n) : f'.All fun _ n _ => P n := by
  refine h.all ?_ (fun _ _ _ _ _ _ hx => hx) hf
  rintro f _ ⟨_, _⟩ hall
  exact all_set hall hleaf trivial

theorem sum_add_leaf (h : Edit (AddLeaf pageSize leaf) path f f') (g : TreeNode → Int) :
    sum g f' = sum g f + g leaf := by
  refine h.sum ?_
  rintro f _ ⟨hl, _⟩
  rw [sum_set_new hl]
  simp only [Forest.sum]
  omega

end Add

section Erase

/-- An unlocked leaf is taken out of the tree. -/
structure EraseLeaf (x : TreeNode) (f f' : Children) : Prop where
  locate : ∃ above, f.locate (·.id == x.id) = some (above, x, .nil)
  unlocked : x.lockRef = 0
  eq : f' = f.eraseNode (·.id == x.id)

/-- Leaves are taken out one after the other. -/
inductive Evicts : Children → List TreeNode → Children → Prop
  | nil {t : Children} : Evicts t [] t
  | cons {t t' t'' : Children} {x : TreeNode} {removed : List TreeNode} :
      EraseLeaf x t t' → Evicts t' removed t'' → Evicts t (x :: removed) t''

theorem Evicts.snoc {removed : List TreeNode} {f'' : Children} {x : TreeNode}
    (h : Evicts f removed f') (hx : EraseLeaf x f' f'') : Evicts f (removed ++ [x]) f'' := by
  induction h with
  | nil => exact .cons hx .nil
  | cons he _ ih => exact .cons he (ih hx)

variable {x : TreeNode}

theorem treeOk_erase (h : EraseLeaf x f f') (hf : TreeOk pageSize f) : TreeOk pageSize f' := by
  rw [h.eq]
  exact ⟨all_eraseNode _ hf.nodes (fun _ _ _ hP => hP), distinct_eraseNode _ hf.distinct⟩

theorem EraseLeaf.erases (h : EraseLeaf x f f') : ∃ above, Erases x .nil above f f' := by
  rcases h.locate with ⟨above, hl⟩
  exact ⟨above, h.eq ▸ erases_of_locate hl⟩

theorem sum_eraseLeaf (h : EraseLeaf x f f') (g : TreeNode → Int) : sum g f' = sum g f - g x := by
  rcases h.erases with ⟨above, herase⟩
  rw [herase.sum_eq]
  simp only [Forest.sum]
  omega

end Erase

section Ids

/-- Every node has its own id, between the root's and the counter. -/
structure Ids (counter : Nat) (f : Children) : Prop where
  unique : ∀ i, count (·.id == i) f ≤ 1
  range : f.All (fun _ n _ => rootNode < n.id ∧ n.id < counter)

theorem count_eq_zero {i : Nat} (h : f.All (fun _ n _ => n.id ≠ i)) : count (·.id == i) f = 0 := by
  induction f with
  | nil => rfl
  | cons key node children rest ihc ihr =>
    rw [count_cons, ihc h.2.1, ihr h.2.2, if_neg (by simpa using h.1)]
    rfl

variable {counter j : Nat} {x leaf n : TreeNode} {s : Children}

theorem Ids.count_fresh {i : Nat} (h : Ids counter f) (hi : counter ≤ i) :
    count (·.id == i) f = 0 :=
  count_eq_zero (all_mono (fun _ _ _ hn => by omega) h.range)

/-- A split adds the new id; the old one moves to the lower part. -/
theorem count_split {newId : Nat} (h : Edit (SplitAt pageSize n s j newId) path f f') (i : Nat) :
    count (·.id == i) f' = count (·.id == i) f + if newId = i then 1 else 0 := by
  rw [Forest.count, sum_split h]
  simp [TreeNode.upper, TreeNode.lower]

theorem count_add (h : Edit (AddLeaf pageSize leaf) path f f') (i : Nat) :
    count (·.id == i) f' = count (·.id == i) f + if leaf.id = i then 1 else 0 := by
  rw [Forest.count, sum_add_leaf h]
  simp

theorem count_erase (h : EraseLeaf x f f') (i : Nat) :
    count (·.id == i) f' = count (·.id == i) f - if x.id = i then 1 else 0 := by
  rw [Forest.count, sum_eraseLeaf h]
  simp

/-- One more id, and a fresh one. -/
theorem unique_of_count (hi : Ids counter f)
    (h : ∀ i, count (·.id == i) f' = count (·.id == i) f + if counter = i then 1 else 0)
    (i : Nat) : count (·.id == i) f' ≤ 1 := by
  rw [h i]
  split_ifs with hic
  · rw [hi.count_fresh hic.le]
    omega
  · have := hi.unique i
    omega

theorem ids_split (h : Edit (SplitAt pageSize n s j counter) path f f') (hi : Ids counter f)
    (hpos : rootNode < counter) : Ids (counter + 1) f' where
  unique := unique_of_count hi (count_split h)
  range := all_split h (fun hn => ⟨⟨hpos, Nat.lt_succ_self _⟩, hn⟩)
    (all_mono (fun _ _ _ hn => ⟨hn.1, Nat.lt_succ_of_lt hn.2⟩) hi.range)

theorem ids_add (h : Edit (AddLeaf pageSize leaf) path f f') (hi : Ids counter f)
    (hleaf : leaf.id = counter) (hpos : rootNode < counter) :
    Ids (counter + 1) f' where
  unique := unique_of_count hi (hleaf ▸ count_add h)
  range := all_add h (hleaf.symm ▸ ⟨hpos, Nat.lt_succ_self _⟩)
    (all_mono (fun _ _ _ hn => ⟨hn.1, Nat.lt_succ_of_lt hn.2⟩) hi.range)

theorem ids_erase (h : EraseLeaf x f f') (hi : Ids counter f) : Ids counter f' where
  unique := by
    intro i
    rw [count_erase h i]
    have := hi.unique i
    split_ifs <;> omega
  range := by
    rw [h.eq]
    exact all_eraseNode _ hi.range (fun _ _ _ hP => hP)

/-- A leaf of the tree can be taken out. -/
theorem eraseLeaf_of_has (hi : Ids counter f) (hx : Has x .nil f) (hlock : x.lockRef = 0) :
    EraseLeaf x f (f.eraseNode (·.id == x.id)) :=
  ⟨locate_of_has _ hx (by simp) (hi.unique x.id), hlock, rfl⟩

end Ids

section Eviction

theorem mem_collectLeaves {y : TreeNode} (h : y ∈ collectLeaves f) :
    Has y .nil f ∧ y.lockRef = 0 := by
  fun_induction collectLeaves f with
  | case1 => cases h
  | case2 key node rest hlock ih =>
    rcases mem_cons.mp h with rfl | h
    · exact ⟨.inl ⟨rfl, rfl⟩, hlock⟩
    · exact ⟨.inr (.inr (ih h).1), (ih h).2⟩
  | case3 key node rest hlock ih => exact ⟨.inr (.inr (ih h).1), (ih h).2⟩
  | case4 key node children rest _ ihc ihr =>
    rcases mem_append.mp h with h | h
    · exact ⟨.inr (.inl (ihc h).1), (ihc h).2⟩
    · exact ⟨.inr (.inr (ihr h).1), (ihr h).2⟩

/-- No id is collected more often than it occurs. -/
theorem count_collectLeaves_le (f : Children) (i : Nat) :
    (((collectLeaves f).map (·.id)).count i : Int) ≤ count (·.id == i) f := by
  fun_induction collectLeaves f with
  | case1 => exact Int.le_refl _
  | case2 key node rest hlock ih =>
    rw [count_cons, map_cons, List.count_cons]
    have := count_nonneg (fun n : TreeNode => n.id == i) (.nil : Children)
    split_ifs <;> push_cast <;> omega
  | case3 key node rest hlock ih =>
    rw [count_cons]
    have := count_nonneg (fun n : TreeNode => n.id == i) (.nil : Children)
    split_ifs <;> omega
  | case4 key node children rest _ ihc ihr =>
    rw [count_cons, map_append, count_append]
    split_ifs <;> push_cast <;> omega

variable {counter : Nat} {evictable : Int} {x : TreeNode} {s : Evicting}

theorem nodup_collectLeaves (hi : Ids counter f) : ((collectLeaves f).map (·.id)).Nodup := by
  refine nodup_iff_count_le_one.mpr fun i => ?_
  have := count_collectLeaves_le f i
  have := hi.unique i
  omega

theorem heappop_perm {order : List TreeNode → Nat} {heap heap' : List TreeNode}
    (h : heappop order heap = some (x, heap')) : (x :: heap').Perm heap := by
  rw [heappop, Option.map_eq_some_iff] at h
  rcases h with ⟨y, hy, heq⟩
  rcases heq with ⟨rfl, rfl⟩
  rcases List.getElem?_eq_some_iff.mp hy with ⟨hlt, rfl⟩
  exact getElem_cons_eraseIdx_perm hlt

/-- What holds between two rounds of an eviction that started at `f`. -/
structure EvictInv (counter : Nat) (f : Children) (evictable : Int) (s : Evicting) :
    Prop where
  evicts : Evicts f s.removed s.children
  ids : Ids counter s.children
  size : s.evictableSize = evictable - (s.removed.map (fun x => (x.key.length : Int))).sum
  leaf : ∀ y ∈ s.heap, Has y .nil s.children ∧ y.lockRef = 0
  nodup : (s.heap.map (·.id)).Nodup

theorem evictInv_start (hi : Ids counter f) (evictable : Int) :
    EvictInv counter f evictable ⟨f, evictable, collectLeaves f, 0, []⟩ :=
  ⟨.nil, hi, by simp, fun y hy => mem_collectLeaves hy, nodup_collectLeaves hi⟩

/-- One round of the loop: the leaf goes, and its parent may have become a
    leaf that the heap does not hold yet. -/
theorem evictInv_leaf (h : EvictInv counter f evictable s) {heap : List TreeNode}
    (hpop : (x :: heap).Perm s.heap) : EvictInv counter f evictable (evictLeaf s x heap) := by
  rcases h.leaf x (hpop.subset mem_cons_self) with ⟨hx, hlock⟩
  have hids := (hpop.map (·.id)).nodup_iff.mpr h.nodup
  rw [map_cons, nodup_cons] at hids
  have herase := eraseLeaf_of_has h.ids hx hlock
  rcases herase.locate with ⟨above, hloc⟩
  have hrest : ∀ y ∈ heap, Has y .nil (s.children.eraseNode (·.id == x.id)) ∧ y.lockRef = 0 := by
    intro y hy
    rcases h.leaf y (hpop.subset (mem_cons_of_mem _ hy)) with ⟨hh, hl⟩
    refine ⟨(erases_of_locate hloc).has hh ?_, hl⟩
    rintro rfl
    exact hids.1 (mem_map_of_mem hy)
  have hsize : s.evictableSize - x.key.length =
      evictable - ((s.removed ++ [x]).map (fun x => (x.key.length : Int))).sum := by
    rw [h.size, map_append, sum_append, map_singleton, sum_singleton]
    omega
  have hkeep : EvictInv counter f evictable
      ⟨s.children.eraseNode (·.id == x.id), s.evictableSize - x.key.length, heap,
        s.numEvicted + x.value.length, s.removed ++ [x]⟩ :=
    ⟨h.evicts.snoc herase, ids_erase herase h.ids, hsize, hrest, hids.2⟩
  simp only [evictLeaf, hloc, Option.bind_some]
  cases hlast : above.getLast? with
  | none => exact hkeep
  | some parent =>
    simp only
    split
    · rename_i above' parent' hpar
      split_ifs with hunlocked
      · rcases has_of_locate hpar with ⟨hhas, hid⟩
        have hid : parent'.id = parent.id := by simpa using hid
        refine { hkeep with leaf := forall_mem_cons.mpr ⟨⟨hhas, hunlocked⟩, hrest⟩, nodup := ?_ }
        rw [map_cons, nodup_cons]
        refine ⟨fun hmem => ?_, hids.2⟩
        -- Before the round the parent had a child, so it was no leaf.
        rcases mem_map.mp hmem with ⟨y, hy, hyid⟩
        have hyleaf := (h.leaf y (hpop.subset (mem_cons_of_mem _ hy))).1
        rw [getLast?_eq_some_iff] at hlast
        rcases hlast with ⟨top, rfl⟩
        rcases has_parent hloc with ⟨t, ht, hne⟩
        exact hne (has_unique (·.id == parent.id) ht hyleaf (by simp)
          (by simpa [hid] using hyid) (h.ids.unique _)).2
      · exact hkeep
    · exact hkeep

theorem evictInv_loop (order : List TreeNode → Nat) (numTokens rounds : Nat)
    (h : EvictInv counter f evictable s) :
    EvictInv counter f evictable (evictLoop order numTokens rounds s) := by
  induction rounds generalizing s with
  | zero => exact h
  | succ rounds ih =>
    simp only [evictLoop]
    split_ifs
    · cases hpop : heappop order s.heap with
      | none => exact h
      | some popped => exact ih (evictInv_leaf h (heappop_perm hpop))
    · exact h

/-- An eviction takes unlocked leaves out of the tree and their tokens off
    the evictable size. -/
theorem evict_cases (c : Cache) (hi : Ids c.counter c.children) (order : List TreeNode → Nat)
    (numTokens : Nat) : ∃ removed children, c.evict order numTokens = (removed, { c with
        children := children
        evictableSize := c.evictableSize - (removed.map (fun x => (x.key.length : Int))).sum }) ∧
      Evicts c.children removed children := by
  unfold evict
  split_ifs with hd
  · exact ⟨[], c.children, by simp, .nil⟩
  · have hinv := evictInv_loop order numTokens numTokens (evictInv_start hi c.evictableSize)
    exact ⟨_, _, by rw [← hinv.size], hinv.evicts⟩

end Eviction

section Operations

/-- The key a match goes down with: converted, and cut to whole pages. -/
def Cache.lookupKey (c : Cache) (key : RadixKey) : RadixKey :=
  let key := c.maybeBigramConvert key
  if c.pageSize ≠ 1 then key.take (key.length / c.pageSize * c.pageSize) else key

/-- The value that goes with a converted key. -/
def Cache.insertValue (c : Cache) (key : RadixKey) (value : List Nat) : List Nat :=
  if c.isEagle && !key.isBigram then value.take (c.maybeBigramConvert key).length else value

variable (c : Cache)

/-- With pages of one token all of them are whole. -/
theorem Cache.lookupKey_eq (key : RadixKey) :
    (c.lookupKey key).extraKey = (c.maybeBigramConvert key).extraKey ∧
    (c.lookupKey key).tokenIds = (c.maybeBigramConvert key).tokenIds.take
      ((c.maybeBigramConvert key).length / c.pageSize * c.pageSize) := by
  unfold lookupKey
  split_ifs with hone
  · exact ⟨rfl, rfl⟩
  · rw [of_not_not hone, Nat.div_one, Nat.mul_one, RadixKey.length, take_length]
    exact ⟨rfl, rfl⟩

theorem Cache.lookupKey_length_le (key : RadixKey) :
    (c.lookupKey key).length ≤ (c.maybeBigramConvert key).length := by
  rw [RadixKey.length, (c.lookupKey_eq key).2]
  exact length_take_le' _ _

theorem Cache.matchPrefix_eq (key : RadixKey) : c.matchPrefix key =
    if c.disable ∨ (c.maybeBigramConvert key).length = 0 then .ok (⟨[], rootNode, rootNode⟩, c)
    else if (c.lookupKey key).length = 0 then .ok (⟨[], rootNode, rootNode⟩, c) else do
      let childKey ← getChildKey c.pageSize (c.lookupKey key)
      let m ← matchLoop c.pageSize (c.lookupKey key).length rootNode c.children childKey
        (c.lookupKey key) c.counter return (⟨m.values.flatten, m.node, m.node⟩,
        { c with children := m.children, counter := m.counter }) :=
  rfl

/-- A match raises nothing. It finds nothing and changes nothing, or follows
    the walk of its key. -/
theorem matchPrefix_cases (hps : 0 < c.pageSize)
    (hf : TreeOk c.pageSize c.children) (key : RadixKey) :
    ∃ result c', c.matchPrefix key = .ok (result, c') ∧
      (((c.disable = true ∨ (c.lookupKey key).length = 0) ∧
          result = ⟨[], rootNode, rootNode⟩ ∧ c' = c) ∨
        (c.disable = false ∧ 0 < (c.lookupKey key).length ∧ ∃ path m stop r,
          Walk c.pageSize c.children (c.lookupKey key) path m stop ∧
          MatchEnd c.pageSize rootNode c.counter c.children path r stop ∧
          result = ⟨r.values.flatten, r.node, r.node⟩ ∧
          c' = { c with children := r.children, counter := r.counter })) := by
  have hle := c.lookupKey_length_le key
  rw [matchPrefix_eq]
  split_ifs with h1 h2
  · exact ⟨_, _, rfl, .inl ⟨h1.imp_right (by omega), rfl, rfl⟩⟩
  · exact ⟨_, _, rfl, .inl ⟨.inr h2, rfl, rfl⟩⟩
  have hpos : 0 < (c.lookupKey key).length := Nat.pos_of_ne_zero h2
  rcases getChildKey_ok c.pageSize _ (tokenIds_ne_nil hpos) with ⟨k, hk⟩
  rcases exists_walk hps (c.lookupKey key) hpos c.children hf with ⟨path, m, stop, hw⟩
  rcases matchLoop_of_descent (hw.descent hf le_rfl hpos hk) rootNode c.counter with ⟨r, hr, hend⟩
  have henabled : c.disable = false := by simpa using not_or.mp h1 |>.1
  refine ⟨⟨r.values.flatten, r.node, r.node⟩, _, ?_,
    .inr ⟨henabled, hpos, path, m, stop, r, hw, hend, rfl, rfl⟩⟩
  simp only [hk, hr, bind, Except.bind]
  rfl

/-- An insertion raises nothing. It changes nothing, or follows the walk of
    its key. -/
theorem insert_cases (hps : 0 < c.pageSize) (hf : TreeOk c.pageSize c.children)
    (key : RadixKey) (value : List Nat) :
    ∃ n c', c.insert key value = .ok (n, c') ∧
      (((c.disable = true ∨ (c.maybeBigramConvert key).length = 0) ∧ n = 0 ∧ c' = c) ∨
        (c.disable = false ∧ 0 < (c.maybeBigramConvert key).length ∧ ∃ path stop r,
          Walk c.pageSize c.children (c.maybeBigramConvert key) path n stop ∧
          InsertEnd c.pageSize c.counter c.children (c.maybeBigramConvert key)
            (c.insertValue key value) path n r stop ∧
          c' = { c with
            children := r.children
            counter := r.counter
            evictableSize := c.evictableSize + r.grown })) := by
  unfold Cache.insert
  by_cases h1 : c.disable = true
  · rw [if_pos h1]
    exact ⟨_, _, rfl, .inl ⟨.inl h1, rfl, rfl⟩⟩
  rw [if_neg h1]
  by_cases h2 : (c.maybeBigramConvert key).length = 0
  · rw [if_pos h2]
    exact ⟨_, _, rfl, .inl ⟨.inr h2, rfl, rfl⟩⟩
  have hpos := Nat.pos_of_ne_zero h2
  rcases getChildKey_ok c.pageSize _ (tokenIds_ne_nil hpos) with ⟨k, hk⟩
  rcases exists_walk hps _ hpos c.children hf with ⟨path, m, stop, hw⟩
  rcases insertLoop_of_descent (hw.descent hf le_rfl hpos hk) (c.insertValue key value)
    c.counter with ⟨r, hr, rfl, hend⟩
  rw [if_neg h2]
  refine ⟨_, _, ?_, .inr ⟨by simpa using h1, hpos, path, stop, r, hw, hend, rfl⟩⟩
  simp only [insertValue] at hr
  simp only [hk, hr, bind, Except.bind]
  rfl

end Operations

end SglangInc.Radix
