import SglangInc.Lib.Runs
import SglangInc.Theory.Radix.Edits

/-!
# Locks and Sizes

The lock counts of the nodes and the two size counters of the cache, over any
sequence of operations.

A lock is taken on a node and counted on every node above it. Splits put new
nodes into paths that are locked, leaves come and go, and whoever holds a lock
keeps the node's id through all of it. The state therefore carries the ids of
the locks that are out, and the invariant says of each node that its count is
the number of them in its subtree. With the counts known, the counters are
sums over the tree, and each operation is checked against the edits it makes.

## Theorems

* `locks_split`, `locks_add`, `locks_erase`, `locks_alter`: Counts under edits.
* `locks_accounted`: The counts and counters in every state reached.
-/

namespace SglangInc.Radix

open List Forest TreeNode

section Locks

variable {pageSize : Nat} {f f' : Children} {path : List TreeNode} {h h' : Nat → Int}

/-- The count of each node is the sum of the locks on the ids in its
    subtree. -/
def LocksOk (h : Nat → Int) (f : Children) : Prop :=
  f.All (fun _ n s => n.lockRef = h n.id + sum (fun x => h x.id) s)

/-- The new node has the locks of the node below it. -/
theorem locks_split {n : TreeNode} {s : Children} {j newId : Nat}
    (he : Edit (SplitAt pageSize n s j newId) path f f') (hnew : h newId = 0)
    (hf : LocksOk h f) : LocksOk h f' := by
  have hsum : ∀ path t t', Edit (SplitAt pageSize n s j newId) path t t' →
      sum (fun x => h x.id) t' = sum (fun x => h x.id) t := by
    intro path t t' ht
    rw [sum_split ht]
    simp only [upper, lower, hnew]
    omega
  refine he.all ?_ (fun _ _ _ _ _ ht hx => by rw [hx, hsum _ _ _ ht]) hf
  rintro f _ ⟨hl, _, _, _, _⟩ hall
  rcases all_lookup hall hl with ⟨hn, hs⟩
  -- Both parts keep the count, and the new id has no locks of its own.
  refine all_set hall ?_ ⟨hn, hs, trivial⟩
  simp only [upper, lower, Forest.sum, hnew, hn]
  omega

theorem locks_add {leaf : TreeNode} (he : Edit (AddLeaf pageSize leaf) path f f')
    (hlock : leaf.lockRef = 0) (hnew : h leaf.id = 0) (hf : LocksOk h f) : LocksOk h f' := by
  have hsum : ∀ path t t', Edit (AddLeaf pageSize leaf) path t t' →
      sum (fun x => h x.id) t' = sum (fun x => h x.id) t := by
    intro path t t' ht
    rw [sum_add_leaf ht, hnew, Int.add_zero]
  refine he.all ?_ (fun _ _ _ _ _ ht hx => by rw [hx, hsum _ _ _ ht]) hf
  rintro f _ ⟨_, _⟩ hall
  exact all_set hall (by simp only [hlock, hnew, Forest.sum]; rfl) trivial

variable {x : TreeNode} {step : Int} {i : Nat}

/-- An unlocked leaf has no locks on it. -/
theorem locks_eq_zero_of_erase (he : EraseLeaf x f f') (hf : LocksOk h f) : h x.id = 0 := by
  rcases he.locate with ⟨above, hl⟩
  rcases has_of_all hf (has_of_locate hl).1 with ⟨_, hx⟩
  simp only [Forest.sum, he.unlocked] at hx
  omega

theorem locks_erase (he : EraseLeaf x f f') (hf : LocksOk h f) : LocksOk h f' := by
  have hx := locks_eq_zero_of_erase he hf
  rcases he.erases with ⟨above, herase⟩
  clear he
  induction herase with
  | here => exact hf.2.2
  | down hbelow ih =>
    refine ⟨?_, ih hf.2.1, hf.2.2⟩
    have hnode := hf.1
    simp only [hbelow.sum_eq, Forest.sum, hx] at hnode ⊢
    omega
  | past _ ih => exact ⟨hf.1, hf.2.1, ih hf.2.2⟩

variable (hh : ∀ k, h' k = h k + if k = i then step else 0)
include hh

/-- The locks on one id move by a step: what the sums do. -/
theorem sum_shift (f : Children) : sum (fun x => h' x.id) f =
      sum (fun x => h x.id) f + step * count (·.id == i) f := by
  rw [Forest.count, ← sum_mul, ← sum_add]
  congr 1
  funext x
  simp [hh x.id]

/-- The counts along the path to a node move together with the locks on
    it. -/
theorem locks_alter (hc : count (·.id == i) f ≤ 1) (hf : LocksOk h f) :
    LocksOk h' (f.alterPath (·.id == i) (moveLock step)) := by
  induction f with
  | nil => exact trivial
  | cons key node children rest ihc ihr =>
    have hlock : node.lockRef = h node.id + sum (fun x => h x.id) children := hf.1
    have hsum : sum (fun x => h' x.id) (children.alterPath (·.id == i) (moveLock step)) =
        sum (fun x => h x.id) children + step * count (·.id == i) children := by
      rw [sum_alterPath_eq (g := moveLock step) _ (fun _ => rfl), sum_shift hh]
    rw [alterPath_cons _ hc]
    rw [count_cons] at hc
    have hc0 := count_nonneg (·.id == i) children
    have hr0 := count_nonneg (·.id == i) rest
    refine ⟨?_, ihc (by split_ifs at hc <;> omega) hf.2.1,
      ihr (by split_ifs at hc <;> omega) hf.2.2⟩
    simp only [hsum]
    -- The id is once or not at all in the subtree of the node.
    by_cases hi : node.id = i
    · have hzero : count (·.id == i) children = 0 := by
        simp only [hi, beq_self_eq_true, if_true] at hc
        omega
      simp [hi, hzero, moveLock, hlock, hh]
      omega
    · have hone : count (·.id == i) children = 0 ∨ count (·.id == i) children = 1 := by
        split_ifs at hc <;> omega
      rcases hone with hone | hone
      · simp [hi, hone, hlock, hh]
      · simp [hi, hone, moveLock, hlock, hh, Int.add_assoc]

end Locks

section Sizes

/-- What a node adds to `evictable_size_`. -/
def evictableTokens (n : TreeNode) : Int := if n.lockRef = 0 then n.key.length else 0

/-- What a node adds to `protected_size_`. -/
def protectedTokens (n : TreeNode) : Int := if 0 < n.lockRef then n.key.length else 0

variable {j : Nat}

theorem length_split (j : Nat) (n : TreeNode) (newId : Nat) :
    (n.upper j newId).key.length + (n.lower j).key.length = n.key.length := by
  simp only [upper, lower, RadixKey.length, RadixKey.take, RadixKey.drop,
    length_take, List.length_drop]
  omega

theorem tokens_split (n : TreeNode) (newId : Nat) :
    evictableTokens (n.upper j newId) + evictableTokens (n.lower j) - evictableTokens n = 0 ∧
    protectedTokens (n.upper j newId) + protectedTokens (n.lower j) - protectedTokens n = 0 := by
  have hlen := length_split j n newId
  have hu : (n.upper j newId).lockRef = n.lockRef := rfl
  have hl : (n.lower j).lockRef = n.lockRef := rfl
  simp only [evictableTokens, protectedTokens, hu, hl]
  split_ifs <;> omega

/-- A round of a lock loop does to the counters what it does to the node. -/
def Rounds (edge step : Int) (n : TreeNode) : Prop :=
  evictableTokens (n.moveLock step) - evictableTokens n =
      -(step * if n.lockRef = edge then (n.key.length : Int) else 0) ∧
    protectedTokens (n.moveLock step) - protectedTokens n =
      step * if n.lockRef = edge then (n.key.length : Int) else 0

/-- The counters after a lock loop. -/
theorem foldl_round (edge step : Int) (nodes : List TreeNode) (s : Cache.Sizes) :
    let moved := (nodes.map (fun n => if n.lockRef = edge then (n.key.length : Int) else 0)).sum
    (nodes.foldl (Cache.Sizes.round edge step) s).evictable = s.evictable - step * moved ∧
    (nodes.foldl (Cache.Sizes.round edge step) s).protect = s.protect + step * moved := by
  induction nodes generalizing s with
  | nil => simp
  | cons n rest ih =>
    simp only [foldl_cons, map_cons, sum_cons, Int.mul_add] at ih ⊢
    rw [(ih _).1, (ih _).2, Cache.Sizes.round]
    split_ifs
    · constructor <;> simp only <;> omega
    · constructor <;> omega

end Sizes

section Invariant

/-- The tree, the counts and the counters, for the locks that are out. -/
structure Counted (pageSize counter : Nat) (held : List Nat) (f : Children)
    (evictable protect : Int) : Prop where
  tree : TreeOk pageSize f
  ids : Ids counter f
  counter_pos : rootNode < counter
  locks : LocksOk (fun i => held.count i) f
  held : ∀ i ∈ held, i = rootNode ∨ 0 < count (·.id == i) f
  evictable : evictable = sum evictableTokens f
  protect : protect = sum protectedTokens f

variable {pageSize counter : Nat} {held : List Nat} {f f' : Children} {evictable protect : Int}
  {path : List TreeNode}

section

variable (h : Counted pageSize counter held f evictable protect)
include h

/-- An id that is not in the tree yet is not locked. -/
theorem Counted.count_held : held.count counter = 0 := by
  refine List.count_eq_zero.mpr fun hmem => ?_
  rcases h.held counter hmem with hroot | hpos
  · exact absurd hroot h.counter_pos.ne'
  · rw [h.ids.count_fresh le_rfl] at hpos
    omega

theorem Counted.split {n : TreeNode}
    {s : Children} {j : Nat} (he : Edit (SplitAt pageSize n s j counter) path f f') :
    Counted pageSize (counter + 1) held f' evictable protect := by
  refine ⟨treeOk_split he h.tree, ids_split he h.ids h.counter_pos,
    Nat.lt_succ_of_lt h.counter_pos, locks_split he (by simp only [h.count_held]; rfl) h.locks,
    fun i hi => (h.held i hi).imp_right fun hpos => ?_, ?_, ?_⟩
  · rw [count_split he]
    split_ifs <;> omega
  · rw [sum_split he, (tokens_split n counter).1, Int.add_zero]
    exact h.evictable
  · rw [sum_split he, (tokens_split n counter).2, Int.add_zero]
    exact h.protect

theorem Counted.add {leaf : TreeNode}
    (he : Edit (AddLeaf pageSize leaf) path f f') (hid : leaf.id = counter)
    (hlock : leaf.lockRef = 0) (hne : leaf.key.tokenIds ≠ [])
    (hv : leaf.value.length = leaf.key.length) :
    Counted pageSize (counter + 1) held f' (evictable + leaf.key.length) protect := by
  refine ⟨treeOk_add he hne hv h.tree, ids_add he h.ids hid h.counter_pos,
    Nat.lt_succ_of_lt h.counter_pos,
    locks_add he hlock (by simp only [hid, h.count_held]; rfl) h.locks,
    fun i hi => (h.held i hi).imp_right fun hpos => ?_, ?_, ?_⟩
  · rw [count_add he]
    split_ifs <;> omega
  · rw [sum_add_leaf he, evictableTokens, if_pos hlock, h.evictable]
  · rw [sum_add_leaf he, protectedTokens, if_neg (by omega), h.protect, Int.add_zero]

end

variable {x : TreeNode} {t : Children} {i : Nat} {above : List TreeNode}

variable (h : Counted pageSize counter held f evictable protect)

include h

theorem Counted.erase
    (he : EraseLeaf x f f') :
    Counted pageSize counter held f' (evictable - x.key.length) protect := by
  have hzero := locks_eq_zero_of_erase he h.locks
  refine ⟨treeOk_erase he h.tree, ids_erase he h.ids, h.counter_pos, locks_erase he h.locks,
    fun i hi => (h.held i hi).imp_right fun hpos => ?_, ?_, ?_⟩
  · -- The leaf is not locked, so its id is not one that is held.
    have hne : x.id ≠ i := by
      rintro rfl
      have := count_pos_iff.mpr hi
      omega
    rw [count_erase he, if_neg hne]
    omega
  · rw [sum_eraseLeaf he, evictableTokens, if_pos he.unlocked, h.evictable]
  · rw [sum_eraseLeaf he, protectedTokens, he.unlocked, if_neg (by omega), h.protect]
    omega

theorem Counted.evicts
    {removed : List TreeNode} (he : Evicts f removed f') : Counted pageSize counter held f'
      (evictable - (removed.map (fun x => (x.key.length : Int))).sum) protect := by
  induction he generalizing evictable with
  | nil => simpa using h
  | cons hx _ ih =>
    have := ih (h.erase hx)
    rwa [Int.sub_sub] at this

omit h

theorem count_alter (i : Nat) (step : Int) (f : Children) (k : Nat) :
    count (·.id == k) (f.alterPath (·.id == i) (moveLock step)) = count (·.id == k) f :=
  sum_alterPath_eq (g := moveLock step) _ (fun _ => rfl) f

theorem count_cons_held (i k : Nat) :
    ((i :: held).count k : Int) = held.count k + if k = i then 1 else 0 := by
  by_cases hk : k = i
  · simp [hk]
  · simp [hk, Ne.symm hk]

theorem count_erase_held (hi : i ∈ held) (k : Nat) :
    ((held.erase i).count k : Int) = held.count k + if k = i then -1 else 0 := by
  have hpos := count_pos_iff.mpr hi
  rw [List.count_erase]
  by_cases hk : k = i
  · subst hk
    simp only [beq_self_eq_true, if_true]
    omega
  · simp [hk, Ne.symm hk]

variable (h : Counted pageSize counter held f evictable protect)
include h

/-- The counts along the path to a node move by a step, with the locks and the
    counters. -/
theorem Counted.move
    (hl : f.locate (·.id == i) = some (above, x, t)) {held' : List Nat} {edge step : Int}
    (hcount : ∀ k, (held'.count k : Int) = held.count k + if k = i then step else 0)
    (hsub : ∀ k ∈ held', k = rootNode ∨ 0 < count (·.id == k) f)
    (hnode : ∀ y ∈ above ++ [x], Rounds edge step y) :
    let s := (above ++ [x]).reverse.foldl (Cache.Sizes.round edge step) ⟨evictable, protect, 0⟩
    Counted pageSize counter held' (f.alterPath (·.id == i) (moveLock step))
      s.evictable s.protect := by
  have hsum : ∀ (w : TreeNode → Int) (a : Int), (∀ y ∈ above ++ [x], w (y.moveLock step) - w y =
        a * if y.lockRef = edge then (y.key.length : Int) else 0) →
      sum w (f.alterPath (·.id == i) (moveLock step)) = sum w f + a *
        ((above ++ [x]).map
          (fun y => if y.lockRef = edge then (y.key.length : Int) else 0)).sum := by
    intro w a hw
    rw [sum_alterPath hl, map_congr_left hw]
    congr 1
    induction above ++ [x] with
    | nil => simp
    | cons y rest ih => simp only [map_cons, sum_cons, ih, Int.mul_add]
  -- The loop goes up from the node, the sums go down to it.
  have hfold := foldl_round edge step (above ++ [x]).reverse ⟨evictable, protect, 0⟩
  rw [map_reverse, sum_reverse] at hfold
  intro s
  refine ⟨⟨all_alterPath _ (fun _ _ _ _ hn => ⟨hn.nonempty, hn.value_length, hn.slot⟩) h.tree.nodes,
    distinct_alterPath _ _ h.tree.distinct⟩, ⟨fun k => count_alter i step f k ▸ h.ids.unique k,
    all_alterPath _ (fun _ _ _ _ hn => hn) h.ids.range⟩, h.counter_pos,
    locks_alter hcount (h.ids.unique i) h.locks,
    fun k hk => (hsub k hk).imp_right fun hpos => by rwa [count_alter], ?_, ?_⟩
  · rw [hfold.1, hsum evictableTokens (-step) fun y hy => by rw [(hnode y hy).1, Int.neg_mul],
      ← h.evictable, Int.neg_mul]
    rfl
  · rw [hfold.2, hsum protectedTokens step fun y hy => (hnode y hy).2, h.protect]

/-- A node has at least as many locks as any id in its subtree. -/
theorem Counted.le_lockRef {y : TreeNode}
    {s : Children} (hy : Has y s f) (i : Nat) (hi : y.id = i ∨ 0 < count (·.id == i) s) :
    (held.count i : Int) ≤ y.lockRef := by
  rcases has_of_all h.locks hy with ⟨_, heq⟩
  simp only at heq
  have hnonneg : 0 ≤ sum (fun x => (held.count x.id : Int)) s := sum_nonneg (fun _ => by omega) s
  rcases hi with rfl | hi
  · omega
  -- The sum over the subtree has the locks on `i` at least once.
  have hle : (held.count i : Int) * count (·.id == i) s ≤
      sum (fun x => (held.count x.id : Int)) s := by
    rw [Forest.count, ← sum_mul]
    refine sum_le_sum (fun x => ?_) s
    by_cases hx : x.id = i
    · simp [hx]
    · simp only [beq_eq_false_iff_ne.mpr hx, Bool.false_eq_true, if_false, Int.mul_zero]
      omega
  have hone := Int.mul_le_mul_of_nonneg_left (show 1 ≤ count (·.id == i) s by omega)
    (show (0 : Int) ≤ held.count i by omega)
  omega

variable {y : TreeNode}

theorem Counted.rounds_inc (hl : f.locate (·.id == i) = some (above, x, t))
    (hy : y ∈ above ++ [x]) : Rounds 0 1 y := by
  rcases has_of_mem_path hl y hy with ⟨s, hs, _⟩
  have hle := h.le_lockRef hs y.id (.inl rfl)
  simp only [Rounds, evictableTokens, protectedTokens, moveLock]
  constructor <;> split_ifs <;> omega

theorem Counted.rounds_dec (hi : i ∈ held) (hl : f.locate (·.id == i) = some (above, x, t))
    (hy : y ∈ above ++ [x]) : Rounds 1 (-1) y := by
  have hpos := count_pos_iff.mpr hi
  -- Every node of the path has the lock that is given back.
  rcases has_of_mem_path hl y hy with ⟨s, hs, hor⟩
  have hle := h.le_lockRef hs i (hor.imp_left fun hid => by simpa using hid)
  simp only [Rounds, evictableTokens, protectedTokens, moveLock]
  constructor <;> split_ifs <;> omega

end Invariant

section Cache

/-- The cache accounts for the locks that are out. A cache that is disabled
    stays empty. -/
structure Accounted (c : Cache) (held : List Nat) : Prop where
  pageSize_pos : 0 < c.pageSize
  disabled : c.disable = true → c.children = .nil
  counted : Counted c.pageSize c.counter held c.children c.evictableSize c.protectedSize

variable {c c' : Cache} {held : List Nat}

theorem accounted_init (pageSize : Nat) (hps : 0 < pageSize)
    (isEagle disable disableFinishedInsert : Bool) :
    Accounted (Cache.init pageSize isEagle disable disableFinishedInsert) [] where
  pageSize_pos := hps
  disabled := fun _ => rfl
  counted := ⟨⟨trivial, trivial⟩, ⟨fun _ => (by decide : (0 : Int) ≤ 1), trivial⟩,
    Nat.zero_lt_one, trivial, fun _ h => absurd h not_mem_nil, rfl, rfl⟩

theorem length_convertToBigramKey_le (tokens : List TokenId) :
    (convertToBigramKey tokens).length ≤ tokens.length := by
  unfold convertToBigramKey
  split
  · exact le_rfl
  · split_ifs
    · exact Nat.zero_le _
    · rw [length_zipWith]
      exact Nat.min_le_left _ _

variable {value : List Nat} {key : RadixKey} {i : Nat}

theorem Cache.length_insertValue (c : Cache) (hv : value.length = key.length) :
    (c.insertValue key value).length = (c.maybeBigramConvert key).length := by
  unfold Cache.insertValue Cache.maybeBigramConvert
  split_ifs
  · rw [length_take, hv]
    exact Nat.min_eq_left (length_convertToBigramKey_le key.tokenIds)
  · exact hv

/-- The new leaf of an insertion. -/
theorem Counted.leaf {pageSize counter : Nat} {f f' : Children} {evictable protect : Int}
    (h : Counted pageSize counter held f evictable protect) {leaf : TreeNode}
    {m : Nat} {path : List TreeNode} (hleaf : LeafFor counter key value m leaf)
    (he : Edit (AddLeaf pageSize leaf) path f f') (hv : value.length = key.length)
    (hm : m < key.length) :
    Counted pageSize (counter + 1) held f' (evictable + (key.length - m : Nat)) protect := by
  have hlen : leaf.key.length = key.length - m := by
    rw [RadixKey.length, hleaf.tokens, List.length_drop]
    rfl
  rw [← hlen]
  refine h.add he hleaf.id hleaf.lockRef (tokenIds_ne_nil (by omega)) ?_
  rw [hlen, hleaf.value, List.length_drop, hv]

variable (h : Accounted c held)
include h

/-- A match keeps the counts. -/
theorem Accounted.matchPrefix {result : MatchResult}
    (hm : c.matchPrefix key = .ok (result, c')) : Accounted c' held := by
  have hcases := Checked.of_returns (matchPrefix_cases c h.pageSize_pos h.counted.tree key) hm
  rcases hcases with ⟨_, _, rfl⟩ | ⟨henabled, _, path, m, stop, r, _, hend, _, rfl⟩
  · exact h
  refine ⟨h.pageSize_pos, fun hd => absurd (henabled.symm.trans hd) Bool.false_ne_true, ?_⟩
  cases stop with
  | inside n s j =>
    rcases hend with ⟨_, _, hc, he⟩
    simp only [hc]
    exact h.counted.split he
  | missing | exact =>
    rcases hend with ⟨_, _, hc, he⟩
    simp only [hc, he]
    exact h.counted

/-- An insertion keeps the counts. -/
theorem Accounted.insert
    (hv : value.length = key.length) {n : Nat} (hi : c.insert key value = .ok (n, c')) :
    Accounted c' held := by
  have hcases := Checked.of_returns (insert_cases c h.pageSize_pos h.counted.tree key value) hi
  rcases hcases with ⟨_, _, rfl⟩ | ⟨henabled, _, path, stop, r, _, hend, rfl⟩
  · exact h
  have hlen := c.length_insertValue hv
  refine ⟨h.pageSize_pos, fun hd => absurd (henabled.symm.trans hd) Bool.false_ne_true, ?_⟩
  cases stop with
  | exact =>
    rcases hend with ⟨he, hc, hg, _⟩
    simp only [he, hc, hg, Int.natCast_zero, Int.add_zero]
    exact h.counted
  | missing =>
    rcases hend with ⟨leaf, hleaf, he, hc, hg, hlt⟩
    simp only [hc, hg]
    exact h.counted.leaf hleaf he hlen hlt
  | inside n s j =>
    rcases hend with ⟨f', he, ⟨_, hchildren, hc, hg⟩ | ⟨leaf, hleaf, he', hc, hg, hlt⟩⟩
    · simp only [hchildren, hc, hg, Int.natCast_zero, Int.add_zero]
      exact h.counted.split he
    · simp only [hc, hg]
      exact (h.counted.split he).leaf hleaf he' hlen hlt

theorem Accounted.evict (order : List TreeNode → Nat) (numTokens : Nat) :
    Accounted (c.evict order numTokens).2 held := by
  rcases evict_cases c h.counted.ids order numTokens with ⟨removed, children, heq, he⟩
  rw [heq]
  refine ⟨h.pageSize_pos, fun hd => ?_, h.counted.evicts he⟩
  rw [h.disabled hd] at he
  cases he with
  | nil => rfl
  | cons hx _ =>
    rcases hx.locate with ⟨_, hl⟩
    cases hl

/-- A lock that is taken or given back moves the nodes of a path between the
    counters. -/
theorem Accounted.moveLockRef {held' : List Nat} {edge step : Int}
    (hcount : ∀ k, (held'.count k : Int) = held.count k + if k = i then step else 0)
    (hsub : ∀ k ∈ held', k = rootNode ∨ 0 < count (·.id == k) c.children)
    (hnode : ∀ {above x t}, c.children.locate (·.id == i) = some (above, x, t) →
      ∀ y ∈ above ++ [x], Rounds edge step y) : Accounted (c.moveLockRef edge step i).2 held' := by
  -- Locks on the root, or on a cache that is disabled, count nowhere.
  have hkeep : c.children.locate (·.id == i) = none → Accounted c held' := fun hnone =>
    ⟨h.pageSize_pos, h.disabled, { h.counted with
      locks := alterPath_of_count (count_le_zero_of_locate hnone) ▸
        locks_alter hcount (h.counted.ids.unique i) h.counted.locks
      held := hsub }⟩
  unfold Cache.moveLockRef
  split_ifs with hd
  · refine hkeep ?_
    rw [h.disabled hd]
    rfl
  · cases hl : c.children.locate (·.id == i) with
    | none => exact hkeep hl
    | some found =>
      obtain ⟨above, x, t⟩ := found
      exact ⟨h.pageSize_pos, fun hd' => absurd hd' hd, h.counted.move hl hcount hsub (hnode hl)⟩

theorem Accounted.incLockRef (hi : i = rootNode ∨ 0 < count (·.id == i) c.children) :
    Accounted (c.incLockRef i).2 (i :: held) := by
  exact h.moveLockRef (count_cons_held i) (forall_mem_cons.mpr ⟨hi, h.counted.held⟩)
    fun hl _ hy => h.counted.rounds_inc hl hy

theorem Accounted.decLockRef (hi : i ∈ held) : Accounted (c.decLockRef i).2 (held.erase i) :=
  h.moveLockRef (count_erase_held hi) (fun k hk => h.counted.held k (mem_of_mem_erase hk))
    fun hl _ hy => h.counted.rounds_dec hi hl hy

end Cache

/-- The cache, and the nodes on which a lock has been taken and not yet given
    back, with repetitions. -/
structure Locked where
  cache : Cache
  held : List Nat

/-- The calls of the cache. -/
inductive Op where
  | insert (key : RadixKey) (value : List Nat)
  | matchPrefix (key : RadixKey)
  | evict (order : List TreeNode → Nat) (numTokens : Nat)
  | incLockRef (node : Nat)
  | decLockRef (node : Nat)

/-- One operation. A value has an index for each token, a lock is taken on a
    node of the tree or on its root, and given back as often as it was
    taken. -/
def Step (s : Locked) (op : Op) (s' : Locked) : Prop :=
  match op with
  | .insert key value => value.length = key.length ∧
      ∃ n c, s.cache.insert key value = .ok (n, c) ∧ s' = ⟨c, s.held⟩
  | .matchPrefix key => ∃ result c, s.cache.matchPrefix key = .ok (result, c) ∧ s' = ⟨c, s.held⟩
  | .evict order numTokens => s' = ⟨(s.cache.evict order numTokens).2, s.held⟩
  | .incLockRef node =>
    (node = rootNode ∨ (s.cache.children.locate (·.id == node)).isSome) ∧
    s' = ⟨(s.cache.incLockRef node).2, node :: s.held⟩
  | .decLockRef node => node ∈ s.held ∧ s' = ⟨(s.cache.decLockRef node).2, s.held.erase node⟩

/-- Every operation keeps the invariant. -/
theorem accounted_step {s s' : Locked} {op : Op} (h : Accounted s.cache s.held)
    (hs : Step s op s') : Accounted s'.cache s'.held := by
  cases op with
  | insert key value =>
    rcases hs with ⟨hv, n, c, hi, rfl⟩
    exact h.insert hv hi
  | matchPrefix key =>
    rcases hs with ⟨result, c, hm, rfl⟩
    exact h.matchPrefix hm
  | evict order numTokens =>
    rw [show s' = _ from hs]
    exact h.evict order numTokens
  | incLockRef node =>
    rcases hs with ⟨hnode, rfl⟩
    exact h.incLockRef (hnode.imp_right (locate_isSome_iff _ _).mp)
  | decLockRef node =>
    rcases hs with ⟨hnode, rfl⟩
    exact h.decLockRef hnode

/-- The number of the locks that are out on nodes of a forest. -/
def locksIn (held : List Nat) (f : Children) : Nat :=
  held.countP (fun i => (f.locate (·.id == i)).isSome)

/-- With every id used once, the sum over the nodes counts each lock once. -/
theorem sum_eq_locksIn (held : List Nat) {f : Children} (hf : ∀ i, count (·.id == i) f ≤ 1) :
    sum (fun x => (held.count x.id : Int)) f = locksIn held f := by
  induction held with
  | nil =>
    rw [locksIn, countP_nil]
    exact Int.le_antisymm (by
      have := sum_mul 0 (fun _ : TreeNode => (0 : Int)) f
      simpa using Int.le_of_eq this) (sum_nonneg (fun _ => by omega) f)
  | cons a held ih =>
    rw [sum_shift (h := fun i => (held.count i : Int)) (count_cons_held a), ih, locksIn, locksIn,
      countP_cons]
    have hle := hf a
    have hiff := locate_isSome_iff (·.id == a) f
    split_ifs with hsome
    · have := hiff.mp hsome
      push_cast
      omega
    · have := count_nonneg (·.id == a) f
      have hzero : ¬ 0 < count (·.id == a) f := fun hpos => hsome (hiff.mpr hpos)
      push_cast
      omega

/-- What every node of the tree meets: its count is the number of locks out
    in its subtree, no child's count is larger, and it is a well-formed node
    under its own dictionary key. -/
structure NodeAccounted (pageSize : Nat) (held : List Nat) (k : ChildKey) (n : TreeNode)
    (below : Children) : Prop where
  lockRef_eq : n.lockRef = locksIn held (.cons k n below .nil)
  nonneg : 0 ≤ n.lockRef
  child_le : ∀ k' child t, below.lookup k' = some (child, t) → child.lockRef ≤ n.lockRef
  nonempty : n.key.tokenIds ≠ []
  length_eq : n.value.length = n.key.length
  slot : getChildKey pageSize n.key = .ok k

/-- Each node has the locks of the paths through it. -/
theorem Accounted.node {c : Cache} {held : List Nat} (h : Accounted c held) :
    c.children.All (NodeAccounted c.pageSize held) := by
  have hlocks : c.children.All (fun _ n below => ∀ k,
      n.lockRef = locksIn held (.cons k n below .nil) ∧
      ∀ k' child t, below.lookup k' = some (child, t) → child.lockRef ≤ n.lockRef) := by
    refine all_of_has fun n below hn k => ?_
    rcases has_of_all h.counted.locks hn with ⟨_, heq⟩
    simp only at heq
    constructor
    · rw [← sum_eq_locksIn held fun i => by
        rw [count_cons]
        exact (Int.add_zero _).trans_le (count_subtree_le _ hn) |>.trans (h.counted.ids.unique i)]
      simp [Forest.sum, heq]
    · intro k' child t hl
      rcases has_of_all h.counted.locks (has_trans hn (has_of_lookup hl)) with ⟨_, hchild⟩
      simp only at hchild
      have hrest := sum_erase hl (fun x => (held.count x.id : Int))
      have := sum_nonneg (g := fun x : TreeNode => (held.count x.id : Int)) (fun _ => by omega)
        (below.erase k')
      omega
  refine all_mono (fun k n below hn => ?_) (all_and hlocks h.counted.tree.nodes)
  have heq := (hn.1 k).1
  exact ⟨heq, by omega, (hn.1 k).2, hn.2.nonempty, hn.2.value_length, hn.2.slot⟩

/-- In every state that any sequence of operations reaches, every node's count
    is the number of locks out in its subtree, the two counters are the tokens
    of the unlocked and of the locked nodes, and the next operation raises
    nothing. -/
theorem locks_accounted (pageSize : Nat) (hps : 0 < pageSize)
    (isEagle disable disableFinishedInsert : Bool) (tr : List (Locked × Op × Locked)) (s : Locked)
    (hrun : Run Step ⟨Cache.init pageSize isEagle disable disableFinishedInsert, []⟩ tr s) :
    s.cache.children.All (NodeAccounted s.cache.pageSize s.held) ∧
    s.cache.evictableSize = sum evictableTokens s.cache.children ∧
    s.cache.protectedSize = sum protectedTokens s.cache.children ∧
    (∀ key value, ∃ n c, s.cache.insert key value = .ok (n, c)) ∧
    (∀ key, ∃ result c, s.cache.matchPrefix key = .ok (result, c)) := by
  have h : Accounted s.cache s.held :=
    hrun.inv (P := fun s => Accounted s.cache s.held)
      (accounted_init pageSize hps isEagle disable disableFinishedInsert)
      (fun _ _ _ => accounted_step)
  refine ⟨h.node, h.counted.evictable, h.counted.protect, fun key value => ?_, fun key => ?_⟩
  · rcases insert_cases s.cache h.pageSize_pos h.counted.tree key value with ⟨n, c, heq, _⟩
    exact ⟨n, c, heq⟩
  · rcases matchPrefix_cases s.cache h.pageSize_pos h.counted.tree key with ⟨result, c, heq, _⟩
    exact ⟨result, c, heq⟩

/-- The cache after one insertion of two tokens. -/
def oneLeaf : Cache :=
  { Cache.init 1 false false false with
    children := .cons (.plain (.token (.int 1)))
      ⟨1, ⟨[.int 1, .int 2], none, false⟩, [7, 8], 0⟩ .nil .nil
    evictableSize := 2
    counter := 2 }

/-- The key is inserted and locked, and a match of its first token splits the
    locked node. -/
theorem locks_accounted_split : ∃ tr s,
    Run Step ⟨Cache.init 1 false false false, []⟩ tr s ∧ s.held = [1] ∧
    s.cache.children.locate (·.id == 1) ≠ none ∧
    s.cache.children.All (NodeAccounted s.cache.pageSize s.held) ∧
    s.cache.evictableSize = sum evictableTokens s.cache.children ∧
    s.cache.protectedSize = sum protectedTokens s.cache.children ∧
    (∀ key value, ∃ n c, s.cache.insert key value = .ok (n, c)) ∧
    (∀ key, ∃ result c, s.cache.matchPrefix key = .ok (result, c)) := by
  have insert : Step ⟨Cache.init 1 false false false, []⟩
      (.insert ⟨[.int 1, .int 2], none, false⟩ [7, 8]) ⟨oneLeaf, []⟩ := ⟨rfl, _, _, rfl, rfl⟩
  have lock : Step ⟨oneLeaf, []⟩ (.incLockRef 1) ⟨(oneLeaf.incLockRef 1).2, [1]⟩ :=
    ⟨.inr rfl, rfl⟩
  have split : Step ⟨(oneLeaf.incLockRef 1).2, [1]⟩ (.matchPrefix ⟨[.int 1], none, false⟩) _ :=
    ⟨_, _, rfl, rfl⟩
  have hrun := ((Run.nil.snoc _ insert).snoc _ lock).snoc _ split
  exact ⟨_, _, hrun, rfl, by decide, locks_accounted 1 (by decide) false false false _ _ hrun⟩

end SglangInc.Radix
