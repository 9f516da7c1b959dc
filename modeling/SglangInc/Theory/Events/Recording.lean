import SglangInc.Core.KvEvents
import SglangInc.Theory.Events.Pages

/-!
# What the Cache Records

With every node's `hash_value` in place (`Hashed`), nothing is left to compute
lazily, and the events of a node are read off its pages: `storeEvent` and
`removeEvent`, one for each page. A split takes the hashes of a node apart where
it takes its pages apart, and removes all of its pages for the subscriber.

The loops with events do what the loops without them do, and what they record
follows from the walk of the key: a split for a walk that ends inside a node, a
stored leaf for what is left of the key.

## Theorems

* `recordStoreEvent_eq`, `recordSplit_eq`, `recordRemoveEvent_eq`: What is
  recorded.
-/

namespace SglangInc.Radix

open List Function Forest HashChain Recorder

variable {η β : Type} (h : Hasher η β) (pageSize : Nat)

/-- The hash of the last page of a path. -/
def lastHash (path : List TreeNode) : Option η :=
  pathHash h.getHashStr none (pathPages pageSize path)

/-- A node, below the nodes above it, has the hashes of its pages. -/
def Hashed (r : Recorder η β) (b : List TreeNode × TreeNode) : Prop :=
  r.hashValue b.2.id = some (chain h.getHashStr (lastHash h pageSize b.1) (b.2.pages pageSize))

/-- So does the last node of a path, if there is one. -/
def ParentHashed (r : Recorder η β) (path : List TreeNode) : Prop :=
  ∀ above n, path = above ++ [n] → Hashed h pageSize r (above, n) ∧ n.key.tokenIds ≠ []

/-- The hash that events carry for a page. -/
def blockHash (q : Page) : β :=
  h.hashStrToInt64 (chunkHash h.getHashStr q)

/-- The event of a page that is stored. -/
def storeEvent (q : Page) : KvCacheEvent β :=
  .blockStored [blockHash h q] ((pathHash h.getHashStr none q.1).map h.hashStrToInt64) q.2
    q.2.length none

/-- The event of a page that is evicted. -/
def removeEvent (q : Page) : KvCacheEvent β :=
  .blockRemoved [blockHash h q]

namespace Recorder

/-- After a new leaf. -/
def stored (r : Recorder η β) (path : List TreeNode) (id : Nat) (tokens : List TokenId) :
    Recorder η β :=
  { r with
    hashValue := update r.hashValue id
      (some (chain h.getHashStr (lastHash h pageSize path) (chunks pageSize tokens)))
    kvEventQueue := r.kvEventQueue ++
      (extensions (pathPages pageSize path) (chunks pageSize tokens)).map (storeEvent h) }

/-- After the pages of a node were removed for the subscriber. -/
def removed (r : Recorder η β) (b : List TreeNode × TreeNode) : Recorder η β :=
  { r with kvEventQueue := r.kvEventQueue ++ (branchPages pageSize b).map (removeEvent h) }

/-- After a split. -/
def split (r : Recorder η β) (path : List TreeNode) (n : TreeNode) (j newId : Nat) : Recorder η β :=
  { r.removed h pageSize (path, n) with
    hashValue := update (update r.hashValue newId
      (some (chain h.getHashStr (lastHash h pageSize path) ((n.upper j newId).pages pageSize))))
      n.id (some (chain h.getHashStr (lastHash h pageSize (path ++ [n.upper j newId]))
        ((n.lower j).pages pageSize))) }

/-- After a match. -/
def afterMatch (r : Recorder η β) (path : List TreeNode) (counter : Nat) : Stop → Recorder η β
  | .inside n _ j => r.split h pageSize path n j counter
  | _ => r

/-- After an insertion. -/
def afterInsert (r : Recorder η β) (path : List TreeNode) (key : RadixKey) (m counter : Nat) :
    Stop → Recorder η β
  | .exact => r
  | .missing => r.stored h pageSize path counter (key.tokenIds.drop m)
  | .inside n _ j =>
    if key.length ≤ m then r.split h pageSize path n j counter
    else (r.split h pageSize path n j counter).stored h pageSize (path ++ [n.upper j counter])
      (counter + 1) (key.tokenIds.drop m)

end Recorder

variable {h pageSize} {r : Recorder η β} {path : List TreeNode} {n : TreeNode}

theorem Hashed.eq (hn : Hashed h pageSize r (path, n)) : r.hashValue n.id =
    some (chain h.getHashStr (lastHash h pageSize path) (n.pages pageSize)) := hn

theorem Hashed.ne_of_none {i : Nat} (hn : Hashed h pageSize r (path, n))
    (hnone : r.hashValue i = none) : i ≠ n.id := by
  rintro rfl
  cases hnone.symm.trans hn.eq

theorem lastHash_append (path : List TreeNode) (n : TreeNode) : lastHash h pageSize (path ++ [n]) =
      pathHash h.getHashStr (lastHash h pageSize path) (n.pages pageSize) := by
  rw [lastHash, pathPages_append, pathPages_singleton, pathHash_append]
  rfl

section Nodes

theorem storeLoop_chain (pre u : List (List TokenId)) :
    storeLoop h ((pathHash h.getHashStr none pre).map h.hashStrToInt64) u
        (chain h.getHashStr (pathHash h.getHashStr none pre) u) =
      .ok ((extensions pre u).map (storeEvent h)) := by
  induction u generalizing pre with
  | nil => rfl
  | cons page rest ih =>
    have hnext := ih (pre ++ [page])
    rw [pathHash_concat, Option.map_some] at hnext
    rw [chain, storeLoop]
    simp only [hnext, bind, Except.bind]
    rfl

theorem removeLoop_chain (pre u : List (List TokenId)) :
    removeLoop h u (chain h.getHashStr (pathHash h.getHashStr none pre) u) =
      .ok ((extensions pre u).map (removeEvent h)) := by
  induction u generalizing pre with
  | nil => rfl
  | cons page rest ih =>
    have hnext := ih (pre ++ [page])
    rw [pathHash_concat] at hnext
    rw [chain, removeLoop]
    simp only [hnext, bind, Except.bind]
    rfl

theorem recordRemoveEvent_eq (hon : r.enableKvCacheEvents = true)
    (hn : Hashed h pageSize r (path, n)) (parent : Option TreeNode) :
    r.recordRemoveEvent h pageSize parent n = .ok (r.removed h pageSize (path, n)) := by
  unfold recordRemoveEvent hashed
  rw [if_pos hon, hn.eq]
  have hloop := removeLoop_chain (h := h) (pathPages pageSize path) (n.pages pageSize)
  simp only [bind, Except.bind]
  rw [lastHash, ← TreeNode.pages, hloop]
  rfl

variable (hps : 0 < pageSize)

include hps

/-- The last hash of the parent is that of the pages so far. -/
theorem bind_getLast? (hp : ParentHashed h pageSize r (path ++ [n])) :
    ((r.hashValue n.id).bind List.getLast?) = lastHash h pageSize (path ++ [n]) := by
  rcases hp path n rfl with ⟨hn, hne⟩
  rw [hn.eq, Option.bind_some, lastHash_append]
  exact getLast?_chain _ (chunks_ne_nil hps hne)

theorem parentHash_eq (hp : ParentHashed h pageSize r path) :
    r.parentHash path.getLast? = lastHash h pageSize path := by
  cases path using reverseRecOn with
  | nil => rfl
  | append_singleton path n =>
    have hlast := bind_getLast? hps hp
    rcases hp path n rfl with ⟨hn, hne⟩
    rw [hn.eq, Option.bind_some] at hlast
    rw [getLast?_concat, parentHash, hn.eq]
    simp only
    rw [RadixKey.length, if_pos (length_pos_iff.mpr hne), hlast]

theorem parentBlockHash_eq (hp : ParentHashed h pageSize r path) :
    r.parentBlockHash h path.getLast? = (lastHash h pageSize path).map h.hashStrToInt64 := by
  cases path using reverseRecOn with
  | nil => rfl
  | append_singleton path n =>
    rw [getLast?_concat, parentBlockHash, bind_getLast? hps hp]

/-- A new node has no `hash_value`, so it is computed and stored, unless an id does not fit. -/
theorem recordStoreEvent_eq (hon : r.enableKvCacheEvents = true)
    (hnone : r.hashValue n.id = none) (hp : ParentHashed h pageSize r path) :
    r.recordStoreEvent h pageSize path.getLast? n =
      if n.key.tokenIds.all TokenId.fits then
        .ok (r.stored h pageSize path n.id n.key.tokenIds)
      else .error .overflowError := by
  unfold recordStoreEvent hashed
  rw [if_pos hon, hnone]
  simp only [computeNodeHashValues, parentHash_eq hps hp]
  split_ifs
  swap
  · rfl
  have hparent : ∀ hashes, parentBlockHash h { r with
      hashValue := update r.hashValue n.id (some hashes) } path.getLast? =
      (lastHash h pageSize path).map h.hashStrToInt64 := by
    intro hashes
    rw [← parentBlockHash_eq hps hp]
    rcases hlast : path.getLast? with _ | p
    · rfl
    -- The parent has its hashes, so it is another node.
    rcases getLast?_eq_some_iff.mp hlast with ⟨above, rfl⟩
    have hne := ((hp above p rfl).1.ne_of_none hnone).symm
    unfold parentBlockHash
    simp only
    rw [update_of_ne hne]
  simp only [bind, Except.bind, pure, Except.pure, hparent]
  rw [lastHash, storeLoop_chain]
  rfl

omit hps

variable {j : Nat}

/-- The two halves share the hashes of the node. -/
theorem recordSplit_eq (hps : 0 < pageSize) (hon : r.enableKvCacheEvents = true)
    (hn : Hashed h pageSize r (path, n)) (hj : pageSize ∣ j) (hlt : j < n.key.length)
    (newId : Nat) (parent : Option TreeNode) :
    r.recordSplit h pageSize parent n j newId = .ok (r.split h pageSize path n j newId) := by
  have hpages : (if pageSize = 1 then j else j / pageSize) =
      (chain h.getHashStr (lastHash h pageSize path)
        ((n.upper j newId).pages pageSize)).length := by
    have hlen : (n.key.tokenIds.take j).length = j := length_take_of_le hlt.le
    rw [length_chain, TreeNode.pages, TreeNode.upper, RadixKey.take,
      length_chunks_of_dvd hps (hlen.symm ▸ hj), hlen]
    split_ifs with hone
    · rw [hone, Nat.div_one]
    · rfl
  unfold recordSplit
  rw [recordRemoveEvent_eq hon hn]
  simp only [bind, Except.bind, removed, hn.eq, splitNodeHashValue, hpages]
  rw [← pages_split hps hj hlt newId, chain_append, ← lastHash_append, take_left, drop_left]
  rfl

end Nodes

section Loops

variable {f : Children} {k : ChildKey} {key : RadixKey} {above : List TreeNode} {rounds m : Nat}
  {stop : Stop}

/-- Every node of a forest below some nodes has its hashes. -/
def AllHashed (h : Hasher η β) (pageSize : Nat) (r : Recorder η β) (above : List TreeNode)
    (f : Children) : Prop :=
  ∀ b ∈ branches above f, Hashed h pageSize r b

theorem AllHashed.lookup {s : Children} (ha : AllHashed h pageSize r above f)
    (hl : f.lookup k = some (n, s)) :
    Hashed h pageSize r (above, n) ∧ AllHashed h pageSize r (above ++ [n]) s := by
  rcases mem_branches_of_lookup above hl with ⟨hn, hs⟩
  exact ⟨ha _ hn, fun b hb => ha b (hs b hb)⟩

theorem parentId_concat (above : List TreeNode) (n : TreeNode) :
    parentId (above ++ [n]).getLast? = n.id := by
  rw [getLast?_concat]
  rfl

/-- A match with events does what one without does, and records a split if its
    walk ends inside a node. -/
theorem recordMatchLoop_of_descent (hps : 0 < pageSize)
    (hd : Descent pageSize rounds f k key path m stop)
    (counter : Nat) (hon : r.enableKvCacheEvents = true) (ha : AllHashed h pageSize r above f) :
    ∃ m', matchLoop pageSize rounds (parentId above.getLast?) f k key counter = .ok m' ∧
      recordMatchLoop h pageSize rounds above.getLast? f k key counter r =
        .ok (m', r.afterMatch h pageSize (above ++ path) counter stop) := by
  induction hd generalizing above with
  | missing _ _ hl =>
    simp only [matchLoop, recordMatchLoop, hl]
    exact ⟨_, rfl, rfl⟩
  | @inside _ _ _ _ _ s _ hn hl hj hm _ hin =>
    rcases splitNode_ok hn s hin counter with ⟨below, hbelow, hsplit⟩
    have hrec := recordSplit_eq hps hon (ha.lookup hl).1 hm.aligned hin counter
      above.getLast?
    simp only [matchLoop, recordMatchLoop, hl, hj, bind, Except.bind, if_pos hin, hsplit, hrec]
    rw [List.append_nil]
    exact ⟨_, rfl, rfl⟩
  | exact hl hj hn hlen =>
    simp only [matchLoop, recordMatchLoop, hl, hj, bind, Except.bind, if_neg hn, if_pos hlen]
    exact ⟨_, rfl, rfl⟩
  | down _ hl hj hn _ hlen hk _ ih =>
    rcases ih (ha.lookup hl).2 with ⟨m', hplain, hrec⟩
    rw [parentId_concat] at hplain
    rw [getLast?_concat, append_assoc, singleton_append] at hrec
    simp only [matchLoop, recordMatchLoop, hl, hj, bind, Except.bind, if_neg hn, if_neg hlen, hk,
      hplain, hrec]
    exact ⟨_, rfl, rfl⟩

theorem ParentHashed.concat (hn : Hashed h pageSize r (above, n)) (hne : n.key.tokenIds ≠ []) :
    ParentHashed h pageSize r (above ++ [n]) := by
  intro above' n' heq
  rcases append_inj' heq rfl with ⟨rfl, hcons⟩
  rw [← singleton_inj.mp hcons]
  exact ⟨hn, hne⟩

/-- After a split the new node and the old one have their hashes. -/
theorem hashed_upper {j newId : Nat} (hne : newId ≠ n.id) :
    Hashed h pageSize (r.split h pageSize path n j newId) (path, n.upper j newId) := by
  unfold Hashed split
  simp only [TreeNode.upper]
  rw [update_of_ne hne, update_self]

/-- The same for an insertion, which also records what is left of the key as a
    new leaf, if it has hashes. -/
theorem recordInsertLoop_of_descent (hps : 0 < pageSize)
    (hd : Descent pageSize rounds f k key path m stop)
    (value : List Nat) (counter : Nat) (hon : r.enableKvCacheEvents = true)
    (ha : AllHashed h pageSize r above f) (hp : ParentHashed h pageSize r above)
    (hfresh : ∀ i, counter ≤ i → r.hashValue i = none) :
    ∃ i, insertLoop pageSize rounds f k key value counter = .ok i ∧
      (recordInsertLoop h pageSize rounds above.getLast? f k key value counter r =
          .ok (i, r.afterInsert h pageSize (above ++ path) key m counter stop) ∨
        recordInsertLoop h pageSize rounds above.getLast? f k key value counter r =
          .error .overflowError) := by
  induction hd generalizing above value with
  | @missing rounds f k key _ _ hl =>
    have hrec := recordStoreEvent_eq (n := ⟨counter, key, value, 0⟩) hps hon
      (hfresh counter le_rfl) hp
    simp only [insertLoop, recordInsertLoop, hl, bind, Except.bind, hrec]
    rw [List.append_nil]
    refine ⟨_, rfl, ?_⟩
    split_ifs
    · exact .inl rfl
    · exact .inr rfl
  | @inside rounds f k key n s j hn hl hj hm hpos hin hr =>
    rcases splitNode_ok hn s hin counter with ⟨below, hbelow, hsplit⟩
    have hhashed := (ha.lookup hl).1
    have hrec := recordSplit_eq hps hon hhashed hm.aligned hin counter above.getLast?
    have hlen := length_drop key j
    rw [List.append_nil]
    unfold afterInsert
    by_cases hend : (key.drop j).length = 0
    · simp only [insertLoop, recordInsertLoop, hl, hj, bind, Except.bind, if_pos hin, hsplit,
        hrec, pure, Except.pure, if_pos hend]
      rw [if_pos (by omega)]
      exact ⟨_, rfl, .inl rfl⟩
    obtain ⟨rounds, k'', rfl, hk'', hnone⟩ := exists_below (s := s) hm hpos hin hr hend hbelow
    -- The leaf goes below the node that the split has just made.
    have hne := hhashed.ne_of_none (hfresh counter le_rfl)
    have hne' := hhashed.ne_of_none (hfresh (counter + 1) (Nat.le_succ _))
    have hparent : ParentHashed h pageSize (r.split h pageSize above n j counter)
        (above ++ [n.upper j counter]) :=
      .concat (hashed_upper hne) (nodeOk_upper hn hpos hin hm.aligned counter).nonempty
    have hleaf : (r.split h pageSize above n j counter).hashValue (counter + 1) = none := by
      unfold split
      simp only
      rw [update_of_ne hne', update_of_ne (Nat.succ_ne_self _)]
      exact hfresh _ (Nat.le_succ _)
    have hstore := recordStoreEvent_eq (n := ⟨counter + 1, key.drop j, value.drop j, 0⟩)
      (r := r.split h pageSize above n j counter) hps hon hleaf hparent
    rw [getLast?_concat] at hstore
    simp only [insertLoop, recordInsertLoop, hl, hj, bind, Except.bind, if_pos hin, hsplit,
      hrec, pure, Except.pure, if_neg hend, hk'', hnone, hstore]
    refine ⟨_, rfl, ?_⟩
    rw [if_neg (show ¬key.length ≤ j by omega)]
    split_ifs
    · exact .inl rfl
    · exact .inr rfl
  | exact hl hj hn hlen =>
    simp only [insertLoop, recordInsertLoop, hl, hj, bind, Except.bind, if_neg hn, pure,
      Except.pure, if_pos hlen]
    exact ⟨_, rfl, .inl rfl⟩
  | @down rounds f k key n s j k' path m stop hn hl hj hin hlt hlen hk _ ih =>
    rcases ha.lookup hl with ⟨hhashed, hbelow⟩
    rcases ih (value.drop j) hbelow (.concat hhashed hn.nonempty) with ⟨i, hplain, hrec⟩
    rw [getLast?_concat, append_assoc, singleton_append] at hrec
    simp only [insertLoop, recordInsertLoop, hl, hj, bind, Except.bind, if_neg hin, pure,
      Except.pure, if_neg hlen, hk, hplain]
    refine ⟨_, rfl, ?_⟩
    rcases hrec with hrec | hrec
    swap
    · rw [hrec]
      exact .inr rfl
    rw [hrec]
    left
    -- The same tokens are left of the key, further down.
    have hdrop : ∀ m', (key.drop j).tokenIds.drop m' = key.tokenIds.drop (j + m') := fun m' =>
      drop_drop
    have hle : (key.drop j).length ≤ m ↔ key.length ≤ j + m := by
      rw [length_drop]
      omega
    cases stop with
    | exact => rfl
    | missing => simp only [afterInsert, hdrop]
    | inside => simp [afterInsert, hdrop, hle]

/-- The loop of `evict` with events does what the one without does. What holds
    before it and is kept for each evicted leaf, with the events of its pages,
    holds after it. -/
theorem recordEvictLoop_rule {P : Children → Recorder η β → Prop}
    (hhashed : ∀ f r, P f r → r.enableKvCacheEvents = true ∧ AllHashed h pageSize r [] f)
    (hstep : ∀ f r above x, P f r → f.locate (·.id == x.id) = some (above, x, .nil) →
      EraseLeaf x f (f.eraseNode (·.id == x.id)) →
      P (f.eraseNode (·.id == x.id)) (r.removed h pageSize (above, x)))
    (order : List TreeNode → Nat) (numTokens rounds : Nat) {counter : Nat} {evictable : Int}
    {s : Cache.Evicting} (hinv : EvictInv counter f evictable s) (hP : P s.children r) :
    ∃ r', recordEvictLoop h pageSize order numTokens rounds s r =
        .ok (Cache.evictLoop order numTokens rounds s, r') ∧
      P (Cache.evictLoop order numTokens rounds s).children r' := by
  induction rounds generalizing s r with
  | zero => exact ⟨r, rfl, hP⟩
  | succ rounds ih =>
    unfold recordEvictLoop Cache.evictLoop
    by_cases hlt : s.numEvicted < numTokens
    · rw [if_pos hlt, if_pos hlt]
      cases hpop : Cache.heappop order s.heap with
      | none => exact ⟨r, rfl, hP⟩
      | some popped =>
        obtain ⟨x, heap⟩ := popped
        have hperm := heappop_perm hpop
        rcases hinv.leaf x (hperm.subset mem_cons_self) with ⟨hx, hlock⟩
        have herase := eraseLeaf_of_has hinv.ids hx hlock
        rcases herase.locate with ⟨above, hloc⟩
        -- A leaf has its hashes when it is evicted.
        rcases hhashed _ _ hP with ⟨hon, hall⟩
        have hbranches := (erases_of_locate hloc).branches []
        have hmem := hbranches.symm.subset mem_cons_self
        have hrec := recordRemoveEvent_eq hon (hall _ hmem)
          ((s.children.locate (·.id == x.id)).bind (·.1.getLast?))
        have hchildren : (Cache.evictLeaf s x heap).children =
            s.children.eraseNode (·.id == x.id) := rfl
        simp only [bind, Except.bind, hrec]
        exact ih (evictInv_leaf hinv hperm) (hchildren ▸ hstep _ _ above x hP hloc herase)
    · rw [if_neg hlt, if_neg hlt]
      exact ⟨r, rfl, hP⟩

end Loops

end SglangInc.Radix
