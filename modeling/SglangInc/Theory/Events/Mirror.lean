import SglangInc.Theory.Radix.Accounting
import SglangInc.Theory.Events.Recording

/-!
# What a Subscriber Sees

A subscriber replays the events and ends up with a set of block hashes. It
mirrors the cache if these are the hashes of the pages in the tree.

A leaf that is added or evicted comes with the events of its pages, and the
subscriber follows. A split does not change the pages of the tree, but
`_split_node` records all pages of the node as removed and never stores them
again, so the subscriber loses them. Splits are all that goes wrong: a run is
mirrored throughout exactly if none of its steps splits a node
(`mirrored_iff_unsplit`). The hashes stay right even then: each `BlockStored`
is about a page of the key that is inserted, and its parent is the page before
it.

## Theorems

* `hashed_split`, `hashed_add`: The edits keep the hashes.
* `Cut.effect`, `mirrors_erase`: What the subscriber sees of them.
* `mirrored_iff_unsplit`: Every run.
-/

namespace SglangInc.Radix

open List Forest HashChain EventCache

section Subscriber

variable {η β : Type} (h : Hasher η β)

/-- What a subscriber does with an event. -/
def subscribe (known : Set β) : KvCacheEvent β → Set β
  | .blockStored blockHashes _ _ _ _ => known ∪ {b | b ∈ blockHashes}
  | .blockRemoved blockHashes => known \ {b | b ∈ blockHashes}
  | .allBlocksCleared => ∅

/-- What it knows after some events. -/
def subscriber (events : List (KvCacheEvent β)) : Set β := events.foldl subscribe ∅

/-- The hashes of some pages. -/
def hashesOf (pages : List Page) : Set β :=
  {b | ∃ q ∈ pages, blockHash h q = b}

/-- The block hashes of a sequence, page by page. -/
def pageHashes (pageSize : Nat) (tokens : List TokenId) : List β :=
  (chain h.getHashStr none (chunks pageSize tokens)).map h.hashStrToInt64

/-- A `BlockStored` for a page of a sequence, with the hash of the page before
    it as its parent. -/
def StoredInOrder (pageSize : Nat) (tokens : List TokenId) (event : KvCacheEvent β) : Prop :=
  ∃ i page b, (chunks pageSize tokens)[i]? = some page ∧
    (pageHashes h pageSize tokens)[i]? = some b ∧
    event = .blockStored [b] (if i = 0 then none else (pageHashes h pageSize tokens)[i - 1]?) page
      page.length none

variable {h} {pages : List Page}

theorem subscribe_stored (known : Set β) :
    (pages.map (storeEvent h)).foldl subscribe known = known ∪ hashesOf h pages := by
  induction pages generalizing known with
  | nil =>
    ext b
    simp [hashesOf]
  | cons q rest ih =>
    rw [map_cons, foldl_cons, ih]
    ext b
    simp only [subscribe, storeEvent, hashesOf, Set.mem_union, Set.mem_ofPred_eq,
      mem_cons, not_mem_nil, or_false, exists_eq_or_imp, or_assoc, eq_comm (a := b)]

theorem subscribe_removed (known : Set β) :
    (pages.map (removeEvent h)).foldl subscribe known = known \ hashesOf h pages := by
  induction pages generalizing known with
  | nil =>
    ext b
    simp [hashesOf]
  | cons q rest ih =>
    rw [map_cons, foldl_cons, ih]
    ext b
    simp [subscribe, removeEvent, hashesOf, and_assoc, eq_comm (a := b)]

theorem subscriber_append (events more : List (KvCacheEvent β)) :
    subscriber (events ++ more) = more.foldl subscribe (subscriber events) :=
  foldl_append

theorem storedInOrder_of_mem {pageSize : Nat} {tokens : List TokenId}
    {q : Page} (hq : q ∈ extensions [] (chunks pageSize tokens)) :
    StoredInOrder h pageSize tokens (storeEvent h q) := by
  rcases index_of_mem_extensions hq with ⟨i, hi, hpre⟩
  have hhash : (pageHashes h pageSize tokens)[i]? = some (blockHash h q) := by
    rw [pageHashes, getElem?_map, getElem?_chain, hi, blockHash, chunkHash, hpre]
    rfl
  refine ⟨i, q.2, blockHash h q, hi, hhash, ?_⟩
  rw [storeEvent, hpre]
  cases i with
  | zero => rfl
  | succ i =>
    have hlt := (List.getElem?_eq_some_iff.mp hi).1
    rw [pathHash_take_succ _ (Nat.lt_of_succ_lt hlt), ← getElem?_map, if_neg (Nat.succ_ne_zero i)]
    rfl

end Subscriber

section Edits

variable {η β : Type} {h : Hasher η β} {pageSize : Nat} {r : Recorder η β} {f f' : Children}
  {path : List TreeNode} {n : TreeNode} {s : Children} {j newId counter : Nat}

/-- A split keeps the hashes: the other nodes have other ids, and what is below
    the node has the same pages before it. -/
theorem hashed_split (hps : 0 < pageSize)
    (he : Edit (SplitAt pageSize n s j newId) path f f') (hi : Ids counter f)
    (hnew : r.hashValue newId = none) (hall : AllHashed h pageSize r [] f) :
    AllHashed h pageSize (r.split h pageSize path n j newId) [] f' := by
  rcases has_of_split he with ⟨_, _, hlt, hal⟩
  have hkeep : ∀ b : List TreeNode × TreeNode, Hashed h pageSize r b → b.2.id ≠ n.id →
      Hashed h pageSize (r.split h pageSize path n j newId) b := by
    intro b hb hne
    have hne' : newId ≠ b.2.id := hb.ne_of_none hnew
    unfold Hashed Recorder.split
    simp only
    rwa [Function.update_of_ne hne, Function.update_of_ne hne'.symm]
  intro b hb
  rcases branches_split_cases he hi hb with ⟨hin, hid⟩ | rfl | rfl | ⟨below, hb, hin, hid⟩
  · exact hkeep b (hall b hin) hid
  · exact hashed_upper ((hall _ (mem_branches_split he).1).ne_of_none hnew)
  · exact Function.update_self _ _ _
  · refine hkeep b ?_ hid
    have hold := (hall _ hin).eq
    unfold Hashed
    rw [hold, hb, lastHash, lastHash, pathPages_split hps hal hlt]

variable {leaf : TreeNode}

theorem hashed_add (he : Edit (AddLeaf pageSize leaf) path f f') (hnew : r.hashValue leaf.id = none)
    (hall : AllHashed h pageSize r [] f) :
    AllHashed h pageSize (r.stored h pageSize path leaf.id leaf.key.tokenIds) [] f' := by
  intro b hb
  rcases mem_append.mp ((branches_add he).subset hb) with hb | hb
  · have hne : leaf.id ≠ b.2.id := (hall b hb).ne_of_none hnew
    unfold Hashed Recorder.stored
    simp only
    rw [Function.update_of_ne hne.symm]
    exact hall b hb
  · rw [mem_singleton.mp hb]
    exact Function.update_self _ _ _

variable {above : List TreeNode} {x : TreeNode}

/-- What holds of a tree and a recorder between operations. -/
structure Good (h : Hasher η β) (pageSize : Nat) (e : Option String) (counter : Nat)
    (f : Children) (r : Recorder η β) : Prop where
  tree : TreeOk pageSize f
  ids : Ids counter f
  counter_pos : rootNode < counter
  one : f.All (fun _ n _ => n.key.extraKey = e)
  on : r.enableKvCacheEvents = true
  hashed : AllHashed h pageSize r [] f
  fresh : ∀ i, counter ≤ i → r.hashValue i = none

variable {e : Option String}

variable (hg : Good h pageSize e counter f r)

include hg

theorem Good.split (hps : 0 < pageSize)
    (he : Edit (SplitAt pageSize n s j counter) path f f') :
    Good h pageSize e (counter + 1) f' (r.split h pageSize path n j counter) where
  tree := treeOk_split he hg.tree
  ids := ids_split he hg.ids hg.counter_pos
  counter_pos := Nat.lt_succ_of_lt hg.counter_pos
  one := all_split he (fun hn => ⟨hn, hn⟩) hg.one
  on := hg.on
  hashed := hashed_split hps he hg.ids (hg.fresh counter le_rfl) hg.hashed
  fresh := by
    intro i hi
    have hnode := (hg.hashed _ (mem_branches_split he).1).ne_of_none (hg.fresh i (by omega))
    unfold Recorder.split
    simp only
    rw [Function.update_of_ne hnode, Function.update_of_ne (by omega)]
    exact hg.fresh i (by omega)

theorem Good.add (he : Edit (AddLeaf pageSize leaf) path f f')
    (hid : leaf.id = counter) (hne : leaf.key.tokenIds ≠ [])
    (hv : leaf.value.length = leaf.key.length) (hextra : leaf.key.extraKey = e) :
    Good h pageSize e (counter + 1) f' (r.stored h pageSize path counter leaf.key.tokenIds) where
  tree := treeOk_add he hne hv hg.tree
  ids := ids_add he hg.ids hid hg.counter_pos
  counter_pos := Nat.lt_succ_of_lt hg.counter_pos
  one := all_add he hextra hg.one
  on := hg.on
  hashed := hid ▸ hashed_add he (hid.symm ▸ hg.fresh counter le_rfl) hg.hashed
  fresh := by
    intro i hi
    unfold Recorder.stored
    simp only
    rw [Function.update_of_ne (by omega)]
    exact hg.fresh i (by omega)

theorem Good.erase
    (hl : f.locate (·.id == x.id) = some (above, x, .nil))
    (hx : EraseLeaf x f (f.eraseNode (·.id == x.id))) (b : List TreeNode × TreeNode) :
    Good h pageSize e counter (f.eraseNode (·.id == x.id)) (r.removed h pageSize b) :=
  { hg with
    tree := treeOk_erase hx hg.tree
    ids := ids_erase hx hg.ids
    one := all_eraseNode _ hg.one (fun _ _ _ hP => hP)
    hashed := fun c hc =>
      hg.hashed c (((erases_of_locate hl).branches _).symm.subset (mem_cons_of_mem _ hc)) }

omit hg

/-- The subscriber of these events has the hashes of the pages of the tree. -/
def Mirrors (h : Hasher η β) (pageSize : Nat) (f : Children)
    (events : List (KvCacheEvent β)) : Prop :=
  subscriber events = hashesOf h (treePages pageSize f)

variable {events : List (KvCacheEvent β)}

theorem hashesOf_perm {u v : List Page} (hp : u.Perm v) :
    hashesOf h u = hashesOf h v := by
  ext b
  simp [hashesOf, hp.mem_iff]

theorem hashesOf_append (u v : List Page) :
    hashesOf h (u ++ v) = hashesOf h u ∪ hashesOf h v := by
  ext b
  simp [hashesOf, or_and_right, exists_or]

variable (hinj : Function.Injective (blockHash h))

include hinj in
theorem mirrors_erase (hnodup : (treePages pageSize f).Nodup)
    (hl : f.locate (·.id == x.id) = some (above, x, .nil)) (hm : Mirrors h pageSize f events) :
    Mirrors h pageSize (f.eraseNode (·.id == x.id))
      (events ++ (branchPages pageSize (above, x)).map (removeEvent h)) := by
  have hperm : (treePages pageSize f).Perm
      (branchPages pageSize (above, x) ++ treePages pageSize (f.eraseNode (·.id == x.id))) :=
    ((erases_of_locate hl).branches _).flatMap_right _
  have hdisj := disjoint_of_nodup_append (hperm.nodup_iff.mp hnodup)
  unfold Mirrors at hm ⊢
  rw [subscriber_append, subscribe_removed, hm, hashesOf_perm hperm, hashesOf_append]
  refine Set.union_sdiff_cancel_left fun b hb => ?_
  rcases hb with ⟨⟨q, hq, rfl⟩, q', hq', heq⟩
  exact hdisj hq (hinj heq ▸ hq')

end Edits

section Steps

variable {η β : Type}

/-- The cache, and what `take_events` has returned so far. -/
structure Subscribed (η β : Type) where
  cache : EventCache η β
  taken : List (KvCacheEvent β)

namespace Subscribed

/-- All events so far: those that were taken, and those that `take_events` would
    return now. -/
def history (s : Subscribed η β) : List (KvCacheEvent β) :=
  s.taken ++ s.cache.recorder.kvEventQueue

/-- The cache without its recorder. -/
abbrev tree (s : Subscribed η β) : Cache := s.cache.cache

end Subscribed

/-- The calls of the cache, and `take_events`. -/
inductive EventOp where
  | insert (key : RadixKey) (value : List Nat)
  | matchPrefix (key : RadixKey)
  | evict (order : List TreeNode → Nat) (numTokens : Nat)
  | reset
  | takeEvents

/-- One operation. All keys have one extra key, and a value has an index for
    each token. -/
def EventStep (h : Hasher η β) (e : Option String) (s : Subscribed η β) (op : EventOp)
    (s' : Subscribed η β) : Prop :=
  match op with
  | .insert key value => key.extraKey = e ∧ value.length = key.length ∧
      ∃ n c, s.cache.insert h key value = .ok (n, c) ∧ s' = ⟨c, s.taken⟩
  | .matchPrefix key => key.extraKey = e ∧
      ∃ result c, s.cache.matchPrefix h key = .ok (result, c) ∧ s' = ⟨c, s.taken⟩
  | .evict order numTokens =>
    ∃ removed c, s.cache.evict h order numTokens = .ok (removed, c) ∧ s' = ⟨c, s.taken⟩
  | .reset => s' = ⟨s.cache.reset, s.taken⟩
  | .takeEvents => s' = ⟨s.cache.takeEvents.2, s.taken ++ s.cache.takeEvents.1⟩

/-- The subscriber has the hashes of the pages in the tree. -/
def Mirrored (h : Hasher η β) (s : Subscribed η β) : Prop :=
  Mirrors h s.cache.cache.pageSize s.cache.cache.children s.history

/-- The walk of a key ends inside a node. -/
def EndsInside (c : Cache) (key : RadixKey) : Prop :=
  c.disable = false ∧ 0 < key.length ∧
    ∃ path m n below j, Walk c.pageSize c.children key path m (.inside n below j)

/-- The operation splits a node. -/
def Splits (s : Subscribed η β) : EventOp → Prop
  | .insert key _ => EndsInside s.cache.cache (s.cache.cache.maybeBigramConvert key)
  | .matchPrefix key => EndsInside s.cache.cache (s.cache.cache.lookupKey key)
  | _ => False

/-- What is recorded as stored is in order, for the key that is inserted. -/
def InOrder (h : Hasher η β) (s : Subscribed η β) (op : EventOp)
    (events : List (KvCacheEvent β)) : Prop :=
  ∀ blockHashes parent tokens size lora, .blockStored blockHashes parent tokens size lora ∈ events →
    ∃ key value, op = .insert key value ∧ StoredInOrder h s.cache.cache.pageSize
      (s.cache.cache.maybeBigramConvert key).tokenIds
      (.blockStored blockHashes parent tokens size lora)

/-- What holds in every state. -/
structure Recorded (h : Hasher η β) (e : Option String) (s : Subscribed η β) : Prop where
  pageSize_pos : 0 < s.cache.cache.pageSize
  good : Good h s.cache.cache.pageSize e s.cache.cache.counter s.cache.cache.children
    s.cache.recorder

/-- What one step does. -/
structure Effect (h : Hasher η β) (e : Option String) (s : Subscribed η β) (op : EventOp)
    (s' : Subscribed η β) : Prop where
  recorded : Recorded h e s'
  events : ∃ events, s'.history = s.history ++ events ∧ InOrder h s op events
  mirrored : Mirrored h s → (Mirrored h s' ↔ ¬ Splits s op)

variable {h : Hasher η β} {e : Option String} {s s' : Subscribed η β} {key : RadixKey}

theorem inOrder_removed (op : EventOp) (pages : List Page) :
    InOrder h s op (pages.map (removeEvent h)) := by
  intro _ _ _ _ _ hmem
  rcases mem_map.mp hmem with ⟨q, _, hq⟩
  cases hq

variable {value : List Nat} {m : Nat}

/-- The pages of the leaf that an insertion adds are pages of its key. -/
theorem inOrder_stored (hpos : 0 < s.tree.pageSize) {pre : List (List TokenId)}
    (hdvd : s.tree.pageSize ∣ m) (hm : m < (s.tree.maybeBigramConvert key).length)
    (hpre : pre = chunks s.tree.pageSize ((s.tree.maybeBigramConvert key).tokenIds.take m)) :
    InOrder h s (.insert key value) ((extensions pre (chunks s.tree.pageSize
      ((s.tree.maybeBigramConvert key).tokenIds.drop m))).map (storeEvent h)) := by
  intro blockHashes parent tokens size lora hmem
  rcases mem_map.mp hmem with ⟨q, hq, heq⟩
  refine ⟨key, value, rfl, heq ▸ storedInOrder_of_mem ?_⟩
  have hlen : ((s.tree.maybeBigramConvert key).tokenIds.take m).length = m :=
    length_take_of_le hm.le
  have hchunks := chunks_append (v := (s.tree.maybeBigramConvert key).tokenIds.drop m) hpos
    (hlen.symm ▸ hdvd)
  rw [take_append_drop] at hchunks
  rw [hchunks, extensions_append, nil_append, ← hpre]
  exact mem_append_right _ hq

/-- The leaf for what is left of a key is well formed. -/
theorem LeafFor.wellFormed {leaf : TreeNode} {id : Nat} (hl : LeafFor id key value m leaf)
    (hv : value.length = key.length) (hm : m < key.length) :
    leaf.key.tokenIds ≠ [] ∧ leaf.value.length = leaf.key.length := by
  have hlen : leaf.key.tokenIds.length = key.length - m := by
    rw [hl.tokens, List.length_drop]
    rfl
  refine ⟨length_pos_iff.mp (by omega), ?_⟩
  rw [RadixKey.length, hlen, hl.value, List.length_drop, hv]

/-- `match_prefix` with its keys named. -/
theorem EventCache.matchPrefix_eq (c : EventCache η β) (key : RadixKey) : c.matchPrefix h key =
    if c.cache.disable ∨ (c.cache.maybeBigramConvert key).length = 0 then
      .ok (⟨[], rootNode, rootNode⟩, c)
    else if (c.cache.lookupKey key).length = 0 then .ok (⟨[], rootNode, rootNode⟩, c) else do
      let childKey ← getChildKey c.cache.pageSize (c.cache.lookupKey key)
      let (m, r) ← recordMatchLoop h c.cache.pageSize (c.cache.lookupKey key).length none
        c.cache.children childKey (c.cache.lookupKey key) c.cache.counter c.recorder
      return (⟨m.values.flatten, m.node, m.node⟩,
        ⟨{ c.cache with children := m.children, counter := m.counter }, r⟩) :=
  rfl

/-- What holds between the leaves of an eviction: the hashes are in place, and
    the subscriber of what was recorded since `s` follows. -/
def Evicting (h : Hasher η β) (e : Option String) (s : Subscribed η β) (f : Children)
    (r : Recorder η β) : Prop :=
  Good h s.cache.cache.pageSize e s.cache.cache.counter f r ∧
  ∃ pages : List Page,
    r.kvEventQueue = s.cache.recorder.kvEventQueue ++ pages.map (removeEvent h) ∧
    (Mirrored h s → Mirrors h s.cache.cache.pageSize f (s.history ++ pages.map (removeEvent h)))

/-- The tree and the recorder after the split of a step, if it has one: the
    pages of the node are recorded as removed, and the tree still has them. -/
structure Cut (h : Hasher η β) (e : Option String) (s : Subscribed η β) (op : EventOp)
    (f : Children) (counter : Nat) (r : Recorder η β) : Prop where
  good : Good h s.tree.pageSize e counter f r
  lost : ∃ lost : List Page,
    r.kvEventQueue = s.cache.recorder.kvEventQueue ++ lost.map (removeEvent h) ∧
    lost ⊆ treePages s.tree.pageSize f ∧ (lost ≠ [] ↔ Splits s op)
  pages : (treePages s.tree.pageSize f).Perm (treePages s.tree.pageSize s.tree.children)

variable {r : Recorder η β}

theorem good_nil {pageSize counter : Nat} (hpos : rootNode < counter)
    (hon : r.enableKvCacheEvents = true) (hfresh : ∀ i, counter ≤ i → r.hashValue i = none) :
    Good h pageSize e counter .nil r where
  tree := ⟨trivial, trivial⟩
  ids := ⟨fun _ => (by decide : (0 : Int) ≤ 1), trivial⟩
  counter_pos := hpos
  one := trivial
  on := hon
  hashed := forall_mem_nil _
  fresh := hfresh

/-- The subscriber of a cleared cache knows nothing. -/
theorem mirrors_cleared (pageSize : Nat) (events : List (KvCacheEvent β)) :
    Mirrors h pageSize .nil (events ++ [.allBlocksCleared]) := by
  unfold Mirrors
  rw [subscriber_append]
  ext b
  simp [subscribe, hashesOf, treePages, branches]

variable (hinj : Function.Injective (blockHash h)) (hr : Recorded h e s) {path : List TreeNode}

include hr

variable {op : EventOp} {stop : Stop}

/-- Nothing is recorded, and the tree is as it was. -/
theorem Effect.refl (hop : ¬ Splits s op) : Effect h e s op s :=
  ⟨hr, ⟨[], (List.append_nil _).symm, nofun⟩,
    fun hm => ⟨fun _ => hop, fun _ => hm⟩⟩

/-- The effect of a step that changes the tree and the recorder, from the events
    that it adds to the queue. -/
theorem Effect.of_events {c : Cache}
    {events : List (KvCacheEvent β)} (hps : c.pageSize = s.tree.pageSize)
    (hgood : Good h s.tree.pageSize e c.counter c.children r)
    (hqueue : r.kvEventQueue = s.cache.recorder.kvEventQueue ++ events)
    (horder : InOrder h s op events) (hmirror : Mirrored h s →
      (Mirrors h s.tree.pageSize c.children (s.history ++ events) ↔ ¬ Splits s op)) :
    Effect h e s op ⟨⟨c, r⟩, s.taken⟩ := by
  have hhistory : Subscribed.history ⟨⟨c, r⟩, s.taken⟩ = s.history ++ events := by
    unfold Subscribed.history
    simp [hqueue]
  refine ⟨⟨hps.symm ▸ hr.pageSize_pos, ?_⟩, ⟨events, hhistory, horder⟩, fun hm => ?_⟩
  · simp only [hps]
    exact hgood
  · unfold Mirrored
    rw [hhistory]
    simp only [hps]
    exact hmirror hm

section Edits

variable {path : List TreeNode} {c : Cache} {f : Children} {k : Nat} {leaf : TreeNode}

theorem Cut.refl (hop : ¬ Splits s op) :
    Cut h e s op s.tree.children s.tree.counter s.cache.recorder :=
  ⟨hr.good, ⟨[], (List.append_nil _).symm, nil_subset _, absurd rfl, (absurd · hop)⟩, .refl _⟩

/-- The node that is split has pages, and they stay in the tree. -/
theorem Cut.split {n : TreeNode} {below f' : Children} {j : Nat} (hop : Splits s op)
    (he : Edit (SplitAt s.tree.pageSize n below j s.tree.counter) path s.tree.children f') :
    Cut h e s op f' (s.tree.counter + 1)
      (s.cache.recorder.split h s.tree.pageSize path n j s.tree.counter) := by
  have hmem := (mem_branches_split he).1
  have hperm := treePages_split he hr.pageSize_pos
  rcases all_of_mem_branches hr.good.tree.nodes hmem with ⟨k, t, hn⟩
  have hpages := chunks_ne_nil hr.pageSize_pos hn.nonempty
  refine ⟨hr.good.split hr.pageSize_pos he, ⟨branchPages s.tree.pageSize (path, n), rfl,
    fun q hq => ?_, fun _ => hop, fun _ => ?_⟩, hperm⟩
  · exact hperm.symm.subset (mem_flatMap.mpr ⟨_, hmem, hq⟩)
  rw [branchPages, TreeNode.pages]
  cases hc : chunks s.tree.pageSize n.key.tokenIds with
  | nil => exact absurd hc hpages
  | cons page rest => exact cons_ne_nil _ _

variable (hcut : Cut h e s op f k r)

include hinj hcut

/-- The effect of a step that stores some pages after the split, if there was
    one. What the split has lost does not come back with them. -/
theorem Cut.effect {r' : Recorder η β} {more : List Page}
    (hgood : Good h s.tree.pageSize e c.counter c.children r')
    (hqueue : r'.kvEventQueue = r.kvEventQueue ++ more.map (storeEvent h))
    (hperm : (treePages s.tree.pageSize c.children).Perm (treePages s.tree.pageSize f ++ more))
    (hps : c.pageSize = s.tree.pageSize) (horder : InOrder h s op (more.map (storeEvent h))) :
    Effect h e s op ⟨⟨c, r'⟩, s.taken⟩ := by
  rcases hcut with ⟨_, ⟨lost, hlost, hsub, hop⟩, hold⟩
  rw [hlost, append_assoc] at hqueue
  refine .of_events hr hps hgood hqueue ?_ fun hm => ?_
  · intro blockHashes parent tokens size lora hmem
    rcases mem_append.mp hmem with hmem | hmem
    · exact inOrder_removed op lost blockHashes parent tokens size lora hmem
    · exact horder blockHashes parent tokens size lora hmem
  -- New pages are not old ones, so what a split removes stays lost.
  have hdisj := disjoint_of_nodup_append
    (hperm.nodup_iff.mp (nodup_treePages hr.pageSize_pos hgood.tree hgood.one))
  rw [← hop, not_not, Mirrors, subscriber_append, foldl_append, subscribe_removed,
    subscribe_stored, show subscriber s.history = _ from hm, ← hashesOf_perm hold,
    hashesOf_perm hperm, hashesOf_append]
  constructor
  · intro heq
    by_contra hne
    rcases exists_mem_of_ne_nil _ hne with ⟨q, hq⟩
    have hin : blockHash h q ∈ hashesOf h (treePages s.tree.pageSize f) ∪ hashesOf h more :=
      .inl ⟨q, hsub hq, rfl⟩
    rw [← heq] at hin
    rcases hin with ⟨_, hgone⟩ | ⟨q', hq', heq'⟩
    · exact hgone ⟨q, hq, rfl⟩
    · exact hdisj (hsub hq) (hinj heq' ▸ hq')
  · rintro rfl
    simp [hashesOf]

/-- Nothing is stored. -/
theorem Cut.done (hf : c.children = f) (hc : c.counter = k) (hps : c.pageSize = s.tree.pageSize) :
    Effect h e s op ⟨⟨c, r⟩, s.taken⟩ := by
  subst hf hc
  have horder : InOrder h s op (([] : List Page).map (storeEvent h)) := nofun
  refine hcut.effect hinj hr hcut.good (List.append_nil _).symm ?_ hps horder
  rw [List.append_nil]

/-- A leaf for the rest of a key. The subscriber gets its pages. -/
theorem Cut.add (he : Edit (AddLeaf s.tree.pageSize leaf) path f c.children)
    (hl : LeafFor k key value m leaf) (hv : value.length = key.length) (hm : m < key.length)
    (hextra : key.extraKey = e) (hc : c.counter = k + 1) (hps : c.pageSize = s.tree.pageSize)
    (horder : InOrder h s op ((extensions (pathPages s.tree.pageSize path)
      (chunks s.tree.pageSize (key.tokenIds.drop m))).map (storeEvent h))) :
    Effect h e s op
      ⟨⟨c, r.stored h s.tree.pageSize path k (key.tokenIds.drop m)⟩, s.taken⟩ := by
  rcases hl.wellFormed hv hm with ⟨hne, hvalue⟩
  have hgood := hcut.good.add he hl.id hne hvalue (hl.extraKey.trans hextra)
  have hperm := treePages_add he
  rw [branchPages, TreeNode.pages, hl.tokens] at hperm
  rw [hl.tokens, ← hc] at hgood
  exact hcut.effect hinj hr hgood rfl hperm hps horder

end Edits

/-- `match_prefix` on a walk of its key. -/
theorem Recorded.matchPrefix_of_walk (hen : s.tree.disable = false)
    (hpos : 0 < (s.tree.lookupKey key).length)
    (hw : Walk s.tree.pageSize s.tree.children (s.tree.lookupKey key) path m stop) :
    ∃ m', MatchEnd s.tree.pageSize rootNode s.tree.counter s.tree.children path m' stop ∧
      s.cache.matchPrefix h key = .ok (⟨m'.values.flatten, m'.node, m'.node⟩,
        ⟨{ s.tree with children := m'.children, counter := m'.counter },
          s.cache.recorder.afterMatch h s.tree.pageSize path s.tree.counter stop⟩) := by
  have hle := s.tree.lookupKey_length_le key
  rcases getChildKey_ok s.tree.pageSize _ (tokenIds_ne_nil hpos) with ⟨k, hk⟩
  have hd := hw.descent hr.good.tree le_rfl hpos hk
  rcases matchLoop_of_descent hd rootNode s.tree.counter with ⟨m1, hm1, hend⟩
  rcases recordMatchLoop_of_descent hr.pageSize_pos hd s.tree.counter hr.good.on
    hr.good.hashed with ⟨m2, hm2, hrec⟩
  cases hm1.symm.trans hm2
  rw [getLast?_nil] at hrec
  refine ⟨m1, hend, ?_⟩
  have hlong : 0 < (s.tree.maybeBigramConvert key).length := hpos.trans_le hle
  rw [matchPrefix_eq, if_neg, if_neg hpos.ne']
  · simp only [hk, bind, Except.bind, hrec]
    rfl
  · exact fun hor => hor.elim (fun hd => by rw [hen] at hd; cases hd) hlong.ne'

include hinj in
/-- A match records a split, or nothing. -/
theorem effect_matchPrefix (key : RadixKey) :
    ∃ result c, s.cache.matchPrefix h key = .ok (result, c) ∧
      Effect h e s (.matchPrefix key) ⟨c, s.taken⟩ := by
  by_cases hop : Splits s (.matchPrefix key)
  · rcases id hop with ⟨hen, hpos, path, m, n, below, j, hw⟩
    rcases hr.matchPrefix_of_walk hen hpos hw with ⟨m', ⟨_, _, hcounter, he⟩, heq⟩
    exact ⟨_, _, heq, (Cut.split hr hop he).done hinj hr rfl hcounter rfl⟩
  by_cases hskip : s.tree.disable = false ∧ 0 < (s.tree.lookupKey key).length
  · rcases hskip with ⟨hen, hpos⟩
    rcases exists_walk hr.pageSize_pos _ hpos _ hr.good.tree with ⟨path, m, stop, hw⟩
    rcases hr.matchPrefix_of_walk hen hpos hw with ⟨m', hend, heq⟩
    refine ⟨_, _, heq, ?_⟩
    cases stop with
    | inside n below j => exact absurd ⟨hen, hpos, path, m, n, below, j, hw⟩ hop
    | missing | exact =>
      rcases hend with ⟨_, _, hcounter, hchildren⟩
      simp only [hcounter, hchildren]
      exact .refl hr hop
  -- A disabled cache or a key without a whole page.
  have hnone : s.cache.matchPrefix h key = .ok (⟨[], rootNode, rootNode⟩, s.cache) := by
    rw [matchPrefix_eq]
    by_cases hd : s.tree.disable = true ∨ (s.tree.maybeBigramConvert key).length = 0
    · rw [if_pos hd]
    · rw [if_neg hd, if_pos]
      rw [not_or, Bool.not_eq_true] at hd
      by_contra hzero
      exact hskip ⟨hd.1, Nat.pos_of_ne_zero hzero⟩
  exact ⟨_, _, hnone, .refl hr hop⟩

/-- An `insert` that returns, on a walk of its key. -/
theorem Recorded.insert_of_walk {n : Nat} {c : EventCache η β} (hen : s.tree.disable = false)
    (hpos : 0 < (s.tree.maybeBigramConvert key).length)
    (hw : Walk s.tree.pageSize s.tree.children (s.tree.maybeBigramConvert key) path m stop)
    (hi : s.cache.insert h key value = .ok (n, c)) :
    ∃ i, InsertEnd s.tree.pageSize s.tree.counter s.tree.children
        (s.tree.maybeBigramConvert key) (s.tree.insertValue key value) path m i
        stop ∧
      c = ⟨{ s.tree with
            children := i.children
            counter := i.counter
            evictableSize := s.tree.evictableSize + i.grown },
          s.cache.recorder.afterInsert h s.tree.pageSize path
            (s.tree.maybeBigramConvert key) m s.tree.counter stop⟩ := by
  rcases getChildKey_ok s.tree.pageSize _ (tokenIds_ne_nil hpos) with ⟨k, hk⟩
  have hd := hw.descent hr.good.tree le_rfl hpos hk
  rcases insertLoop_of_descent hd (s.tree.insertValue key value) s.tree.counter
    with ⟨i1, hi1, _, hend⟩
  rcases recordInsertLoop_of_descent hr.pageSize_pos hd (s.tree.insertValue key value)
    s.tree.counter hr.good.on hr.good.hashed
    (fun above n heq => absurd heq (append_ne_nil_of_right_ne_nil above
      (cons_ne_nil n [])).symm) hr.good.fresh with ⟨i2, hi2, hrec⟩
  cases hi1.symm.trans hi2
  rw [getLast?_nil] at hrec
  refine ⟨i1, hend, ?_⟩
  unfold EventCache.insert at hi
  rw [if_neg (by rw [hen]; exact Bool.false_ne_true), if_neg hpos.ne'] at hi
  simp only [Cache.insertValue] at hrec
  simp only [hk, bind, Except.bind] at hi
  rcases hrec with hrec | hrec
  · rw [hrec] at hi
    cases hi
    rfl
  · -- An id without four bytes: the insertion does not return.
    rw [hrec] at hi
    cases hi

include hinj in
/-- An insertion records a split and a new leaf, or one of them. -/
theorem effect_insert (hextra : key.extraKey = e) (hv : value.length = key.length) {n : Nat}
    {c : EventCache η β} (hi : s.cache.insert h key value = .ok (n, c)) :
    Effect h e s (.insert key value) ⟨c, s.taken⟩ := by
  have hlen := s.tree.length_insertValue hv
  have hconverted : (s.tree.maybeBigramConvert key).extraKey = e := by
    rw [← hextra]
    unfold Cache.maybeBigramConvert
    split_ifs <;> rfl
  by_cases hop : Splits s (.insert key value)
  · rcases id hop with ⟨hen, hpos, path, m, n, below, j, hw⟩
    rcases hw.pages_eq hr.pageSize_pos nofun with ⟨hdvd, hpages⟩
    rcases hr.insert_of_walk hen hpos hw hi with ⟨i, ⟨f', he, hend⟩, rfl⟩
    unfold Recorder.afterInsert
    rcases hend with ⟨hle, hchildren, hcounter, _⟩ | ⟨leaf, hleaf, he', hcounter, _, hlt⟩
    · simp only [if_pos hle]
      exact (Cut.split hr hop he).done hinj hr hchildren hcounter rfl
    · simp only [if_neg hlt.not_ge]
      refine (Cut.split hr hop he).add hinj hr he' hleaf hlen hlt hconverted hcounter rfl
        (inOrder_stored hr.pageSize_pos hdvd hlt ?_)
      rwa [pathPages_append, pathPages_singleton]
  -- Without a split, the walk ends at a node or where a leaf is missing.
  by_cases hskip : s.tree.disable = false ∧ 0 < (s.tree.maybeBigramConvert key).length
  · rcases hskip with ⟨hen, hpos⟩
    rcases exists_walk hr.pageSize_pos _ hpos _ hr.good.tree with ⟨path, m, stop, hw⟩
    rcases hr.insert_of_walk hen hpos hw hi with ⟨i, hend, rfl⟩
    cases stop with
    | inside n below j => exact absurd ⟨hen, hpos, path, m, n, below, j, hw⟩ hop
    | exact =>
      rcases hend with ⟨hchildren, hcounter, hgrown, _⟩
      have hsize : s.tree.evictableSize + ((0 : Nat) : Int) =
          s.tree.evictableSize := Int.add_zero _
      simp only [hchildren, hcounter, hgrown, hsize]
      exact .refl hr hop
    | missing =>
      rcases hw.pages_eq hr.pageSize_pos nofun with ⟨hdvd, hpages⟩
      rcases hend with ⟨leaf, hleaf, he, hcounter, _, hlt⟩
      refine (Cut.refl hr hop).add hinj hr he hleaf hlen hlt hconverted hcounter rfl
        (inOrder_stored hr.pageSize_pos hdvd hlt ?_)
      rwa [Stop.part, chunks_nil hr.pageSize_pos, List.append_nil] at hpages
  -- A disabled cache and an empty key leave everything as it is.
  have hnone : s.cache.insert h key value = .ok (0, s.cache) := by
    unfold EventCache.insert
    by_cases hd : s.tree.disable = true
    · rw [if_pos hd]
    · rw [if_neg hd]
      rw [if_pos]
      by_contra hzero
      exact hskip ⟨(Bool.not_eq_true _).mp hd, Nat.pos_of_ne_zero hzero⟩
  cases hnone.symm.trans hi
  exact .refl hr hop

include hinj in
theorem Evicting.erase {f : Children} (hev : Evicting h e s f r) {above : List TreeNode}
    {x : TreeNode} (hl : f.locate (·.id == x.id) = some (above, x, .nil))
    (hx : EraseLeaf x f (f.eraseNode (·.id == x.id))) :
    Evicting h e s (f.eraseNode (·.id == x.id)) (r.removed h s.tree.pageSize (above, x)) := by
  rcases hev with ⟨hgood, pages, hqueue, hmirror⟩
  refine ⟨hgood.erase hl hx _, pages ++ branchPages s.tree.pageSize (above, x), ?_, fun hm => ?_⟩
  · rw [map_append, ← append_assoc, ← hqueue]
    rfl
  · rw [map_append, ← append_assoc]
    exact mirrors_erase hinj (nodup_treePages hr.pageSize_pos hgood.tree hgood.one) hl (hmirror hm)

include hinj in
/-- An eviction records the pages that go. -/
theorem effect_evict (order : List TreeNode → Nat) (numTokens : Nat) :
    ∃ removed c, s.cache.evict h order numTokens = .ok (removed, c) ∧
      Effect h e s (.evict order numTokens) ⟨c, s.taken⟩ := by
  unfold evict
  split_ifs with hd
  · exact ⟨_, _, rfl, .refl hr id⟩
  have hstart : Evicting h e s s.tree.children s.cache.recorder := by
    refine ⟨hr.good, [], (List.append_nil _).symm, fun hm => ?_⟩
    rwa [map_nil, List.append_nil]
  rcases recordEvictLoop_rule (P := Evicting h e s) (fun f r hev => ⟨hev.1.on, hev.1.hashed⟩)
    (fun f r above x hev => hev.erase hinj hr) order numTokens numTokens
    (evictInv_start hr.good.ids s.tree.evictableSize) hstart with
    ⟨r', hloop, hgood, pages, hqueue, hmirror⟩
  simp only [hloop, bind, Except.bind]
  exact ⟨_, _, rfl, .of_events hr rfl hgood hqueue (inOrder_removed _ pages) fun hm =>
    ⟨fun _ => id, fun _ => hmirror hm⟩⟩

theorem effect_reset : Effect h e s .reset ⟨s.cache.reset, s.taken⟩ := by
  have hrecord : s.cache.recorder.recordAllClearedEvent = { s.cache.recorder with
      kvEventQueue := s.cache.recorder.kvEventQueue ++ [.allBlocksCleared] } := by
    unfold Recorder.recordAllClearedEvent
    rw [if_pos hr.good.on]
  unfold EventCache.reset
  rw [hrecord]
  exact .of_events hr rfl (good_nil hr.good.counter_pos hr.good.on hr.good.fresh) rfl
    (fun _ _ _ _ _ hmem => nomatch mem_singleton.mp hmem) fun _ =>
      ⟨fun _ => id, fun _ => mirrors_cleared _ _⟩

theorem effect_takeEvents :
    Effect h e s .takeEvents ⟨s.cache.takeEvents.2, s.taken ++ s.cache.takeEvents.1⟩ := by
  unfold takeEvents
  rw [if_pos hr.good.on]
  have hhistory : s.taken ++ s.cache.recorder.kvEventQueue ++ [] = s.history :=
    List.append_nil _
  refine ⟨⟨hr.pageSize_pos, { hr.good with }⟩, ⟨[], by rw [List.append_nil]; exact hhistory,
    nofun⟩, fun hm => ⟨fun _ => id, fun _ => ?_⟩⟩
  unfold Mirrored Subscribed.history
  simp only [hhistory]
  exact hm

include hinj in
/-- One step: what holds in every state holds after it, what it stores is in
    order, and the subscriber follows unless it splits a node. -/
theorem effect_step (hs : EventStep h e s op s') : Effect h e s op s' := by
  cases op with
  | insert key value =>
    rcases hs with ⟨hextra, hv, n, c, hi, rfl⟩
    exact effect_insert hinj hr hextra hv hi
  | matchPrefix key =>
    rcases hs with ⟨_, result, c, hm, rfl⟩
    rcases effect_matchPrefix hinj hr key with ⟨result', c', hm', heffect⟩
    cases hm.symm.trans hm'
    exact heffect
  | evict order numTokens =>
    rcases hs with ⟨removed, c, he, rfl⟩
    rcases effect_evict hinj hr order numTokens with ⟨removed', c', he', heffect⟩
    cases he.symm.trans he'
    exact heffect
  | reset =>
    rw [show s' = _ from hs]
    exact effect_reset hr
  | takeEvents =>
    rw [show s' = _ from hs]
    exact effect_takeEvents hr

end Steps

section Runs

variable {η β : Type} {h : Hasher η β} {e : Option String}

theorem blockHash_injective (hinj : Function.Injective fun p : Option η × List TokenId =>
    h.hashStrToInt64 (h.getHashStr p.2 p.1)) : Function.Injective (blockHash h) := by
  intro q q' heq
  have hpair : (pathHash h.getHashStr none q.1, q.2) = (pathHash h.getHashStr none q'.1, q'.2) :=
    hinj heq
  have hgetHash : Function.Injective fun p : Option η × List TokenId =>
      h.getHashStr p.2 p.1 := Function.Injective.of_comp (f := h.hashStrToInt64) hinj
  rw [Prod.mk.injEq] at hpair
  exact Prod.ext (pathHash_injective hgetHash hpair.1) hpair.2

/-- A new cache and a subscriber that has taken nothing yet. -/
def Subscribed.init (pageSize : Nat) (isEagle disable disableFinishedInsert : Bool) :
    Subscribed η β :=
  ⟨.init pageSize isEagle disable disableFinishedInsert true, []⟩

/-- What holds along a run. -/
theorem effects_run (hinj : Function.Injective (blockHash h)) {s0 s : Subscribed η β}
    {tr : List (Subscribed η β × EventOp × Subscribed η β)} (h0 : Recorded h e s0)
    (hr : Run (EventStep h e) s0 tr s) : Recorded h e s ∧ ∀ x ∈ tr, Effect h e x.1 x.2.1 x.2.2 := by
  induction hr with
  | nil => exact ⟨h0, forall_mem_nil _⟩
  | @snoc tr s s' op _ hs ih =>
    have heffect := effect_step hinj ih.1 hs
    exact ⟨heffect.recorded, forall_mem_append.mpr ⟨ih.2, forall_mem_singleton.mpr heffect⟩⟩

/-- In every run with one extra key, the subscriber mirrors the cache after each
    operation if and only if no operation splits a node. Each `BlockStored` is
    about a page of the key that is inserted, with the page before it as its
    parent. -/
theorem mirrored_iff_unsplit (h : Hasher η β)
    (hinj : Function.Injective fun p : Option η × List TokenId =>
      h.hashStrToInt64 (h.getHashStr p.2 p.1))
    (pageSize : Nat) (hps : 0 < pageSize) (isEagle disable disableFinishedInsert : Bool)
    (e : Option String) {tr : List (Subscribed η β × EventOp × Subscribed η β)} {s : Subscribed η β}
    (hr : Run (EventStep h e) (.init pageSize isEagle disable disableFinishedInsert) tr s) :
    ((∀ x ∈ tr, Mirrored h x.2.2) ↔ ∀ x ∈ tr, ¬ Splits x.1 x.2.1) ∧
    ∀ x ∈ tr, ∃ events, x.2.2.history = x.1.history ++ events ∧ InOrder h x.1 x.2.1 events := by
  have hinj' := blockHash_injective hinj
  have hinit : Recorded h e (.init pageSize isEagle disable disableFinishedInsert) :=
    ⟨hps, good_nil Nat.zero_lt_one rfl fun _ _ => rfl⟩
  refine ⟨?_, fun x hx => ((effects_run hinj' hinit hr).2 x hx).events⟩
  -- Along the run the state before a step is the one after the last.
  suffices hboth : ((∀ x ∈ tr, Mirrored h x.2.2) ↔ ∀ x ∈ tr, ¬ Splits x.1 x.2.1) ∧
      ((∀ x ∈ tr, Mirrored h x.2.2) → Mirrored h s) from hboth.1
  induction hr with
  | nil =>
    exact ⟨⟨fun _ x hx => absurd hx not_mem_nil, fun _ x hx => absurd hx not_mem_nil⟩,
      fun _ => mirrors_cleared pageSize []⟩
  | @snoc tr s s' op hr hs ih =>
    have heffect := effect_step hinj' (effects_run hinj' hinit hr).1 hs
    simp only [mem_append, mem_singleton, or_imp, forall_and, forall_eq]
    refine ⟨⟨fun ⟨hall, hlast⟩ => ?_, fun ⟨hall, hlast⟩ => ?_⟩, fun hall => hall.2⟩
    · exact ⟨ih.1.mp hall, (heffect.mirrored (ih.2 hall)).mp hlast⟩
    · have hbefore := ih.1.mpr hall
      exact ⟨hbefore, (heffect.mirrored (ih.2 hbefore)).mpr hlast⟩

/-- A hash function without collisions: everything that was hashed. -/
def pagesHasher : Hasher (List (List TokenId)) (List (List TokenId)) where
  getHashStr page prior := match prior with
    | none => [page]
    | some pages => page :: page :: pages
  hashStrToInt64 := id

/-- A key without an extra key. -/
def tokens (ids : List Int) : RadixKey := { tokenIds := ids.map .int }

/-- The cache after `insert([1, 2])`. -/
def oneStored : Subscribed (List (List TokenId)) (List (List TokenId)) :=
  match insert pagesHasher (.init 1 false false false true) (tokens [1, 2]) [7, 8] with
  | .ok (_, c) => ⟨c, []⟩
  | .error _ => .init 1 false false false

/-- And after `match_prefix([1])`. -/
def oneSplit : Subscribed (List (List TokenId)) (List (List TokenId)) :=
  match matchPrefix pagesHasher oneStored.cache (tokens [1]) with
  | .ok (_, c) => ⟨c, []⟩
  | .error _ => oneStored

theorem mirrored_iff_unsplit_oneStored : Mirrored pagesHasher oneStored := by
  have hinj : Function.Injective fun p : Option (List (List TokenId)) × List TokenId =>
      pagesHasher.hashStrToInt64 (pagesHasher.getHashStr p.2 p.1) := by
    rintro ⟨prior, page⟩ ⟨prior', page'⟩ heq
    cases prior <;> cases prior' <;> simp_all [pagesHasher]
  have hstep : EventStep pagesHasher none (.init 1 false false false)
      (.insert (tokens [1, 2]) [7, 8]) oneStored := ⟨rfl, rfl, _, _, rfl, rfl⟩
  refine ((mirrored_iff_unsplit pagesHasher hinj 1 Nat.one_pos false false false none
    (Run.nil.snoc _ hstep)).1.mpr ?_) _ (mem_singleton_self _)
  intro x hx
  rw [nil_append, mem_singleton] at hx
  subst hx
  rintro ⟨_, _, path, m, n, below, j, hw⟩
  cases hw with
  | inside _ hl | down _ hl => exact absurd hl (Option.some_ne_none _).symm

/-- A lookup splits the node of the two tokens. The page of the first is still
    in the tree, and the subscriber has lost it. -/
theorem not_mirrored_oneSplit :
    ∃ tr, Run (EventStep pagesHasher none) (.init 1 false false false) tr oneSplit ∧
      ¬ Mirrored pagesHasher oneSplit := by
  have hinsert : EventStep pagesHasher none (.init 1 false false false)
      (.insert (tokens [1, 2]) [7, 8]) oneStored := ⟨rfl, rfl, _, _, rfl, rfl⟩
  have hmatch : EventStep pagesHasher none oneStored (.matchPrefix (tokens [1])) oneSplit :=
    ⟨rfl, _, _, rfl, rfl⟩
  refine ⟨_, (Run.nil.snoc _ hinsert).snoc _ hmatch, fun hm => ?_⟩
  have hpage : ([], [.int 1]) ∈ treePages 1 oneSplit.cache.cache.children := by decide
  have hin : [[.int 1]] ∈ subscriber oneSplit.history := hm ▸ ⟨_, hpage, rfl⟩
  exact hin.1.2 mem_cons_self

end Runs

end SglangInc.Radix
