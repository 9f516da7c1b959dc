import SglangInc.Lib.HashChain
import SglangInc.Core.RadixCache

/-!
# The Events of the Radix Cache

What `mem_cache/radix_cache.py` does when `enable_kv_cache_events` is set: the
page hashes of its nodes, and the queue of `BlockStored`, `BlockRemoved` and
`AllBlocksCleared` events that `take_events` hands out.

The cache itself is that of `Core.RadixCache`, and the loops are the same ones
with a `Recorder` passed along: the `hash_value` of each node, by its id, and
the queue. A node's `parent` is an argument here, with nothing for the root,
whose key and `hash_value` are empty.

`get_hash_str` is SHA-256 over the prior hash and the tokens, and
`hash_str_to_int64` cuts the result down to 64 bits. They are arguments. Before it
hashes an id, `get_hash_str` turns it into four bytes, and raises an error where
these are too few (`TokenId.fits`).
-/

namespace SglangInc.Radix

open HashChain

/-- `get_hash_str`, for ids of four bytes, and `hash_str_to_int64`. -/
structure Hasher (η β : Type) where
  getHashStr : List TokenId → Option η → η
  hashStrToInt64 : η → β

/-- The ids have four bytes, without a sign. -/
def TokenId.fits : TokenId → Bool
  | .int id => decide (0 ≤ id ∧ id < 2 ^ 32)
  | .tuple first second => first.fits && second.fits

/-- `KVCacheEvent`. -/
inductive KvCacheEvent (β : Type) where
  | blockStored (blockHashes : List β) (parentBlockHash : Option β) (tokenIds : List TokenId)
      (blockSize : Nat) (loraId : Option Int)
  | blockRemoved (blockHashes : List β)
  | allBlocksCleared

/-- The page hashes and the queue. -/
structure Recorder (η β : Type) where
  enableKvCacheEvents : Bool
  /-- The `hash_value` of each node, by its id. -/
  hashValue : Nat → Option (List η)
  kvEventQueue : List (KvCacheEvent β)

/-- `split_node_hash_value`. -/
def splitNodeHashValue {η : Type} (childHashValue : Option (List η)) (splitLen pageSize : Nat) :
    Option (List η) × Option (List η) :=
  match childHashValue with
  | none => (none, none)
  | some childHashValue =>
    let splitPages := if pageSize = 1 then splitLen else splitLen / pageSize
    (some (childHashValue.take splitPages), some (childHashValue.drop splitPages))

variable {η β : Type} (h : Hasher η β) (pageSize : Nat)

namespace Recorder

/-- `parent_hash` at the start of `compute_node_hash_values`. -/
def parentHash (r : Recorder η β) : Option TreeNode → Option η
  | none => none
  | some parent =>
    match r.hashValue parent.id with
    | none => none
    | some hashValue => if parent.key.length > 0 then hashValue.getLast? else none

/-- `compute_node_hash_values`. -/
def computeNodeHashValues (r : Recorder η β) (parent : Option TreeNode) (node : TreeNode) :
    Except Error (List η) :=
  if node.key.tokenIds.all TokenId.fits then
    .ok (chain h.getHashStr (r.parentHash parent) (chunks pageSize node.key.tokenIds))
  else .error .overflowError

/-- The node's `hash_value`, which is computed if it is not there yet. -/
def hashed (r : Recorder η β) (parent : Option TreeNode) (node : TreeNode) :
    Except Error (List η × Recorder η β) :=
  match r.hashValue node.id with
  | some hashValue => .ok (hashValue, r)
  | none => do
      let hashValue ← r.computeNodeHashValues h pageSize parent node
      return (hashValue,
        { r with hashValue := Function.update r.hashValue node.id (some hashValue) })

/-- The loop of `_record_store_event`. -/
def storeLoop : Option β → List (List TokenId) → List η → Except Error (List (KvCacheEvent β))
  | _, [], _ => .ok []
  | _, _ :: _, [] => .error .indexError
  | parentBlockHash, pageTokens :: pages, hash :: hashes => do
      let blockHash := h.hashStrToInt64 hash
      let rest ← storeLoop (some blockHash) pages hashes
      return .blockStored [blockHash] parentBlockHash pageTokens pageTokens.length none :: rest

/-- `parent_block_hash` at the start of `_record_store_event`. -/
def parentBlockHash (r : Recorder η β) : Option TreeNode → Option β
  | none => none
  | some parent => ((r.hashValue parent.id).bind List.getLast?).map h.hashStrToInt64

/-- `_record_store_event`. -/
def recordStoreEvent (r : Recorder η β) (parent : Option TreeNode) (node : TreeNode) :
    Except Error (Recorder η β) :=
  if r.enableKvCacheEvents then do
    let (hashValue, r) ← r.hashed h pageSize parent node
    let events ← storeLoop h (r.parentBlockHash h parent) (chunks pageSize node.key.tokenIds)
      hashValue
    return { r with kvEventQueue := r.kvEventQueue ++ events }
  else .ok r

/-- The loop of `_record_remove_event`. -/
def removeLoop : List (List TokenId) → List η → Except Error (List (KvCacheEvent β))
  | [], _ => .ok []
  | _ :: _, [] => .error .indexError
  | _ :: pages, hash :: hashes => do
      let rest ← removeLoop pages hashes
      return .blockRemoved [h.hashStrToInt64 hash] :: rest

/-- `_record_remove_event`. -/
def recordRemoveEvent (r : Recorder η β) (parent : Option TreeNode) (node : TreeNode) :
    Except Error (Recorder η β) :=
  if r.enableKvCacheEvents then do
    let (hashValue, r) ← r.hashed h pageSize parent node
    let events ← removeLoop h (chunks pageSize node.key.tokenIds) hashValue
    return { r with kvEventQueue := r.kvEventQueue ++ events }
  else .ok r

/-- `_record_all_cleared_event`. -/
def recordAllClearedEvent (r : Recorder η β) : Recorder η β :=
  if r.enableKvCacheEvents then { r with kvEventQueue := r.kvEventQueue ++ [.allBlocksCleared] }
  else r

/-- What `_split_node` does besides the split. -/
def recordSplit (r : Recorder η β) (parent : Option TreeNode) (child : TreeNode)
    (splitLen newId : Nat) : Except Error (Recorder η β) := do
  let r ← r.recordRemoveEvent h pageSize parent child
  let (newNodeHash, childHash) := splitNodeHashValue (r.hashValue child.id) splitLen pageSize
  return { r with
    hashValue :=
      Function.update (Function.update r.hashValue newId newNodeHash) child.id childHash }

end Recorder

/-- The id of a node's parent. -/
def parentId (parent : Option TreeNode) : Nat := (parent.map (·.id)).getD rootNode

/-- `_match_prefix_helper`, at the children of `parent`. -/
def recordMatchLoop : Nat → Option TreeNode → Children → ChildKey → RadixKey → Nat →
    Recorder η β → Except Error (Matched × Recorder η β)
  | 0, _, _, _, _, _, _ => .error .endless
  | rounds + 1, parent, children, childKey, key, counter, r =>
    match children.lookup childKey with
    | none => .ok (⟨[], parentId parent, children, counter⟩, r)
    | some (child, grandchildren) => do
        let prefixLen ← keyMatchFn pageSize child.key key
        if prefixLen < child.key.length then
          let r ← r.recordSplit h pageSize parent child prefixLen counter
          let (slot, newNode, below) ← splitNode pageSize child grandchildren prefixLen counter
          return (⟨[newNode.value], newNode.id, children.set slot newNode below, counter + 1⟩, r)
        else
          let key := key.drop prefixLen
          if key.length = 0 then
            return (⟨[child.value], child.id, children, counter⟩, r)
          else
            let childKey' ← getChildKey pageSize key
            let (rest, r) ← recordMatchLoop rounds (some child) grandchildren childKey' key
              counter r
            return (⟨child.value :: rest.values, rest.node,
              children.set childKey child rest.children, rest.counter⟩, r)

/-- `_insert_helper`, at the children of `parent`. -/
def recordInsertLoop : Nat → Option TreeNode → Children → ChildKey → RadixKey → List Nat → Nat →
    Recorder η β → Except Error (Inserted × Recorder η β)
  | 0, _, _, _, _, _, _, _ => .error .endless
  | rounds + 1, parent, children, childKey, key, value, counter, r =>
    match children.lookup childKey with
    | none => do
        let newNode : TreeNode := ⟨counter, key, value, 0⟩
        let r ← r.recordStoreEvent h pageSize parent newNode
        return (⟨0, children.set childKey newNode .nil, counter + 1, key.length⟩, r)
    | some (child, grandchildren) => do
        let prefixLen ← keyMatchFn pageSize child.key key
        let key := key.drop prefixLen
        let value := value.drop prefixLen
        let (slot, node, below, counter, r) ←
          if prefixLen < child.key.length then do
            let r ← r.recordSplit h pageSize parent child prefixLen counter
            let (slot, newNode, below) ← splitNode pageSize child grandchildren prefixLen counter
            pure (slot, newNode, below, counter + 1, r)
          else pure (childKey, child, grandchildren, counter, r)
        if key.length = 0 then
          return (⟨prefixLen, children.set slot node below, counter, 0⟩, r)
        else
          let childKey' ← getChildKey pageSize key
          let (rest, r) ← recordInsertLoop rounds (some node) below childKey' key value counter r
          return (⟨prefixLen + rest.prefixLen, children.set slot node rest.children,
            rest.counter, rest.grown⟩, r)

/-- The loop of `evict`. The event of a leaf is recorded after it is out. -/
def recordEvictLoop (order : List TreeNode → Nat) (numTokens : Nat) : Nat → Cache.Evicting →
    Recorder η β → Except Error (Cache.Evicting × Recorder η β)
  | 0, s, r => .ok (s, r)
  | rounds + 1, s, r =>
    if s.numEvicted < numTokens then
      match Cache.heappop order s.heap with
      | none => .ok (s, r)
      | some (x, heap) => do
          let parent := (s.children.locate (·.id == x.id)).bind (·.1.getLast?)
          let r ← r.recordRemoveEvent h pageSize parent x
          recordEvictLoop order numTokens rounds (Cache.evictLeaf s x heap) r
    else .ok (s, r)

/-- `RadixCache` with its events. -/
structure EventCache (η β : Type) where
  cache : Cache
  recorder : Recorder η β

namespace EventCache

/-- `reset`. -/
def reset (c : EventCache η β) : EventCache η β :=
  ⟨{ c.cache with children := .nil, evictableSize := 0, protectedSize := 0 },
    c.recorder.recordAllClearedEvent⟩

/-- `__init__`, which ends in a `reset`. -/
def init (pageSize : Nat) (isEagle disable disableFinishedInsert enableKvCacheEvents : Bool) :
    EventCache η β :=
  reset ⟨Cache.init pageSize isEagle disable disableFinishedInsert,
    ⟨enableKvCacheEvents, fun _ => none, []⟩⟩

/-- `match_prefix`. -/
def matchPrefix (c : EventCache η β) (key : RadixKey) :
    Except Error (MatchResult × EventCache η β) :=
  let key := c.cache.maybeBigramConvert key
  if c.cache.disable ∨ key.length = 0 then .ok (⟨[], rootNode, rootNode⟩, c)
  else
    let key := if c.cache.pageSize ≠ 1 then
      key.take (key.length / c.cache.pageSize * c.cache.pageSize) else key
    if key.length = 0 then .ok (⟨[], rootNode, rootNode⟩, c)
    else do
      let childKey ← getChildKey c.cache.pageSize key
      let (m, r) ← recordMatchLoop h c.cache.pageSize key.length none c.cache.children childKey key
        c.cache.counter c.recorder
      return (⟨m.values.flatten, m.node, m.node⟩,
        ⟨{ c.cache with children := m.children, counter := m.counter }, r⟩)

/-- `insert`. -/
def insert (c : EventCache η β) (key : RadixKey) (value : List Nat) :
    Except Error (Nat × EventCache η β) :=
  if c.cache.disable then .ok (0, c)
  else
    let converted := c.cache.maybeBigramConvert key
    let value := if c.cache.isEagle && !key.isBigram then value.take converted.length else value
    if converted.length = 0 then .ok (0, c)
    else do
      let childKey ← getChildKey c.cache.pageSize converted
      let (i, r) ← recordInsertLoop h c.cache.pageSize converted.length none c.cache.children
        childKey converted value c.cache.counter c.recorder
      return (i.prefixLen, ⟨{ c.cache with
        children := i.children
        counter := i.counter
        evictableSize := c.cache.evictableSize + i.grown }, r⟩)

/-- `evict`. -/
def evict (c : EventCache η β) (order : List TreeNode → Nat) (numTokens : Nat) :
    Except Error (List TreeNode × EventCache η β) :=
  if c.cache.disable then .ok ([], c)
  else do
    let (s, r) ← recordEvictLoop h c.cache.pageSize order numTokens numTokens
      ⟨c.cache.children, c.cache.evictableSize, Cache.collectLeaves c.cache.children, 0, []⟩
      c.recorder
    return (s.removed, ⟨{ c.cache with
      children := s.children
      evictableSize := s.evictableSize }, r⟩)

/-- `take_events`. -/
def takeEvents (c : EventCache η β) : List (KvCacheEvent β) × EventCache η β :=
  if c.recorder.enableKvCacheEvents then
    (c.recorder.kvEventQueue, { c with recorder := { c.recorder with kvEventQueue := [] } })
  else ([], c)

end EventCache

end SglangInc.Radix
