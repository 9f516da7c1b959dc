import SglangInc.Lib.ForestPath

/-!
# The Radix Cache

`mem_cache/radix_cache.py`: a radix tree over token ids whose nodes hold the
KV indices of their tokens.

A node is an object in the source and its identity is its `id` here. The
tree is the forest of the root's children: a node's `parent` is the node above
it, and a loop that follows `parent` is a fold over the path from the root,
last node first. Node identities matter, because whoever holds a lock keeps a
reference to a node across later splits: the object keeps the lower half of
its key, and the upper half is a new object.

Timestamps, hit counts and priorities only order the eviction heap. They are
left out, and `evict` takes the order as an argument. The event queue and the
page hashes are left out as well.

The loops of `_match_prefix_helper` and `_insert_helper` take a round for each
node they enter, and each round takes at least one token off the key, so the
length of the key bounds them. Running out is an error of its own, and so are
the exceptions of the source.
-/

namespace SglangInc.Radix

/-- A token id of the source is an `int`, or a tuple of two where keys are
    bigrams. -/
inductive TokenId where
  | int (id : Int)
  | tuple (first second : TokenId)
deriving DecidableEq, Repr

/-- `RadixKey`. -/
structure RadixKey where
  tokenIds : List TokenId
  extraKey : Option String := none
  isBigram : Bool := false
deriving DecidableEq, Repr

namespace RadixKey

/-- `__len__`. -/
def length (key : RadixKey) : Nat := key.tokenIds.length

/-- `key[:n]`. -/
def take (key : RadixKey) (n : Nat) : RadixKey := ⟨key.tokenIds.take n, key.extraKey, false⟩

/-- `key[n:]`. -/
def drop (key : RadixKey) (n : Nat) : RadixKey := ⟨key.tokenIds.drop n, key.extraKey, false⟩

end RadixKey

/-- `convert_to_bigram_key`. -/
def convertToBigramKey (tokens : List TokenId) : List TokenId :=
  match tokens with
  | .tuple a b :: rest => .tuple a b :: rest
  | _ => if tokens.length < 2 then [] else List.zipWith .tuple tokens tokens.tail

/-- What the source raises, and a loop that does not end. -/
inductive Error where
  /-- `_key_match should be run on the same extra key` -/
  | valueError (extraKey0 extraKey1 : Option String)
  | indexError
  /-- `to_bytes(4, signed=False)` of an id that is out of range. -/
  | overflowError
  /-- `len(new_indices) == len(keys)` fails. -/
  | assertionError (newIndices keys : Nat)
  | endless
deriving DecidableEq, Repr

/-- `_check_extra_key`. -/
def checkExtraKey (key0 key1 : RadixKey) : Except Error Unit :=
  if key0.extraKey ≠ key1.extraKey then .error (.valueError key0.extraKey key1.extraKey)
  else .ok ()

/-- The loop of `_key_match_page_size1`. -/
def matchTokens : List TokenId → List TokenId → Nat
  | k0 :: rest0, k1 :: rest1 => if k0 ≠ k1 then 0 else matchTokens rest0 rest1 + 1
  | _, _ => 0

/-- `_key_match_page_size1`. -/
def keyMatchPageSize1 (key0 key1 : RadixKey) : Except Error Nat := do
  checkExtraKey key0 key1
  return matchTokens key0.tokenIds key1.tokenIds

/-- The loop of `_key_match_paged` from position `i`, for at most `rounds`
    rounds. -/
def matchPages (pageSize minLen : Nat) (tokens0 tokens1 : List TokenId) (i : Nat) : Nat → Nat
  | 0 => i
  | rounds + 1 =>
    if i < minLen then
      if (tokens0.drop i).take pageSize ≠ (tokens1.drop i).take pageSize then i
      else matchPages pageSize minLen tokens0 tokens1 (i + pageSize) rounds
    else i

/-- `_key_match_paged`. -/
def keyMatchPaged (pageSize : Nat) (key0 key1 : RadixKey) : Except Error Nat := do
  checkExtraKey key0 key1
  let minLen := min key0.length key1.length
  return matchPages pageSize minLen key0.tokenIds key1.tokenIds 0 minLen

/-- The dictionary key without its extra key: a token, or a tuple of them. -/
inductive PlainKey where
  | token (id : TokenId)
  | tuple (ids : List TokenId)
deriving DecidableEq, Repr

/-- A dictionary key: the first page, with the extra key if there is one. -/
inductive ChildKey where
  | plain (key : PlainKey)
  | tagged (extraKey : String) (key : PlainKey)
deriving DecidableEq, Repr

/-- A plain key, with the extra key if there is one. -/
def ChildKey.of (extraKey : Option String) (plainKey : PlainKey) : ChildKey :=
  match extraKey with
  | none => .plain plainKey
  | some extraKey => .tagged extraKey plainKey

/-- The plain key of `get_child_key`. -/
def plainKey (pageSize : Nat) (tokenIds : List TokenId) : Except Error PlainKey :=
  if pageSize = 1 then
    match tokenIds with
    | [] => .error .indexError
    | id :: _ => .ok (.token id)
  else .ok (.tuple (tokenIds.take pageSize))

/-- `get_child_key`. -/
def getChildKey (pageSize : Nat) (key : RadixKey) : Except Error ChildKey := do
  let plainKey ← plainKey pageSize key.tokenIds
  return .of key.extraKey plainKey

/-- `key_match_fn`. -/
def keyMatchFn (pageSize : Nat) (key0 key1 : RadixKey) : Except Error Nat :=
  if pageSize = 1 then keyMatchPageSize1 key0 key1 else keyMatchPaged pageSize key0 key1

/-- A `TreeNode` other than the root. -/
structure TreeNode where
  id : Nat
  key : RadixKey
  value : List Nat
  lockRef : Int
deriving DecidableEq, Repr

/-- A dictionary of children, with all that is below. -/
abbrev Children := Forest ChildKey TreeNode

/-- `lock_ref` goes up or down. -/
def TreeNode.moveLock (step : Int) (node : TreeNode) : TreeNode :=
  { node with lockRef := node.lockRef + step }

/-- The two nodes of a `_split_node`: a new one with the upper part of the
    key, and the old one with what is left. -/
def TreeNode.upper (child : TreeNode) (splitLen newId : Nat) : TreeNode :=
  ⟨newId, child.key.take splitLen, child.value.take splitLen, child.lockRef⟩

/-- The part of a split node that keeps its id. -/
def TreeNode.lower (child : TreeNode) (splitLen : Nat) : TreeNode :=
  ⟨child.id, child.key.drop splitLen, child.value.drop splitLen, child.lockRef⟩

/-- `_split_node`: the dictionary entry of the new node and its children. -/
def splitNode (pageSize : Nat) (child : TreeNode) (grandchildren : Children)
    (splitLen newId : Nat) : Except Error (ChildKey × TreeNode × Children) := do
  let below ← getChildKey pageSize (child.key.drop splitLen)
  let slot ← getChildKey pageSize child.key
  return (slot, child.upper splitLen newId, .cons below (child.lower splitLen) grandchildren .nil)

/-- What a match gives back: the values along the path, the last node, the
    children it leaves, and the next free node id. -/
structure Matched where
  values : List (List Nat)
  node : Nat
  children : Children
  counter : Nat
deriving Repr

/-- The loop of `_match_prefix_helper` at the children of `node`. -/
def matchLoop (pageSize : Nat) : Nat → Nat → Children → ChildKey → RadixKey → Nat →
    Except Error Matched
  | 0, _, _, _, _, _ => .error .endless
  | rounds + 1, node, children, childKey, key, counter =>
    match children.lookup childKey with
    | none => .ok ⟨[], node, children, counter⟩
    | some (child, grandchildren) => do
        let prefixLen ← keyMatchFn pageSize child.key key
        if prefixLen < child.key.length then
          let (slot, newNode, below) ← splitNode pageSize child grandchildren prefixLen counter
          return ⟨[newNode.value], newNode.id, children.set slot newNode below, counter + 1⟩
        else
          let key := key.drop prefixLen
          if key.length = 0 then
            return ⟨[child.value], child.id, children, counter⟩
          else
            let childKey' ← getChildKey pageSize key
            let rest ← matchLoop pageSize rounds child.id grandchildren childKey' key counter
            return ⟨child.value :: rest.values, rest.node,
              children.set childKey child rest.children, rest.counter⟩

/-- What an insertion gives back. -/
structure Inserted where
  prefixLen : Nat
  children : Children
  counter : Nat
  /-- What is added to `evictable_size_`. -/
  grown : Nat
deriving Repr

/-- The loop of `_insert_helper`, and the new node after it. -/
def insertLoop (pageSize : Nat) : Nat → Children → ChildKey → RadixKey → List Nat → Nat →
    Except Error Inserted
  | 0, _, _, _, _, _ => .error .endless
  | rounds + 1, children, childKey, key, value, counter =>
    match children.lookup childKey with
    | none =>
      .ok ⟨0, children.set childKey ⟨counter, key, value, 0⟩ .nil, counter + 1, key.length⟩
    | some (child, grandchildren) => do
        let prefixLen ← keyMatchFn pageSize child.key key
        let key := key.drop prefixLen
        let value := value.drop prefixLen
        let (slot, node, below, counter) ←
          if prefixLen < child.key.length then do
            let (slot, newNode, below) ← splitNode pageSize child grandchildren prefixLen counter
            pure (slot, newNode, below, counter + 1)
          else pure (childKey, child, grandchildren, counter)
        if key.length = 0 then
          return ⟨prefixLen, children.set slot node below, counter, 0⟩
        else
          let childKey' ← getChildKey pageSize key
          let rest ← insertLoop pageSize rounds below childKey' key value counter
          return ⟨prefixLen + rest.prefixLen, children.set slot node rest.children,
            rest.counter, rest.grown⟩

/-- `RadixCache`: its parameters, the children of `root_node`, the two
    counters, and the next node id. The root has id 0 and `lock_ref` 1. -/
structure Cache where
  pageSize : Nat
  isEagle : Bool
  disable : Bool
  disableFinishedInsert : Bool
  children : Children
  evictableSize : Int
  protectedSize : Int
  counter : Nat
deriving Repr

/-- The id of `root_node`. -/
def rootNode : Nat := 0

/-- `MatchResult`. -/
structure MatchResult where
  deviceIndices : List Nat
  lastDeviceNode : Nat
  lastHostNode : Nat
deriving DecidableEq, Repr

namespace Cache

/-- `__init__` and `reset`. -/
def init (pageSize : Nat) (isEagle disable disableFinishedInsert : Bool) : Cache :=
  ⟨pageSize, isEagle, disable, disableFinishedInsert, .nil, 0, 0, 1⟩

/-- `maybe_bigram_convert` on a key. -/
def maybeBigramConvert (c : Cache) (key : RadixKey) : RadixKey :=
  if c.isEagle && !key.isBigram then { key with tokenIds := convertToBigramKey key.tokenIds }
  else key

/-- `match_prefix`. -/
def matchPrefix (c : Cache) (key : RadixKey) : Except Error (MatchResult × Cache) :=
  let key := c.maybeBigramConvert key
  if c.disable ∨ key.length = 0 then .ok (⟨[], rootNode, rootNode⟩, c)
  else
    let key := if c.pageSize ≠ 1 then key.take (key.length / c.pageSize * c.pageSize) else key
    if key.length = 0 then .ok (⟨[], rootNode, rootNode⟩, c)
    else do
      let childKey ← getChildKey c.pageSize key
      let m ← matchLoop c.pageSize key.length rootNode c.children childKey key c.counter
      return (⟨m.values.flatten, m.node, m.node⟩,
        { c with children := m.children, counter := m.counter })

/-- `insert`, with a value: the length of the prefix that was there. -/
def insert (c : Cache) (key : RadixKey) (value : List Nat) : Except Error (Nat × Cache) :=
  if c.disable then .ok (0, c)
  else
    let converted := c.maybeBigramConvert key
    let value := if c.isEagle && !key.isBigram then value.take converted.length else value
    if converted.length = 0 then .ok (0, c)
    else do
      let childKey ← getChildKey c.pageSize converted
      let r ← insertLoop c.pageSize converted.length c.children childKey converted value c.counter
      return (r.prefixLen, { c with
        children := r.children
        counter := r.counter
        evictableSize := c.evictableSize + r.grown })

/-- `_collect_leaves`. -/
def collectLeaves : Children → List TreeNode
  | .nil => []
  | .cons _ node .nil rest =>
    if node.lockRef = 0 then node :: collectLeaves rest else collectLeaves rest
  | .cons _ _ children rest => collectLeaves children ++ collectLeaves rest

/-- The loop of `evict`: the tree, `evictable_size_`, the heap, `num_evicted`,
    and the leaves taken out so far. -/
structure Evicting where
  children : Children
  evictableSize : Int
  heap : List TreeNode
  numEvicted : Nat
  removed : List TreeNode

/-- `heappop`. The order of the heap is any: it stands for the eviction
    strategy and for what it reads of the nodes. -/
def heappop (order : List TreeNode → Nat) (heap : List TreeNode) :
    Option (TreeNode × List TreeNode) :=
  let i := order heap % heap.length
  heap[i]?.map (fun x => (x, heap.eraseIdx i))

/-- One leaf is taken out, and its parent goes on the heap if it is now an
    unlocked leaf. The root is locked. -/
def evictLeaf (s : Evicting) (x : TreeNode) (heap : List TreeNode) : Evicting :=
  let children := s.children.eraseNode (·.id == x.id)
  let parent := (s.children.locate (·.id == x.id)).bind (·.1.getLast?)
  let heap := match parent with
    | none => heap
    | some parent =>
      match children.locate (·.id == parent.id) with
      | some (_, parent, .nil) => if parent.lockRef = 0 then parent :: heap else heap
      | _ => heap
  ⟨children, s.evictableSize - x.key.length, heap, s.numEvicted + x.value.length, s.removed ++ [x]⟩

/-- The loop of `evict`. Each round evicts at least one token, so `num_tokens`
    rounds are enough. -/
def evictLoop (order : List TreeNode → Nat) (numTokens : Nat) : Nat → Evicting → Evicting
  | 0, s => s
  | rounds + 1, s =>
    if s.numEvicted < numTokens then
      match heappop order s.heap with
      | none => s
      | some (x, heap) => evictLoop order numTokens rounds (evictLeaf s x heap)
    else s

/-- `evict`: the leaves taken out, whose values are freed in this order. -/
def evict (c : Cache) (order : List TreeNode → Nat) (numTokens : Nat) : List TreeNode × Cache :=
  if c.disable then ([], c)
  else
    let s := evictLoop order numTokens numTokens
      ⟨c.children, c.evictableSize, collectLeaves c.children, 0, []⟩
    (s.removed, { c with children := s.children, evictableSize := s.evictableSize })

/-- The counters and `delta` of the lock loops. -/
structure Sizes where
  evictable : Int
  protect : Int
  delta : Int

/-- One round of a lock loop. The tokens of a node move between the counters
    when its `lock_ref` is at the edge. -/
def Sizes.round (edge step : Int) (s : Sizes) (node : TreeNode) : Sizes :=
  if node.lockRef = edge then
    ⟨s.evictable - step * node.key.length, s.protect + step * node.key.length,
      s.delta - step * node.key.length⟩
  else s

/-- The loop of `inc_lock_ref` and `dec_lock_ref`, from a node up to the
    root. -/
def moveLockRef (edge step : Int) (c : Cache) (node : Nat) : Int × Cache :=
  if c.disable then (0, c)
  else match c.children.locate (·.id == node) with
    | none => (0, c)
    | some (above, x, _) =>
      let s := (above ++ [x]).reverse.foldl (Sizes.round edge step)
        ⟨c.evictableSize, c.protectedSize, 0⟩
      (s.delta, { c with
        children := c.children.alterPath (·.id == node) (TreeNode.moveLock step)
        evictableSize := s.evictable
        protectedSize := s.protect })

/-- `inc_lock_ref`: a node that was not locked is protected now. -/
def incLockRef : Cache → Nat → Int × Cache := moveLockRef 0 1

/-- `dec_lock_ref`: a node with one lock is evictable again. -/
def decLockRef : Cache → Nat → Int × Cache := moveLockRef 1 (-1)

/-- `_page_align_keys`. -/
def pageAlignKeys (c : Cache) (key : List TokenId) : List TokenId :=
  if c.pageSize = 1 then key else key.take (key.length / c.pageSize * c.pageSize)

end Cache

end SglangInc.Radix
