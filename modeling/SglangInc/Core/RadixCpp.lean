import SglangInc.Lib.Checked
import SglangInc.Lib.ForestAddress
import SglangInc.Core.Serving

/-!
# The Radix Tree in C++

`mem_cache/radix_cache_cpp.py` and the tree below it,
`mem_cache/cpp_radix_tree/tree_v2.cpp` with `tree_v2_impl.h` and
`tree_v2_node.h`. The Python class passes the `token_ids` of a key to the tree
and nothing else of it.

A tree node keeps its children in a map from their first page. A pointer that
`tree_walk` returns is used in the same call, and is the address of the node
here; a handle that Python keeps is the node's id. The loop of `tree_walk` takes
at least a page off its key in each round, so the length of the key bounds it.

There is no host memory, so every node has its indices on the device. Access
times, hit counts and the two sizes are left out: they are for eviction and for
writing to the host.
-/

namespace SglangInc.RadixCpp

open Radix (TokenId RadixKey)
open Kv (Allocator)
open Serving (Req slice)
open Checked (require)

/-- What is raised. -/
inductive Error where
  | assertion (message : String)
deriving DecidableEq, Repr

/-- A `TreeNode` other than the root. -/
structure TreeNode where
  nodeId : Nat
  tokens : List TokenId
  deviceIndices : List Nat
  refCount : Nat
deriving DecidableEq, Repr

/-- `m_children`, by the first page of each child. -/
abbrev Children := Forest (List TokenId) TreeNode

/-- A size rounded down to whole pages. -/
def align (pageSize size : Nat) : Nat := size / pageSize * pageSize

/-- `std::ranges::mismatch`, as a number of elements. -/
def mismatch : List TokenId → List TokenId → Nat
  | a :: as, b :: bs => if a = b then mismatch as bs + 1 else 0
  | _, _ => 0

/-- `diff_key`. -/
def diffKey (node : TreeNode) (key : List TokenId) (offset : Nat) : Nat :=
  mismatch (key.drop offset) (node.tokens.drop offset)

/-- `get_key`. -/
def getKey (pageSize : Nat) (tokens : List TokenId) : List TokenId := tokens.take pageSize

/-- The two nodes of `split_prefix`. -/
def TreeNode.newNode (oldNode : TreeNode) (prefixLength nodeId : Nat) : TreeNode :=
  ⟨nodeId, oldNode.tokens.take prefixLength, oldNode.deviceIndices.take prefixLength,
    oldNode.refCount⟩

/-- The part of a split node that stays below. -/
def TreeNode.oldPart (oldNode : TreeNode) (prefixLength : Nat) : TreeNode :=
  { oldNode with
    tokens := oldNode.tokens.drop prefixLength
    deviceIndices := oldNode.deviceIndices.drop prefixLength }

/-- `ref_count` goes up or down. -/
def TreeNode.moveRef (move : Nat → Nat) (node : TreeNode) : TreeNode :=
  { node with refCount := move node.refCount }

/-- What `tree_walk` gives back and leaves behind. -/
structure Walked where
  address : List (List TokenId)
  totalPrefixLength : Nat
  children : Children
  nodeCounter : Nat

/-- The loop of `tree_walk` at the children of a node. -/
def treeWalk (pageSize : Nat) : Nat → Children → List TokenId → Nat → Walked
  | 0, children, _, nodeCounter => ⟨[], 0, children, nodeCounter⟩
  | rounds + 1, children, key, nodeCounter =>
    if key.length > 0 then
      match children.lookup (getKey pageSize key) with
      | none => ⟨[], 0, children, nodeCounter⟩
      | some (node, below) =>
        let prefixLength := align pageSize (diffKey node key pageSize + pageSize)
        if prefixLength < node.tokens.length then
          -- `split_node`: the new node takes the place of the old one.
          let oldNode := node.oldPart prefixLength
          ⟨[getKey pageSize key], prefixLength,
            children.set (getKey pageSize key) (node.newNode prefixLength nodeCounter)
              (.cons (getKey pageSize oldNode.tokens) oldNode below .nil), nodeCounter + 1⟩
        else
          let rest := treeWalk pageSize rounds below (key.drop prefixLength) nodeCounter
          ⟨getKey pageSize key :: rest.address, prefixLength + rest.totalPrefixLength,
            children.set (getKey pageSize key) node rest.children, rest.nodeCounter⟩
    else ⟨[], 0, children, nodeCounter⟩

/-- The tree, and the counter of its nodes. -/
structure RadixTree where
  disabled : Bool
  pageSize : Nat
  children : Children
  nodeCounter : Nat
deriving Repr

/-- The id of the root. -/
def rootId : Nat := 0

/-- The tuple that `match_prefix` returns. -/
structure Matched where
  deviceIndices : List (List Nat)
  hostIndicesLength : Nat
  nodeGpu : Nat
  nodeCpu : Nat
deriving DecidableEq, Repr

namespace RadixTree

/-- The empty tree. -/
def init (disabled : Bool) (pageSize : Nat) : RadixTree := ⟨disabled, pageSize, .nil, 1⟩

/-- `tree_walk`, for the whole pages of a key. -/
def walk (t : RadixTree) (key : List TokenId) : Walked :=
  treeWalk t.pageSize key.length t.children key t.nodeCounter

/-- The key that is walked: the unaligned tail is clipped. -/
def aligned (t : RadixTree) (key : List TokenId) : List TokenId :=
  key.take (align t.pageSize key.length)

/-- `match_prefix` of the tree. -/
def matchPrefix (t : RadixTree) (key : List TokenId) : Matched × RadixTree :=
  if t.disabled then (⟨[], 0, 0, 0⟩, t)
  else
    let w := t.walk (t.aligned key)
    let path := w.children.along w.address
    let node := (path.getLast?.map (·.nodeId)).getD rootId
    (⟨path.map (·.deviceIndices), 0, node, node⟩,
      { t with children := w.children, nodeCounter := w.nodeCounter })

/-- `create_device_node`. -/
def createDeviceNode (t : RadixTree) (parent : List (List TokenId)) (vec : List TokenId)
    (indices : List Nat) : RadixTree :=
  { t with
    children := t.children.setAt parent (getKey t.pageSize vec) ⟨t.nodeCounter, vec, indices, 0⟩
    nodeCounter := t.nodeCounter + 1 }

/-- `writing_through`: the length of the prefix that was there. -/
def writingThrough (t : RadixTree) (key : List TokenId) (value : List Nat) :
    Except Error (Nat × RadixTree) :=
  if t.disabled then .ok (0, t)
  else if key.length ≠ value.length then
    .error (.assertion "Key and value must have the same size")
  else
    let key := t.aligned key
    let w := t.walk key
    let t := { t with children := w.children, nodeCounter := w.nodeCounter }
    if w.totalPrefixLength ≠ key.length then
      .ok (w.totalPrefixLength, t.createDeviceNode w.address (key.drop w.totalPrefixLength)
        (slice value w.totalPrefixLength key.length))
    else .ok (w.totalPrefixLength, t)

/-- `lock_ref`, from a node up to the root. -/
def lockRef (t : RadixTree) (node : Nat) (increment : Bool) : Except Error RadixTree :=
  if t.disabled then .ok t
  else if node = rootId then .ok t
  else match t.children.locate (·.nodeId == node) with
    | none => .error (.assertion "Node not found in the map")
    | some (above, x, _) =>
      if increment then
        .ok { t with
          children := t.children.alterPath (·.nodeId == node) (TreeNode.moveRef (· + 1)) }
      else if (above ++ [x]).any (·.refCount == 0) then
        .error (.assertion "Cannot decrement reference count = zero")
      else
        .ok { t with
          children := t.children.alterPath (·.nodeId == node) (TreeNode.moveRef (· - 1)) }

end RadixTree

/-- `match_prefix` of the cache. -/
def matchPrefix (t : RadixTree) (key : RadixKey) : Radix.MatchResult × RadixTree :=
  let (m, t) := t.matchPrefix key.tokenIds
  (⟨m.deviceIndices.flatten, m.nodeGpu, m.nodeCpu⟩, t)

/-- `_insert`. -/
def insert (t : RadixTree) (key : RadixKey) (value : List Nat) : Except Error (Nat × RadixTree) :=
  t.writingThrough key.tokenIds value

/-- `RadixKey(token_ids, req.extra_key)` for the committed tokens. -/
def finishedKey (req : Req) : RadixKey :=
  { tokenIds := (req.tokens.take req.kvCommittedLen).map .int, extraKey := req.extraKey }

/-- The same for `fill_ids`. -/
def unfinishedKey (req : Req) : RadixKey :=
  { tokenIds := req.fillIds.map .int, extraKey := req.extraKey }

/-- `cache_finished_req`. -/
def cacheFinishedReq (t : RadixTree) (a : Allocator) (req : Req) (isInsert : Bool) :
    Except Error (RadixTree × Allocator) := do
  let kvIndices := req.reqToToken.take req.kvCommittedLen
  let oldPrefixLen := align t.pageSize req.prefixIndices.length
  let pageAlignedOverallLen := align t.pageSize req.kvCommittedLen
  let (t, a) ←
    if isInsert then do
      let (newPrefixLen, t) ← insert t (finishedKey req) kvIndices
      require (oldPrefixLen ≤ newPrefixLen) (.assertion "Wrong prefix indices")
      pure (t, if oldPrefixLen < newPrefixLen then
        a.free (slice kvIndices oldPrefixLen newPrefixLen) else a)
    else pure (t, a.free (slice kvIndices oldPrefixLen pageAlignedOverallLen))
  -- the unaligned part cannot be inserted
  let a := if pageAlignedOverallLen < req.kvCommittedLen then
    a.free (kvIndices.drop pageAlignedOverallLen) else a
  let t ← t.lockRef req.lastNode false
  return (t, a)

/-- The row after `reused_indices` have been written. -/
def reuseIndices (row newIndices : List Nat) (oldPrefixLen newPrefixLen : Nat) : List Nat :=
  row.take oldPrefixLen ++ slice newIndices oldPrefixLen newPrefixLen ++ row.drop newPrefixLen

/-- The lock goes from the old last node to the new one. -/
def moveLock (t : RadixTree) (lastNode newLastNode : Nat) : Except Error RadixTree :=
  if lastNode ≠ newLastNode then do
    let t ← t.lockRef lastNode false
    t.lockRef newLastNode true
  else pure t

/-- `cache_unfinished_req`. -/
def cacheUnfinishedReq (t : RadixTree) (a : Allocator) (req : Req) :
    Except Error (RadixTree × Allocator × Req) := do
  let key := unfinishedKey req
  let prefillLen := req.fillIds.length
  let kvIndices := req.reqToToken.take prefillLen
  let oldPrefixLen := align t.pageSize req.prefixIndices.length
  let (newPrefixLen, t) ← insert t key kvIndices
  require (oldPrefixLen ≤ newPrefixLen) (.assertion "Wrong prefix indices")
  let (m, t) := t.matchPrefix key.tokenIds
  let newIndices := m.deviceIndices.flatten
  require (newPrefixLen ≤ newIndices.length) (.assertion "")
  let (a, row) :=
    if oldPrefixLen < newPrefixLen then
      (a.free (slice kvIndices oldPrefixLen newPrefixLen),
        reuseIndices req.reqToToken newIndices oldPrefixLen newPrefixLen)
    else (a, req.reqToToken)
  let t ← moveLock t req.lastNode m.nodeGpu
  require (newIndices.length ≤ prefillLen ∧ prefillLen < newIndices.length + t.pageSize)
    (.assertion "")
  return (t, a, { req with
    row := some row
    prefixIndices :=
      if t.pageSize ≠ 1 ∧ newIndices.length < prefillLen then
        newIndices ++ kvIndices.drop newIndices.length
      else newIndices
    lastNode := m.nodeGpu })

/-- The cache and the allocator. -/
structure State where
  tree : RadixTree
  alloc : Allocator

/-- The calls of the cache. -/
inductive Op where
  | matchPrefix (key : RadixKey)
  | cacheFinished (req : Req) (isInsert : Bool)
  | cacheUnfinished (req : Req)
  | lockRef (node : Nat) (increment : Bool)

/-- Calls that raise nothing. -/
def Step (s : State) (op : Op) (s' : State) : Prop :=
  match op with
  | .matchPrefix key => s' = { s with tree := (matchPrefix s.tree key).2 }
  | .cacheFinished req isInsert =>
    ∃ t a, cacheFinishedReq s.tree s.alloc req isInsert = .ok (t, a) ∧ s' = ⟨t, a⟩
  | .cacheUnfinished req =>
    ∃ t a req', cacheUnfinishedReq s.tree s.alloc req = .ok (t, a, req') ∧ s' = ⟨t, a⟩
  | .lockRef node increment =>
    ∃ t, s.tree.lockRef node increment = .ok t ∧ s' = { s with tree := t }

end SglangInc.RadixCpp
