import SglangInc.Lib.ParentsFirst
import Mathlib.Data.List.Sort

/-!
# The N-Gram Trie

`speculative/cpp_ngram/ngram.h` and `ngram.cpp`: a trie of the branches seen so
far, with nodes from a pool of fixed size that are taken back in the order in which
they were last used.

A node is its place in `nodes_`, and pointers are such places. An iterator into a
list stands for the element it was made for, which the source keeps in the node it
points to: `splice` to the front is `moveFront`, `erase` is `erase`. `child` is a
dictionary. `sorted_children` is a set whose order compares what the nodes hold at
the time: an element is found through the comparison, so it is erased with whatever
compares equal. `freq` is an `int32_t`; it wraps.

A fresh node (`new (node) TrieNode()`) has no parent. The worker thread holds the
lock for one token list at a time and so does `reset`, so that they are one step
each.
-/

namespace SglangInc.NgramTrie

/-- `TrieNode`, with indices of `nodes_` for its pointers. -/
structure TrieNode where
  child : List (Int × Nat) := []
  token : Int := 0
  parent : Option Nat := none
  lru : List Nat := []
  freq : Int32 := 0
  sortedChildren : List Nat := []
deriving DecidableEq, Repr

/-- What the constructor checks. In the two lists `None` is the largest `size_t`. -/
structure Param where
  minBfsBreadth : Nat
  maxBfsBreadth : Nat
  minMatchWindowSize : Nat
  maxMatchWindowSize : Nat
  branchLength : Nat
  draftTokenNum : Nat
  batchMinMatchWindowSize : List (Option Nat)
  batchDraftTokenNum : List (Option Nat)
deriving DecidableEq, Repr

/-- What the calls throw. -/
inductive Error where
  | invalidParam (name : String)
  /-- `Insufficient node size to release required nodes.` -/
  | insufficientNodes
  /-- `The node to be released still has child nodes and cannot be released.` -/
  | stillHasChildren
  /-- An access outside of a list or through a pointer that was never set. -/
  | outOfBounds
deriving DecidableEq, Repr

/-- The trie in its array, with the pool of free nodes. -/
structure Ngram where
  /-- `nodes_`, of which there are `capacity`. -/
  nodes : Nat → TrieNode
  capacity : Nat
  nodePool : List Nat
  freeNodeCount : Nat
  globalLru : List Nat
  root : Nat
  param : Param

/-- `CompareByFreq`. -/
def CompareByFreq (nodes : Nat → TrieNode) (a b : Nat) : Prop :=
  (nodes b).freq < (nodes a).freq ∨ ((nodes b).freq = (nodes a).freq ∧
    ((nodes a).token < (nodes b).token ∨ ((nodes a).token = (nodes b).token ∧ a < b)))

instance (nodes : Nat → TrieNode) : DecidableRel (CompareByFreq nodes) :=
  fun _ _ => inferInstanceAs (Decidable (_ ∨ _))

/-- `sorted_children.insert(node)`. -/
def insertSorted (nodes : Nat → TrieNode) (node : Nat) (l : List Nat) : List Nat :=
  l.orderedInsert (CompareByFreq nodes) node

/-- `sorted_children.erase(node)`. -/
def eraseSorted (nodes : Nat → TrieNode) (node : Nat) (l : List Nat) : List Nat :=
  l.filter fun x => CompareByFreq nodes x node ∨ CompareByFreq nodes node x

/-- The checks of the constructor, in its order. -/
def Param.check (param : Param) : Except Error Unit := do
  if ¬(param.branchLength > 1) then .error (.invalidParam "branch_length")
  if ¬(param.minMatchWindowSize > 0) then .error (.invalidParam "min_match_window_size")
  if ¬(param.minMatchWindowSize ≤ param.maxMatchWindowSize) then
    .error (.invalidParam "min_match_window_size")
  if ¬(param.maxMatchWindowSize < param.branchLength) then
    .error (.invalidParam "max_match_window_size")
  if ¬(param.minBfsBreadth > 0) then .error (.invalidParam "min_bfs_breadth")
  if ¬(param.minBfsBreadth ≤ param.maxBfsBreadth) then .error (.invalidParam "min_bfs_breadth")
  if ¬(param.draftTokenNum > 0) then .error (.invalidParam "draft_token_num")
  if ¬∀ config ∈ param.batchDraftTokenNum.filterMap id, config ≤ param.draftTokenNum then
    .error (.invalidParam "batch_draft_token_num")
  if ¬∀ config ∈ param.batchMinMatchWindowSize.filterMap id,
      config ≥ param.minMatchWindowSize ∧ config ≤ param.maxMatchWindowSize then
    .error (.invalidParam "batch_min_match_window_size")

/-- `get_min_match_window_size`. -/
def Param.getMinMatchWindowSize (param : Param) (batchSize : Nat) : Nat :=
  (param.batchMinMatchWindowSize[batchSize]?.join).getD param.minMatchWindowSize

namespace Ngram

/-- A node is changed in place. -/
def update (s : Ngram) (i : Nat) (f : TrieNode → TrieNode) : Ngram :=
  { s with nodes := Function.update s.nodes i (f (s.nodes i)) }

/-- `getNode`. -/
def getNode (s : Ngram) : Except Error (Nat × Ngram) :=
  match s.freeNodeCount with
  | 0 => .error .outOfBounds
  | freeNodeCount + 1 =>
    match s.nodePool[freeNodeCount]? with
    | none => .error .outOfBounds
    | some node =>
      .ok (node, { s.update node fun _ => {} with freeNodeCount := freeNodeCount })

/-- The pool is filled, and the root taken from it. -/
def fillPool (s : Ngram) : Except Error Ngram := do
  let (root, s) ← { s with
    globalLru := []
    nodePool := List.range s.capacity
    freeNodeCount := s.capacity : Ngram }.getNode
  return { s with root := root }

/-- `Ngram(capacity, param)`. -/
def new (capacity : Nat) (param : Param) : Except Error Ngram := do
  let s ← fillPool ⟨fun _ => {}, capacity, [], 0, [], 0, param⟩
  param.check
  return s

/-- `reset`. -/
def reset (s : Ngram) : Except Error Ngram := s.fillPool

/-- One round of the loop of `squeeze`. -/
def release (s : Ngram) : Except Error Ngram :=
  match s.globalLru.getLast? with
  | none => .error .outOfBounds
  | some last =>
    if (s.nodes last).child ≠ [] then .error .stillHasChildren
    else
      match (s.nodes last).parent with
      | none => .error .outOfBounds
      | some parent =>
        .ok { s.update parent fun node => { node with
            lru := node.lru.erase last
            sortedChildren := eraseSorted s.nodes last node.sortedChildren
            child := node.child.filter (·.1 ≠ (s.nodes last).token) } with
          globalLru := s.globalLru.dropLast
          nodePool := s.nodePool.set s.freeNodeCount last
          freeNodeCount := s.freeNodeCount + 1 }

/-- The loop of `squeeze`. -/
def releaseMany : Nat → Ngram → Except Error Ngram
  | 0, s => .ok s
  | count + 1, s => do
      let s ← s.release
      releaseMany count s

/-- `squeeze`. -/
def squeeze (s : Ngram) (count : Nat) : Except Error Ngram :=
  if ¬(s.nodePool.length ≥ s.freeNodeCount + count) then .error .insufficientNodes
  else releaseMany count s

/-- One token of a branch, below `cursor`. -/
def visit (s : Ngram) (cursor : Nat) (token : Int) : Except Error (Nat × Ngram) :=
  match (s.nodes cursor).child.lookup token with
  | none => do
      let (node, s) ← s.getNode
      let s := s.update cursor fun c => { c with
        child := (token, node) :: c.child
        lru := node :: c.lru }
      let s := s.update node fun n => { n with token := token, parent := some cursor, freq := 1 }
      return (node, { s.update cursor fun c => { c with
          sortedChildren := insertSorted s.nodes node c.sortedChildren } with
        globalLru := s.globalLru ++ [node] })
  | some node =>
    let s := s.update cursor fun c => { c with
      sortedChildren := eraseSorted s.nodes node c.sortedChildren }
    let s := s.update node fun n => { n with freq := n.freq + 1 }
    .ok (node, s.update cursor fun c => { c with
      sortedChildren := insertSorted s.nodes node c.sortedChildren
      lru := moveFront node c.lru })

/-- The loop over a branch, with the nodes it visits. -/
def visitPath (s : Ngram) (cursor : Nat) : List Int → Except Error (List Nat × Ngram)
  | [] => .ok ([], s)
  | token :: rest => do
      let (node, s) ← s.visit cursor token
      let (path, s) ← s.visitPath node rest
      return (node :: path, s)

/-- Nodes are taken back until `count` of them are free. -/
def reserve (s : Ngram) (count : Nat) : Except Error Ngram :=
  if count > s.freeNodeCount then s.squeeze (count - s.freeNodeCount) else .ok s

/-- One round of the loop of `insert`. -/
def insertBranch (data : List Int) (s : Ngram) (i : Nat) : Except Error Ngram := do
  let branch := (data.drop i).take s.param.branchLength
  let s ← s.reserve branch.length
  let (path, s) ← s.visitPath s.root branch
  return { s with globalLru := path.foldr moveFront s.globalLru }

/-- `insert`, for one token list. -/
def insert (s : Ngram) (data : List Int) : Except Error Ngram :=
  (List.range (data.length - s.param.minMatchWindowSize)).foldlM (insertBranch data) s

/-- The path of a window, from the node `cursor`. -/
def walk (s : Ngram) (cursor : Nat) (window : List Int) : Option Nat :=
  window.foldlM (fun cursor token => (s.nodes cursor).child.lookup token) cursor

/-- The first value of `match_window_size`, which is an `int32_t`. -/
def firstWindow (s : Ngram) (tokens : List Int) : Int32 :=
  .ofNat (min tokens.length s.param.maxMatchWindowSize)

/-- `match`. It does not use the window size that it gets for the batch. A negative
    window starts behind the tokens. -/
def matchNodes (s : Ngram) (tokens : List Int) (_batchSize : Nat) :
    Except Error (List (Nat × Nat)) :=
  if s.firstWindow tokens < 0 then .error .outOfBounds
  else
    .ok ((List.range' s.param.minMatchWindowSize
      ((s.firstWindow tokens).toNatClampNeg + 1 - s.param.minMatchWindowSize)).reverse.filterMap
        fun w => (s.walk s.root (tokens.drop (tokens.length - w))).map (·, w))

end Ngram

/-- The calls that change the trie. -/
inductive Op where
  | insert (data : List Int)
  | reset
deriving DecidableEq, Repr

/-- The trie after a call. -/
def Ngram.exec (s : Ngram) : Op → Except Error Ngram
  | .insert data => s.insert data
  | .reset => s.reset

/-- A call that does not throw. -/
def Step (s : Ngram) (op : Op) (s' : Ngram) : Prop := s.exec op = .ok s'

end SglangInc.NgramTrie
