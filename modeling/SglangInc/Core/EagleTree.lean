import Mathlib.Algebra.Order.Ring.Int
import SglangInc.Lib.Grid

/-!
# The Draft Tree and Its Verification

`build_tree_efficient` and `VerifyTreeGreedy` of
`sgl-kernel/csrc/speculative/eagle_utils.cu`.

The drafts of a request are a tree. Node 0 is the token that was verified last, and
node `i` for `0 < i` is the candidate `selected_index[i - 1]`. Candidates are
numbered as they were drafted, `topk` below each: the candidate `c` was drafted for
the entry `c / topk` of `parent_list`, and entry 0 is node 0.

Tensors are functions from the flat index. A read outside of a row finds what the
tensor has there. The indices into the mask and the positions are computed in `int`
(`int32`), and a write at a negative index is outside of the mask. The candidates and
the indices into the other tensors are taken to fit.

A kernel runs one thread for each pair of a block and a position, in any order. A
thread that does not end has no result: the rounds of a `while` loop are counted.
-/

namespace SglangInc.Eagle

open Function

/-- The modes with one entry for each pair of tokens. -/
inductive TreeMaskMode where
  | fullMask
  | qlenOnly
deriving DecidableEq, Repr

/-- What an `int` holds of a number. -/
def int32 (x : Int) : Int := x.bmod (2 ^ 32)

/-- `tree_mask[idx] = value`. -/
def storeMask (mask : Nat → Bool) (idx : Int) (value : Bool) : Nat → Bool :=
  if idx < 0 then mask else update mask idx.toNat value

/-- What `build_tree_efficient` reads. -/
structure TreeInput where
  topk : Nat
  depth : Nat
  draftTokenNum : Nat
  parentList : Nat → Int
  selectedIndex : Nat → Nat
  verifiedSeqLen : Nat → Nat
  topk_pos : 0 < topk
  draftTokenNum_pos : 0 < draftTokenNum

/-- What `build_tree_efficient` writes. -/
structure Buffers where
  treeMask : Nat → Bool
  positions : Nat → Int
  retriveIndex : Nat → Int
  retriveNextToken : Nat → Int
  retriveNextSibling : Nat → Int

namespace TreeInput

variable (t : TreeInput)

/-- `selected_index[bid * (draft_token_num - 1) + position]`. -/
def selected (bid position : Nat) : Nat :=
  t.selectedIndex (bid * (t.draftTokenNum - 1) + position)

/-- `parent_list[bid * (topk * (depth - 1) + 1) + parent_tb_idx]`. -/
def parentToken (bid parentTbIdx : Nat) : Int :=
  t.parentList (bid * (t.topk * (t.depth - 1) + 1) + parentTbIdx)

/-- `seq_tree_idx`, an `int` with wrap-around. -/
def seqTreeIdx (bid : Nat) : Int :=
  (List.range bid).foldl (fun idx i => int32 (idx + t.verifiedSeqLen i * t.draftTokenNum))
    (int32 (t.draftTokenNum * t.draftTokenNum * bid))

/-- `seq_len`. -/
def seqLen (bid : Nat) : Int := int32 (t.verifiedSeqLen bid)

/-- One behind the start of the draft part of a row. -/
def tokenTreeIdx (mode : TreeMaskMode) (bid tid : Nat) : Int :=
  match mode with
  | .fullMask => int32 (t.seqTreeIdx bid + (t.seqLen bid + t.draftTokenNum) * tid +
      t.seqLen bid + 1)
  | .qlenOnly => int32 (t.draftTokenNum * t.draftTokenNum * bid + t.draftTokenNum * tid + 1)

/-- The position at which a loop over the row of `selected_index` stops. -/
def search (bid : Nat) (token : Int) : Option Nat :=
  (List.range t.draftTokenNum).find? fun position => (t.selected bid position : Int) = token

/-- `parent_position` for node `i`. -/
def parentPosition (bid i : Nat) : Nat :=
  let parentTbIdx := t.selected bid (i - 1) / t.topk
  if parentTbIdx > 0 then
    match t.search bid (t.parentToken bid parentTbIdx) with
    | some position => position + 1
    | none => t.draftTokenNum
  else 0

/-- One round of the loop of thread 0. -/
def linkNode (bid : Nat) (bufs : Buffers) (i : Nat) : Buffers :=
  let offset := bid * t.draftTokenNum
  let bufs := { bufs with
    retriveIndex := update bufs.retriveIndex (offset + i) (offset + i : Nat) }
  let parentPosition := t.parentPosition bid i
  if parentPosition = t.draftTokenNum then bufs
  else if bufs.retriveNextToken (offset + parentPosition) = -1 then
    { bufs with
      retriveNextToken := update bufs.retriveNextToken (offset + parentPosition) i }
  else
    { bufs with
      retriveNextToken := update bufs.retriveNextToken (offset + parentPosition) i
      retriveNextSibling := update bufs.retriveNextSibling (offset + i)
        (bufs.retriveNextToken (offset + parentPosition)) }

/-- The first `count` nodes after node 0, from the last one down. -/
def linkNodes (bid : Nat) (bufs : Buffers) : Nat → Buffers
  | 0 => bufs
  | count + 1 => linkNodes bid (t.linkNode bid bufs (count + 1)) count

/-- The `while` loop of the other threads, which returns `position` and the mask. -/
def climb (bid : Nat) (tokenTreeIdx : Int) : Nat → Nat → Nat → (Nat → Bool) →
    Option (Nat × (Nat → Bool))
  | 0, _, _, _ => none
  | fuel + 1, curPosition, position, treeMask =>
    let treeMask := storeMask treeMask (int32 (tokenTreeIdx + curPosition)) true
    let parentTbIdx := t.selected bid curPosition / t.topk
    if parentTbIdx = 0 then some (position + 1, treeMask)
    else
      climb bid tokenTreeIdx fuel
        ((t.search bid (t.parentToken bid parentTbIdx)).getD t.draftTokenNum) (position + 1)
        treeMask

/-- The row of a thread, before its ancestors are marked. -/
def clearRow (tokenTreeIdx : Int) (treeMask : Nat → Bool) : Nat → Bool :=
  (List.range (t.draftTokenNum - 1)).foldl
    (fun mask (i : Nat) => storeMask mask (int32 (tokenTreeIdx + i)) false)
    (storeMask treeMask (int32 (tokenTreeIdx - 1)) true)

/-- `build_tree_efficient`, one thread. -/
def thread (mode : TreeMaskMode) (fuel : Nat) (bufs : Buffers) : Nat × Nat → Option Buffers
  | (bid, tid) =>
    if tid ≥ t.draftTokenNum then some bufs
    else
      let offset := bid * t.draftTokenNum
      let seqLen := t.seqLen bid
      let tokenTreeIdx := t.tokenTreeIdx mode bid tid
      let bufs := { bufs with treeMask := t.clearRow tokenTreeIdx bufs.treeMask }
      if tid = 0 then
        let bufs := { bufs with positions := update bufs.positions offset seqLen }
        let bufs := t.linkNodes bid bufs (t.draftTokenNum - 1)
        some { bufs with
          retriveIndex := update bufs.retriveIndex offset (offset : Nat) }
      else do
        let (position, treeMask) ← t.climb bid tokenTreeIdx fuel (tid - 1) 0 bufs.treeMask
        return { bufs with
          treeMask := treeMask
          positions := update bufs.positions (offset + tid) (int32 (position + seqLen)) }

/-- The threads of a batch. -/
def threads (bs : Nat) : List (Nat × Nat) :=
  (List.range bs).product (List.range t.draftTokenNum)

/-- The kernel, with its threads in the given order. -/
def launch (mode : TreeMaskMode) (fuel : Nat) (order : List (Nat × Nat)) (bufs : Buffers) :
    Option Buffers :=
  order.foldlM (t.thread mode fuel) bufs

end TreeInput

/-- What `VerifyTreeGreedy` reads. -/
structure VerifyInput where
  numSpeculativeTokens : Nat
  numDraftTokens : Nat
  candidates : Nat → Int
  retriveIndex : Nat → Int
  retriveNextToken : Nat → Int
  retriveNextSibling : Nat → Int
  targetPredict : Nat → Int

/-- What `VerifyTreeGreedy` writes. -/
structure VerifyBuffers where
  predicts : Nat → Int
  acceptIndex : Nat → Int
  acceptTokenNum : Nat → Nat

/-- The locals of `VerifyTreeGreedy`, and what it has written. -/
structure VerifyState where
  bufs : VerifyBuffers
  lastAcceptedRetriveIdx : Int
  numAcceptedTokens : Nat
  curIndex : Int

namespace VerifyInput

variable (v : VerifyInput)

/-- The `while` loop: a child of the last node that is what the target predicts, or
    -1. -/
def scan (bx : Nat) (last : Int) : Nat → Int → Option Int
  | 0, _ => none
  | fuel + 1, curIndex =>
    if curIndex = -1 then some (-1)
    else if v.candidates (bx * v.numDraftTokens + curIndex.toNat) =
        v.targetPredict last.toNat then some curIndex
    else
      scan bx last fuel (v.retriveNextSibling (bx * v.numDraftTokens + curIndex.toNat))

/-- The token of node `curIndex` is accepted. -/
def accept (bx : Nat) (st : VerifyState) (curIndex : Int) : VerifyState :=
  let draftIndex := v.retriveIndex (bx * v.numDraftTokens + curIndex.toNat)
  { bufs := { st.bufs with
      predicts := update st.bufs.predicts st.lastAcceptedRetriveIdx.toNat
        (v.targetPredict st.lastAcceptedRetriveIdx.toNat)
      acceptIndex := update st.bufs.acceptIndex
        (bx * v.numSpeculativeTokens + (st.numAcceptedTokens + 1)) draftIndex }
    lastAcceptedRetriveIdx := draftIndex
    numAcceptedTokens := st.numAcceptedTokens + 1
    curIndex := curIndex }

/-- The `for` loop, for the given number of rounds. -/
def acceptLoop (bx fuel : Nat) : Nat → VerifyState → Option VerifyState
  | 0, st => some st
  | rounds + 1, st => do
      let curIndex ← v.scan bx st.lastAcceptedRetriveIdx fuel
        (v.retriveNextToken (bx * v.numDraftTokens + st.curIndex.toNat))
      if curIndex = -1 then return st
      else acceptLoop bx fuel rounds (v.accept bx st curIndex)

/-- `VerifyTreeGreedy`, one block. -/
def block (fuel : Nat) (bufs : VerifyBuffers) (bx : Nat) : Option VerifyBuffers := do
  let last := v.retriveIndex (bx * v.numDraftTokens)
  let st ← v.acceptLoop bx fuel (v.numSpeculativeTokens - 1)
    { bufs := { bufs with
        acceptIndex := update bufs.acceptIndex (bx * v.numSpeculativeTokens) last }
      lastAcceptedRetriveIdx := last
      numAcceptedTokens := 0
      curIndex := 0 }
  return { st.bufs with
    acceptTokenNum := update st.bufs.acceptTokenNum bx st.numAcceptedTokens
    predicts := update st.bufs.predicts st.lastAcceptedRetriveIdx.toNat
      (v.targetPredict st.lastAcceptedRetriveIdx.toNat) }

/-- The kernel, with its blocks in the given order. -/
def launch (fuel : Nat) (order : List Nat) (bufs : VerifyBuffers) : Option VerifyBuffers :=
  order.foldlM (v.block fuel) bufs

end VerifyInput

end SglangInc.Eagle
