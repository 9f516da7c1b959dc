import SglangInc.Core.RdmaGroup

/-!
# The AllReduce Loop on the Host

`RDMAGroup::Impl::allreduce` of `server/rdma_group.cpp` with `post_message_to_qps`,
`poll_cqs`, `post_message` and `poll_cq`, one operation on a queue pair at a time. The NIC
is the argument of a step: whether the completion queue that is polled has a completion to
report.

`size_t` wraps at 2^64. The `int` counter of the inner loop would wrap to a negative
number, which is a large `size_t`, so that loop ends after 2^31 rounds at the latest. The
addresses of the work requests and the copies from and to the device are left out.
-/

namespace SglangInc.RdmaGroup

/-- The configuration with the fields that `allreduce` reads. -/
structure FlowConfig extends Config where
  queueDepth : Nat
  threshold : Nat

/-- The subtraction of `size_t`. -/
def minus (a b : Nat) : Nat := (a + 2 ^ 64 - b) % 2 ^ 64

/-- The local variables that its loop does not change. -/
structure Plan where
  paddedSize : Nat
  qpNum : Nat
  mergedBlockSize : Nat
  totalBlocks : Nat
  maxQsize : Nat

/-- Nothing, if the division by a block size that wrapped to zero traps. -/
def plan (cfg : FlowConfig) (size : Nat) : Option Plan :=
  let paddedSize := (size + mtuSize - 1) % 2 ^ 64 / mtuSize * mtuSize
  let qpNum := if cfg.threshold ≤ paddedSize then 2 else 1
  let mergedBlockSize := qpNum * cfg.perQpBlockSize % 2 ^ 64
  if mergedBlockSize = 0 then none
  else some {
    paddedSize, qpNum, mergedBlockSize
    totalBlocks := (paddedSize + mergedBlockSize - 1) % 2 ^ 64 / mergedBlockSize
    maxQsize := min cfg.queueDepth (cfg.perQpSwitchWinSize / 2 / cfg.perQpBlockSize) }

/-- The depths that the loop keeps, the bytes of the send requests that are posted and
    not completed, oldest first, and the number of such receive requests. -/
structure Qp where
  txDepth : Nat := 0
  rxDepth : Nat := 0
  sends : List Nat := []
  recvs : Nat := 0

/-- What a request posts. -/
inductive TxRxType where
  | tx | rx | txrx
deriving DecidableEq

namespace Qp

/-- The length of a scatter element has 32 bits. -/
def postMessage (q : Qp) (length : Nat) (useSend notify : Bool) (type : TxRxType) : Qp :=
  let q := if (type = .txrx ∨ type = .rx) ∧ (useSend ∨ notify) then
      { q with rxDepth := (q.rxDepth + 1) % 2 ^ 64, recvs := q.recvs + 1 }
    else q
  if type = .rx then q
  else { q with
    txDepth := (q.txDepth + 1) % 2 ^ 64
    sends := q.sends ++ [length % 2 ^ 32] }

/-- `poll_cq` of the receive queue. -/
def pollRecv (q : Qp) (reported : Bool) : Qp :=
  if reported ∧ 0 < q.recvs then { q with rxDepth := minus q.rxDepth 1, recvs := q.recvs - 1 }
  else q

/-- `poll_cq` of the send queue. -/
def pollSend (q : Qp) (reported : Bool) : Qp :=
  if reported ∧ q.sends ≠ [] then
    { q with txDepth := minus q.txDepth 1, sends := q.sends.tail }
  else q

end Qp

/-- Where the loop is: at its head, before the rest of the pushes, in one of them before
    queue pair `i`, before polling a queue of pair `i`, behind the loop, or at the
    exception of `post_message_to_qps`. -/
inductive Point where
  | head
  | push (left : Nat)
  | post (left i size : Nat)
  | pollRecv (i : Nat)
  | pollSend (i : Nat)
  | exit
  | thrown

/-- A point of the loop, with its counters. -/
structure Loop where
  point : Point := .head
  scnt : Nat := 0
  qps : Nat → Qp := fun _ => {}

namespace Plan

variable (p : Plan)

/-- The fullest queue. -/
def currentDepth (qps : Nat → Qp) : Nat :=
  (List.range p.qpNum).foldl (fun d i => max d (max (qps i).txDepth (qps i).rxDepth)) 0

/-- The part of a block for queue pair `i`. -/
def subSize (size i : Nat) : Nat :=
  let numPkt := size / mtuSize
  (numPkt / p.qpNum + if i < numPkt % p.qpNum then 1 else 0) * mtuSize

/-- The next operation. `reported` says whether a poll finds a completion. -/
def next (s : Loop) (reported : Bool) : Option Loop :=
  match s.point with
  | .head =>
    let currentDepth := p.currentDepth s.qps
    if s.scnt = p.totalBlocks ∧ currentDepth = 0 then some { s with point := .exit }
    else
      let pushCnt := min (minus p.maxQsize currentDepth) (minus p.totalBlocks s.scnt)
      some { s with point := .push (min pushCnt (2 ^ 31)) }
  | .push 0 => some { s with point := .pollRecv 0 }
  | .push (left + 1) =>
    let subMsgOffset := s.scnt * p.mergedBlockSize % 2 ^ 64
    let subMsgSize := min p.mergedBlockSize (minus p.paddedSize subMsgOffset)
    if subMsgSize % mtuSize ≠ 0 then some { s with point := .thrown }
    else some { s with point := .post left 0 subMsgSize }
  | .post left i size =>
    if i < p.qpNum then
      some { s with
        point := .post left (i + 1) size
        qps := Function.update s.qps i
          ((s.qps i).postMessage (p.subSize size i) false false .txrx) }
    else some { s with point := .push left, scnt := (s.scnt + 1) % 2 ^ 64 }
  | .pollRecv i =>
    if i < p.qpNum then
      some { s with
        point := .pollSend i
        qps := Function.update s.qps i ((s.qps i).pollRecv reported) }
    else some { s with point := .head }
  | .pollSend i =>
    some { s with
      point := .pollRecv (i + 1)
      qps := Function.update s.qps i ((s.qps i).pollSend reported) }
  | .exit | .thrown => none

end Plan

end SglangInc.RdmaGroup
