import Mathlib.Algebra.Order.Ring.Int
import SglangInc.Lib.Runs
import Mathlib.Data.List.Basic

/-!
# The AllReduce Switch Controller

The controller of `switch/allreduce_grpc.py`: the free list of aggregator
memory, the pools of group ids, multicast nodes and recirculation ports, and
the two requests that move resources between the pools and the live groups.

A request handler mutates the servicer step by step and may raise in the
middle, so a handler is a computation in `EStateM`: a raised exception keeps
the state reached when it was raised. That is what makes the question of what
a failed request leaves behind a question about the model.

The functions the source executes through `debug_exec` are strings there and
calls here. An entry of `undo` is a list of calls to be made in reverse, so
it is a list of `UndoFunc`, one constructor per kind of call the source
records.

The switch driver (`bfrt`) is not part of the source. A table is the list of
the entries installed so far; whether an addition is accepted (a key already
present, a full table, an argument out of range) and whether a deletion is (a
key that is not there) is the driver's decision, and a parameter (`Bfrt`).
-/

namespace SglangInc.Controller

/-- Width of an aggregator address. -/
def addrBw : Nat := 14

/-- Width of an offset inside a packet payload. -/
def mtuBw : Nat := 8

/-- `MTU_SIZE`. -/
def mtuSize : Nat := 2 ^ mtuBw

/-- The bytes of aggregator memory. -/
def switchMemSize : Nat := 2 ^ (addrBw + mtuBw)

/-- `REGISTER_LEN` of the data plane. -/
def registerLen : Nat := 16384

/-- `MAX_GROUP_NUM`. -/
def maxGroupNum : Nat := 256

/-- `MAX_QP_NUM`. -/
def maxQpNum : Nat := 256

/-- A half-open range of aggregator memory, `[ptr_l, ptr_r)`. -/
abbrev Seg := Nat × Nat

/-- `ispower2`. -/
def isPower2 (x : Nat) : Bool :=
  0 < x && (x &&& (x - 1)) == 0

/-- `upperalign`: `x` rounded up to a multiple of `y`. -/
def upperAlign (x y : Nat) : Nat :=
  (x + y - 1) / y * y

/-- `addr_in_seg`: the first aligned block of a free segment. -/
def addrInSeg (seg : Seg) (size : Nat) : Option Nat :=
  let addr := upperAlign seg.1 size
  if addr + size ≤ seg.2 then some addr else none

/-- The loop of `fit_seg`: the first free segment that holds an aligned block
    of `size`, counting from `index`. -/
def fitSegFrom (size : Nat) : Nat → List Seg → Option (Nat × Nat)
  | _, [] => none
  | index, seg :: rest =>
    match addrInSeg seg size with
    | some addr => some (index, addr)
    | none => fitSegFrom size (index + 1) rest

/-- `fit_seg`. The outer `none` is the bare `return` of an invalid size, the
    inner one is the pair `(None, None)`. -/
def fitSeg (memseg : List Seg) (size : Nat) : Option (Option (Nat × Nat)) :=
  if size % mtuSize ≠ 0 ∨ ¬ isPower2 (size / mtuSize) then none
  else some (fitSegFrom size 0 memseg)

/-- `alloc_seg`, on the segment at `index`. The remainders go back at the
    position the segment was deleted from, the left one last and so first. -/
def allocSeg (memseg : List Seg) (index addrL addrR : Nat) : Option (List Seg) :=
  match memseg[index]? with
  | none => none
  | some seg =>
    let deleted := memseg.eraseIdx index
    let withR := if seg.2 ≠ addrR then deleted.insertIdx index (addrR, seg.2) else deleted
    let withL := if seg.1 ≠ addrL then withR.insertIdx index (seg.1, addrL) else withR
    some withL

/-- The scan of `free_seg`: the index of the first free segment past the
    block, or `none` at the `Invalid free` exit. -/
def freeSegScan (addrL addrR : Nat) : Nat → List Seg → Option Nat
  | index, [] => some index
  | index, seg :: rest =>
    if seg.2 ≤ addrL then freeSegScan addrL addrR (index + 1) rest
    else if seg.1 < addrR then none
    else some index

/-- The left merge of `free_seg`: the new left end, the position to insert at
    and the list with the left neighbour deleted. `l_index` is `r_index - 1`,
    and `-1` at the head of the list. -/
def mergeLeft (memseg : List Seg) (rIndex addrL : Nat) : Nat × Nat × List Seg :=
  match rIndex with
  | 0 => (addrL, 0, memseg)
  | lIndex + 1 =>
    match memseg[lIndex]? with
    | none => (addrL, rIndex, memseg)
    | some seg =>
      if seg.2 = addrL then (seg.1, lIndex, memseg.eraseIdx lIndex)
      else (addrL, rIndex, memseg)

/-- The right merge of `free_seg`, at `r_index` of the list the left merge
    left behind. -/
def mergeRight (memseg : List Seg) (rIndex addrR : Nat) : Nat × List Seg :=
  match memseg[rIndex]? with
  | none => (addrR, memseg)
  | some seg =>
    if seg.1 = addrR then (seg.2, memseg.eraseIdx rIndex) else (addrR, memseg)

/-- `free_seg`; `none` is the `Invalid free` exit. -/
def freeSeg (memseg : List Seg) (addrL addrR : Nat) : Option (List Seg) :=
  match freeSegScan addrL addrR 0 memseg with
  | none => none
  | some rIndex =>
    let (addrL', index, memseg') := mergeLeft memseg rIndex addrL
    let (addrR', memseg'') := mergeRight memseg' rIndex addrR
    some (memseg''.insertIdx index (addrL', addrR'))

/-- A `MemberInfo` message. -/
structure MemberInfo where
  ip : Nat
  qpn : Nat
  rkey : Nat
deriving DecidableEq, Repr

/-- A `CreateGroupRequest` message. -/
structure CreateGroupRequest where
  member : List MemberInfo
  memorySize : Nat
deriving DecidableEq, Repr

/-- A `CreateGroupReply` message. -/
structure CreateGroupReply where
  groupId : Nat
  member : List MemberInfo
deriving DecidableEq, Repr

/-- The reply with no field set: `GroupID` 0 is the NULL group. -/
def CreateGroupReply.null : CreateGroupReply := ⟨0, []⟩

/-- The keys of the switch tables and of the multicast engine. -/
inductive EntryKey where
  | recirculate (groupId : Nat)
  | metadata (sip dip dqpn : Nat)
  | restore (groupId srcRank : Nat) (valid : Bool)
  | node (nodeId : Nat)
  | mgid (groupId : Nat)
deriving DecidableEq, Repr

/-- What the controller installs in the switch. -/
inductive Entry where
  | recirculate (groupId port : Nat)
  | metadata (sip dip dqpn groupId srcRank bitmap bitmapMask aggAddr aggAddrOffsetMask : Nat)
  | restoreWithReth (groupId srcRank sip dip dqpn rkey : Nat)
  | restore (groupId srcRank sip dip dqpn : Nat)
  | node (nodeId rid port : Nat)
  | mgid (groupId : Nat) (nodes : List Nat)
deriving DecidableEq, Repr

/-- The key under which the table has the entry. -/
def Entry.key : Entry → EntryKey
  | .recirculate g _ => .recirculate g
  | .metadata sip dip dqpn _ _ _ _ _ _ => .metadata sip dip dqpn
  | .restoreWithReth g r _ _ _ _ => .restore g r true
  | .restore g r _ _ _ => .restore g r false
  | .node n _ _ => .node n
  | .mgid g _ => .mgid g

/-- The calls `undo_funcs` records. -/
inductive UndoFunc where
  | freeSeg (addrL addrR : Nat)
  | freeGroup (groupId : Nat)
  | freeNode (nodes : List Nat)
  | recirPortDec (idx : Nat)
  | delete (key : EntryKey)
deriving DecidableEq, Repr

/-- What a handler raises. -/
inductive Exn where
  | typeError
  | valueError
  | indexError
  | exception (message : String)
  | bfrtError
  | systemExit
deriving DecidableEq, Repr

/-- The topology file. -/
structure Topo where
  ip2portDict : Nat → Option Nat
  switchIp : Nat
  recirPort : List Nat

/-- The switch driver: whether it accepts one more entry, and whether it deletes
    what has a key. -/
structure Bfrt where
  accepts : List Entry → Entry → Bool
  deletes : List Entry → EntryKey → Bool

/-- The fields of `INCServicerImpl`, the entries installed in the switch and
    the bitmap register the handler clears. -/
structure State where
  freeGroup : List Nat
  freeNode : List Nat
  recirPortCnt : List Int
  undo : List (Nat × List UndoFunc)
  memseg : List Seg
  entries : List Entry
  regBitmap : Nat → Nat × Nat

/-- `INCServicerImpl.__init__`, on a switch with nothing installed. -/
def State.init (topo : Topo) : State where
  freeGroup := List.range' 1 (maxGroupNum - 1)
  freeNode := List.range' 1 (maxQpNum - 1)
  recirPortCnt := List.replicate topo.recirPort.length 0
  undo := []
  memseg := [(0, switchMemSize)]
  entries := []
  regBitmap := fun _ => (0, 0)

/-- A handler's computation: an exception keeps the state it was raised in. -/
abbrev Ctl := EStateM Exn State

section Handlers

variable (topo : Topo) (bfrt : Bfrt)

/-- `ip2port`. -/
def ip2port (ip : Nat) : Ctl Nat :=
  match topo.ip2portDict ip with
  | none => throw (.exception "port not found for the given IP")
  | some port => pure port

/-- `select_recir_port_idx`: the first port with the least count. `min` of an
    empty list raises. -/
def selectRecirPortIdx : Ctl Nat := do
  let s ← get
  match s.recirPortCnt.min? with
  | none => throw .valueError
  | some m => pure (s.recirPortCnt.idxOf m)

/-- An addition to a table or to the multicast engine. -/
def addEntry (e : Entry) : Ctl Unit := do
  let s ← get
  if bfrt.accepts s.entries e then set { s with entries := s.entries ++ [e] }
  else throw .bfrtError

/-- A deletion by key. -/
def deleteEntry (k : EntryKey) : Ctl Unit := do
  let s ← get
  if bfrt.deletes s.entries k then set { s with entries := s.entries.filter (fun e => e.key != k) }
  else throw .bfrtError

/-- `alloc_seg` on the servicer's list. -/
def execAllocSeg (index addrL addrR : Nat) : Ctl Unit := do
  let s ← get
  match allocSeg s.memseg index addrL addrR with
  | none => throw .indexError
  | some memseg => set { s with memseg := memseg }

/-- The metadata entry of the member of rank `i`. -/
def metadataEntry (groupid groupSize aggAddr aggAddrLen i : Nat) (m : MemberInfo) : Entry :=
  .metadata m.ip topo.switchIp m.qpn groupid i (1 <<< i) ((1 <<< groupSize) - 1) aggAddr
    (aggAddrLen - 1)

/-- One iteration of the member loop. The port is looked up while the text of
    the `node.add` call is built, so an unknown IP raises after the member's
    table entries are in. -/
def installMember (groupid groupSize aggAddr aggAddrLen i : Nat) (m : MemberInfo)
    (nodeId : Nat) : Ctl Unit := do
  addEntry bfrt (metadataEntry topo groupid groupSize aggAddr aggAddrLen i m)
  addEntry bfrt (.restoreWithReth groupid i topo.switchIp m.ip m.qpn m.rkey)
  addEntry bfrt (.restore groupid i topo.switchIp m.ip m.qpn)
  let port ← ip2port topo m.ip
  addEntry bfrt (.node nodeId i port)

/-- The member loop, from rank `i` on. -/
def installMembers (groupid groupSize aggAddr aggAddrLen : Nat) :
    Nat → List (MemberInfo × Nat) → Ctl Unit
  | _, [] => pure ()
  | i, (m, nodeId) :: rest => do
      installMember topo bfrt groupid groupSize aggAddr aggAddrLen i m nodeId
      installMembers groupid groupSize aggAddr aggAddrLen (i + 1) rest

/-- The additions `CreateGroup` makes, in order: the recirculation port, the
    members and the multicast group. -/
def installGroup (groupid aggAddr aggAddrLen port : Nat) (member : List MemberInfo)
    (node : List Nat) : Ctl Unit := do
  addEntry bfrt (.recirculate groupid port)
  installMembers topo bfrt groupid member.length aggAddr aggAddrLen 0 (member.zip node)
  addEntry bfrt (.mgid groupid node)

/-- What the member loop appends to `undo_funcs`. -/
def memberUndo (groupid : Nat) : Nat → List (MemberInfo × Nat) → List UndoFunc
  | _, [] => []
  | i, (m, nodeId) :: rest =>
    [.delete (.metadata m.ip topo.switchIp m.qpn), .delete (.restore groupid i true),
      .delete (.restore groupid i false), .delete (.node nodeId)] ++
    memberUndo groupid (i + 1) rest

/-- The whole of `undo_funcs`, in the order the calls are recorded. -/
def undoFuncs (groupid segAddr segSize idx : Nat) (node : List Nat)
    (member : List MemberInfo) : List UndoFunc :=
  [.freeSeg segAddr (segAddr + segSize), .freeGroup groupid, .freeNode node,
    .recirPortDec idx, .delete (.recirculate groupid)] ++
  memberUndo topo groupid 0 (member.zip node) ++ [.delete (.mgid groupid)]

/-- `CreateGroup` once the resource check has passed. -/
def grantGroup (request : CreateGroupRequest) (segIndex segAddr : Nat) : Ctl CreateGroupReply := do
  let groupSize := request.member.length
  let segSize := request.memorySize
  let aggAddr := segAddr / mtuSize
  let aggAddrLen := segSize / mtuSize
  execAllocSeg segIndex segAddr (segAddr + segSize)
  let groupid := (← get).freeGroup.headD 0
  modify fun s => { s with freeGroup := s.freeGroup.drop 1 }
  let node := (← get).freeNode.take groupSize
  modify fun s => { s with freeNode := s.freeNode.drop groupSize }
  let idx ← selectRecirPortIdx
  modify fun s => { s with recirPortCnt := s.recirPortCnt.modify idx (· + 1) }
  match topo.recirPort[idx]? with
  | none => throw .indexError
  | some port => installGroup topo bfrt groupid aggAddr aggAddrLen port request.member node
  modify fun s => { s with
    regBitmap := fun i => if aggAddr ≤ i ∧ i < aggAddr + aggAddrLen then (0, 0) else s.regBitmap i }
  modify fun s => { s with
    undo := (groupid, undoFuncs topo groupid segAddr segSize idx node request.member) ::
      s.undo.filter (fun g => g.1 ≠ groupid) }
  pure ⟨groupid, request.member.map (fun m => ⟨topo.switchIp, m.qpn, m.rkey⟩)⟩

/-- `CreateGroup`. Unpacking the bare `None` of an invalid size raises before
    anything is acquired. -/
def createGroup (request : CreateGroupRequest) : Ctl CreateGroupReply := do
  let s ← get
  match fitSeg s.memseg request.memorySize with
  | none => throw .typeError
  | some none => pure .null
  | some (some (segIndex, segAddr)) =>
    if s.freeGroup.length < 1 ∨ s.freeNode.length < request.member.length then pure .null
    else grantGroup topo bfrt request segIndex segAddr

/-- One of the `undo_funcs`. -/
def execUndo : UndoFunc → Ctl Unit
  | .freeSeg addrL addrR => do
      let s ← get
      match freeSeg s.memseg addrL addrR with
      | none => throw .systemExit
      | some memseg => set { s with memseg := memseg }
  | .freeGroup groupid => modify fun s => { s with freeGroup := s.freeGroup ++ [groupid] }
  | .freeNode node => modify fun s => { s with freeNode := s.freeNode ++ node }
  | .recirPortDec idx =>
    modify fun s => { s with recirPortCnt := s.recirPortCnt.modify idx (· - 1) }
  | .delete key => deleteEntry bfrt key

/-- The `undo_funcs` in their order, up to one that raises. -/
def execUndos : List UndoFunc → Ctl Unit
  | [] => pure ()
  | f :: fs => do
      execUndo bfrt f
      execUndos fs

/-- `DestroyGroup`; an unknown group id is ignored. -/
def destroyGroup (groupid : Nat) : Ctl Unit := do
  let s ← get
  match s.undo.lookup groupid with
  | none => pure ()
  | some funcs => do
      execUndos bfrt funcs.reverse
      modify fun s => { s with undo := s.undo.filter (fun g => g.1 ≠ groupid) }

end Handlers

/-- The requests of the `INC` service. -/
inductive Request where
  | create (request : CreateGroupRequest)
  | destroy (groupid : Nat)
deriving DecidableEq, Repr

/-- One request that completes without an exception. -/
def Completes (topo : Topo) (bfrt : Bfrt) (s : State) (r : Request) (s' : State) : Prop :=
  match r with
  | .create request => ∃ reply, createGroup topo bfrt request s = .ok reply s'
  | .destroy groupid => destroyGroup bfrt groupid s = .ok () s'

/-- One request, however it ends: the servicer goes on in the state the
    handler left behind. -/
def Handles (topo : Topo) (bfrt : Bfrt) (s : State) (r : Request) (s' : State) : Prop :=
  Completes topo bfrt s r s' ∨
  match r with
  | .create request => ∃ e, createGroup topo bfrt request s = .error e s'
  | .destroy groupid => ∃ e, destroyGroup bfrt groupid s = .error e s'

/-- The requests handled in order, when none raises: the transitions taken
    and the last state. -/
def handleAll (topo : Topo) (bfrt : Bfrt) :
    List Request → State → Option (List (State × Request × State) × State)
  | [], s => some ([], s)
  | .create request :: rest, s =>
    match createGroup topo bfrt request s with
    | .ok _ s' => (handleAll topo bfrt rest s').map
        (fun out => ((s, .create request, s') :: out.1, out.2))
    | .error _ _ => none
  | .destroy groupid :: rest, s =>
    match destroyGroup bfrt groupid s with
    | .ok _ s' => (handleAll topo bfrt rest s').map
        (fun out => ((s, .destroy groupid, s') :: out.1, out.2))
    | .error _ _ => none

/-- The register index the data plane computes for a packet: the base address
    of the group plus the masked sequence number. -/
def aggIndex (aggAddr aggAddrOffsetMask psn : Nat) : Nat :=
  aggAddr + (psn &&& aggAddrOffsetMask)

end SglangInc.Controller
