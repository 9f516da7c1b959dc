import Mathlib.Algebra.Order.Ring.Int
import SglangInc.Lib.Runs

/-!
# In-Network AllReduce

The data plane of `switch/allreduce_ingress.p4`, `aggregator.p4` and
`allreduce_sendout.p4`, and the ranks and links around it.

A packet crosses the switch twice. The first pass records the sender in the
slot of the packet's PSN and adds the payload to the slot's aggregator; when
every rank of the group is in, the packet is recirculated with the even words
of the sum. The second pass reads the odd words and sends the result out, to
all ranks or back to the sender. A slot is shared by all PSNs that agree
modulo the window, and other packets run between the two passes.

The first half of the file is the switch. It sees nothing of a packet but its
words: `ackreqRsvSeqnum` with the PSN in the low 24 bits, and the payload as
32 pairs of an even and an odd word. The tables with constant entries are
functions, matched in the order of their entries.

The second half is the system of one group. Ranks, links and the
recirculation port are as the host code uses them: a rank keeps at most half
a window of packets beyond the lowest unacknowledged one, acknowledges a
result only after it has received it in order, and gets its own
acknowledgements bounced back by the switch. Links keep their order and lose
packets at any point. PSNs are counted without bound in the ranks and in the
packets; the switch and the receiving side of a rank only look at the words.
-/

namespace SglangInc.AllReduce

open Function

/-- `agg_pair_t`: an even word and the odd word after it. -/
structure AggPair where
  agg0 : BitVec 32
  agg1 : BitVec 32
deriving DecidableEq, Repr

/-- The payload of a packet, as the pairs the 32 aggregators take. -/
abbrev Payload := Fin 32 → AggPair

/-- `|+|` on `int<32>`. -/
def satAdd (x y : BitVec 32) : BitVec 32 :=
  let sum := x.toInt + y.toInt
  if sum < -2 ^ 31 then BitVec.intMin 32
  else if 2 ^ 31 ≤ sum then BitVec.intMax 32
  else x + y

/-- Both halves are added, with saturation. -/
def AggPair.add (p q : AggPair) : AggPair :=
  ⟨satAdd p.agg0 q.agg0, satAdd p.agg1 q.agg1⟩

/-- `bitmap_pair`. -/
structure BitmapPair where
  version : BitVec 32
  bitmap : BitVec 32
deriving DecidableEq, Repr

/-- The registers of the switch: a bitmap for each slot, and 32 aggregators. -/
structure Regs where
  regBitmap : BitVec 32 → BitmapPair
  aggregator : Fin 32 → BitVec 32 → AggPair

/-- The action data of `get_allreduce_metadata`. -/
structure Metadata where
  bitmap : BitVec 32
  bitmapMask : BitVec 32
  aggAddr : BitVec 32
  aggAddrOffsetMask : BitVec 32
deriving DecidableEq, Repr

/-- `reg_bitmap_update`: the new register and the value returned. -/
def regBitmapUpdate (reg : BitmapPair) (seqNum bitmap : BitVec 32) : BitmapPair × BitVec 32 :=
  if reg.version = seqNum then (⟨reg.version, reg.bitmap ||| bitmap⟩, reg.bitmap)
  else (⟨seqNum, bitmap⟩, 0)

/-- The table `increase_bit`: some bit is clear in the old bitmap and set in
    the sender's. -/
def increaseBit (bitmapOld bitmap : BitVec 32) : Bool :=
  (List.range 32).reverse.any (fun k =>
    (bitmapOld &&& BitVec.twoPow 32 k) == 0 &&
    (bitmap &&& BitVec.twoPow 32 k) == BitVec.twoPow 32 k)

/-- `pass_type`. -/
inductive PassType where
  | firstPass
  | secondPass
deriving DecidableEq, Repr

/-- What the aggregators do with a packet. -/
inductive AggAction where
  | overwrite
  | aggregate
  | read0
  | read1
deriving DecidableEq, Repr

/-- The table `agg_action`. -/
def aggAction (passType : PassType) (bitmapOld : BitVec 32) (increase : Bool) : AggAction :=
  if passType = .secondPass then .read1
  else if bitmapOld = 0 then .overwrite
  else if increase then .aggregate
  else .read0

/-- One `AggregatorAccess`: the new register and the packet's pair. -/
def aggregatorAccess (action : AggAction) (reg pkt : AggPair) : AggPair × AggPair :=
  match action with
  | .overwrite => (pkt, pkt)
  | .aggregate => (reg.add pkt, ⟨(reg.add pkt).agg0, pkt.agg1⟩)
  | .read0 => (reg, ⟨reg.agg0, pkt.agg1⟩)
  | .read1 => (reg, ⟨pkt.agg0, reg.agg1⟩)

/-- `AllAggregatorAccess`, at one register index. -/
def allAggregatorAccess (action : AggAction) (index : BitVec 32)
    (aggregator : Fin 32 → BitVec 32 → AggPair) (payload : Payload) :
    (Fin 32 → BitVec 32 → AggPair) × Payload :=
  (fun k i => if i = index then (aggregatorAccess action (aggregator k index) (payload k)).1
      else aggregator k i,
    fun k => (aggregatorAccess action (aggregator k index) (payload k)).2)

/-- The lower 24 bits, which are the PSN. -/
def seqNum (ackreqRsvSeqnum : BitVec 32) : BitVec 32 :=
  ackreqRsvSeqnum &&& 0xffffff#32

/-- `md.agg_addr` after `stage1`. -/
def aggIndex (md : Metadata) (ackreqRsvSeqnum : BitVec 32) : BitVec 32 :=
  md.aggAddr + (ackreqRsvSeqnum &&& md.aggAddrOffsetMask)

/-- `md.full` of `sendout`. -/
def full (md : Metadata) (bitmapOld : BitVec 32) : Bool :=
  if bitmapOld = md.bitmap ^^^ md.bitmapMask then true
  else if bitmapOld = md.bitmapMask then true
  else false

/-- The first pass of a packet: the registers, and unless the packet is
    dropped its `enable_multicast` bit and payload on the way to the
    recirculation port. -/
def firstPass (md : Metadata) (regs : Regs) (ackreqRsvSeqnum : BitVec 32) (payload : Payload) :
    Regs × Option (Bool × Payload) :=
  let index := aggIndex md ackreqRsvSeqnum
  let (pair, bitmapOld) :=
    regBitmapUpdate (regs.regBitmap index) (seqNum ackreqRsvSeqnum) md.bitmap
  let increase := increaseBit bitmapOld md.bitmap
  let (aggregator, payload') :=
    allAggregatorAccess (aggAction .firstPass bitmapOld increase) index regs.aggregator payload
  (⟨fun i => if i = index then pair else regs.regBitmap i, aggregator⟩,
    if full md bitmapOld then some (increase, payload') else none)

/-- The second pass reads the odd words and changes no register. -/
def secondPass (md : Metadata) (regs : Regs) (ackreqRsvSeqnum : BitVec 32) (payload : Payload) :
    Payload :=
  (allAggregatorAccess (aggAction .secondPass 0 false) (aggIndex md ackreqRsvSeqnum)
    regs.aggregator payload).2

/-- The packet word of a PSN; the eight bits above it are the sender's. -/
def wireWord (flags : BitVec 8) (psn : Nat) : BitVec 32 :=
  flags ++ BitVec.ofNat 24 psn

/-- One group: up to 32 ranks, a window of `2 ^ order` slots, and what each
    rank contributes for each PSN. -/
structure Group where
  size : Nat
  order : Nat
  aggAddr : BitVec 32
  data : Fin size → Nat → Payload
  size_pos : 0 < size
  size_le : size ≤ 32
  order_pos : 1 ≤ order
  order_le : order ≤ 14

namespace Group

/-- `agg_addr_len`, the number of slots. -/
def window (G : Group) : Nat := 2 ^ G.order

/-- The packets a rank may have beyond its lowest unacknowledged PSN:
    `per_qp_server_win_size` is half of `per_qp_switch_win_size`. -/
def half (G : Group) : Nat := G.window / 2

/-- The metadata entry of a rank. -/
def metadata (G : Group) (j : Fin G.size) : Metadata where
  bitmap := BitVec.ofNat 32 (1 <<< j.val)
  bitmapMask := BitVec.ofNat 32 ((1 <<< G.size) - 1)
  aggAddr := G.aggAddr
  aggAddrOffsetMask := BitVec.ofNat 32 (G.window - 1)

end Group

/-- Rank to switch: a data packet, or the acknowledgement of a result. -/
inductive UpMsg where
  | data (psn : Nat) (flags : BitVec 8) (payload : Payload)
  | ack (psn : Nat)

/-- A packet on the recirculation port, with the rank whose packet it is. -/
structure RecirMsg (n : Nat) where
  src : Fin n
  psn : Nat
  flags : BitVec 8
  enableMulticast : Bool
  payload : Payload

/-- Switch to rank: a result, or the rank's own acknowledgement. -/
inductive DownMsg where
  | result (psn : Nat) (flags : BitVec 8) (payload : Payload)
  | ack (psn : Nat)

/-- The system: for each rank the lowest unacknowledged PSN, the next PSN to
    send and the next result expected; the links, oldest packet first; the
    registers. -/
structure Sys (G : Group) where
  unacked : Fin G.size → Nat
  next : Fin G.size → Nat
  expected : Fin G.size → Nat
  up : Fin G.size → List UpMsg
  recir : List (RecirMsg G.size)
  down : Fin G.size → List DownMsg
  regs : Regs

/-- Nothing sent, and every slot at version 0 with an empty bitmap. The
    aggregators hold anything. -/
def Sys.init (G : Group) (aggregator : Fin 32 → BitVec 32 → AggPair) : Sys G where
  unacked := fun _ => 0
  next := fun _ => 0
  expected := fun _ => 0
  up := fun _ => []
  recir := []
  down := fun _ => []
  regs := ⟨fun _ => ⟨0, 0⟩, aggregator⟩

/-- What a rank, a link or the switch can do. -/
inductive Act (n : Nat) where
  | send (i : Fin n) (psn : Nat) (flags : BitVec 8) (payload : Payload)
  | sendAck (i : Fin n) (psn : Nat)
  | lose
  | switchUp (i : Fin n)
  | switchRecir
  | recv (i : Fin n)

section Steps

variable {G : Group}

/-- A rank may send a new packet inside its window, or send an
    unacknowledged one again. The buffer is reduced in place, so a packet
    sent again after its result arrived may carry anything. -/
def CanSend (s : Sys G) (i : Fin G.size) (psn : Nat) (payload : Payload) : Prop :=
  s.unacked i ≤ psn ∧ psn ≤ s.next i ∧ psn < s.unacked i + G.half ∧
  (payload = G.data i psn ∨ psn < s.expected i)

/-- Rank `i` has sent a data packet. -/
def Sys.sent (s : Sys G) (i : Fin G.size) (psn : Nat) (flags : BitVec 8) (payload : Payload) :
    Sys G :=
  { s with
    next := update s.next i (max (s.next i) (psn + 1))
    up := update s.up i (s.up i ++ [.data psn flags payload]) }

/-- Rank `i` has acknowledged what it received. -/
def Sys.sentAck (s : Sys G) (i : Fin G.size) (psn : Nat) : Sys G :=
  { s with up := update s.up i (s.up i ++ [.ack psn]) }

/-- The switch takes the oldest packet of a rank's link: the first pass of a
    data packet, or an acknowledgement bounced back to the rank. -/
def Sys.switchedUp (s : Sys G) (i : Fin G.size) (m : UpMsg) (rest : List UpMsg) : Sys G :=
  match m with
  | .data psn flags payload =>
    let out := firstPass (G.metadata i) s.regs (wireWord flags psn) payload
    { s with
      up := update s.up i rest
      regs := out.1
      recir := match out.2 with
        | none => s.recir
        | some (enableMulticast, payload') =>
          s.recir ++ [⟨i, psn, flags, enableMulticast, payload'⟩] }
  | .ack psn =>
    { s with
      up := update s.up i rest
      down := update s.down i (s.down i ++ [.ack psn]) }

/-- The payload a recirculated packet leaves the switch with. -/
def Sys.resultPayload (s : Sys G) (m : RecirMsg G.size) : Payload :=
  secondPass (G.metadata m.src) s.regs (wireWord m.flags m.psn) m.payload

/-- The second pass of the oldest recirculated packet. -/
def Sys.switchedRecir (s : Sys G) (m : RecirMsg G.size) (rest : List (RecirMsg G.size)) : Sys G :=
  { s with
    recir := rest
    down := fun i =>
      if m.enableMulticast ∨ i = m.src then
        s.down i ++ [.result m.psn m.flags (s.resultPayload m)]
      else s.down i }

/-- A rank takes the oldest packet off its link. It accepts a result with the
    expected wire PSN and ignores any other. -/
def Sys.received (s : Sys G) (i : Fin G.size) (m : DownMsg) (rest : List DownMsg) : Sys G :=
  match m with
  | .result psn flags _ =>
    { s with
      down := update s.down i rest
      expected := if (wireWord flags psn).setWidth 24 = BitVec.ofNat 24 (s.expected i) then
          update s.expected i (s.expected i + 1) else s.expected }
  | .ack psn =>
    { s with
      down := update s.down i rest
      unacked := update s.unacked i (max (s.unacked i) (psn + 1)) }

/-- The links lose any of their packets; what is left keeps its order. -/
structure Lost (s s' : Sys G) : Prop where
  unacked : s'.unacked = s.unacked
  next : s'.next = s.next
  expected : s'.expected = s.expected
  regs : s'.regs = s.regs
  up : ∀ i, (s'.up i).Sublist (s.up i)
  recir : s'.recir.Sublist s.recir
  down : ∀ i, (s'.down i).Sublist (s.down i)

/-- One action of a rank, a link or the switch. -/
def Step (s : Sys G) (act : Act G.size) (s' : Sys G) : Prop :=
  match act with
  | .send i psn flags payload => CanSend s i psn payload ∧ s' = s.sent i psn flags payload
  | .sendAck i psn => psn < s.expected i ∧ s' = s.sentAck i psn
  | .lose => Lost s s'
  | .switchUp i => ∃ m rest, s.up i = m :: rest ∧ s' = s.switchedUp i m rest
  | .switchRecir => ∃ m rest, s.recir = m :: rest ∧ s' = s.switchedRecir m rest
  | .recv i => ∃ m rest, s.down i = m :: rest ∧ s' = s.received i m rest

/-- The PSN and payload of the result packets an action sends out. -/
def emits (s : Sys G) (act : Act G.size) : List (Nat × Payload) :=
  match act with
  | .switchRecir =>
    match s.recir with
    | [] => []
    | m :: _ => [(m.psn, s.resultPayload m)]
  | _ => []

end Steps

end SglangInc.AllReduce
