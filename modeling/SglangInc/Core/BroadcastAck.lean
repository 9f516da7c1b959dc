import Mathlib.Algebra.Order.Ring.Int
import SglangInc.Lib.Runs

/-!
# Aggregation of Broadcast Acknowledgements

The `broadcast_ack_egress` control of `switch/broadcast_egress.p4`: the
receivers of a broadcast acknowledge to the switch, and the switch answers
the root with the smallest PSN a full round of receivers has reached.

The registers of one group are one record, since every access of the control
is at the group's index. A packet word carries the PSN in its low 24 bits and
other fields above them; the control shifts the PSN into the upper bits of a
32-bit word and compares such words by the sign of their difference.

The second half of the file is the protocol around the control. A receiver's
packets reach the switch in the order it sent them, so a run is a list of
reports, one per packet processed, in which no receiver goes back.
`Report.acked` is the PSN the packet acknowledges, as an unbounded integer;
an ACK carries it and a NAK carries its successor. `Sys.outstanding` are the
PSNs reported since the last round was answered, and a new report lies within
half the sequence space of each of them.

Whether an ACK in the middle of a round leaves the switch is not decided by
this control alone (`restore_fields` clears `drop_ctl` again), so `dropCtl` is
recorded and nothing is removed because of it.
-/

namespace SglangInc.BroadcastAck

/-- The registers of one group. -/
structure AckRegs where
  bitmap : BitVec 32
  psn : BitVec 32
  msn : BitVec 32
  prevPsn : BitVec 32
  prevMsn : BitVec 32
deriving DecidableEq, Repr

/-- The header fields the control reads. -/
structure AckPacket where
  ackreqRsvSeqnum : BitVec 32
  syndromeMsn : BitVec 32
  bitmap : BitVec 32
  bitmapMask : BitVec 32
deriving DecidableEq, Repr

/-- The header fields the control writes. -/
structure AckOut where
  ackreqRsvSeqnum : BitVec 32
  syndromeMsn : BitVec 32
  dropCtl : Bool
deriving DecidableEq, Repr

/-- `md.syndrome_opcode`: zero for an ACK. -/
def syndromeOpcode (syndromeMsn : BitVec 32) : BitVec 32 :=
  syndromeMsn &&& 0x60000000#32

/-- `reg_bitmap_update`: a full bitmap is restarted. -/
def bitmapUpdate (reg bitmap mask : BitVec 32) : BitVec 32 :=
  if reg = mask then bitmap else reg ||| bitmap

/-- `reg_psn_update` and `reg_msn_update`; the test is signed. -/
def snUpdate (reg sn : BitVec 32) : BitVec 32 :=
  if (sn - reg).slt 0 then sn else reg

/-- `get_psn` or `get_dec_psn`, then `lshift_sn`. -/
def shiftedPsn (pkt : AckPacket) : BitVec 32 :=
  (if syndromeOpcode pkt.syndromeMsn = 0 then pkt.ackreqRsvSeqnum
    else pkt.ackreqRsvSeqnum - 1) <<< 8

/-- The control applied to one packet. -/
def broadcastAckEgress (regs : AckRegs) (pkt : AckPacket) : AckRegs × AckOut :=
  let ackreqRsv := pkt.ackreqRsvSeqnum &&& 0xff000000#32
  let syndrome := pkt.syndromeMsn &&& 0xff000000#32
  let psn := shiftedPsn pkt
  let msn := pkt.syndromeMsn <<< 8
  let newBitmap := bitmapUpdate regs.bitmap pkt.bitmap pkt.bitmapMask
  -- The first packet of an aggregation sets the minimum, the others lower it.
  let psnReg := if newBitmap = pkt.bitmap then psn else snUpdate regs.psn psn
  let msnReg := if newBitmap = pkt.bitmap then msn else snUpdate regs.msn msn
  -- The last packet saves the minimum, the others are answered with the saved one.
  let prevPsn := if newBitmap = pkt.bitmapMask then psnReg else regs.prevPsn
  let prevMsn := if newBitmap = pkt.bitmapMask then msnReg else regs.prevMsn
  let outPsn := if syndromeOpcode pkt.syndromeMsn ≠ 0 then prevPsn + 0x100#32 else prevPsn
  (⟨newBitmap, psnReg, msnReg, prevPsn, prevMsn⟩,
    ⟨ackreqRsv ||| (outPsn >>> 8), syndrome ||| (prevMsn >>> 8),
      newBitmap ≠ pkt.bitmapMask ∧ syndromeOpcode pkt.syndromeMsn = 0⟩)

/-- The registers as `CreateGroup` leaves them. It does not write `reg_psn`
    and `reg_msn`. -/
def AckRegs.init (psn msn : BitVec 32) : AckRegs where
  bitmap := 0
  psn := psn
  msn := msn
  prevPsn := 0xffffff00#32
  prevMsn := 0

/-- The PSN a packet carries when it acknowledges `acked`: its successor for
    a NAK. -/
def carriedPsn (syndromeMsn : BitVec 32) (acked : Int) : Int :=
  if syndromeOpcode syndromeMsn = 0 then acked else acked + 1

/-- A packet of the receiver `rank`. -/
structure Report where
  rank : Fin 32
  acked : Int
  ackreqRsvSeqnum : BitVec 32
  syndromeMsn : BitVec 32
  carries : ackreqRsvSeqnum.setWidth 24 = BitVec.ofInt 24 (carriedPsn syndromeMsn acked)

/-- The report as the control sees it, with the bitmap of the sender. -/
def Report.packet (r : Report) (mask : BitVec 32) : AckPacket where
  ackreqRsvSeqnum := r.ackreqRsvSeqnum
  syndromeMsn := r.syndromeMsn
  bitmap := 1#32 <<< r.rank.val
  bitmapMask := mask

/-- The registers, the last PSN each receiver has acknowledged, and the PSNs
    reported since the last round was answered. -/
structure Sys where
  regs : AckRegs
  acked : Fin 32 → Int
  outstanding : List Int

/-- A fresh group: nothing is acknowledged, which is PSN -1. -/
def Sys.init (psn msn : BitVec 32) : Sys where
  regs := AckRegs.init psn msn
  acked := fun _ => -1
  outstanding := []

/-- A report passes the control. When all ranks have reported, none is outstanding. -/
def Sys.receive (mask : BitVec 32) (s : Sys) (r : Report) : Sys :=
  let regs := (broadcastAckEgress s.regs (r.packet mask)).1
  { regs := regs
    acked := fun j => if j = r.rank then r.acked else s.acked j
    outstanding := if regs.bitmap = mask then [] else r.acked :: s.outstanding }

/-- The switch processes a report of a receiver of the group. The receiver
    does not go back, and its PSN is within half the sequence space of the
    outstanding ones. -/
def Receive (mask : BitVec 32) (s : Sys) (r : Report) (s' : Sys) : Prop :=
  mask.getLsbD r.rank = true ∧ s.acked r.rank ≤ r.acked ∧
  (∀ p ∈ s.outstanding, -2 ^ 23 < r.acked - p ∧ r.acked - p < 2 ^ 23) ∧
  s' = s.receive mask r

/-- What the switch sends to the root for a report. -/
def answer (mask : BitVec 32) (s : Sys) (r : Report) : AckOut :=
  (broadcastAckEgress s.regs (r.packet mask)).2

/-- The answer acknowledges `p` to the root: an ACK carries it, a NAK carries
    its successor. -/
def AckOut.Acknowledges (out : AckOut) (p : Int) : Prop :=
  out.ackreqRsvSeqnum.setWidth 24 = BitVec.ofInt 24 (carriedPsn out.syndromeMsn p)

end SglangInc.BroadcastAck
