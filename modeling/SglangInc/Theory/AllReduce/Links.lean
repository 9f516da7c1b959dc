import SglangInc.Lib.Window
import SglangInc.Theory.AllReduce.Slots

/-!
# What Is on the Links

The conditions the packets in flight meet, link by link.

Each kind of link is a `Traffic` with its own condition on a packet. The
condition mentions the rest of the system only through a few numbers: where
the ranks are (`next`, `expected`), how far the packets of a rank have arrived
at the switch, and which PSNs are being recirculated. The lemmas say how a
link survives a packet added at its end, a packet taken off its head, and an
advance of those numbers. The invariant of the system is then assembled from
the links, and an action of the system touches the links it touches.

The counters behind `Lagging` are those of the data packets, of the
recirculated packets and of the results. All three arguments are the same:
what enters a link is at most half a window below what entered before it.
-/

namespace SglangInc.AllReduce

open List Window

variable {G : Group}

/-- What every slot of the switch stands for. -/
abbrev Slots (G : Group) := BitVec 32 → Option (Nat × List (Fin G.size))

/-- The slot of the PSN has moved on, or has every rank. -/
def Done (g : Slots G) (psn : Nat) : Prop :=
  ∃ c l, g (slot G psn) = some (c, l) ∧ (psn < c ∨ c = psn ∧ All l)

/-- The PSN of a data packet. -/
def UpMsg.psn? : UpMsg → Option Nat
  | .data psn _ _ => some psn
  | .ack _ => none

/-- The PSN of a result. -/
def DownMsg.psn? : DownMsg → Option Nat
  | .result psn _ _ => some psn
  | .ack _ => none

/-- The condition on a packet from a rank to the switch. `arrived` is one more
    than the largest PSN of the rank that has been through the first pass. -/
def UpMsg.Ok (G : Group) (j : Fin G.size) (next expected arrived : Nat) : UpMsg → Prop
  | .data p _ payload => p < next ∧ p < expected + G.half ∧ arrived ≤ p + G.half ∧
      (payload = G.data j p ∨ p < expected)
  | .ack p => p < expected

/-- Rank to switch. -/
abbrev UpOk (G : Group) (j : Fin G.size) (next expected arrived : Nat) : List UpMsg → Prop :=
  Traffic G.half UpMsg.psn? (UpMsg.Ok G j next expected arrived)

section Up

variable {j : Fin G.size} {next expected arrived : Nat} {msgs : List UpMsg}

/-- The rank gets further. -/
theorem UpOk.advance (h : UpOk G j next expected arrived msgs) {next' expected' : Nat}
    (hn : next ≤ next') (he : expected ≤ expected') : UpOk G j next' expected' arrived msgs := by
  refine h.mono fun m hm => ?_
  cases m with
  | data p flags payload =>
    rcases hm with ⟨h1, h2, h3, h4⟩
    exact ⟨by omega, by omega, h3, h4.imp_right (by omega)⟩
  | ack p => exact Nat.lt_of_lt_of_le hm he

/-- A data packet added by a rank. -/
theorem UpOk.send (h : UpOk G j next expected arrived msgs) (p : Nat) (flags : BitVec 8)
    (payload : Payload) (hp : p < next) (hpe : p < expected + G.half) (hn : next ≤ p + G.half)
    (ha : arrived ≤ next) (hpay : payload = G.data j p ∨ p < expected) :
    UpOk G j next expected arrived (msgs ++ [.data p flags payload]) := by
  refine h.snoc _ ⟨hp, hpe, by omega, hpay⟩ ?_
  rintro (⟨q, _, _⟩ | _) x y hq ⟨⟩ ⟨⟩
  exact hq.1.trans_le hn

/-- The data packet at the head of the link goes through the first pass. -/
theorem UpOk.arrive {p : Nat} {flags : BitVec 8} {payload : Payload}
    (h : UpOk G j next expected arrived (.data p flags payload :: msgs)) :
    UpOk G j next expected (max arrived (p + 1)) msgs := by
  refine h.tail rfl fun m hm hlag => ?_
  cases m with
  | data q f pl =>
    have hq := hlag q rfl
    rcases hm with ⟨h1, h2, h3, h4⟩
    exact ⟨h1, h2, by omega, h4⟩
  | ack q => exact hm

end Up

/-- A packet on the recirculation port: every rank's packet has arrived, no
    rank expects a result half a window later, and its slot still holds every
    rank's contribution. -/
structure RecirOk (expected arrived : Fin G.size → Nat) (g : Slots G) (m : RecirMsg G.size) :
    Prop where
  arrived : ∀ j, m.psn < arrived j
  expected : ∀ i, expected i ≤ m.psn + G.half
  slot : ∃ l, g (slot G m.psn) = some (m.psn, l) ∧ All l ∧
    ∀ k, (m.payload k).agg0 = (total G m.psn l k).agg0

/-- The condition on a packet from the switch to a rank. -/
def DownMsg.Ok (expected : Nat) (arrived : Fin G.size → Nat) (recir : List (RecirMsg G.size))
    (g : Slots G) : DownMsg → Prop
  | .result p _ _ => (∀ j, p < arrived j) ∧ expected ≤ p + G.half ∧
      (∀ m ∈ recir, p < m.psn + G.half) ∧ Done g p
  | .ack p => p < expected

/-- Switch to rank. -/
abbrev DownOk (expected : Nat) (arrived : Fin G.size → Nat) (recir : List (RecirMsg G.size))
    (g : Slots G) : List DownMsg → Prop :=
  Traffic G.half DownMsg.psn? (DownMsg.Ok expected arrived recir g)

section Down

variable {expected : Nat} {arrived : Fin G.size → Nat} {recir : List (RecirMsg G.size)}
  {g : Slots G} {msgs : List DownMsg}

/-- Packets arrive at the switch, slots move on, and each packet that is
    recirculated now was recirculated before or is ahead of the results. -/
theorem DownOk.advance (h : DownOk expected arrived recir g msgs) {arrived' : Fin G.size → Nat}
    {recir' : List (RecirMsg G.size)} {g' : Slots G} (ha : ∀ j, arrived j ≤ arrived' j)
    (hg : ∀ p, Done g p → Done g' p)
    (hr : ∀ m ∈ recir', m ∈ recir ∨ ∃ j, arrived j ≤ m.psn + G.half) :
    DownOk expected arrived' recir' g' msgs := by
  refine h.mono fun m hm => ?_
  cases m with
  | result p flags payload =>
    rcases hm with ⟨h1, h2, h3, h4⟩
    refine ⟨fun j => (h1 j).trans_le (ha j), h2, fun m hm => ?_, hg p h4⟩
    rcases hr m hm with hm | ⟨j, hj⟩
    · exact h3 m hm
    · exact (h1 j).trans_le hj
  | ack p => exact hm

/-- The head of the recirculation port is sent to the rank. -/
theorem DownOk.emit {m : RecirMsg G.size} (h : DownOk expected arrived (m :: recir) g msgs)
    (flags : BitVec 8) (payload : Payload) (ha : ∀ j, m.psn < arrived j)
    (he : expected ≤ m.psn + G.half) (hlag : ∀ m' ∈ recir, m.psn < m'.psn + G.half)
    (hdone : Done g m.psn) :
    DownOk expected arrived recir g (msgs ++ [.result m.psn flags payload]) := by
  -- The results on the link are compared with the packet while it is still recirculated.
  refine (h.snoc (.result m.psn flags payload) ⟨ha, he, ?_, hdone⟩ ?_).mono ?_
  · exact forall_mem_cons.mpr ⟨Nat.lt_add_of_pos_right (window_eq G).2, hlag⟩
  · rintro (⟨p, _, _⟩ | _) x y hp ⟨⟩ ⟨⟩
    exact hp.2.2.1 m mem_cons_self
  · rintro (⟨p, _, _⟩ | p) hp
    · exact ⟨hp.1, hp.2.1, fun m' hm' => hp.2.2.1 m' (mem_cons_of_mem _ hm'), hp.2.2.2⟩
    · exact hp

/-- The head of the link is the expected result, and the rank takes it. -/
theorem DownOk.accept {flags : BitVec 8} {payload : Payload}
    (h : DownOk expected arrived recir g (.result expected flags payload :: msgs)) :
    DownOk (expected + 1) arrived recir g msgs := by
  refine h.tail rfl fun m hm hlag => ?_
  cases m with
  | result p f pl =>
    have hp := hlag p rfl
    exact ⟨hm.1, by omega, hm.2.2⟩
  | ack p => exact Nat.lt_succ_of_lt hm

end Down

end SglangInc.AllReduce
