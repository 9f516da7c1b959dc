import SglangInc.Theory.AllReduce.Links

/-!
# Slot Reuse Is Safe

Every result the switch sends out is the sum of every rank's payload
(`result_is_total`).

The registers say little about the past, so the invariant carries two things
the system does not have: how far the packets of each rank have arrived at the
switch, and which PSN each slot stands for with its contributors in order.
Everything is then an inequality between a few counters. The lowest
unacknowledged PSN of a rank is at most the result it expects, which is at
most the number of packets that arrived from any rank, because a result needs
all of them. What a rank has sent is at most half a window beyond the first
of these.

The two places where a slot could go wrong are a packet that finds the slot
in the hands of another PSN, and a recirculated packet that comes back to a
slot that has moved on. `Inv.fits` says that the PSN found is the packet's
own or exactly one window earlier: two windows earlier, the rank would have
accepted a result in between. `RecirOk.arrive` says that the slot cannot move
on, since the packet that would move it is a window ahead of a result that
some rank cannot have accepted yet.
-/

namespace SglangInc.AllReduce

open List Function Window

section Slots

variable {G : Group} {g : Slots G} {p : Nat}

/-- The slots after the first pass of a packet of rank `j`. -/
def arriveAt (g : Slots G) (p : Nat) (j : Fin G.size) : Slots G :=
  update g (slot G p) (some (p, joined (contributors (g (slot G p)) p) j))

/-- The slot is free, at this PSN, or at the PSN one window earlier. -/
def Fits (g : Slots G) (p : Nat) : Prop :=
  ∀ c l, g (slot G p) = some (c, l) → c = p ∨ p = c + G.window

theorem arriveAt_self (g : Slots G) (p : Nat) (j : Fin G.size) :
    arriveAt g p j (slot G p) = some (p, joined (contributors (g (slot G p)) p) j) :=
  update_self _ _ _

theorem arriveAt_of_ne (g : Slots G) (p : Nat) (j : Fin G.size) {i : BitVec 32}
    (hi : i ≠ slot G p) : arriveAt g p j i = g i :=
  update_of_ne hi _ _

/-- The switch tells a PSN from the one that used its slot before. -/
theorem Fits.version_ne (h : Fits g p) (c : Nat) (l : List (Fin G.size))
    (hc : g (slot G p) = some (c, l)) (hne : c ≠ p) : seqWord c ≠ seqWord p := by
  have hW := window_le G
  have hp := (h c l hc).resolve_left hne
  intro heq
  have := congrArg BitVec.toNat heq
  simp only [seqWord, BitVec.toNat_ofNat] at this
  omega

/-- A slot whose ranks are all in stays as it is. -/
theorem joined_of_all {l : List (Fin G.size)} (h : All l) (j : Fin G.size) : joined l j = l :=
  if_pos (h j)

/-- A slot that was done with a PSN stays done with it. -/
theorem Done.arriveAt {q : Nat} (h : Done g q) (hp : Fits g p) (j : Fin G.size) :
    Done (arriveAt g p j) q := by
  rcases h with ⟨c, l, hc, hq⟩
  by_cases hslot : slot G q = slot G p
  · rw [hslot] at hc
    refine ⟨p, _, by rw [hslot, arriveAt_self], ?_⟩
    rcases hp c l hc with rfl | hnext
    · refine hq.imp_right fun ⟨hcq, hall⟩ => ⟨hcq, ?_⟩
      rwa [hc, contributors, if_pos rfl, joined_of_all hall]
    · have hpos := window_eq G
      exact .inl (by omega)
  · exact ⟨c, l, (arriveAt_of_ne g p j hslot).trans hc, hq⟩

/-- The slot of a recirculated packet does not move on while the packet is on
    its way: the arriving packet is less than a window ahead. -/
theorem RecirOk.arriveAt {expected arrived arrived' : Fin G.size → Nat} {m : RecirMsg G.size}
    (h : RecirOk expected arrived g m) (hp : Fits g p) (j : Fin G.size)
    (hpe : p < expected j + G.half) (ha : ∀ i, arrived i ≤ arrived' i) :
    RecirOk expected arrived' (arriveAt g p j) m where
  arrived := fun i => (h.arrived i).trans_le (ha i)
  expected := h.expected
  slot := by
    rcases h.slot with ⟨l, hl, hall, heven⟩
    refine ⟨l, ?_, hall, heven⟩
    by_cases hslot : AllReduce.slot G m.psn = AllReduce.slot G p
    · rw [hslot] at hl
      have hm := h.expected j
      have hW := window_eq G
      rcases hp m.psn l hl with rfl | hnext
      · rw [arriveAt_self, hl, contributors, if_pos rfl, joined_of_all hall]
      · omega
    · exact (arriveAt_of_ne g p j hslot).trans hl

end Slots

section Invariant

variable {G : Group}

/-- The invariant of the system, for the counts of arrived packets and the
    PSNs the slots stand for. -/
structure Inv (s : Sys G) (arrived : Fin G.size → Nat) (g : Slots G) : Prop where
  unacked_le : ∀ i, s.unacked i ≤ s.expected i
  expected_le : ∀ i j, s.expected i ≤ arrived j
  arrived_le : ∀ j, arrived j ≤ s.next j
  next_le : ∀ j, s.next j ≤ s.unacked j + G.half
  up : ∀ j, UpOk G j (s.next j) (s.expected j) (arrived j) (s.up j)
  recir : ∀ m ∈ s.recir, RecirOk s.expected arrived g m
  order : Lagging G.half (s.recir.map RecirMsg.psn)
  down : ∀ i, DownOk (s.expected i) arrived s.recir g (s.down i)
  done : ∀ i p, p < s.expected i → Done g p
  holds : ∀ i, Holds G s.regs i (g i)
  slots : ∀ i c l, g i = some (c, l) →
    slot G c = i ∧ (∀ j ∈ l, c < arrived j) ∧ ∃ j ∈ l, c < s.expected j + G.half

theorem inv_init (G : Group) (aggregator : Fin 32 → BitVec 32 → AggPair) :
    Inv (Sys.init G aggregator) (fun _ => 0) (fun _ => none) where
  unacked_le := fun _ => le_rfl
  expected_le := fun _ _ => le_rfl
  arrived_le := fun _ => le_rfl
  next_le := fun _ => Nat.zero_le _
  up := fun _ => .nil
  recir := nofun
  order := .nil
  down := fun _ => .nil
  done := nofun
  holds := fun _ => rfl
  slots := nofun

variable {s : Sys G} {arrived : Fin G.size → Nat} {g : Slots G}

/-- The first pass drops the packet or puts it on the recirculation port. -/
theorem switchedUp_recir (s : Sys G) (i : Fin G.size) (p : Nat) (flags : BitVec 8)
    (payload : Payload) (rest : List UpMsg) :
    (s.switchedUp i (.data p flags payload) rest).recir = s.recir ∨
    ∃ enableMulticast payload', (firstPass (G.metadata i) s.regs (wireWord flags p) payload).2 =
        some (enableMulticast, payload') ∧ (s.switchedUp i (.data p flags payload) rest).recir =
        s.recir ++ [⟨i, p, flags, enableMulticast, payload'⟩] := by
  simp only [Sys.switchedUp]
  cases hout : (firstPass (G.metadata i) s.regs (wireWord flags p) payload).2 with
  | none => exact .inl rfl
  | some out => exact .inr ⟨out.1, out.2, rfl, rfl⟩

/-- A slot stands for the same when its registers are the same. -/
theorem Holds.congr {regs regs' : Regs} {i : BitVec 32} {o : Option (Nat × List (Fin G.size))}
    (h : Holds G regs i o) (hb : regs'.regBitmap i = regs.regBitmap i)
    (ha : ∀ k, regs'.aggregator k i = regs.aggregator k i) : Holds G regs' i o := by
  cases o with
  | none => exact hb.trans h
  | some cl =>
    rcases h with ⟨h1, h2, h3, h4, h5⟩
    exact ⟨hb ▸ h1, hb ▸ h2, h3, h4, fun k => (ha k).trans (h5 k)⟩

namespace Inv

variable {flags : BitVec 8} {payload : Payload}

variable (h : Inv s arrived g) {p : Nat} {j : Fin G.size}
include h

/-- A packet that arrives at the switch finds its slot at its own PSN or one
    window behind. -/
theorem fits (hm : .data p flags payload ∈ s.up j) : Fits g p := by
  intro c l hc
  rcases h.slots _ c l hc with ⟨hslot, _, i, _, hci⟩
  rcases (h.up j).each _ hm with ⟨_, hpe, hpa, _⟩
  have hW := window_eq G
  have hij := h.expected_le i j
  have hmod := (slot_inj p c).mp hslot.symm
  refine (eq_or_eq_add_of_mod_eq G.window p c hmod (by omega) ?_).imp_left Eq.symm
  -- Two windows on, the rank would have accepted the result in between.
  by_contra hfar
  have hnext : slot G (c + G.window) = slot G p := by
    rw [slot_inj, Nat.add_mod_right, hmod]
  rcases h.done j (c + G.window) (by omega) with ⟨c', l', hc', hdone⟩
  cases (hnext ▸ hc).symm.trans hc'
  omega

/-- A packet that is not its sender's own contribution finds the sender in
    the slot. -/
theorem contributed (hm : .data p flags payload ∈ s.up j) :
    j ∈ contributors (g (slot G p)) p ∨ payload = G.data j p := by
  rcases ((h.up j).each _ hm).2.2.2 with hdata | hacc
  · exact .inr hdata
  rcases h.done j p hacc with ⟨c, l, hc, hlt | ⟨rfl, hall⟩⟩
  · have := h.fits hm c l hc
    omega
  · refine .inl ?_
    rw [hc, contributors, if_pos rfl]
    exact hall j

variable (i : Fin G.size)

/-- A rank sends a packet within its window. -/
theorem sent (p : Nat) (flags : BitVec 8) (payload : Payload) (hsend : CanSend s i p payload) :
    Inv (s.sent i p flags payload) arrived g := by
  rcases hsend with ⟨hlow, _, hhigh, hpay⟩
  have hu := h.unacked_le i
  have hn := h.next_le i
  have ha := h.arrived_le i
  have hnext : ∀ j, s.next j ≤ (s.sent i p flags payload).next j ∧
      (s.sent i p flags payload).next j ≤ s.unacked j + G.half := by
    intro j
    have hnj := h.next_le j
    simp only [Sys.sent, update_apply]
    split_ifs with hj
    · subst hj
      omega
    · omega
  refine { h with
    arrived_le := fun j => (h.arrived_le j).trans (hnext j).1
    next_le := fun j => (hnext j).2
    up := fun j => ?_ }
  simp only [Sys.sent, update_apply]
  split_ifs with hj
  · subst hj
    exact ((h.up j).advance (Nat.le_max_left _ (p + 1)) le_rfl).send p flags payload
      (by omega) (by omega) (by omega) (by omega) hpay
  · exact h.up j

theorem sentAck (p : Nat) (hp : p < s.expected i) : Inv (s.sentAck i p) arrived g := by
  refine { h with up := ?_ }
  refine (forall_update_iff s.up
    (p := fun j => UpOk G j (s.next j) (s.expected j) (arrived j))).mpr ⟨?_, fun j _ => h.up j⟩
  exact (h.up i).snoc (.ack p) hp nofun

theorem lost {s' : Sys G} (hl : Lost s s') : Inv s' arrived g := by
  obtain ⟨unacked, next, expected, up, recir, down, regs⟩ := s'
  rcases hl with ⟨rfl, rfl, rfl, rfl, hup, hrecir, hdown⟩
  refine { h with
    up := fun j => (h.up j).sublist (hup j)
    recir := fun m hm => h.recir m (hrecir.subset hm)
    order := h.order.sublist (hrecir.map _)
    down := fun i => ?_ }
  exact DownOk.advance ((h.down i).sublist (hdown i)) (fun _ => le_rfl) (fun _ hd => hd)
    (fun m hm => .inl (hrecir.subset hm))

/-- The switch bounces an acknowledgement. -/
theorem bounced (p : Nat) (rest : List UpMsg)
    (hup : s.up i = .ack p :: rest) : Inv (s.switchedUp i (.ack p) rest) arrived g := by
  have hp : p < s.expected i := (h.up i).each (.ack p) (hup ▸ mem_cons_self)
  refine { h with up := ?_, down := ?_ }
  · refine (forall_update_iff s.up
      (p := fun j => UpOk G j (s.next j) (s.expected j) (arrived j))).mpr ⟨?_, fun j _ => h.up j⟩
    exact (h.up i).sublist (hup ▸ sublist_cons_self _ _)
  · refine (forall_update_iff s.down
      (p := fun j => DownOk (s.expected j) arrived s.recir g)).mpr ⟨?_, fun j _ => h.down j⟩
    exact (h.down i).snoc (.ack p) hp nofun

/-- What the slots stand for once a packet has arrived. -/
theorem slots_arriveAt {i : Fin G.size} {arrived' : Fin G.size → Nat}
    (ha : ∀ j, arrived j ≤ arrived' j) (hpa : p < arrived' i) (hpe : p < s.expected i + G.half) :
    ∀ k c l, arriveAt g p i k = some (c, l) →
      slot G c = k ∧ (∀ j ∈ l, c < arrived' j) ∧ ∃ j ∈ l, c < s.expected j + G.half := by
  intro k c l hk
  by_cases hslot : k = slot G p
  · subst hslot
    rw [arriveAt_self] at hk
    cases hk
    refine ⟨rfl, fun j hj => ?_, i, (mem_joined _ i i).mpr (.inr rfl), hpe⟩
    rcases (mem_joined _ j i).mp hj with hold | rfl
    · rcases contributors_eq (g (slot G p)) p with hnil | ho
      · rw [hnil] at hold
        cases hold
      · exact ((h.slots _ p _ ho).2.1 j hold).trans_le (ha j)
    · exact hpa
  · rw [arriveAt_of_ne g p i hslot] at hk
    rcases h.slots k c l hk with ⟨h1, h2, h3⟩
    exact ⟨h1, fun j hj => (h2 j hj).trans_le (ha j), h3⟩

/-- The first pass of a data packet. -/
theorem switched (p : Nat) (flags : BitVec 8)
    (payload : Payload) (rest : List UpMsg) (hup : s.up i = .data p flags payload :: rest) :
    Inv (s.switchedUp i (.data p flags payload) rest)
      (update arrived i (max (arrived i) (p + 1))) (arriveAt g p i) := by
  have hm : .data p flags payload ∈ s.up i := hup ▸ mem_cons_self
  have hfits := h.fits hm
  rcases (h.up i).each _ hm with ⟨hpn, hpe, hpa, _⟩
  obtain ⟨hself, hother, hout⟩ := firstPass_spec flags payload (h.holds (slot G p))
    hfits.version_ne (h.contributed hm)
  have ha : ∀ j, arrived j ≤ update arrived i (max (arrived i) (p + 1)) j :=
    (forall_update_iff arrived (p := fun j a => arrived j ≤ a)).mpr
      ⟨Nat.le_max_left _ _, fun j _ => le_rfl⟩
  have hslots := h.slots_arriveAt ha (p := p) (i := i) (by rw [update_self]; omega) hpe
  have hold : ∀ m ∈ s.recir, RecirOk s.expected _ (arriveAt g p i) m :=
    fun m hm => (h.recir m hm).arriveAt hfits i hpe ha
  -- A packet that goes on has every rank in its slot.
  have hnew : ∀ enableMulticast payload',
      (firstPass (G.metadata i) s.regs (wireWord flags p) payload).2 =
        some (enableMulticast, payload') →
      RecirOk s.expected (update arrived i (max (arrived i) (p + 1))) (arriveAt g p i)
        ⟨i, p, flags, enableMulticast, payload'⟩ := by
    intro enableMulticast payload' hsome
    rcases hout enableMulticast payload' hsome with ⟨hall, heven⟩
    have hself := arriveAt_self g p i
    refine ⟨fun j => (hslots _ p _ hself).2.1 j (hall j), fun j => ?_, _, hself, hall, heven⟩
    exact (h.expected_le j i).trans hpa
  have hahead : ∀ m ∈ s.recir, m.psn < p + G.half :=
    fun m hm => ((h.recir m hm).arrived i).trans_le hpa
  refine ⟨h.unacked_le, fun k j => (h.expected_le k j).trans (ha j), ?_, h.next_le,
    fun j => ?_, ?_, ?_, fun j => ?_, fun j q hq => (h.done j q hq).arriveAt hfits i,
    fun k => ?_, hslots⟩
  · refine (forall_update_iff arrived (p := fun j a => a ≤ s.next j)).mpr
      ⟨Nat.max_le.mpr ⟨h.arrived_le i, hpn⟩, fun j _ => h.arrived_le j⟩
  · by_cases hj : j = i
    · subst hj
      simp only [Sys.switchedUp, update_self]
      exact (hup ▸ h.up j).arrive
    · simp only [Sys.switchedUp, update_of_ne hj]
      exact h.up j
  · rcases switchedUp_recir s i p flags payload rest with hr | ⟨b, payload', hsome, hr⟩
    · rwa [hr]
    · rw [hr]
      exact forall_mem_append.mpr ⟨hold, forall_mem_singleton.mpr (hnew b payload' hsome)⟩
  · rcases switchedUp_recir s i p flags payload rest with hr | ⟨b, payload', _, hr⟩
    · rw [hr]
      exact h.order
    · rw [hr, map_append, map_singleton, lagging_snoc]
      exact ⟨h.order, forall_mem_map.mpr hahead⟩
  · refine (h.down j).advance ha (fun q hq => hq.arriveAt hfits i) fun m hm => ?_
    rcases switchedUp_recir s i p flags payload rest with hr | ⟨b, payload', _, hr⟩
    · exact .inl (hr ▸ hm)
    · rw [hr] at hm
      refine (mem_append.mp hm).imp_right fun hm => ⟨i, ?_⟩
      rwa [mem_singleton.mp hm]
  · by_cases hk : k = slot G p
    · rwa [hk, arriveAt_self]
    · rw [arriveAt_of_ne g p i hk]
      exact (h.holds k).congr (hother k hk).1 (hother k hk).2

/-- The second pass of a packet. -/
theorem switchedRecir (m : RecirMsg G.size) (rest : List (RecirMsg G.size))
    (hr : s.recir = m :: rest) : Inv (s.switchedRecir m rest) arrived g := by
  have hm := h.recir m (hr ▸ mem_cons_self)
  have horder := h.order
  rw [hr, map_cons, lagging_cons] at horder
  have hlag : ∀ m' ∈ rest, m.psn < m'.psn + G.half :=
    fun m' hm' => horder.1 _ (mem_map_of_mem hm')
  refine { h with
    recir := fun m' hm' => h.recir m' (hr ▸ mem_cons_of_mem _ hm')
    order := horder.2
    down := fun i => ?_ }
  have hdown := h.down i
  rw [hr] at hdown
  simp only [Sys.switchedRecir]
  split_ifs
  · rcases hm.slot with ⟨l, hl, hall, _⟩
    exact hdown.emit m.flags _ hm.arrived (hm.expected i) hlag ⟨m.psn, l, hl, .inr ⟨rfl, hall⟩⟩
  · exact hdown.advance (fun _ => le_rfl) (fun _ hd => hd)
      (fun m' hm' => .inl (mem_cons_of_mem _ hm'))

/-- A rank takes a packet off its link. -/
theorem dropped (m : DownMsg) (rest : List DownMsg) (hd : s.down i = m :: rest) :
    ∀ j, DownOk (s.expected j) arrived s.recir g (update s.down i rest j) := by
  refine (forall_update_iff s.down
    (p := fun j => DownOk (s.expected j) arrived s.recir g)).mpr ⟨?_, fun j _ => h.down j⟩
  exact (h.down i).sublist (hd ▸ sublist_cons_self _ _)

/-- A rank accepts the result it expects. -/
theorem accepted (flags : BitVec 8) (payload : Payload)
    (rest : List DownMsg) (hd : s.down i = .result (s.expected i) flags payload :: rest) :
    Inv { s with
      down := update s.down i rest
      expected := update s.expected i (s.expected i + 1) } arrived g := by
  have hdown := h.down i
  rw [hd] at hdown
  rcases hdown.each _ mem_cons_self with ⟨harr, _, hrecir, hdone⟩
  have he : ∀ j, s.expected j ≤ update s.expected i (s.expected i + 1) j :=
    (forall_update_iff s.expected (p := fun j e => s.expected j ≤ e)).mpr
      ⟨Nat.le_succ _, fun j _ => le_rfl⟩
  refine ⟨fun j => (h.unacked_le j).trans (he j), fun k j => ?_, h.arrived_le, h.next_le,
    fun j => (h.up j).advance le_rfl (he j), fun m hm => ?_, h.order, fun j => ?_,
    fun j p hp => ?_, h.holds, fun k c l hk => ?_⟩
  · refine (forall_update_iff s.expected (p := fun _ e => e ≤ arrived j)).mpr
      ⟨harr j, fun k _ => h.expected_le k j⟩ k
  -- What recirculates is within half a window of the result.
  · have hm' := h.recir m hm
    refine ⟨hm'.arrived, ?_, hm'.slot⟩
    exact (forall_update_iff s.expected (p := fun _ e => e ≤ m.psn + G.half)).mpr
      ⟨hrecir m hm, fun k _ => hm'.expected k⟩
  · simp only [update_apply]
    split_ifs with hj
    · exact hj ▸ hdown.accept
    · exact h.down j
  · simp only [update_apply] at hp
    split_ifs at hp with hj
    · subst hj
      rcases Nat.lt_succ_iff_lt_or_eq.mp hp with hlt | rfl
      · exact h.done j p hlt
      · exact hdone
    · exact h.done j p hp
  · rcases h.slots k c l hk with ⟨h1, h2, j, hj, hc⟩
    exact ⟨h1, h2, j, hj, hc.trans_le (Nat.add_le_add_right (he j) _)⟩

/-- The wire PSN of a result is the expected one only when its PSN is: the two
    are at most half a window apart. -/
theorem result_eq {i : Fin G.size} (hm : .result p flags payload ∈ s.down i)
    (hw : (wireWord flags p).setWidth 24 = BitVec.ofNat 24 (s.expected i)) : p = s.expected i := by
  rcases (h.down i).each _ hm with ⟨harr, hep, _⟩
  have hpa := harr i
  have hn := h.arrived_le i
  have hl := h.next_le i
  have hu := h.unacked_le i
  have hW := window_eq G
  have hle := window_le G
  have hmod := congrArg BitVec.toNat ((setWidth_wireWord flags p).symm.trans hw)
  exact eq_of_mod_eq (2 ^ 24) p (s.expected i) hmod (by omega) (by omega)

/-- A rank takes a result off its link. -/
theorem received (m : DownMsg) (rest : List DownMsg)
    (hd : s.down i = m :: rest) : Inv (s.received i m rest) arrived g := by
  have hdrop := h.dropped i m rest hd
  have hm : m ∈ s.down i := hd ▸ mem_cons_self
  cases m with
  | result p flags payload =>
    simp only [Sys.received]
    split_ifs with hw
    · have hp := h.result_eq hm hw
      exact h.accepted i flags payload rest (hp ▸ hd)
    · exact { h with down := hdrop }
  | ack p =>
    have hp := (h.down i).each _ hm
    refine { h with unacked_le := ?_, next_le := ?_, down := hdrop }
    · exact (forall_update_iff s.unacked (p := fun j a => a ≤ s.expected j)).mpr
        ⟨Nat.max_le.mpr ⟨h.unacked_le i, hp⟩, fun j _ => h.unacked_le j⟩
    · refine (forall_update_iff s.unacked
        (p := fun j a => s.next j ≤ a + G.half)).mpr ⟨?_, fun j _ => h.next_le j⟩
      exact (h.next_le i).trans (Nat.add_le_add_right (Nat.le_max_left _ _) _)

end Inv

/-- Every action keeps the invariant, for some counts and slots. -/
theorem inv_step {act : Act G.size} {s' : Sys G} (h : ∃ arrived g, Inv s arrived g)
    (hs : Step s act s') : ∃ arrived g, Inv s' arrived g := by
  rcases h with ⟨arrived, g, h⟩
  cases act with
  | send i p flags payload =>
    rcases hs with ⟨hsend, rfl⟩
    exact ⟨_, _, h.sent i p flags payload hsend⟩
  | sendAck i p =>
    rcases hs with ⟨hp, rfl⟩
    exact ⟨_, _, h.sentAck i p hp⟩
  | lose => exact ⟨_, _, h.lost hs⟩
  | switchUp i =>
    rcases hs with ⟨m, rest, hup, rfl⟩
    cases m with
    | data p flags payload => exact ⟨_, _, h.switched i p flags payload rest hup⟩
    | ack p => exact ⟨_, _, h.bounced i p rest hup⟩
  | switchRecir =>
    rcases hs with ⟨m, rest, hr, rfl⟩
    exact ⟨_, _, h.switchedRecir m rest hr⟩
  | recv i =>
    rcases hs with ⟨m, rest, hd, rfl⟩
    exact ⟨_, _, h.received i m rest hd⟩

/-- The result a recirculated packet leaves the switch with. -/
theorem Inv.resultPayload_eq (h : Inv s arrived g) (m : RecirMsg G.size) (hm : m ∈ s.recir) :
    ∃ l : List (Fin G.size), l.Perm (List.finRange G.size) ∧
      s.resultPayload m = total G m.psn l := by
  rcases (h.recir m hm).slot with ⟨l, hl, hall, heven⟩
  have hholds := h.holds (slot G m.psn)
  rw [hl] at hholds
  refine ⟨l, ?_, secondPass_holds m.flags m.payload l hholds heven⟩
  rw [perm_ext_iff_of_nodup hholds.2.2.2.1 (nodup_finRange _)]
  exact fun i => iff_of_true (hall i) (mem_finRange i)

/-- In every run of the group, whatever the links lose and the ranks send
    again, each result the switch sends out for a PSN is the saturating sum
    of the payloads of all ranks for that PSN, in some order of the ranks,
    the same for the even and the odd words. -/
theorem result_is_total (G : Group) (aggregator : Fin 32 → BitVec 32 → AggPair)
    (tr : List (Sys G × Act G.size × Sys G)) (t : Sys G)
    (hrun : Run Step (Sys.init G aggregator) tr t) : ∀ e ∈ tr, ∀ r ∈ emits e.1 e.2.1,
      ∃ l : List (Fin G.size), l.Perm (List.finRange G.size) ∧ r.2 = total G r.1 l := by
  intro e he r hr
  rcases (hrun.inv_mem (P := fun s => ∃ arrived g, Inv s arrived g)
    ⟨_, _, inv_init G aggregator⟩ (fun _ _ _ h hs => inv_step h hs) e he).1 with ⟨_, _, h⟩
  obtain ⟨s, act, s'⟩ := e
  cases act with
  | switchRecir =>
    simp only [emits] at hr
    cases hrec : s.recir with
    | nil =>
      rw [hrec] at hr
      cases hr
    | cons m rest =>
      rw [hrec] at hr
      rw [mem_singleton.mp hr]
      exact h.resultPayload_eq m (hrec ▸ mem_cons_self)
  | send | sendAck | lose | switchUp | recv => cases hr

end Invariant

/-- Two ranks with a window of two slots. -/
def twoRanks : Group where
  size := 2
  order := 1
  aggAddr := 0
  data := fun j psn _ => ⟨BitVec.ofNat 32 (j.val + 1), BitVec.ofNat 32 psn⟩
  size_pos := by decide
  size_le := by decide
  order_pos := by decide
  order_le := by decide

/-- The two ranks. -/
def rank0 : Fin twoRanks.size := ⟨0, by decide⟩

def rank1 : Fin twoRanks.size := ⟨1, by decide⟩

/-- The first packet of a rank. -/
def packet (j : Fin twoRanks.size) : UpMsg := .data 0 0 (twoRanks.data j 0)

/-- Nothing has been sent yet. -/
def unsent : Sys twoRanks := Sys.init twoRanks (fun _ _ => ⟨0, 0⟩)

/-- Both ranks have sent their first packet. -/
def bothSent : Sys twoRanks :=
  (unsent.sent rank0 0 0 (twoRanks.data rank0 0)).sent rank1 0 0 (twoRanks.data rank1 0)

/-- Both packets have arrived, and the second one is being recirculated. -/
def bothArrived : Sys twoRanks :=
  (bothSent.switchedUp rank0 (packet rank0) []).switchedUp rank1 (packet rank1) []

theorem run_bothArrived : ∃ tr, Run Step unsent tr bothArrived := by
  have send0 : Step unsent (.send rank0 0 0 (twoRanks.data rank0 0)) _ :=
    ⟨⟨by decide, by decide, by decide, .inl rfl⟩, rfl⟩
  have send1 : Step _ (.send rank1 0 0 (twoRanks.data rank1 0)) bothSent :=
    ⟨⟨by decide, by decide, by decide, .inl rfl⟩, rfl⟩
  have up0 : Step bothSent (.switchUp rank0) _ := ⟨packet rank0, [], rfl, rfl⟩
  have up1 : Step _ (.switchUp rank1) bothArrived := ⟨packet rank1, [], rfl, rfl⟩
  exact ⟨_, (((Run.nil.snoc _ send0).snoc _ send1).snoc _ up0).snoc _ up1⟩

theorem result_is_total_two_ranks : ∃ tr t, Run Step unsent tr t ∧
    ∃ e ∈ tr, ∃ r ∈ emits e.1 e.2.1, r.1 = 0 ∧
      ∃ l : List (Fin 2), l.Perm (List.finRange 2) ∧ r.2 = total twoRanks r.1 l := by
  have hpsn : bothArrived.recir.map RecirMsg.psn = [0] := by decide
  rcases map_eq_cons_iff.mp hpsn with ⟨m, rest, hrec, hm, _⟩
  rcases run_bothArrived with ⟨tr, hrun⟩
  have hstep : Step bothArrived .switchRecir _ := ⟨m, rest, hrec, rfl⟩
  have hlast := hrun.snoc _ hstep
  have hmem := mem_append_right tr (mem_singleton_self
    (bothArrived, Act.switchRecir, bothArrived.switchedRecir m rest))
  have hemit : (m.psn, bothArrived.resultPayload m) ∈ emits bothArrived .switchRecir := by
    simp only [emits, hrec]
    exact mem_singleton_self _
  exact ⟨_, _, hlast, _, hmem, _, hemit, hm, result_is_total _ _ _ _ hlast _ hmem _ hemit⟩

end SglangInc.AllReduce
