import SglangInc.Lib.Serial
import SglangInc.Core.BroadcastAck

/-!
# Broadcast Acknowledgements Never Run Ahead

The PSN the switch acknowledges to the root is one every receiver has
acknowledged to the switch (`acknowledged_by_all`).

The registers hold two PSNs shifted into the upper bits of a word: the
minimum of the open round and the minimum of the last full one. The invariant
`Tracks` names the integers behind the two, `cur` and `prev`. The signed
comparison of the control is the comparison of the integers as long as they
are within half the sequence space, which is what a report guarantees towards
the outstanding PSNs, and `cur` is one of those (`psnReg_eq`).

The round itself is the bitmap. A receiver whose bit is set has reported
since the round began, or since the minimum was set anew because one receiver
spoke twice before any other, and in both cases `cur` is at most what it has
acknowledged. When the bitmap is full, this holds of every receiver.
-/

namespace SglangInc.BroadcastAck

open List BitVec

/-- A PSN as the registers hold it. -/
def word (p : Int) : BitVec 32 := BitVec.ofInt 32 (p * 2 ^ 8)

/-- The bit of a rank. -/
def rankBit (j : Fin 32) : BitVec 32 := 1#32 <<< j.val

theorem getLsbD_rankBit (i j : Fin 32) : (rankBit i).getLsbD j = true ↔ j = i := by
  rw [show rankBit i = twoPow 32 i from rfl, getLsbD_twoPow, Bool.and_eq_true,
    decide_eq_true_eq, decide_eq_true_eq, Fin.ext_iff]
  exact ⟨fun h => h.2.symm, fun h => ⟨i.isLt, h.symm⟩⟩

/-- The packet's PSN field, shifted up, is the PSN the report acknowledges. -/
theorem shiftedPsn_eq (r : Report) (mask : BitVec 32) :
    shiftedPsn (r.packet mask) = word r.acked := by
  have hc := r.carries
  rw [carriedPsn] at hc
  split_ifs at hc with hop
  · rw [shiftedPsn, if_pos (show syndromeOpcode (r.packet mask).syndromeMsn = 0 from hop)]
    exact Serial.shiftLeft_low 24 8 r.ackreqRsvSeqnum r.acked hc
  rw [shiftedPsn, if_neg (show ¬ syndromeOpcode (r.packet mask).syndromeMsn = 0 from hop)]
  refine Serial.shiftLeft_low 24 8 (r.ackreqRsvSeqnum - 1) r.acked ?_
  rw [BitVec.sub_eq_add_neg, BitVec.setWidth_add _ _ (by omega), hc,
    show (-1 : BitVec (24 + 8)).setWidth 24 = BitVec.ofInt 24 (-1) by decide, ← BitVec.ofInt_add]
  congr 1
  omega

/-- The signed test of the control, for PSNs within half the sequence
    space. -/
theorem snUpdate_word (a b : Int) (lo : -2 ^ 23 < a - b) (hi : a - b < 2 ^ 23) :
    snUpdate (word b) (word a) = word (min a b) := by
  have hlt : (word a - word b).slt 0 = true ↔ a < b := by
    rw [word, word, Serial.slt_sub (by omega) _ _ (by omega) (by omega)]
    omega
  rw [snUpdate]
  by_cases h : a < b
  · rw [if_pos (hlt.mpr h), min_eq_left h.le]
  · rw [if_neg (fun hs => h (hlt.mp hs)), min_eq_right (not_lt.mp h)]

/-- The answer keeps the kind of the packet it answers. -/
theorem syndromeOpcode_answer (syn prevMsn : BitVec 32) :
    syndromeOpcode ((syn &&& 0xff000000#32) ||| (prevMsn >>> 8)) = syndromeOpcode syn := by
  have hlow : ∀ i < 24, (0x60000000#32).getLsbD i = false := by decide
  have hkeep : ∀ i < 32, 24 ≤ i → (0xff000000#32).getLsbD i = true := by decide
  apply eq_of_getLsbD_eq
  intro i hi
  simp only [syndromeOpcode, getLsbD_and, getLsbD_or, getLsbD_ushiftRight]
  by_cases h24 : i < 24
  · rw [hlow i h24, Bool.and_false, Bool.and_false]
  · rw [hkeep i hi (by omega), getLsbD_of_ge prevMsn (8 + i) (by omega), Bool.and_true,
      Bool.or_false]

/-- A PSN put back below the other fields of a packet word. -/
theorem setWidth_put (x : BitVec 32) (p : Int) :
    ((x &&& 0xff000000#32) ||| (word p >>> 8)).setWidth 24 = BitVec.ofInt 24 p := by
  rw [setWidth_or, setWidth_and,
    show (0xff000000#32).setWidth 24 = 0#24 by decide, and_zero, zero_or]
  exact Serial.setWidth_ushiftRight 24 8 p

theorem word_succ (p : Int) : word p + 0x100#32 = word (p + 1) := by
  rw [word, word, show 0x100#32 = BitVec.ofInt 32 (1 * 2 ^ 8) by decide, ← BitVec.ofInt_add,
    ← Int.add_mul]

/-- The answer carries the saved minimum, or its successor in a NAK. -/
theorem answer_acknowledges (mask : BitVec 32) (s : Sys) (r : Report) (p : Int)
    (hp : (s.receive mask r).regs.prevPsn = word p) : (answer mask s r).Acknowledges p := by
  have hout : (answer mask s r).ackreqRsvSeqnum = (r.ackreqRsvSeqnum &&& 0xff000000#32) |||
      ((if syndromeOpcode r.syndromeMsn ≠ 0 then word p + 0x100#32 else word p) >>> 8) := by
    rw [← hp]
    rfl
  have hkind : syndromeOpcode (answer mask s r).syndromeMsn = syndromeOpcode r.syndromeMsn :=
    syndromeOpcode_answer r.syndromeMsn (s.receive mask r).regs.prevMsn
  rw [AckOut.Acknowledges, hout, carriedPsn, hkind, ite_not]
  split_ifs
  · rw [setWidth_put]
  · rw [word_succ, setWidth_put]

/-- The registers hold the minimum `cur` of the open round and the minimum
    `prev` of the last full one. `seen` are the PSNs reported so far. -/
structure Tracks (mask : BitVec 32) (s : Sys) (seen : List Int) (cur prev : Int) : Prop where
  psn : s.regs.bitmap ≠ 0 → s.regs.psn = word cur
  cur_mem : s.regs.bitmap ≠ 0 → s.regs.bitmap ≠ mask → cur ∈ s.outstanding
  cur_le : ∀ j : Fin 32, s.regs.bitmap.getLsbD j = true → cur ≤ s.acked j
  prevPsn : s.regs.prevPsn = word prev
  prev_le : ∀ j : Fin 32, mask.getLsbD j = true → prev ≤ s.acked j
  outstanding : ∀ p ∈ s.outstanding, prev ≤ p ∧ p ∈ seen
  prev_seen : prev = -1 ∨ prev ∈ seen

theorem tracks_init (mask psn msn : BitVec 32) : Tracks mask (Sys.init psn msn) [] 0 (-1) where
  psn := fun h => absurd rfl h
  cur_mem := fun h => absurd rfl h
  cur_le := fun j hj => by
    rw [Sys.init, AckRegs.init] at hj
    exact absurd hj (by simp)
  prevPsn := show 0xffffff00#32 = word (-1) by decide
  prev_le := fun _ _ => Int.le_refl _
  outstanding := forall_mem_nil _
  prev_seen := .inl rfl

section Receive

variable {mask : BitVec 32} {s s' : Sys} {r : Report} {seen : List Int} {cur prev : Int}

/-- The minimum of the round once the report is in. -/
def nextCur (mask : BitVec 32) (s : Sys) (r : Report) (cur : Int) : Int :=
  if bitmapUpdate s.regs.bitmap (rankBit r.rank) mask = rankBit r.rank then r.acked
  else min r.acked cur

/-- A report that is not the first of its round: the round has begun and is
    not full. -/
theorem open_of_not_first (h : bitmapUpdate s.regs.bitmap (rankBit r.rank) mask ≠ rankBit r.rank) :
    s.regs.bitmap ≠ 0 ∧ s.regs.bitmap ≠ mask ∧
    bitmapUpdate s.regs.bitmap (rankBit r.rank) mask = s.regs.bitmap ||| rankBit r.rank := by
  rw [bitmapUpdate] at h ⊢
  split_ifs at h ⊢ with hmask
  · exact absurd rfl h
  · refine ⟨fun h0 => h ?_, hmask, rfl⟩
    rw [h0]
    exact zero_or

variable (h : Tracks mask s seen cur prev)
include h

/-- The minimum is a PSN reported in the open round. -/
theorem nextCur_mem : nextCur mask s r cur = r.acked ∨ nextCur mask s r cur ∈ s.outstanding := by
  rw [nextCur]
  split_ifs with hfirst
  · exact .inl rfl
  · rcases open_of_not_first hfirst with ⟨h0, hm, _⟩
    rcases le_total r.acked cur with hle | hle
    · exact .inl (min_eq_left hle)
    · rw [min_eq_right hle]
      exact .inr (h.cur_mem h0 hm)

/-- The minimum register follows the integer minimum. -/
theorem psnReg_eq (hwin : ∀ p ∈ s.outstanding, -2 ^ 23 < r.acked - p ∧ r.acked - p < 2 ^ 23) :
    (s.receive mask r).regs.psn = word (nextCur mask s r cur) := by
  have hreg : (s.receive mask r).regs.psn =
      if bitmapUpdate s.regs.bitmap (rankBit r.rank) mask = rankBit r.rank then
        shiftedPsn (r.packet mask) else snUpdate s.regs.psn (shiftedPsn (r.packet mask)) := rfl
  rw [hreg, shiftedPsn_eq, nextCur]
  split_ifs with hfirst
  · rfl
  · rcases open_of_not_first hfirst with ⟨h0, hm, _⟩
    rcases hwin cur (h.cur_mem h0 hm) with ⟨lo, hi⟩
    rw [h.psn h0, snUpdate_word _ _ lo hi]

/-- Every receiver whose bit is set has acknowledged the minimum. -/
theorem nextCur_le (j : Fin 32) (hj : (s.receive mask r).regs.bitmap.getLsbD j = true) :
    nextCur mask s r cur ≤ (s.receive mask r).acked j := by
  have hbm : (s.receive mask r).regs.bitmap =
      bitmapUpdate s.regs.bitmap (rankBit r.rank) mask := rfl
  simp only [hbm] at hj
  simp only [Sys.receive, nextCur]
  by_cases hfirst : bitmapUpdate s.regs.bitmap (rankBit r.rank) mask = rankBit r.rank
  · rw [hfirst, getLsbD_rankBit] at hj
    rw [if_pos hfirst, if_pos hj]
  rw [if_neg hfirst]
  by_cases hrank : j = r.rank
  · rw [if_pos hrank]
    exact Int.min_le_left _ _
  · rcases open_of_not_first hfirst with ⟨_, _, hor⟩
    rw [hor, getLsbD_or, Bool.or_eq_true, getLsbD_rankBit] at hj
    rw [if_neg hrank]
    exact (Int.min_le_right _ _).trans (h.cur_le j (hj.resolve_right hrank))

/-- One report: the registers track the new minima, and the saved one does
    not go down. -/
theorem tracks_receive (hstep : Receive mask s r s') :
    ∃ cur' prev', Tracks mask s' (seen ++ [r.acked]) cur' prev' ∧ prev ≤ prev' := by
  rcases hstep with ⟨hrecv, hmono, hwin, rfl⟩
  have hprev : prev ≤ r.acked := (h.prev_le r.rank hrecv).trans hmono
  have hcur : prev ≤ nextCur mask s r cur := by
    rcases nextCur_mem (r := r) h with heq | hmem
    · rwa [heq]
    · exact (h.outstanding _ hmem).1
  have hseen : nextCur mask s r cur ∈ seen ++ [r.acked] := by
    rcases nextCur_mem (r := r) h with heq | hmem
    · rw [heq]
      exact mem_append_right _ (mem_singleton_self _)
    · exact mem_append_left _ (h.outstanding _ hmem).2
  have hsave : (s.receive mask r).regs.prevPsn =
      if (s.receive mask r).regs.bitmap = mask then (s.receive mask r).regs.psn
      else s.regs.prevPsn := rfl
  have hout : (s.receive mask r).outstanding =
      if (s.receive mask r).regs.bitmap = mask then [] else r.acked :: s.outstanding := rfl
  by_cases hfull : (s.receive mask r).regs.bitmap = mask
  · -- The round is complete: its minimum is saved.
    refine ⟨nextCur mask s r cur, nextCur mask s r cur, ?_, hcur⟩
    rw [if_pos hfull] at hsave hout
    constructor
    · exact fun _ => psnReg_eq h hwin
    · exact fun _ hne => absurd hfull hne
    · exact nextCur_le h
    · rw [hsave, psnReg_eq h hwin]
    · exact fun j hj => nextCur_le h j (by rw [hfull]; exact hj)
    · rw [hout]
      exact forall_mem_nil _
    · exact .inr hseen
  -- The round goes on, with this report among those that are outstanding.
  refine ⟨nextCur mask s r cur, prev, ?_, Int.le_refl _⟩
  rw [if_neg hfull] at hsave hout
  constructor
  · exact fun _ => psnReg_eq h hwin
  · intro _ _
    rw [hout, mem_cons]
    exact nextCur_mem h
  · exact nextCur_le h
  · rw [hsave, h.prevPsn]
  · intro j hj
    refine (h.prev_le j hj).trans ?_
    simp only [Sys.receive]
    split_ifs with hrank
    · rwa [hrank]
    · exact Int.le_refl _
  · rw [hout]
    refine forall_mem_cons.mpr ⟨⟨hprev, ?_⟩, fun p hp => ?_⟩
    · exact mem_append_right _ (mem_singleton_self _)
    · exact ⟨(h.outstanding p hp).1, mem_append_left _ (h.outstanding p hp).2⟩
  · exact h.prev_seen.imp_right (mem_append_left _)

end Receive

/-- In every interleaving of the receivers, what the switch answers to the
    root acknowledges a PSN that some receiver has reported, or -1, and that
    every receiver has acknowledged by then. These PSNs never decrease. -/
theorem acknowledged_by_all (mask psn msn : BitVec 32) (tr : List (Sys × Report × Sys)) (s : Sys)
    (hr : Run (Receive mask) (Sys.init psn msn) tr s) :
    ∃ ps : List Int, List.Forall₂ (fun e p => (answer mask e.1 e.2.1).Acknowledges p ∧
        ∀ j : Fin 32, mask.getLsbD j = true → p ≤ e.2.2.acked j) tr ps ∧
      ps.Pairwise (· ≤ ·) ∧ ∀ p ∈ ps, p = -1 ∨ p ∈ tr.map (fun e => e.2.1.acked) := by
  -- The induction carries the saved minimum, which bounds the answers so far.
  suffices h : ∃ ps cur prev, Tracks mask s (tr.map (fun e => e.2.1.acked)) cur prev ∧
      (∀ p ∈ ps, p ≤ prev) ∧
      List.Forall₂ (fun e p => (answer mask e.1 e.2.1).Acknowledges p ∧
        ∀ j : Fin 32, mask.getLsbD j = true → p ≤ e.2.2.acked j) tr ps ∧
      ps.Pairwise (· ≤ ·) ∧ ∀ p ∈ ps, p = -1 ∨ p ∈ tr.map (fun e => e.2.1.acked) by
    rcases h with ⟨ps, _, _, _, _, h⟩
    exact ⟨ps, h⟩
  induction hr with
  | nil =>
    exact ⟨[], 0, -1, tracks_init mask psn msn, by simp, List.Forall₂.nil, List.Pairwise.nil,
      by simp⟩
  | snoc r hr' hstep ih =>
    rename_i tr t u
    rcases ih with ⟨ps, cur, prev, ht, hbound, hall, hpw, hps⟩
    rcases tracks_receive ht hstep with ⟨cur', prev', hu, hle⟩
    have hmap : (tr ++ [(t, r, u)]).map (fun e => e.2.1.acked) =
        tr.map (fun e => e.2.1.acked) ++ [r.acked] := by
      rw [map_append]
      rfl
    rw [hmap]
    refine ⟨ps ++ [prev'], cur', prev', hu, ?_, ?_, ?_, ?_⟩
    · exact forall_mem_append.mpr ⟨fun p hp => (hbound p hp).trans hle,
        forall_mem_singleton.mpr le_rfl⟩
    · refine rel_append hall (List.Forall₂.cons ⟨?_, hu.prev_le⟩ List.Forall₂.nil)
      have hu' : u = t.receive mask r := hstep.2.2.2
      exact answer_acknowledges mask t r prev' (hu' ▸ hu.prevPsn)
    · exact pairwise_append.mpr ⟨hpw, pairwise_singleton _ _, fun p hp =>
        forall_mem_singleton.mpr ((hbound p hp).trans hle)⟩
    · exact forall_mem_append.mpr ⟨fun p hp => (hps p hp).imp_right (mem_append_left _),
        forall_mem_singleton.mpr hu.prev_seen⟩

/-- An ACK of the receiver `rank` for PSN `p`. -/
def ackReport (rank : Fin 32) (p : Int) : Report where
  rank := rank
  acked := p
  ackreqRsvSeqnum := BitVec.ofInt 32 p
  syndromeMsn := 0
  carries := Serial.setWidth_ofInt 24 8 p

/-- Two receivers: the first acknowledges PSN 5, the second PSN 3. -/
theorem acknowledged_by_all_two_receivers : ∃ tr s, Run (Receive 3#32) (Sys.init 0 0) tr s ∧
      tr.map (fun e => e.2.1.acked) = [5, 3] ∧
      ∃ ps : List Int, List.Forall₂ (fun e p => (answer 3#32 e.1 e.2.1).Acknowledges p ∧
        ∀ j : Fin 32, (3#32).getLsbD j = true → p ≤ e.2.2.acked j) tr ps := by
  have h1 : Receive 3#32 (Sys.init 0 0) (ackReport 0 5)
      ((Sys.init 0 0).receive 3#32 (ackReport 0 5)) :=
    ⟨by decide, by decide, by decide, rfl⟩
  have h2 : Receive 3#32 ((Sys.init 0 0).receive 3#32 (ackReport 0 5)) (ackReport 1 3)
      (((Sys.init 0 0).receive 3#32 (ackReport 0 5)).receive 3#32 (ackReport 1 3)) :=
    ⟨by decide, by decide, by decide, rfl⟩
  have hr := Run.snoc _ (Run.snoc _ Run.nil h1) h2
  rcases acknowledged_by_all 3#32 0 0 _ _ hr with ⟨ps, hps, _⟩
  exact ⟨_, _, hr, rfl, ps, hps⟩

end SglangInc.BroadcastAck
