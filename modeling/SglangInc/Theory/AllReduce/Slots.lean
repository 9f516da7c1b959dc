import SglangInc.Core.AllReduce
import Mathlib.Data.Nat.Bitwise
import Mathlib.Data.BitVec

/-!
# Slots of the AllReduce Window

What the first pass does to the slot of a packet, said in ranks and PSNs.

The registers know a slot by a version and a bitmap. What they stand for is
a PSN and the ranks that have contributed to it, in the order their packets
arrived: `Holds` is that reading. The order matters, because the saturating
sum depends on it. `firstPass_spec` then says everything the later proofs
need about the first pass. Given what the slot held, and that the packet's
PSN is the slot's own or has never matched its version, the slot holds the
sender too, and the packet goes on exactly when all ranks are in.

## Theorems

* `seqNum_wireWord`, `aggIndex_wireWord`: What the switch computes from the
  packet word.
-/

namespace SglangInc.AllReduce

open List

variable (flags : BitVec 8)

/-- The packet word under a mask of at most 24 low bits. -/
theorem wireWord_and_mask (psn k : Nat) (hk : k ≤ 24) :
    wireWord flags psn &&& BitVec.ofNat 32 (2 ^ k - 1) = BitVec.ofNat 32 (psn % 2 ^ k) := by
  apply BitVec.eq_of_getLsbD_eq
  intro i hi
  rw [BitVec.getLsbD_and, wireWord, BitVec.getLsbD_append, BitVec.getLsbD_ofNat,
    BitVec.getLsbD_ofNat, BitVec.getLsbD_ofNat, Nat.testBit_two_pow_sub_one,
    Nat.testBit_mod_two_pow]
  by_cases hik : i < k
  · simp [hik, hi, show i < 24 by omega]
  · simp [hik]

/-- The version of a PSN. -/
def seqWord (psn : Nat) : BitVec 32 := BitVec.ofNat 32 (psn % 2 ^ 24)

theorem seqNum_wireWord (psn : Nat) :
    seqNum (wireWord flags psn) = seqWord psn :=
  wireWord_and_mask flags psn 24 le_rfl

/-- The receiving side of a rank sees the PSN modulo 2^24. -/
theorem setWidth_wireWord (psn : Nat) :
    (wireWord flags psn).setWidth 24 = BitVec.ofNat 24 psn := by
  apply BitVec.eq_of_getLsbD_eq
  intro i hi
  rw [BitVec.getLsbD_setWidth, wireWord, BitVec.getLsbD_append]
  simp [hi]

section Group

variable {G : Group}

/-- The register index of a PSN. -/
def slot (G : Group) (psn : Nat) : BitVec 32 :=
  G.aggAddr + BitVec.ofNat 32 (psn % G.window)

theorem aggIndex_wireWord (j : Fin G.size) (flags : BitVec 8) (psn : Nat) :
    aggIndex (G.metadata j) (wireWord flags psn) = slot G psn := by
  exact congrArg (G.aggAddr + ·) (wireWord_and_mask flags psn G.order (G.order_le.trans (by omega)))

theorem window_le (G : Group) : G.window ≤ 2 ^ 14 :=
  Nat.pow_le_pow_right (by omega) G.order_le

theorem window_eq (G : Group) : G.window = G.half + G.half ∧ 0 < G.half := by
  obtain ⟨k, hk⟩ : ∃ k, G.order = k + 1 := ⟨G.order - 1, by have := G.order_pos; omega⟩
  have hpos : 0 < 2 ^ k := Nat.two_pow_pos k
  rw [Group.half, Group.window, hk, Nat.pow_succ]
  omega

theorem slot_inj (p q : Nat) : slot G p = slot G q ↔ p % G.window = q % G.window := by
  have hW := window_le G
  have hpos : 0 < G.window := Nat.two_pow_pos _
  have hp := Nat.mod_lt p hpos
  have hq := Nat.mod_lt q hpos
  constructor
  · intro h
    have := congrArg BitVec.toNat (add_left_cancel h)
    simp only [BitVec.toNat_ofNat] at this
    omega
  · intro h
    rw [slot, slot, h]

theorem getLsbD_bitmap (j : Fin G.size) (i : Nat) (hi : i < 32) :
    (G.metadata j).bitmap.getLsbD i = true ↔ i = j.val := by
  simp only [Group.metadata, BitVec.getLsbD_ofNat, Nat.one_shiftLeft, Nat.testBit_two_pow, hi,
    decide_true, Bool.true_and, decide_eq_true_eq]
  omega

theorem getLsbD_mask (j : Fin G.size) (i : Nat) (hi : i < 32) :
    (G.metadata j).bitmapMask.getLsbD i = true ↔ i < G.size := by
  simp only [Group.metadata, BitVec.getLsbD_ofNat, Nat.one_shiftLeft,
    Nat.testBit_two_pow_sub_one, hi, decide_true, Bool.true_and, decide_eq_true_eq]

/-- The bitmap has exactly the bits of the ranks in the list. -/
def Bits (bitmap : BitVec 32) (l : List (Fin G.size)) : Prop :=
  ∀ i < 32, bitmap.getLsbD i = true ↔ ∃ j ∈ l, j.val = i

/-- A bitmap is the word that has the bits of its contributors. -/
theorem Bits.eq_iff {bitmap word : BitVec 32} {l : List (Fin G.size)} {P : Fin G.size → Prop}
    (h : Bits bitmap l) (hword : ∀ i < 32, word.getLsbD i = true ↔ ∃ k, P k ∧ k.val = i) :
    bitmap = word ↔ ∀ i, i ∈ l ↔ P i := by
  constructor
  · rintro rfl i
    have hi := i.isLt.trans_le G.size_le
    simpa [Fin.val_inj] using (h i hi).symm.trans (hword i hi)
  · intro hall
    refine BitVec.eq_of_getLsbD_eq fun i hi => ?_
    rw [Bool.eq_iff_iff, h i hi, hword i hi]
    simp only [hall]

theorem bits_zero {bitmap : BitVec 32} {l : List (Fin G.size)} (h : Bits bitmap l) :
    bitmap = 0 ↔ l = [] := by
  rw [h.eq_iff (P := fun _ => False) (by simp), eq_nil_iff_forall_not_mem]
  simp only [iff_false]

/-- The increase table tests for a sender that is not in the bitmap. -/
theorem increaseBit_iff (bitmap : BitVec 32) (l : List (Fin G.size)) (j : Fin G.size)
    (h : Bits bitmap l) : increaseBit bitmap (G.metadata j).bitmap = true ↔ j ∉ l := by
  have hj : j.val < 32 := j.isLt.trans_le G.size_le
  have hpow : ∀ k < 32, BitVec.twoPow 32 k ≠ 0 := by decide
  simp only [increaseBit, any_eq_true, mem_reverse, mem_range, Bool.and_eq_true,
    beq_iff_eq, BitVec.and_twoPow]
  constructor
  · rintro ⟨k, hk, hold, hnew⟩ hmem
    split_ifs at hnew with hbit
    · have hkj := (getLsbD_bitmap j k hk).mp hbit
      rw [if_pos ((h k hk).mpr ⟨j, hmem, hkj.symm⟩)] at hold
      exact hpow k hk hold
    · exact hpow k hk hnew.symm
  · intro hmem
    refine ⟨j.val, hj, ?_, ?_⟩
    · rw [if_neg]
      · rfl
      · intro hbit
        rcases (h j.val hj).mp hbit with ⟨i, hi, hij⟩
        exact hmem (Fin.ext hij ▸ hi)
    · rw [if_pos ((getLsbD_bitmap j j.val hj).mpr rfl)]

/-- The contributors once `j` is in. -/
def joined (l : List (Fin G.size)) (j : Fin G.size) : List (Fin G.size) :=
  if j ∈ l then l else l ++ [j]

theorem mem_joined (l : List (Fin G.size)) (i j : Fin G.size) : i ∈ joined l j ↔ i ∈ l ∨ i = j := by
  rw [joined]
  split_ifs with hj
  · exact ⟨.inl, fun h => h.elim id fun he => he ▸ hj⟩
  · rw [mem_append, mem_singleton]

/-- One more rank in the list. -/
theorem bits_joined {bitmap : BitVec 32} {l : List (Fin G.size)} (h : Bits bitmap l)
    (j : Fin G.size) : Bits (bitmap ||| (G.metadata j).bitmap) (joined l j) := by
  intro i hi
  rw [BitVec.getLsbD_or, Bool.or_eq_true, h i hi, getLsbD_bitmap j i hi]
  simp only [mem_joined, or_and_right, exists_or, exists_eq_left, @eq_comm _ i]

theorem nodup_joined (l : List (Fin G.size)) (j : Fin G.size) (h : l.Nodup) :
    (joined l j).Nodup := by
  rw [joined]
  split_ifs with hj
  · exact h
  · exact nodup_append.mpr ⟨h, nodup_singleton j, fun a ha b hb hab =>
      hj (mem_singleton.mp hb ▸ hab ▸ ha)⟩

/-- Every rank of the group is in the list. -/
def All (l : List (Fin G.size)) : Prop := ∀ i, i ∈ l

/-- The full test asks whether every rank is in, the sender included. -/
theorem full_iff (bitmap : BitVec 32) (l : List (Fin G.size)) (j : Fin G.size)
    (h : Bits bitmap l) : full (G.metadata j) bitmap = true ↔ All (joined l j) := by
  have hmask : bitmap = (G.metadata j).bitmapMask ↔ ∀ i, i ∈ l ↔ True := h.eq_iff fun i hi => by
    rw [getLsbD_mask j i hi]
    exact ⟨fun hsize => ⟨⟨i, hsize⟩, trivial, rfl⟩, fun ⟨k, _, hk⟩ => hk ▸ k.isLt⟩
  have hothers : bitmap = (G.metadata j).bitmap ^^^ (G.metadata j).bitmapMask ↔
      ∀ i, i ∈ l ↔ i ≠ j := h.eq_iff fun i hi => by
    rw [BitVec.getLsbD_xor, bne_iff_ne, ne_eq, Bool.eq_iff_iff, getLsbD_bitmap j i hi,
      getLsbD_mask j i hi]
    constructor
    · exact fun hne => ⟨⟨i, by omega⟩, fun he => hne (he ▸ iff_of_true rfl (by omega)), rfl⟩
    · rintro ⟨k, hk, rfl⟩
      omega
  simp only [full, All, mem_joined]
  constructor
  · intro hfull i
    split_ifs at hfull with h1 h2
    · exact or_iff_not_imp_right.mpr (hothers.mp h1 i).mpr
    · exact .inl ((hmask.mp h2 i).mpr trivial)
  · intro hall
    by_cases hj : j ∈ l
    · -- The sender was in already: the old bitmap is the whole mask.
      rw [if_pos (hmask.mpr fun i => iff_true_intro ((hall i).elim id fun he => he ▸ hj)), ite_self]
    · rw [if_pos (hothers.mpr fun i => ⟨fun hi he => hj (he ▸ hi), (hall i).resolve_right⟩)]

/-- The saturating sum of the ranks' payloads for a PSN, in the order of the
    list. -/
def total (G : Group) (psn : Nat) : List (Fin G.size) → Payload
  | [], _ => ⟨0, 0⟩
  | j :: rest, k => rest.foldl (fun acc i => acc.add (G.data i psn k)) (G.data j psn k)

theorem total_append (psn : Nat) (l : List (Fin G.size)) (j : Fin G.size) (hl : l ≠ [])
    (k : Fin 32) : total G psn (l ++ [j]) k = (total G psn l k).add (G.data j psn k) := by
  cases l with
  | nil => exact absurd rfl hl
  | cons i rest => simp [total]

/-- What a slot stands for: nothing yet, or a PSN and its contributors in the
    order they arrived, with their sum in the aggregators. -/
def Holds (G : Group) (regs : Regs) (i : BitVec 32) : Option (Nat × List (Fin G.size)) → Prop
  | none => regs.regBitmap i = ⟨0, 0⟩
  | some (psn, l) => (regs.regBitmap i).version = seqWord psn ∧ Bits (regs.regBitmap i).bitmap l ∧
      l ≠ [] ∧ l.Nodup ∧ ∀ k, regs.aggregator k i = total G psn l k

/-- The contributors of a PSN, as far as a slot knows them. -/
def contributors (o : Option (Nat × List (Fin G.size))) (psn : Nat) : List (Fin G.size) :=
  match o with
  | none => []
  | some (c, l) => if c = psn then l else []

theorem contributors_eq (o : Option (Nat × List (Fin G.size))) (psn : Nat) :
    contributors o psn = [] ∨ o = some (psn, contributors o psn) := by
  cases o with
  | none => exact .inl rfl
  | some cl =>
    rw [contributors]
    split_ifs with hc
    · exact .inr (hc ▸ rfl)
    · exact .inl rfl

section Pass

variable {regs : Regs} {j : Fin G.size} {psn : Nat} {o : Option (Nat × List (Fin G.size))}

/-- The bitmap the first pass gets back has the contributors of the packet's
    PSN, and the bitmap it leaves has the sender too. -/
theorem regBitmapUpdate_holds (ho : Holds G regs (slot G psn) o)
    (hver : ∀ c l, o = some (c, l) → c ≠ psn → seqWord c ≠ seqWord psn) :
    let u := regBitmapUpdate (regs.regBitmap (slot G psn)) (seqWord psn) (G.metadata j).bitmap
    Bits u.2 (contributors o psn) ∧ u.1.version = seqWord psn ∧
    Bits u.1.bitmap (joined (contributors o psn) j) := by
  have hempty : Bits (0 : BitVec 32) ([] : List (Fin G.size)) := by
    intro i hi
    simp
  have hone : Bits (G.metadata j).bitmap (joined [] j) := by
    have := bits_joined hempty j
    rwa [show (0 : BitVec 32) ||| (G.metadata j).bitmap = (G.metadata j).bitmap from
      BitVec.zero_or] at this
  intro u
  cases o with
  | none =>
    -- An untouched register has version 0, which may be the packet's.
    have hreg : regs.regBitmap (slot G psn) = ⟨0, 0⟩ := ho
    simp only [u, regBitmapUpdate, hreg, contributors]
    split_ifs with hv
    · exact ⟨hempty, hv, bits_joined hempty j⟩
    · exact ⟨hempty, rfl, hone⟩
  | some cl =>
    obtain ⟨c, l⟩ := cl
    rcases ho with ⟨hversion, hbits, _⟩
    by_cases hc : c = psn
    · subst hc
      simp only [u, regBitmapUpdate, contributors, if_pos hversion, if_true]
      exact ⟨hbits, hversion, bits_joined hbits j⟩
    · have hne := hver c l rfl hc
      rw [← hversion] at hne
      simp only [u, regBitmapUpdate, contributors, if_neg hne, if_neg hc]
      exact ⟨hempty, trivial, hone⟩

/-- The aggregators after the first pass, and the even words of the packet,
    when the packet is its sender's own contribution or the sender is in. -/
theorem aggregatorAccess_holds (ho : Holds G regs (slot G psn) o) (payload : Payload)
    (hpay : j ∈ contributors o psn ∨ payload = G.data j psn) (bitmapOld : BitVec 32)
    (hold : Bits bitmapOld (contributors o psn)) (k : Fin 32) :
    let u := aggregatorAccess
      (aggAction .firstPass bitmapOld (increaseBit bitmapOld (G.metadata j).bitmap))
      (regs.aggregator k (slot G psn)) (payload k)
    u.1 = total G psn (joined (contributors o psn) j) k ∧
    u.2.agg0 = (total G psn (joined (contributors o psn) j) k).agg0 := by
  have hzero := bits_zero hold
  have hinc := increaseBit_iff bitmapOld _ j hold
  intro u
  by_cases hnil : contributors o psn = []
  · -- The first contribution overwrites the slot.
    have hdata : payload = G.data j psn := hpay.resolve_left fun hj => by
      rw [hnil] at hj
      cases hj
    simp only [u, aggAction, reduceCtorEq, if_false, if_pos (hzero.mpr hnil), aggregatorAccess,
      hnil, joined, not_mem_nil, nil_append, total, foldl_nil, hdata, and_self]
  have hagg : regs.aggregator k (slot G psn) = total G psn (contributors o psn) k := by
    rw [(contributors_eq o psn).resolve_left hnil] at ho
    exact ho.2.2.2.2 k
  have hne : ¬ bitmapOld = 0 := fun h => hnil (hzero.mp h)
  by_cases hj : j ∈ contributors o psn
  · have hno : ¬ increaseBit bitmapOld (G.metadata j).bitmap = true := fun h => hinc.mp h hj
    simp only [u, aggAction, reduceCtorEq, if_false, if_neg hne, if_neg hno, aggregatorAccess,
      joined, if_pos hj, hagg, and_self]
  · have hdata : payload = G.data j psn := hpay.resolve_left hj
    simp only [u, aggAction, reduceCtorEq, if_false, if_neg hne, if_pos (hinc.mpr hj),
      aggregatorAccess, joined, if_neg hj, hagg, hdata, total_append _ _ _ hnil, and_self]

theorem nodup_contributors {i : BitVec 32} (ho : Holds G regs i o) :
    (contributors o psn).Nodup := by
  rcases contributors_eq o psn with hnil | hsome
  · rw [hnil]
    exact nodup_nil
  · rw [hsome] at ho
    exact ho.2.2.2.1

/-- The first pass of a packet whose PSN is the slot's own, or one its
    version does not match: the sender is in, other slots are as before, and
    a packet that goes on has every rank and the even words of their sum. -/
theorem firstPass_spec (flags : BitVec 8) (payload : Payload) (ho : Holds G regs (slot G psn) o)
    (hver : ∀ c l, o = some (c, l) → c ≠ psn → seqWord c ≠ seqWord psn)
    (hpay : j ∈ contributors o psn ∨ payload = G.data j psn) :
    let out := firstPass (G.metadata j) regs (wireWord flags psn) payload
    Holds G out.1 (slot G psn) (some (psn, joined (contributors o psn) j)) ∧
    (∀ i ≠ slot G psn, out.1.regBitmap i = regs.regBitmap i ∧
      ∀ k, out.1.aggregator k i = regs.aggregator k i) ∧
    ∀ enableMulticast payload', out.2 = some (enableMulticast, payload') →
      All (joined (contributors o psn) j) ∧
      ∀ k, (payload' k).agg0 = (total G psn (joined (contributors o psn) j) k).agg0 := by
  rcases regBitmapUpdate_holds (j := j) ho hver with ⟨hold, hversion, hbits⟩
  have hnd : (contributors o psn).Nodup := nodup_contributors ho
  have hagg := aggregatorAccess_holds ho payload hpay _ hold
  intro out
  simp only [out, firstPass, aggIndex_wireWord, seqNum_wireWord, allAggregatorAccess]
  refine ⟨⟨?_, ?_, ne_nil_of_mem ((mem_joined _ j j).mpr (.inr rfl)),
    nodup_joined _ j hnd, fun k => ?_⟩, fun i hi => ?_, ?_⟩
  · simp only [if_true]
    exact hversion
  · simp only [if_true]
    exact hbits
  · simp only [if_true]
    exact (hagg k).1
  · exact ⟨if_neg hi, fun k => if_neg hi⟩
  · intro enableMulticast payload' hsome
    split_ifs at hsome with hfull
    cases hsome
    exact ⟨(full_iff _ _ j hold).mp hfull, fun k => (hagg k).2⟩

/-- The second pass puts the odd words of the slot into the packet. -/
theorem secondPass_holds (flags : BitVec 8) (payload : Payload) (l : List (Fin G.size))
    (ho : Holds G regs (slot G psn) (some (psn, l)))
    (heven : ∀ k, (payload k).agg0 = (total G psn l k).agg0) :
    secondPass (G.metadata j) regs (wireWord flags psn) payload = total G psn l := by
  funext k
  simp [secondPass, allAggregatorAccess, aggAction, aggregatorAccess, aggIndex_wireWord, ho.2.2.2.2
    k, heven k]

end Pass

end Group

end SglangInc.AllReduce
