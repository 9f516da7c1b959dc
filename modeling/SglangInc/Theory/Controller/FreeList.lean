import SglangInc.Lib.Segments
import SglangInc.Core.Controller

/-!
# The Free List of the Controller

What `fit_seg`, `alloc_seg` and `free_seg` do to a sorted free list.

The source moves through the list by index and edits it in place. Each lemma
here trades the index for a split of the list: the segment at `index` is the
one after a prefix of that length, and the edit is then an equation between
two lists. Everything the controller's invariants need follows from the two
equations, `allocSeg_append` and `freeSeg_cases`, and no later proof unfolds
the functions again.

`freeSeg_cases` has three outcomes and not four. The left merge deletes an
element before `r_index`, which is not adjusted, so the right merge then
tests the segment one past the right neighbour. In an ordered list that test
always fails: a block with free space on both sides is joined to the left
only.
-/

namespace SglangInc.Controller

open List Segments

/-- The bit trick tests for a power of two. -/
theorem isPower2_iff (x : Nat) : isPower2 x = true ↔ ∃ k, x = 2 ^ k := by
  rw [isPower2, Bool.and_eq_true, decide_eq_true_eq, beq_iff_eq]
  exact (and_congr_left' Nat.pos_iff_ne_zero).trans Nat.ne_zero_and_sub_one_eq_zero_iff_isPowerOfTwo

theorem le_upperAlign (x y : Nat) (hy : 0 < y) : x ≤ upperAlign x y := by
  have hdiv := Nat.div_add_mod (x + y - 1) y
  have hmod := Nat.mod_lt (x + y - 1) hy
  rw [upperAlign, Nat.mul_comm]
  omega

/-- A segment that fits is in the list. -/
theorem fitSegFrom_spec (size : Nat) : ∀ (segs : List Seg) (start index addr : Nat),
    fitSegFrom size start segs = some (index, addr) →
    ∃ l seg r, segs = l ++ seg :: r ∧ index = start + l.length ∧
      addrInSeg seg size = some addr := by
  intro segs
  induction segs with
  | nil => intro start index addr h; exact absurd h (by simp [fitSegFrom])
  | cons seg rest ih =>
    intro start index addr h
    rw [fitSegFrom] at h
    cases hfit : addrInSeg seg size with
    | some a =>
      rw [hfit] at h
      cases h
      exact ⟨[], seg, rest, rfl, rfl, hfit⟩
    | none =>
      rw [hfit] at h
      rcases ih (start + 1) index addr h with ⟨l, seg', r, hsegs, hindex, haddr⟩
      refine ⟨seg :: l, seg', r, by rw [hsegs, cons_append], ?_, haddr⟩
      rw [hindex, length_cons]
      omega

/-- A successful search: the size is a power of two times the MTU, and the
    block lies aligned inside the free segment at the index returned. -/
theorem fitSeg_spec (memseg : List Seg) (size index addr : Nat)
    (h : fitSeg memseg size = some (some (index, addr))) :
    (∃ k, size = 2 ^ k * mtuSize) ∧ ∃ l seg r, memseg = l ++ seg :: r ∧ index = l.length ∧
      seg.1 ≤ addr ∧ addr + size ≤ seg.2 ∧ size ∣ addr := by
  rw [fitSeg] at h
  split_ifs at h with hbad
  push Not at hbad
  rcases (isPower2_iff _).mp hbad.2 with ⟨k, hk⟩
  have hsize : size = 2 ^ k * mtuSize := by
    rw [← hk]
    exact (Nat.div_mul_cancel (Nat.dvd_of_mod_eq_zero hbad.1)).symm
  have hpos : 0 < size := by
    rw [hsize]
    exact Nat.mul_pos (Nat.two_pow_pos k) (Nat.two_pow_pos mtuBw)
  rcases fitSegFrom_spec size memseg 0 index addr (Option.some.inj h) with
    ⟨l, seg, r, hsegs, hindex, haddr⟩
  simp only [addrInSeg] at haddr
  split_ifs at haddr with hfit
  cases haddr
  exact ⟨⟨k, hsize⟩, l, seg, r, hsegs, by omega, le_upperAlign seg.1 size hpos, hfit,
    Nat.dvd_mul_left _ _⟩

/-- A range as a list, empty when the range is. -/
def gap (a b : Nat) : List Seg :=
  if a ≠ b then [(a, b)] else []

theorem cover_gap (a b x : Nat) : cover (gap a b) x = cover [(a, b)] x := by
  rw [gap]
  split_ifs with h
  · rfl
  · rw [not_not] at h
    rw [h, cover_empty, cover_nil]

theorem mem_gap (a b : Nat) (seg : Seg) : seg ∈ gap a b ↔ a ≠ b ∧ seg = (a, b) := by
  rw [gap]
  split_ifs with h
  · exact ⟨fun hm => ⟨h, mem_singleton.mp hm⟩, fun hm => mem_singleton.mpr hm.2⟩
  · exact ⟨fun hm => absurd hm not_mem_nil, fun hm => absurd hm.1 h⟩

theorem pairwise_gap (R : Seg → Seg → Prop) (a b : Nat) : (gap a b).Pairwise R := by
  rw [gap]
  split_ifs
  · exact pairwise_singleton _ _
  · exact List.Pairwise.nil

variable (l r : List Seg)

/-- Cutting `[addrL, addrR)` out of a segment leaves what is on either side
    of it in the segment's place. -/
theorem allocSeg_append (seg : Seg) (addrL addrR : Nat) :
    allocSeg (l ++ seg :: r) l.length addrL addrR
      = some (l ++ (gap seg.1 addrL ++ (gap addrR seg.2 ++ r))) := by
  have hget : (l ++ seg :: r)[l.length]? = some seg := by
    rw [getElem?_append_right le_rfl, Nat.sub_self, getElem?_cons_zero]
  simp only [allocSeg, hget, eraseIdx_length_append, gap]
  by_cases hr : seg.2 = addrR
  · by_cases hl : seg.1 = addrL
    · simp [hr, hl]
    · simp [hr, hl, insertIdx_length_append]
  have hr' : ¬ addrR = seg.2 := fun h => hr h.symm
  by_cases hl : seg.1 = addrL
  · simp [hr, hr', hl, insertIdx_length_append]
  · simp [hr, hr', hl, insertIdx_length_append]

/-- The distance of the segments stays, if as much is cut out. -/
theorem pairwise_allocSeg (d : Nat) {l r : List Seg} {seg : Seg} {addrL addrR : Nat}
    (h : (l ++ seg :: r).Pairwise fun a b => a.2 + d ≤ b.1) (hl : seg.1 ≤ addrL)
    (hlr : addrL + d ≤ addrR) (hr : addrR ≤ seg.2) :
    (l ++ (gap seg.1 addrL ++ (gap addrR seg.2 ++ r))).Pairwise fun a b => a.2 + d ≤ b.1 := by
  rw [pairwise_append, pairwise_cons] at h
  rcases h with ⟨hpl, ⟨hseg, hpr⟩, hlsr⟩
  rw [pairwise_append, pairwise_append, pairwise_append]
  refine ⟨hpl, ⟨pairwise_gap _ _ _, ⟨pairwise_gap _ _ _, hpr, ?_⟩, ?_⟩, ?_⟩
  · intro a ha b hb
    rw [((mem_gap _ _ _).mp ha).2]
    exact hseg b hb
  · intro a ha b hb
    rw [((mem_gap _ _ _).mp ha).2]
    rcases mem_append.mp hb with hb | hb
    · rwa [((mem_gap _ _ _).mp hb).2]
    · have := hseg b hb
      omega
  · intro a ha b hb
    have has : a.2 + d ≤ seg.1 := hlsr a ha seg mem_cons_self
    rcases mem_append.mp hb with hb | hb
    · rwa [((mem_gap _ _ _).mp hb).2]
    rcases mem_append.mp hb with hb | hb
    · rw [((mem_gap _ _ _).mp hb).2]
      simp only
      omega
    · exact hlsr a ha b (mem_cons_of_mem _ hb)

/-- Cutting a block out keeps the free list ordered. -/
theorem ordered_allocSeg (seg : Seg) (addrL addrR : Nat)
    (h : Ordered (l ++ seg :: r)) (hl : seg.1 ≤ addrL) (hlr : addrL ≤ addrR) (hr : addrR ≤ seg.2) :
    Ordered (l ++ (gap seg.1 addrL ++ (gap addrR seg.2 ++ r))) := by
  refine ⟨fun s hs => ?_, pairwise_allocSeg 0 h.2 hl hlr hr⟩
  simp only [mem_append, mem_gap] at hs
  rcases hs with hs | ⟨hne, rfl⟩ | ⟨hne, rfl⟩ | hs
  · exact h.1 s (mem_append_left _ hs)
  · exact Nat.lt_of_le_of_ne hl hne
  · exact Nat.lt_of_le_of_ne hr hne
  · exact h.1 s (mem_append_right _ (mem_cons_of_mem _ hs))

/-- No segment of the list overlaps `[addrL, addrR)`. -/
def Clear (memseg : List Seg) (addrL addrR : Nat) : Prop :=
  ∀ seg ∈ memseg, seg.2 ≤ addrL ∨ addrR ≤ seg.1

/-- The scan stops between the segments that end before the block and those
    that start after it, counting from `start`. -/
theorem freeSegScan_append (addrL addrR : Nat) :
    ∀ (memseg : List Seg) (start : Nat), Ordered memseg → Clear memseg addrL addrR →
    ∃ l r, memseg = l ++ r ∧ freeSegScan addrL addrR start memseg = some (start + l.length) ∧
      (∀ a ∈ l, a.2 ≤ addrL) ∧ ∀ b ∈ r, addrR ≤ b.1 := by
  intro memseg
  induction memseg with
  | nil => intro start _ _; exact ⟨[], [], rfl, rfl, by simp, by simp⟩
  | cons seg rest ih =>
    intro start ho hcl
    rcases (ordered_cons _ _).mp ho with ⟨hseg, hafter, horest⟩
    by_cases hleft : seg.2 ≤ addrL
    · rcases ih (start + 1) horest (forall_mem_cons.mp hcl).2 with
        ⟨l, r, hsplit, hscan, hl, hr⟩
      refine ⟨seg :: l, r, by rw [hsplit, cons_append], ?_, ?_, hr⟩
      · rw [freeSegScan, if_pos hleft, hscan, length_cons]
        congr 1
        omega
      · exact forall_mem_cons.mpr ⟨hleft, hl⟩
    -- The first segment not on the left is on the right, and so is the rest.
    have hright : addrR ≤ seg.1 := (hcl seg mem_cons_self).resolve_left hleft
    refine ⟨[], seg :: rest, rfl, ?_, by simp, ?_⟩
    · rw [freeSegScan, if_neg hleft, if_neg (by omega)]
      rfl
    · refine forall_mem_cons.mpr ⟨hright, fun b hb => ?_⟩
      have := hafter b hb
      omega

/-- What `free_seg` returns, given the two sides `l` and `r` of the block. -/
def Freed (l r : List Seg) (addrL addrR : Nat) (out : List Seg) : Prop :=
  (∃ l' a, l = l' ++ [(a, addrL)] ∧ out = l' ++ (a, addrR) :: r) ∨
  ((∀ a ∈ l, a.2 ≠ addrL) ∧ ∃ b r', r = (addrR, b) :: r' ∧ out = l ++ (addrL, b) :: r') ∨
  ((∀ a ∈ l, a.2 ≠ addrL) ∧ (∀ b ∈ r, b.1 ≠ addrR) ∧ out = l ++ (addrL, addrR) :: r)

/-- After a left merge the index still points where the right neighbour used
    to be, one past where it now is, and nothing there starts at the block's
    end. -/
theorem mergeRight_past (addrR : Nat) (ho : Ordered r)
    (hr : ∀ b ∈ r, addrR ≤ b.1) : mergeRight (l ++ r) (l.length + 1) addrR = (addrR, l ++ r) := by
  have hget : (l ++ r)[l.length + 1]? = r[1]? := by
    rw [getElem?_append_right (by omega)]
    congr 1
    omega
  rw [mergeRight, hget]
  cases r with
  | nil => rfl
  | cons b r' =>
    cases r' with
    | nil => rfl
    | cons c r'' =>
      simp only [getElem?_cons_succ, getElem?_cons_zero]
      rcases (ordered_cons _ _).mp ho with ⟨hb, hbc, _⟩
      have h1 := hr b mem_cons_self
      have h2 := hbc c mem_cons_self
      rw [if_neg (by omega)]

/-- The right neighbour is merged if it begins where the block ends. -/
theorem mergeRight_at (addrR : Nat) (ho : Ordered r) (hr : ∀ b ∈ r, addrR ≤ b.1) :
    (∃ b r', r = (addrR, b) :: r' ∧ mergeRight (l ++ r) l.length addrR = (b, l ++ r')) ∨
    ((∀ b ∈ r, b.1 ≠ addrR) ∧ mergeRight (l ++ r) l.length addrR = (addrR, l ++ r)) := by
  have hget : (l ++ r)[l.length]? = r[0]? := by
    rw [getElem?_append_right le_rfl, Nat.sub_self]
  rw [mergeRight, hget]
  cases r with
  | nil => exact .inr ⟨by simp, rfl⟩
  | cons b r' =>
    simp only [getElem?_cons_zero]
    split_ifs with hb
    · exact .inl ⟨b.2, r', by rw [← hb], by rw [eraseIdx_length_append]⟩
    · refine .inr ⟨forall_mem_cons.mpr ⟨hb, fun c hc => ?_⟩, rfl⟩
      rcases (ordered_cons _ _).mp ho with ⟨hbne, hafter, _⟩
      have h1 := hafter c hc
      have h2 := hr b mem_cons_self
      omega

/-- The left neighbour is merged if it ends where the block begins. -/
theorem mergeLeft_at (addrL : Nat) (ho : Ordered l) (hl : ∀ a ∈ l, a.2 ≤ addrL) :
    (∃ l' a, l = l' ++ [(a, addrL)] ∧
      mergeLeft (l ++ r) l.length addrL = (a, l'.length, l' ++ r)) ∨
    ((∀ a ∈ l, a.2 ≠ addrL) ∧ mergeLeft (l ++ r) l.length addrL = (addrL, l.length, l ++ r)) := by
  rcases eq_nil_or_concat' l with rfl | ⟨l', last, rfl⟩
  · exact .inr ⟨by simp, rfl⟩
  have hget : (l' ++ [last] ++ r)[l'.length]? = some last := by simp
  rw [length_append, length_singleton, mergeLeft]
  simp only [hget]
  split_ifs with htouch
  · refine .inl ⟨l', last.1, by rw [← htouch], ?_⟩
    rw [append_assoc, singleton_append, eraseIdx_length_append]
  · refine .inr ⟨fun a ha => ?_, rfl⟩
    rcases mem_append.mp ha with ha | ha
    · have h1 : a.2 ≤ last.1 := ((ordered_append _ _).mp ho).2.2 a ha last (mem_singleton_self _)
      have h2 := ho.1 last (by simp)
      have h3 := hl last (by simp)
      omega
    · rwa [mem_singleton.mp ha]

/-- The three ways a block is returned. -/
theorem freeSeg_cases (memseg : List Seg) (addrL addrR : Nat)
    (ho : Ordered memseg) (hcl : Clear memseg addrL addrR) :
    ∃ l r out, memseg = l ++ r ∧ (∀ a ∈ l, a.2 ≤ addrL) ∧ (∀ b ∈ r, addrR ≤ b.1) ∧
      freeSeg memseg addrL addrR = some out ∧ Freed l r addrL addrR out := by
  rcases freeSegScan_append addrL addrR memseg 0 ho hcl with ⟨l, r, rfl, hscan, hl, hr⟩
  rcases (ordered_append _ _).mp ho with ⟨hol, hor, _⟩
  rw [Nat.zero_add] at hscan
  rcases mergeLeft_at l r addrL hol hl with ⟨l', a, hll, hleft⟩ | ⟨hne, hleft⟩
  · -- The left neighbour touches: it is deleted and the block takes its start.
    have hright : mergeRight (l' ++ r) l.length addrR = (addrR, l' ++ r) := by
      rw [hll, length_append]
      exact mergeRight_past l' r addrR hor hr
    refine ⟨l, r, l' ++ (a, addrR) :: r, rfl, hl, hr, ?_, .inl ⟨l', a, hll, rfl⟩⟩
    simp [freeSeg, hscan, hleft, hright, insertIdx_length_append]
  rcases mergeRight_at l r addrR hor hr with ⟨b, r', hrr, hright⟩ | ⟨hner, hright⟩
  · refine ⟨l, r, l ++ (addrL, b) :: r', rfl, hl, hr, ?_, .inr (.inl ⟨hne, b, r', hrr, rfl⟩)⟩
    simp [freeSeg, hscan, hleft, hright, insertIdx_length_append]
  · refine ⟨l, r, l ++ (addrL, addrR) :: r, rfl, hl, hr, ?_, .inr (.inr ⟨hne, hner, rfl⟩)⟩
    simp [freeSeg, hscan, hleft, hright, insertIdx_length_append]

/-- A range between two ordered lists. -/
theorem ordered_insert {l r : List Seg} {seg : Seg} (hl : Ordered l) (hseg : seg.1 < seg.2)
    (hr : Ordered r) (hlseg : ∀ a ∈ l, a.2 ≤ seg.1) (hsegr : ∀ b ∈ r, seg.2 ≤ b.1) :
    Ordered (l ++ seg :: r) := by
  refine (ordered_append _ _).mpr ⟨hl, (ordered_cons _ _).mpr ⟨hseg, hsegr, hr⟩, fun a ha =>
    forall_mem_cons.mpr ⟨hlseg a ha, fun b hb => ?_⟩⟩
  have := hlseg a ha
  have := hsegr b hb
  omega

/-- Returning a block keeps the free list ordered. -/
theorem ordered_freed (l r out : List Seg) (addrL addrR : Nat) (hlt : addrL < addrR)
    (ho : Ordered (l ++ r)) (hl : ∀ a ∈ l, a.2 ≤ addrL) (hr : ∀ b ∈ r, addrR ≤ b.1)
    (hf : Freed l r addrL addrR out) : Ordered out := by
  rcases (ordered_append _ _).mp ho with ⟨hol, hor, -⟩
  rcases hf with ⟨l', a, rfl, rfl⟩ | ⟨_, b, r', rfl, rfl⟩ | ⟨_, _, rfl⟩
  · rcases (ordered_append _ _).mp hol with ⟨hol', hoa, hla⟩
    have ha : a < addrL := hoa.1 (a, addrL) (mem_singleton_self _)
    exact ordered_insert hol' (ha.trans hlt) hor
      (fun c hc => hla c hc (a, addrL) (mem_singleton_self _)) hr
  · rcases (ordered_cons _ _).mp hor with ⟨hb, hafter, hor'⟩
    exact ordered_insert hol (hlt.trans hb) hor' hl hafter
  · exact ordered_insert hol hlt hor hl hr

/-- A returned block is free exactly once. -/
theorem cover_freed (l r out : List Seg) (addrL addrR x : Nat) (hlt : addrL < addrR)
    (ho : Ordered (l ++ r)) (hf : Freed l r addrL addrR out) :
    cover out x = cover (l ++ r) x + cover [(addrL, addrR)] x := by
  rcases hf with ⟨l', a, rfl, rfl⟩ | ⟨_, b, r', rfl, rfl⟩ | ⟨_, _, rfl⟩
  · have ha : a < addrL := ho.1 (a, addrL) (by simp)
    have hcut := cover_cut a addrL addrR x (by omega) (by omega)
    rw [← singleton_append, cover_append, cover_append, hcut]
    simp only [cover_append]
    omega
  · have hb : addrR < b := ho.1 (addrR, b) (by simp)
    have hcut := cover_cut addrL addrR b x (by omega) (by omega)
    rw [← singleton_append, cover_append, cover_append, hcut, ← singleton_append (l := r')]
    simp only [cover_append]
    omega
  · rw [← singleton_append]
    simp only [cover_append]
    omega

end SglangInc.Controller
