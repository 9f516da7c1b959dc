import SglangInc.Lib.Lanes
import SglangInc.Theory.Eagle.DraftTree
import Mathlib.Data.List.Nodup

/-!
# What the Tree Kernel Writes

`build_tree_efficient` marks the ancestors of every node, writes its position and
links the children of each node.

Thread 0 of a block links the nodes from the last one down, each in front of what its
parent has so far, and the other threads climb from their node to the root. A thread
writes to a row of the mask that no other thread writes to, to its own position, and
thread 0 to the rows of the tables; so every order of the threads has one result
(`Grid.foldlM_spec`).
-/

namespace SglangInc.Eagle

namespace TreeInput

open List Function

variable {t : TreeInput} {bs numSpec b : Nat}

section Places

variable (t) (mode : TreeMaskMode)

/-- The columns of a row in front of its draft part. -/
def cached (b : Nat) : Nat :=
  match mode with
  | .fullMask => t.verifiedSeqLen b
  | .qlenOnly => 0

/-- Where the rows of a request start, and those of the one before it end. -/
def maskStart (b : Nat) : Nat :=
  ((List.range b).map fun i => (t.cached mode i + t.draftTokenNum) * t.draftTokenNum).sum

/-- Where the draft part of a row starts. -/
def rowIdx (b i : Nat) : Nat :=
  t.maskStart mode b + (t.cached mode b + t.draftTokenNum) * i + t.cached mode b

/-- The mask of a batch has no more entries than an `int` can count, and the positions
    fit as well. -/
structure Fits (bs numSpec : Nat) : Prop where
  mask : t.maskStart mode bs < 2 ^ 31
  positions : ∀ b < bs, t.verifiedSeqLen b + numSpec ≤ 2 ^ 31

variable {t mode}

theorem int32_natCast {k : Nat} (h : k < 2 ^ 31) : int32 k = k :=
  Int.bmod_eq_of_le_mul_two (by omega) (by omega)

theorem int32_add (x y : Int) : int32 (int32 x + y) = int32 (x + y) := by
  rw [int32, int32, int32, Int.bmod_add_bmod]

theorem storeMask_natCast (mask : Nat → Bool) {k : Nat} (h : k < 2 ^ 31) (value : Bool) :
    storeMask mask (int32 k) value = update mask k value := by
  rw [int32_natCast h, storeMask, if_neg (by omega), Int.toNat_natCast]

theorem maskStart_succ (b : Nat) : t.maskStart mode (b + 1) =
    t.maskStart mode b + (t.cached mode b + t.draftTokenNum) * t.draftTokenNum := by
  simp [maskStart, range_succ]

theorem maskStart_mono : Monotone (t.maskStart mode) :=
  monotone_nat_of_le_succ fun b => maskStart_succ (t := t) b ▸ Nat.le_add_right _ _

/-- The rows of a request are in front of those of the next one. -/
theorem rowIdx_add_le {i : Nat} (hi : i < t.draftTokenNum) :
    t.rowIdx mode b i + t.draftTokenNum ≤ t.maskStart mode (b + 1) := by
  have hrow : (t.cached mode b + t.draftTokenNum) * (i + 1) ≤
      (t.cached mode b + t.draftTokenNum) * t.draftTokenNum := Nat.mul_le_mul_left _ hi
  rw [Nat.mul_succ] at hrow
  rw [maskStart_succ, rowIdx]
  omega

/-- The rows of a batch, one behind the other. -/
theorem rowIdx_lt {b b' i i' : Nat} (hi : i < t.draftTokenNum)
    (hlt : b < b' ∨ (b = b' ∧ i < i')) :
    t.rowIdx mode b i + t.draftTokenNum ≤ t.rowIdx mode b' i' := by
  rcases hlt with hlt | ⟨rfl, hlt⟩
  · have hstart : t.maskStart mode b' ≤ t.rowIdx mode b' i' := by
      rw [rowIdx]
      omega
    exact (rowIdx_add_le hi).trans ((maskStart_mono hlt).trans hstart)
  · have hrow := Nat.mul_le_mul_left (t.cached mode b + t.draftTokenNum) hlt
    rw [Nat.mul_succ] at hrow
    rw [rowIdx, rowIdx]
    omega

theorem rowIdx_disjoint (mode : TreeMaskMode) {b b' i i' : Nat} (hi : i < t.draftTokenNum)
    (hi' : i' < t.draftTokenNum) (hne : (b', i') ≠ (b, i)) :
    t.rowIdx mode b' i' + t.draftTokenNum ≤ t.rowIdx mode b i ∨
      t.rowIdx mode b i + t.draftTokenNum ≤ t.rowIdx mode b' i' := by
  rcases Nat.lt_trichotomy b b' with hlt | rfl | hlt
  · exact .inr (rowIdx_lt hi (.inl hlt))
  · rcases Nat.lt_trichotomy i i' with hlt | rfl | hlt
    · exact .inr (rowIdx_lt hi (.inr ⟨rfl, hlt⟩))
    · exact absurd rfl hne
    · exact .inl (rowIdx_lt hi' (.inr ⟨rfl, hlt⟩))
  · exact .inl (rowIdx_lt hi' (.inl hlt))

/-- The sum in `seq_tree_idx` is cut in each round, which is as good as once. -/
theorem seqTreeIdx_eq (b : Nat) : t.seqTreeIdx b = int32 (t.maskStart .fullMask b) := by
  have hfold : ∀ (l : List Nat) (x : Nat),
      l.foldl (fun idx i => int32 (idx + t.verifiedSeqLen i * t.draftTokenNum)) (int32 x) =
        int32 (x + (l.map fun i => t.verifiedSeqLen i * t.draftTokenNum).sum : Nat) := by
    intro l
    induction l with
    | nil =>
      intro x
      rw [foldl_nil, map_nil, sum_nil, Nat.add_zero]
    | cons i l ih =>
      intro x
      rw [foldl_cons, int32_add, ← Int.natCast_mul, ← Int.natCast_add, ih, map_cons, sum_cons,
        Nat.add_assoc]
  have hsum : t.draftTokenNum * t.draftTokenNum * b +
      ((List.range b).map fun i => t.verifiedSeqLen i * t.draftTokenNum).sum =
        t.maskStart .fullMask b := by
    induction b with
    | zero => rfl
    | succ b ih =>
      rw [maskStart_succ, ← ih, range_succ, map_append, sum_append, map_singleton, sum_singleton,
        Nat.mul_succ, cached, Nat.add_mul]
      omega
  rw [seqTreeIdx, ← Int.natCast_mul, ← Int.natCast_mul, hfold, hsum]

namespace Fits

variable (h : t.Fits mode bs numSpec) (hb : b < bs)
include h hb

theorem rowIdx_lt_int {i : Nat} (hi : i < t.draftTokenNum) :
    t.rowIdx mode b i + t.draftTokenNum < 2 ^ 31 :=
  ((rowIdx_add_le hi).trans (maskStart_mono hb)).trans_lt h.mask

/-- The index that a thread computes is that of its row. -/
theorem tokenTreeIdx_eq {i : Nat} (hi : i < t.draftTokenNum) :
    t.tokenTreeIdx mode b i = (t.rowIdx mode b i + 1 : Nat) := by
  have hrow := h.rowIdx_lt_int hb hi
  have hpos := t.draftTokenNum_pos
  rw [← int32_natCast (show t.rowIdx mode b i + 1 < 2 ^ 31 by omega)]
  cases mode with
  | fullMask =>
    have hparts : t.maskStart .fullMask b < 2 ^ 31 ∧ t.verifiedSeqLen b < 2 ^ 31 := by
      simp only [rowIdx, cached] at hrow
      omega
    simp only [tokenTreeIdx, seqLen, seqTreeIdx_eq, int32_natCast hparts.1,
      int32_natCast hparts.2, rowIdx, cached]
    push_cast
    rfl
  | qlenOnly =>
    have hstart : t.maskStart .qlenOnly b = t.draftTokenNum * t.draftTokenNum * b := by
      simp [maskStart, cached, Nat.mul_comm]
    simp only [tokenTreeIdx, rowIdx, hstart, cached, Nat.zero_add, Nat.add_zero]
    push_cast
    rfl

theorem seqLen_eq (hpos : 0 < numSpec) : t.seqLen b = t.verifiedSeqLen b := by
  have := h.positions b hb
  exact int32_natCast (by omega)

end Fits

end Places

/-- A path is marked in a row. -/
def marked (row : Nat) (l : List Nat) (mask : Nat → Bool) (k : Nat) : Bool :=
  decide (∃ c ∈ l, k = row + c) || mask k

/-- The loop of a thread ends, with its ancestors marked. -/
theorem climb_spec (hv : t.Valid bs numSpec) (hb : b < bs) {i : Nat} {l : List Nat}
    (h : t.RootPath b i l) (hpos : 0 < i) {row : Nat} (hrow : row + t.draftTokenNum < 2 ^ 31)
    {fuel : Nat} (hfuel : l.length ≤ fuel) (position : Nat) (mask : Nat → Bool) :
    t.climb b (row + 1 : Nat) fuel (i - 1) position mask =
      some (position + l.length, marked row l mask) := by
  induction h generalizing fuel position mask with
  | root => exact absurd hpos (lt_irrefl 0)
  | @child p i l hpath _ hlt hpar ih =>
    rw [length_append, length_singleton] at hfuel
    obtain ⟨fuel, rfl⟩ := Nat.exists_eq_succ_of_ne_zero (show fuel ≠ 0 by omega)
    have hidx : ((row + 1 : Nat) : Int) + (i - 1 : Nat) = (row + i : Nat) := by omega
    have hone : storeMask mask (int32 (row + i : Nat)) true = marked row [i] mask := by
      rw [storeMask_natCast mask (by omega)]
      funext k
      by_cases hk : k = row + i
      · rw [hk, update_self]
        simp [marked]
      · simp [marked, hk]
    have happ : marked row l (marked row [i] mask) = marked row (l ++ [i]) mask := by
      funext k
      simp only [marked, ← Bool.or_assoc, ← Bool.decide_or, mem_append, or_and_right, exists_or]
    rw [climb, hidx, hone]
    unfold IsParent at hpar
    split_ifs at hpar with hroot
    · -- The root is reached.
      subst hpar
      rw [if_pos hroot, hpath.eq_nil, nil_append]
      rfl
    · obtain ⟨hp, hplt, hsel⟩ := hpar
      rw [if_neg hroot, hv.search_eq hb (show p - 1 < t.draftTokenNum - 1 by omega) hsel,
        Option.getD_some, ih hp (by omega), happ, length_append, length_singleton,
        Nat.add_assoc, Nat.add_comm 1]

/-- Node 0 is everyone's ancestor, and the other entries are cleared. -/
theorem clearRow_eq {row : Nat} (hrow : row + t.draftTokenNum < 2 ^ 31) (mask : Nat → Bool)
    (k : Nat) : t.clearRow (row + 1 : Nat) mask k =
      if k = row then true else if row < k ∧ k < row + t.draftTokenNum then false else mask k := by
  have hfirst : ((row + 1 : Nat) : Int) - 1 = row := by omega
  have hrest : (List.range (t.draftTokenNum - 1)).foldl
      (fun mask (i : Nat) => storeMask mask (int32 ((row + 1 : Nat) + i)) false)
        (update mask row true) =
      (List.range' 0 (t.draftTokenNum - 1)).foldl
        (fun mask i => update mask (row + 1 + i) false) (update mask row true) := by
    rw [range_eq_range']
    refine foldl_ext _ _ _ fun mask i hi => ?_
    have := (mem_range'_1.mp hi).2
    rw [← Int.natCast_add, storeMask_natCast mask (by omega)]
  rw [clearRow, hfirst, storeMask_natCast mask (by omega), hrest, Lanes.foldl_update_const]
  by_cases hk : k = row
  · rw [hk, if_neg (by omega), update_self, if_pos rfl]
  · rw [update_of_ne hk, if_neg hk]
    exact if_congr (by omega) rfl rfl

theorem marked_clearRow (l : List Nat) {row : Nat} (hrow : row + t.draftTokenNum < 2 ^ 31)
    (mask : Nat → Bool) {c : Nat} (hc : c < t.draftTokenNum) :
    marked row l (t.clearRow (row + 1 : Nat) mask) (row + c) = true ↔ c = 0 ∨ c ∈ l := by
  have hmem : (∃ c' ∈ l, row + c = row + c') ↔ c ∈ l :=
    ⟨fun ⟨c', hc', heq⟩ => (Nat.add_left_cancel heq) ▸ hc', fun hc => ⟨c, hc, rfl⟩⟩
  rw [marked, clearRow_eq hrow, Bool.or_eq_true, decide_eq_true_eq, hmem]
  by_cases hzero : c = 0
  · simp [hzero]
  · rw [if_neg (by omega), if_pos (by omega)]
    simp [hzero]

section Links

variable {bufs bufs' : Buffers}

/-- Thread 0 has linked the nodes behind node `k`. -/
structure LinkedAfter (t : TreeInput) (b k : Nat) (bufs : Buffers) : Prop where
  next : ∀ p < t.draftTokenNum, Linked (fun j => bufs.retriveNextSibling (b * t.draftTokenNum + j))
      (bufs.retriveNextToken (b * t.draftTokenNum + p)) (t.childrenAfter b p k)
  index : ∀ i, k < i → i < t.draftTokenNum →
    bufs.retriveIndex (b * t.draftTokenNum + i) = (b * t.draftTokenNum + i : Nat)
  fresh : ∀ i ≤ k, bufs.retriveNextSibling (b * t.draftTokenNum + i) = -1

/-- The tables have the same entries at a place. -/
def SameEntries (bufs bufs' : Buffers) (k : Nat) : Prop :=
  bufs'.retriveIndex k = bufs.retriveIndex k ∧ bufs'.retriveNextToken k = bufs.retriveNextToken k ∧
    bufs'.retriveNextSibling k = bufs.retriveNextSibling k

/-- Nothing but the rows of the tables has changed. -/
structure OnlyRows (t : TreeInput) (b : Nat) (bufs bufs' : Buffers) : Prop where
  treeMask : bufs'.treeMask = bufs.treeMask
  positions : bufs'.positions = bufs.positions
  rows : ∀ k, k < b * t.draftTokenNum ∨ b * t.draftTokenNum + t.draftTokenNum ≤ k →
    SameEntries bufs bufs' k

theorem OnlyRows.trans {bufs'' : Buffers} (h : t.OnlyRows b bufs bufs')
    (h' : t.OnlyRows b bufs' bufs'') : t.OnlyRows b bufs bufs'' := by
  refine ⟨h'.treeMask.trans h.treeMask, h'.positions.trans h.positions, fun k hk => ?_⟩
  obtain ⟨h1, h2, h3⟩ := h.rows k hk
  obtain ⟨h1', h2', h3'⟩ := h'.rows k hk
  exact ⟨h1'.trans h1, h2'.trans h2, h3'.trans h3⟩

variable (hv : t.Valid bs numSpec) {k : Nat}
include hv

/-- A node is put in front of the children that its parent has so far. -/
theorem linkNode_eq (hb : b < bs) {i p : Nat} (hpar : t.IsParent b p i)
    (hfresh : bufs.retriveNextSibling (b * t.draftTokenNum + i) = -1) :
    t.linkNode b bufs i = { bufs with
      retriveIndex := update bufs.retriveIndex (b * t.draftTokenNum + i)
        (b * t.draftTokenNum + i : Nat)
      retriveNextToken := update bufs.retriveNextToken (b * t.draftTokenNum + p) i
      retriveNextSibling := update bufs.retriveNextSibling (b * t.draftTokenNum + i)
        (bufs.retriveNextToken (b * t.draftTokenNum + p)) } := by
  have hne : p ≠ t.draftTokenNum := hpar.lt.ne
  simp only [linkNode, hv.parentPosition_eq hb hpar, if_neg hne]
  split_ifs with hnone
  · rw [hnone, ← hfresh, update_eq_self]
  · rfl

theorem linkNode_onlyRows (hb : b < bs) {i p : Nat}
    (hi : i < t.draftTokenNum) (hpar : t.IsParent b p i)
    (hfresh : bufs.retriveNextSibling (b * t.draftTokenNum + i) = -1) :
    t.OnlyRows b bufs (t.linkNode b bufs i) := by
  have hp := hpar.lt
  rw [linkNode_eq hv hb hpar hfresh]
  refine ⟨rfl, rfl, fun k hk => ⟨?_, ?_, ?_⟩⟩
  all_goals exact update_of_ne (by omega) _ _

/-- One more node is linked in front of its siblings. -/
theorem linkNode_spec (hb : b < bs) (hk : k + 1 < t.draftTokenNum)
    (h : t.LinkedAfter b (k + 1) bufs) : t.LinkedAfter b k (t.linkNode b bufs (k + 1)) := by
  obtain ⟨p, hpar⟩ := hv.exists_parent hb (Nat.succ_pos k) hk
  have hother : ∀ {q j : Nat}, j ∈ t.childrenAfter b q (k + 1) →
      b * t.draftTokenNum + j ≠ b * t.draftTokenNum + (k + 1) := by
    intro q j hj
    have := (mem_childrenAfter.mp hj).1
    omega
  rw [linkNode_eq hv hb hpar (h.fresh (k + 1) le_rfl)]
  refine ⟨fun q hq => ?_, fun i hi hlt => ?_, fun i hi => ?_⟩
  -- The node becomes the first child of its parent.
  · rw [childrenAfter_step hk]
    by_cases hqp : q = p
    · subst hqp
      rw [if_pos hpar]
      simp only [update_self]
      refine (h.next q hq).push (fun j hj => ?_) ?_
      · exact update_of_ne (hother hj) _ _
      · exact update_self _ _ _
    · rw [if_neg fun hq' => hqp (hv.parent_unique hb hq' hpar)]
      simp only [update_of_ne (show b * t.draftTokenNum + q ≠ b * t.draftTokenNum + p by omega)]
      exact (h.next q hq).congr fun j hj => update_of_ne (hother hj) _ _
  · by_cases hik : i = k + 1
    · rw [hik]
      exact update_self _ _ _
    · show update bufs.retriveIndex _ _ _ = _
      rw [update_of_ne (by omega)]
      exact h.index i (by omega) hlt
  · show update bufs.retriveNextSibling _ _ _ = _
    rw [update_of_ne (by omega)]
    exact h.fresh i (by omega)

/-- All the nodes are linked, from the last one down. -/
theorem linkNodes_spec (hb : b < bs) (hk : k < t.draftTokenNum) {bufs : Buffers}
    (h : t.LinkedAfter b k bufs) :
    t.LinkedAfter b 0 (t.linkNodes b bufs k) ∧ t.OnlyRows b bufs (t.linkNodes b bufs k) := by
  induction k generalizing bufs with
  | zero => exact ⟨h, ⟨rfl, rfl, fun k _ => ⟨rfl, rfl, rfl⟩⟩⟩
  | succ k ih =>
    obtain ⟨p, hpar⟩ := hv.exists_parent hb (Nat.succ_pos k) hk
    have hrows := linkNode_onlyRows hv hb hk hpar (h.fresh (k + 1) le_rfl)
    obtain ⟨hlinked, hrest⟩ := ih (Nat.lt_of_succ_lt hk) (linkNode_spec hv hb hk h)
    exact ⟨hlinked, hrows.trans hrest⟩

end Links

section Threads

variable {mode : TreeMaskMode} {bufs bufs' : Buffers} {i fuel : Nat}

/-- The tables of a block are as they were made. -/
def Unlinked (t : TreeInput) (b : Nat) (bufs : Buffers) : Prop :=
  ∀ i < t.draftTokenNum, bufs.retriveNextToken (b * t.draftTokenNum + i) = -1 ∧
    bufs.retriveNextSibling (b * t.draftTokenNum + i) = -1

/-- The tables of a block have its tree. -/
structure LinkedRows (t : TreeInput) (b : Nat) (bufs : Buffers) : Prop where
  next : ∀ p < t.draftTokenNum, Linked (fun j => bufs.retriveNextSibling (b * t.draftTokenNum + j))
      (bufs.retriveNextToken (b * t.draftTokenNum + p)) (t.childrenAfter b p 0)
  index : ∀ i < t.draftTokenNum,
    bufs.retriveIndex (b * t.draftTokenNum + i) = (b * t.draftTokenNum + i : Nat)

/-- What thread `(b, i)` leaves behind. -/
structure Built (t : TreeInput) (mode : TreeMaskMode) (b i : Nat) (bufs : Buffers) : Prop where
  position : ∀ l, t.RootPath b i l →
    bufs.positions (b * t.draftTokenNum + i) = t.verifiedSeqLen b + l.length
  mask : ∀ l, t.RootPath b i l → ∀ c < t.draftTokenNum,
    (bufs.treeMask (t.rowIdx mode b i + c) = true ↔ c = 0 ∨ c ∈ l)
  linked : i = 0 → t.LinkedRows b bufs

/-- What thread `(b, i)` can change. -/
structure Writes (t : TreeInput) (mode : TreeMaskMode) (b i : Nat) (bufs bufs' : Buffers) :
    Prop where
  mask : ∀ k, k < t.rowIdx mode b i ∨ t.rowIdx mode b i + t.draftTokenNum ≤ k →
    bufs'.treeMask k = bufs.treeMask k
  positions : ∀ k, k ≠ b * t.draftTokenNum + i → bufs'.positions k = bufs.positions k
  rows : ∀ k, i ≠ 0 ∨ k < b * t.draftTokenNum ∨ b * t.draftTokenNum + t.draftTokenNum ≤ k →
    SameEntries bufs bufs' k

/-- One thread builds its row, and writes nothing of the others. -/
theorem thread_spec (hv : t.Valid bs numSpec) (hfits : t.Fits mode bs numSpec) (hb : b < bs)
    (hi : i < t.draftTokenNum) (hfuel : numSpec ≤ fuel) (hinit : i = 0 → t.Unlinked b bufs) :
    ∃ bufs', t.thread mode fuel bufs (b, i) = some bufs' ∧ t.Built mode b i bufs' ∧
      t.Writes mode b i bufs bufs' := by
  have hseq := hfits.seqLen_eq hb (Nat.zero_lt_of_lt (hv.length_lt hb .root))
  have hidx := hfits.tokenTreeIdx_eq hb hi
  have hlt := hfits.rowIdx_lt_int hb hi
  set row := t.rowIdx mode b i
  by_cases hzero : i = 0
  · -- Thread 0 links the nodes.
    subst hzero
    set cleared : Buffers := { bufs with
      treeMask := t.clearRow (row + 1 : Nat) bufs.treeMask
      positions := update bufs.positions (b * t.draftTokenNum) (t.verifiedSeqLen b) }
      with hcleared
    have hafter : t.LinkedAfter b (t.draftTokenNum - 1) cleared := by
      refine ⟨fun p hp => ?_, fun i hk hi => by omega, fun i hk => ?_⟩
      · rw [childrenAfter, Nat.sub_self, range'_zero, filter_nil,
          (show cleared.retriveNextToken _ = -1 from (hinit rfl p hp).1)]
        exact Linked.nil
      · exact (hinit rfl i (by omega)).2
    obtain ⟨hlinked, hrows⟩ := linkNodes_spec hv hb (show t.draftTokenNum - 1 < t.draftTokenNum by
      omega) hafter
    set done := t.linkNodes b cleared (t.draftTokenNum - 1)
    refine ⟨{ done with
      retriveIndex := update done.retriveIndex (b * t.draftTokenNum)
        (b * t.draftTokenNum : Nat) }, ?_,
      ⟨fun l hl => ?_, fun l hl c hc => ?_, fun _ => ⟨?_, ?_⟩⟩,
      ⟨fun k hk => ?_, fun k hk => ?_, fun k hk => ?_⟩⟩
    · simp only [thread, ge_iff_le, hi.not_ge, if_false, if_true, hidx, hseq]
      rfl
    · rw [hl.eq_nil, hrows.positions]
      exact update_self _ _ _
    · rw [hl.eq_nil, hrows.treeMask]
      exact marked_clearRow [] hlt bufs.treeMask hc
    · exact hlinked.next
    · intro j hj
      by_cases hj0 : j = 0
      · subst hj0
        exact update_self _ _ _
      · show update done.retriveIndex _ _ _ = _
        rw [update_of_ne (by omega)]
        exact hlinked.index j (by omega) hj
    · rw [hrows.treeMask, hcleared]
      show t.clearRow (row + 1 : Nat) bufs.treeMask k = _
      rw [clearRow_eq hlt, if_neg (by omega), if_neg (by omega)]
    · rw [hrows.positions, hcleared]
      exact update_of_ne hk _ _
    · have hk' := hk.resolve_left fun hne => hne rfl
      exact ⟨(update_of_ne (by omega) _ _).trans (hrows.rows k hk').1, (hrows.rows k hk').2⟩
  -- The other threads climb to the root and mark what they pass in their own row.
  obtain ⟨l, hl, hlen⟩ := hv.rooted b hb i hi
  have hclimb := climb_spec hv hb hl (Nat.pos_of_ne_zero hzero) hlt
    (show l.length ≤ fuel by omega) 0 (t.clearRow (row + 1 : Nat) bufs.treeMask)
  refine ⟨{ bufs with
    treeMask := marked row l (t.clearRow (row + 1 : Nat) bufs.treeMask)
    positions := update bufs.positions (b * t.draftTokenNum + i)
      (int32 ((0 + l.length : Nat) + t.verifiedSeqLen b)) }, ?_,
    ⟨fun l' hl' => ?_, fun l' hl' c hc => ?_, fun h => absurd h hzero⟩,
    ⟨fun k hk => ?_, fun k hk => ?_, fun k _ => ⟨rfl, rfl, rfl⟩⟩⟩
  · simp only [thread, ge_iff_le, hi.not_ge, if_false, hzero, hidx, hseq, hclimb]
    rfl
  · rw [← hv.rootPath_unique hb hl hl']
    show update bufs.positions _ _ _ = _
    have hposition := hfits.positions b hb
    rw [update_self, ← Int.natCast_add, int32_natCast (by omega)]
    omega
  · rw [← hv.rootPath_unique hb hl hl']
    exact marked_clearRow l hlt bufs.treeMask hc
  · show marked row l (t.clearRow (row + 1 : Nat) bufs.treeMask) k = _
    rw [marked, clearRow_eq hlt, if_neg (by omega), if_neg (by omega)]
    have hnone : ¬∃ c ∈ l, k = row + c := by
      rintro ⟨c, hc, rfl⟩
      have := (hl.mem_lt c hc).2
      omega
    rw [decide_eq_false hnone, Bool.false_or]
  · exact update_of_ne hk _ _

/-- The entries of different blocks in a table of `n` columns. -/
theorem block_disjoint {n b b' : Nat} (hne : b' ≠ b) : b' * n + n ≤ b * n ∨ b * n + n ≤ b' * n := by
  simp only [← Nat.succ_mul]
  exact (Nat.lt_or_gt_of_ne hne).imp (Nat.mul_le_mul_right n) (Nat.mul_le_mul_right n)

/-- A thread does not change what another one reads and writes. -/
theorem Writes.others {b' i' : Nat} (h : t.Writes mode b i bufs bufs') (hi : i < t.draftTokenNum)
    (hi' : i' < t.draftTokenNum) (hne : (b', i') ≠ (b, i)) :
    (∀ c < t.draftTokenNum, bufs'.treeMask (t.rowIdx mode b' i' + c) =
      bufs.treeMask (t.rowIdx mode b' i' + c)) ∧
    bufs'.positions (b' * t.draftTokenNum + i') = bufs.positions (b' * t.draftTokenNum + i') ∧
    (i' = 0 → ∀ j < t.draftTokenNum, SameEntries bufs bufs' (b' * t.draftTokenNum + j)) := by
  refine ⟨fun c hc => h.mask _ ?_, h.positions _ ?_, fun hzero j hj => h.rows _ ?_⟩
  · have := rowIdx_disjoint mode hi hi' hne
    omega
  · by_cases hb : b' = b
    · subst hb
      have : i' ≠ i := fun heq => hne (by rw [heq])
      omega
    · have := block_disjoint (n := t.draftTokenNum) hb
      omega
  · by_cases hb : b' = b
    · left
      rintro rfl
      exact hne (by rw [hb, hzero])
    · have := block_disjoint (n := t.draftTokenNum) hb
      omega

theorem Unlinked.congr (h : t.Unlinked b bufs) (hsame : ∀ j < t.draftTokenNum,
    SameEntries bufs bufs' (b * t.draftTokenNum + j)) : t.Unlinked b bufs' := by
  intro j hj
  rw [(hsame j hj).2.1, (hsame j hj).2.2]
  exact h j hj

theorem LinkedRows.congr (h : t.LinkedRows b bufs) (hsame : ∀ j < t.draftTokenNum,
    SameEntries bufs bufs' (b * t.draftTokenNum + j)) : t.LinkedRows b bufs' := by
  refine ⟨fun p hp => ?_, fun j hj => ?_⟩
  · rw [(hsame p hp).2.1]
    exact (h.next p hp).congr fun j hj => (hsame j (mem_childrenAfter.mp hj).2.1).2.2
  · rw [(hsame j hj).1]
    exact h.index j hj

theorem mem_threads : (b, i) ∈ t.threads bs ↔ b < bs ∧ i < t.draftTokenNum := by
  rw [threads, pair_mem_product, mem_range, mem_range]

/-- In every order, the threads of a batch come to an end, and leave the mask, the
    positions and the links of the trees behind. -/
theorem launch_spec (hv : t.Valid bs numSpec) (hfits : t.Fits mode bs numSpec)
    (hfuel : numSpec ≤ fuel) {order : List (Nat × Nat)} (horder : order.Perm (t.threads bs))
    (hinit : ∀ b < bs, t.Unlinked b bufs) :
    ∃ bufs', t.launch mode fuel order bufs = some bufs' ∧
      ∀ b < bs, ∀ i < t.draftTokenNum, t.Built mode b i bufs' := by
  have hnodup : order.Nodup :=
    horder.nodup_iff.mpr (List.Nodup.product nodup_range nodup_range)
  obtain ⟨bufs', hbufs', hpost, -⟩ := Grid.foldlM_spec (t.thread mode fuel)
    (fun th bufs => (th.1 < bs ∧ th.2 < t.draftTokenNum) ∧ (th.2 = 0 → t.Unlinked th.1 bufs))
    (fun th bufs => (th.1 < bs ∧ th.2 < t.draftTokenNum) ∧ t.Built mode th.1 th.2 bufs) (by
      rintro ⟨b, i⟩ bufs ⟨⟨hb, hi⟩, hun⟩
      obtain ⟨bufs', hbufs', hbuilt, hwrites⟩ := thread_spec hv hfits hb hi hfuel hun
      refine ⟨bufs', hbufs', ⟨⟨hb, hi⟩, hbuilt⟩, ?_⟩
      rintro ⟨b', i'⟩ hne
      refine ⟨fun ⟨hin, hun'⟩ => ⟨hin, fun hzero => ?_⟩, fun ⟨hin, hbuilt'⟩ => ⟨hin, ?_⟩⟩
      · exact (hun' hzero).congr ((hwrites.others hi hin.2 hne).2.2 hzero)
      · obtain ⟨hmask, hposition, hrows⟩ := hwrites.others hi hin.2 hne
        refine ⟨fun l hl => ?_, fun l hl c hc => ?_, fun hzero => ?_⟩
        · exact hposition.trans (hbuilt'.position l hl)
        · rw [hmask c hc]
          exact hbuilt'.mask l hl c hc
        · exact (hbuilt'.linked hzero).congr (hrows hzero)) hnodup (by
      rintro ⟨b, i⟩ hin
      obtain ⟨hb, hi⟩ := mem_threads.mp (horder.mem_iff.mp hin)
      exact ⟨⟨hb, hi⟩, fun _ => hinit b hb⟩)
  refine ⟨bufs', hbufs', fun b hb i hi => ?_⟩
  exact (hpost (b, i) (horder.mem_iff.mpr (mem_threads.mpr ⟨hb, hi⟩))).2

end Threads

end TreeInput

end SglangInc.Eagle
