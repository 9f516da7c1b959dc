import Mathlib.Algebra.Order.Ring.Int
import SglangInc.Lib.Grid
import Mathlib.Data.List.Flatten
import Mathlib.Data.List.GetD

/-!
# Masked Lanes and Ragged Rows

Programs that move whole vectors between flat arrays.

A vector has a fixed number of lanes, and a mask says which of them count. A masked
load has 0 in the other lanes, and a masked store leaves their cells alone. When the
mask is a bound on the lane, a store writes a range of cells (`store_eq_write`), and
the number of lanes no longer matters.

Rows of different lengths stand in a flat array one after the other. A row starts at
the sum of the lengths before it (`offset`), which a program computes as a masked sum.
So the rows do not overlap, and an array whose rows are known is known as a list
(`map_range_offset`).
-/

namespace SglangInc.Lanes

open List

variable {α : Type}

/-- The vector at `ptr`, with 0 in the lanes that the mask leaves out. -/
def load [Zero α] (mem : Nat → α) (ptr : Nat) (mask : Nat → Bool) (lane : Nat) : α :=
  if mask lane then mem (ptr + lane) else 0

/-- A vector is stored at `ptr`, except for the lanes that the mask leaves out. -/
def store (mem : Nat → α) (ptr lanes : Nat) (mask : Nat → Bool) (value : Nat → α) (k : Nat) : α :=
  if ptr ≤ k ∧ k < ptr + lanes ∧ mask (k - ptr) then value (k - ptr) else mem k

/-- The sum of all lanes. -/
def sum (lanes : Nat) (value : Nat → Nat) : Nat := ((List.range lanes).map value).sum

/-- The `len` cells from `start` on are written. -/
def write (mem : Nat → α) (start len : Nat) (value : Nat → α) (k : Nat) : α :=
  if start ≤ k ∧ k < start + len then value (k - start) else mem k

/-- Where row `b` starts. -/
def offset (len : Nat → Nat) (b : Nat) : Nat := ((List.range b).map len).sum

theorem store_eq_write {ptr lanes len : Nat} (hlen : len ≤ lanes) (mem value : Nat → α) :
    store mem ptr lanes (fun lane => decide (lane < len)) value = write mem ptr len value := by
  funext k
  refine if_congr ?_ rfl rfl
  rw [decide_eq_true_eq]
  omega

/-- A row that is loaded and stored under one mask. -/
theorem store_load [Zero α] {ptr ptr' lanes len : Nat} (hlen : len ≤ lanes) (mem src : Nat → α) :
    store mem ptr lanes (fun lane => decide (lane < len))
      (load src ptr' fun lane => decide (lane < len)) =
      write mem ptr len fun lane => src (ptr' + lane) := by
  rw [store_eq_write hlen]
  funext k
  unfold write
  split_ifs
  · rw [load, if_pos (decide_eq_true (by omega))]
  · rfl

/-- One value is written to consecutive cells, one after the other. -/
theorem foldl_update_const (mem : Nat → α) (value : α) (base first len k : Nat) :
    (List.range' first len).foldl (fun mem i => Function.update mem (base + i) value) mem k =
      if base + first ≤ k ∧ k < base + first + len then value else mem k := by
  induction len generalizing first mem with
  | zero => rw [if_neg (by omega)]; rfl
  | succ len ih =>
    rw [range'_succ, foldl_cons, ih]
    by_cases hk : k = base + first
    · rw [hk, Function.update_self, ite_self, if_pos (by omega)]
    · rw [Function.update_of_ne hk]
      exact if_congr (by omega) rfl rfl

/-- Ranges that do not overlap can be written in any order. -/
theorem foldl_write {start len : Nat → Nat} {value : Nat → Nat → α} {order : List Nat}
    (hnodup : order.Nodup) (hdisjoint : ∀ b ∈ order, ∀ b' ∈ order, b' ≠ b →
      start b' + len b' ≤ start b ∨ start b + len b ≤ start b') (mem : Nat → α) :
    ∀ b ∈ order, ∀ lane < len b,
      order.foldl (fun mem b => write mem (start b) (len b) (value b)) mem (start b + lane) =
        value b lane := by
  have hall := Grid.foldl_spec (fun mem b => write mem (start b) (len b) (value b))
    (fun b _ => b ∈ order)
    (fun b mem => b ∈ order ∧ ∀ lane < len b, mem (start b + lane) = value b lane) (by
      intro b mem hb
      refine ⟨⟨hb, fun lane hlane => ?_⟩, fun b' hne => ⟨id, ?_⟩⟩
      · rw [write, if_pos (by omega), Nat.add_sub_cancel_left]
      rintro ⟨hb', hdone⟩
      refine ⟨hb', fun lane hlane => ?_⟩
      have := hdisjoint b hb b' hb' hne
      rw [write, if_neg (by omega)]
      exact hdone lane hlane)
    hnodup (s := mem) fun b hb => hb
  exact fun b hb => (hall b hb).2

section Rows

variable {len : Nat → Nat} {value : Nat → Nat → α}

theorem offset_succ (len : Nat → Nat) (b : Nat) : offset len (b + 1) = offset len b + len b := by
  rw [offset, range_succ, map_append, sum_append_nat, map_singleton, sum_singleton]
  rfl

theorem offset_add_one (len : Nat → Nat) (b : Nat) :
    offset (fun b => len b + 1) b = offset len b + b := by
  induction b with
  | zero => rfl
  | succ b ih =>
    rw [offset_succ, offset_succ, ih]
    omega

theorem offset_le {b b' : Nat} (h : b < b') : offset len b + len b ≤ offset len b' := by
  induction b' with
  | zero => exact absurd h (Nat.not_lt_zero b)
  | succ b' ih =>
    rw [offset_succ]
    rcases Nat.lt_succ_iff_lt_or_eq.mp h with hlt | rfl
    · omega
    · exact le_rfl

/-- Rows of a flat array can be written in any order. -/
theorem foldl_write_offset (value : Nat → Nat → α) {order : List Nat} (hnodup : order.Nodup)
    (mem : Nat → α) {b lane : Nat} (hb : b ∈ order) (hlane : lane < len b) :
    order.foldl (fun mem b => write mem (offset len b) (len b) (value b)) mem
      (offset len b + lane) = value b lane := by
  refine foldl_write hnodup (fun b _ b' _ hne => ?_) mem b hb lane hlane
  rcases Nat.lt_or_gt_of_ne hne with hlt | hlt
  · exact .inl (offset_le hlt)
  · exact .inr (offset_le hlt)

/-- The masked sum of a program is the offset of its row. -/
theorem sum_load {lanes b : Nat} (hb : b ≤ lanes) :
    sum lanes (load len 0 fun lane => decide (lane < b)) = offset len b := by
  obtain ⟨rest, rfl⟩ := Nat.exists_eq_add_of_le hb
  have hzero : ∀ rest, sum (b + rest) (load len 0 fun lane => decide (lane < b)) =
      sum b (load len 0 fun lane => decide (lane < b)) := by
    intro rest
    induction rest with
    | zero => rfl
    | succ rest ih =>
      rw [← ih, sum, ← Nat.add_assoc, range_succ, map_append, sum_append_nat,
        map_singleton, sum_singleton, load, if_neg (by simp)]
      rfl
  rw [hzero, sum, offset]
  refine congrArg List.sum (map_congr_left fun lane hlane => ?_)
  rw [load, if_pos (decide_eq_true (mem_range.mp hlane)), Nat.zero_add]

/-- An array whose rows are known. -/
theorem map_range_offset {mem : Nat → α} {bs : Nat}
    (h : ∀ b < bs, ∀ lane < len b, mem (offset len b + lane) = value b lane) :
    (List.range (offset len bs)).map mem =
      (List.range bs).flatMap fun b => (List.range (len b)).map (value b) := by
  induction bs with
  | zero => rfl
  | succ bs ih =>
    rw [offset_succ, range_add, map_append, ih fun b hb => h b (by omega),
      range_succ, flatMap_append, flatMap_singleton, map_map]
    congr 1
    exact map_congr_left fun lane hlane => h bs (by omega) lane (mem_range.mp hlane)

theorem length_flatMap_range (value : Nat → Nat → α) (bs : Nat) :
    ((List.range bs).flatMap fun b => (List.range (len b)).map (value b)).length =
      offset len bs := by
  rw [length_flatMap, offset]
  simp

/-- A row of a list of rows. -/
theorem getD_flatMap {bs b lane : Nat} (hb : b < bs) (hlane : lane < len b) (d : α) :
    ((List.range bs).flatMap fun b => (List.range (len b)).map (value b)).getD
      (offset len b + lane) d = value b lane := by
  induction bs with
  | zero => exact absurd hb (Nat.not_lt_zero b)
  | succ bs ih =>
    rw [range_succ, flatMap_append, flatMap_singleton]
    rcases Nat.lt_succ_iff_lt_or_eq.mp hb with hlt | rfl
    · have hle : offset len b + len b ≤ offset len bs := offset_le hlt
      rw [getD_append _ _ _ _ (by rw [length_flatMap_range]; omega)]
      exact ih hlt
    · rw [getD_append_right _ _ _ _ (by rw [length_flatMap_range]; omega), length_flatMap_range,
        Nat.add_sub_cancel_left, getD_eq_getElem?_getD, getElem?_map, getElem?_range hlane]
      rfl

/-- Rows of one length, of which a mask keeps a part. -/
theorem filter_range_mul (p : Nat → Bool) (n bs : Nat) :
    (List.range (bs * n)).filter p = (List.range bs).flatMap fun b =>
      ((List.range n).filter fun c => p (b * n + c)).map (b * n + ·) := by
  induction bs with
  | zero => rw [Nat.zero_mul]; rfl
  | succ bs ih =>
    rw [Nat.succ_mul, range_add, filter_append, ih, range_succ,
      flatMap_append, flatMap_singleton, filter_map]
    rfl

end Rows

end SglangInc.Lanes
