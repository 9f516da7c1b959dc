import Mathlib.Data.Nat.ModEq
import Mathlib.Data.List.Basic

/-!
# Circular Buffers with an Overhang

A buffer that is written in blocks. Where a block starts is a counter that wraps
at `limit`, but a block is not cut where the counter wraps: it runs on into the
cells behind `limit`, and the next block starts again near the front.

The argument is about the counter before it wraps. Block after block it only
grows, and two cells at positions `v` and `w` of it coincide only if `v` and `w`
differ by a multiple of `limit` (`cell_ne`). So a block can be read back unchanged
as long as no more than `limit` cells have been handed out since its start,
itself included, whatever the sizes of the blocks (`Kept.write`).
-/

namespace SglangInc.Ring

open List

variable {α : Type}

/-- The cells from `start` on are overwritten. -/
def write (buf : List α) (start : Nat) (block : List α) : List α :=
  buf.take start ++ block ++ buf.drop (start + block.length)

section Write

variable {buf block : List α} {start : Nat}

variable (h : start + block.length ≤ buf.length)
include h

theorem length_write : (write buf start block).length = buf.length := by
  simp only [write, length_append, length_take, List.length_drop]
  omega

theorem getElem?_write_block {i : Nat}
    (hi : i < block.length) : (write buf start block)[start + i]? = block[i]? := by
  have htake : (buf.take start).length = start := by
    rw [length_take]
    omega
  rw [write, append_assoc, getElem?_append_right (by omega), htake,
    Nat.add_sub_cancel_left, getElem?_append_left hi]

theorem getElem?_write_other {k : Nat}
    (hk : k < start ∨ start + block.length ≤ k) : (write buf start block)[k]? = buf[k]? := by
  have htake : (buf.take start).length = start := by
    rw [length_take]
    omega
  rw [write, append_assoc]
  rcases hk with hk | hk
  · rw [getElem?_append_left (by omega), getElem?_take_of_lt hk]
  · rw [getElem?_append_right (by omega), htake, getElem?_append_right (by omega), getElem?_drop]
    congr 1
    omega

end Write

/-- A cell of a block at position `v` is not one of a later block at `w`, if both
    are within `limit` of `v`. -/
theorem cell_ne {limit v n w m i j : Nat} (hi : i < n) (hvw : v + n ≤ w)
    (hlimit : w + m ≤ v + limit) (hj : j < m) : v % limit + i ≠ w % limit + j := by
  intro heq
  have hmod : v + i ≡ w + j [MOD limit] :=
    calc v + i ≡ v % limit + i [MOD limit] := (Nat.mod_modEq v limit).symm.add_right i
      _ = w % limit + j := heq
      _ ≡ w + j [MOD limit] := (Nat.mod_modEq w limit).add_right j
  have hdvd : limit ∣ w + j - (v + i) := (Nat.modEq_iff_dvd' (by omega)).mp hmod
  have hle := Nat.le_of_dvd (by omega) hdvd
  omega

/-- The blocks of `log`, each with its position, that start no more than `limit`
    before `pos` can be read from the buffer. The cells are counted from `base`. -/
def Kept (limit base : Nat) (buf : List α) (pos : Nat) (log : List (Nat × List α)) : Prop :=
  ∀ e ∈ log, e.1 + e.2.length ≤ pos ∧
    (pos ≤ e.1 + limit → ∀ i, i < e.2.length → buf[base + e.1 % limit + i]? = e.2[i]?)

theorem Kept.write {limit base pos : Nat} {buf block : List α} {log : List (Nat × List α)}
    (h : Kept limit base buf pos log) (hfit : base + pos % limit + block.length ≤ buf.length) :
    Kept limit base (Ring.write buf (base + pos % limit) block) (pos + block.length)
      ((pos, block) :: log) := by
  intro e he
  rcases mem_cons.mp he with rfl | he
  · exact ⟨le_rfl, fun _ i hi => getElem?_write_block hfit hi⟩
  obtain ⟨hend, hread⟩ := h e he
  refine ⟨by omega, fun hlimit i hi => ?_⟩
  rw [← hread (by omega) i hi]
  refine getElem?_write_other hfit ?_
  by_contra hin
  -- Then the cell is one of the new block.
  have hj : e.1 % limit + i - pos % limit < block.length := by omega
  refine cell_ne hi hend hlimit hj ?_
  omega

end SglangInc.Ring
