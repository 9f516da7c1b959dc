import Mathlib.Data.Finset.Card

/-!
# The Budget of a Data-Parallel Controller

`DPBudget` of `managers/data_parallel_controller.py`. A report has the number of
requests of each worker, and `update_budget` makes a new queue of ranks from it, from
which `dispatch` takes the first one. The workers with the least load are raised
together to the next load there is, until all are equal.

The ranks of a report are different, so a load is known by its rank.
-/

namespace SglangInc.DataParallel

open List

/-- A report: the ranks in its order, and the requests of each. -/
structure Loads where
  ranks : List Nat
  nodup : ranks.Nodup
  numReqs : Nat → Nat

namespace Loads

variable (s : Loads)

/-- `num_reqs`. -/
def values : List Nat := s.ranks.map s.numReqs

/-- The smallest load. -/
def minLoad : Nat := s.values.min?.getD 0

/-- The smallest load above it. -/
def secondMinLoad : Nat := (s.values.filter (s.minLoad < ·)).min?.getD 0

/-- The condition of the loop. -/
def Uneven : Prop := ∃ x ∈ s.values, x ≠ s.values.headD 0

instance : Decidable s.Uneven := List.decidableBEx _ _

/-- `min_indices`. -/
def minRanks : List Nat := s.ranks.filter (s.numReqs · = s.minLoad)

/-- What one round puts into the queue. -/
def round : List Nat := (List.replicate (s.secondMinLoad - s.minLoad) s.minRanks).flatten

/-- The loads after the round. -/
def raise : Loads :=
  { s with numReqs := fun rank =>
      if s.numReqs rank = s.minLoad then s.secondMinLoad else s.numReqs rank }

theorem min_spec {l : List Nat} {x : Nat} (hx : x ∈ l) :
    l.min?.getD 0 ∈ l ∧ ∀ y ∈ l, l.min?.getD 0 ≤ y := by
  obtain ⟨m, hm⟩ := Option.isSome_iff_exists.mp (isSome_min?_of_mem hx)
  rw [hm]
  exact min?_eq_some_iff.mp hm

variable {s}

theorem Uneven.spec (h : s.Uneven) : s.minLoad ∈ s.values ∧ s.secondMinLoad ∈ s.values ∧
    s.minLoad < s.secondMinLoad ∧ ∀ x ∈ s.values, x = s.minLoad ∨ s.secondMinLoad ≤ x := by
  obtain ⟨x, hx, hne⟩ := h
  obtain ⟨hmin, hle⟩ := min_spec hx
  have hhead : s.values.headD 0 ∈ s.values := by
    rw [headD_eq_head?_getD, head?_eq_some_head (ne_nil_of_mem hx)]
    exact head_mem _
  obtain ⟨y, hy, hlt⟩ : ∃ y ∈ s.values, s.minLoad < y := by
    by_contra hall
    push Not at hall
    exact hne (((hall x hx).antisymm (hle x hx)).trans ((hle _ hhead).antisymm (hall _ hhead)))
  have hmem : ∀ z, z ∈ s.values.filter (s.minLoad < ·) ↔ z ∈ s.values ∧ s.minLoad < z := by simp
  obtain ⟨hsecond, hle'⟩ := min_spec ((hmem y).mpr ⟨hy, hlt⟩)
  obtain ⟨hsecond, hpos⟩ := (hmem _).mp hsecond
  exact ⟨hmin, hsecond, hpos, fun z hz => (hle z hz).eq_or_lt.imp Eq.symm fun hlt =>
    hle' z ((hmem z).mpr ⟨hz, hlt⟩)⟩

/-- A round leaves one value less. -/
theorem Uneven.card_raise (h : s.Uneven) :
    s.raise.values.toFinset.card < s.values.toFinset.card := by
  obtain ⟨hmin, hsecond, hlt, -⟩ := h.spec
  refine (Finset.card_le_card fun x hx => ?_).trans_lt
    (Finset.card_erase_lt_of_mem (mem_toFinset.mpr hmin))
  obtain ⟨rank, hrank, rfl⟩ := mem_map.mp (mem_toFinset.mp hx)
  rw [Finset.mem_erase, mem_toFinset, raise]
  dsimp only
  split_ifs with heq
  · exact ⟨hlt.ne', hsecond⟩
  · exact ⟨heq, mem_map_of_mem hrank⟩

/-- The loop of `update_budget`. -/
def levelLoop (s : Loads) : List Nat :=
  if _h : s.Uneven then s.round ++ levelLoop s.raise else []
termination_by s.values.toFinset.card
decreasing_by exact _h.card_raise

variable (s)

/-- `max_num_reqs`. -/
def maxLoad : Nat := s.values.max?.getD 0

/-- `update_budget`: the new queue. -/
def updateBudget : List Nat := if ∀ x ∈ s.values, x = s.maxLoad then [] else s.levelLoop

end Loads

/-- `dispatch`: the first rank of the queue, and what is left of it. -/
def dispatch : List Nat → Option Nat × List Nat
  | [] => (none, [])
  | rank :: queue => (some rank, queue)

/-- What `n` calls of `dispatch` return. -/
def dispatches : Nat → List Nat → List (Option Nat)
  | 0, _ => []
  | n + 1, queue => (dispatch queue).1 :: dispatches n (dispatch queue).2

end SglangInc.DataParallel
