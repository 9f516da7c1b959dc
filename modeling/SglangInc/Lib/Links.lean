import Mathlib.Data.List.Basic

/-!
# Lists Linked Through an Array

A list of numbers that an array stores: the entry of each number is the next one,
and the last entry is -1.
-/

namespace SglangInc

/-- The list that starts at a number and goes on to its `next`; -1 ends it. -/
inductive Linked (next : Nat → Int) : Int → List Nat → Prop
  | nil : Linked next (-1) []
  | cons {i : Nat} {l : List Nat} : Linked next (next i) l → Linked next i (i :: l)

namespace Linked

variable {next next' : Nat → Int} {first : Int} {l : List Nat}

/-- Only the entries of its elements matter. -/
theorem congr (h : Linked next first l) (hnext : ∀ i ∈ l, next' i = next i) :
    Linked next' first l := by
  induction h with
  | nil => exact nil
  | @cons i l _ ih =>
    refine cons ?_
    rw [hnext i List.mem_cons_self]
    exact ih fun j hj => hnext j (List.mem_cons_of_mem _ hj)

/-- A number is put in front. -/
theorem push {i : Nat} (h : Linked next first l) (hnext : ∀ j ∈ l, next' j = next j)
    (hi' : next' i = first) : Linked next' i (i :: l) :=
  cons (hi' ▸ h.congr hnext)

end Linked

end SglangInc
