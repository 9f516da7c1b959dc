import Mathlib.Data.List.Basic

/-!
# Threads That Do Not Interfere

A grid of threads, each of which runs once, in any order.

Each thread has a condition under which it runs to its end and another one that
holds then. If no thread breaks a condition of another one, the order does not
matter: all of them finish, and what they establish holds together.

## Theorems

* `Grid.foldlM_spec`, `Grid.foldl_spec`: All the threads of a list, one after the other.
-/

namespace SglangInc.Grid

open List

variable {σ τ : Type} {order : List τ}

theorem foldlM_spec (run : σ → τ → Option σ) (Pre Post : τ → σ → Prop)
    (hrun : ∀ t s, Pre t s → ∃ s', run s t = some s' ∧ Post t s' ∧
      ∀ t', t' ≠ t → (Pre t' s → Pre t' s') ∧ (Post t' s → Post t' s'))
    (hnodup : order.Nodup) {s : σ} (hpre : ∀ t ∈ order, Pre t s) :
    ∃ s', order.foldlM run s = some s' ∧ (∀ t ∈ order, Post t s') ∧
      ∀ t, t ∉ order → Post t s → Post t s' := by
  induction order generalizing s with
  | nil => exact ⟨s, rfl, forall_mem_nil _, fun t _ ht => ht⟩
  | cons t order ih =>
    obtain ⟨hnot, hrest⟩ := nodup_cons.mp hnodup
    obtain ⟨s1, hs1, hpost, hothers⟩ := hrun t s (hpre t mem_cons_self)
    obtain ⟨s2, hs2, hdone, hkept⟩ := ih hrest fun t' ht' =>
      (hothers t' fun heq => hnot (heq ▸ ht')).1 (hpre t' (mem_cons_of_mem _ ht'))
    refine ⟨s2, by rw [foldlM_cons, hs1]; exact hs2,
      forall_mem_cons.mpr ⟨hkept t hnot hpost, hdone⟩, fun t' ht' h => ?_⟩
    rw [mem_cons, not_or] at ht'
    exact hkept t' ht'.2 ((hothers t' ht'.1).2 h)

/-- Threads that always run to their end. -/
theorem foldl_spec (run : σ → τ → σ) (Pre Post : τ → σ → Prop)
    (hrun : ∀ t s, Pre t s → Post t (run s t) ∧
      ∀ t', t' ≠ t → (Pre t' s → Pre t' (run s t)) ∧ (Post t' s → Post t' (run s t)))
    (hnodup : order.Nodup) {s : σ} (hpre : ∀ t ∈ order, Pre t s) :
    ∀ t ∈ order, Post t (order.foldl run s) := by
  obtain ⟨s', hs', hpost, -⟩ := foldlM_spec (fun s t => some (run s t)) Pre Post
    (fun t s ht => ⟨run s t, rfl, hrun t s ht⟩) hnodup hpre
  have heq : s' = order.foldl run s :=
    Option.some.inj (hs'.symm.trans foldlM_pure)
  exact heq ▸ hpost

end SglangInc.Grid
