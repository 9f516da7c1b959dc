import Mathlib.Data.Nat.ModEq

/-!
# Sliding Windows

Counters that share a slot when they agree modulo the window, and links on
which no counter lags far behind an earlier one.

A sender with half a window in flight never puts a counter on its link that
is half a window below one it sent before. `Lagging` is this property of the
counters on a link, oldest first. It survives losses, and it is what lets a
counter at the head of a link be compared with everything behind it.
-/

namespace SglangInc.Window

/-- Counters less than a window apart in the same slot. -/
theorem eq_of_mod_eq (W p q : Nat) (h : p % W = q % W) (hp : p < q + W) (hq : q < p + W) :
    p = q := by
  refine Nat.ModEq.eq_of_abs_lt h ?_
  rw [abs_lt]
  omega

/-- The next use of a slot is the same counter or the one a window later. -/
theorem eq_or_eq_add_of_mod_eq (W p q : Nat) (h : p % W = q % W) (hq : q < p + W)
    (hp : p < q + W + W) : p = q ∨ p = q + W := by
  by_cases hlt : p < q + W
  · exact .inl (eq_of_mod_eq W p q h hlt hq)
  · refine .inr (eq_of_mod_eq W p (q + W) ?_ (by omega) (by omega))
    rw [h, Nat.add_mod_right]

/-- No counter of the list is `H` or more below an earlier one. -/
def Lagging (H : Nat) (l : List Nat) : Prop :=
  l.Pairwise (fun x y => x < y + H)

theorem Lagging.sublist {H : Nat} {l l' : List Nat} (h : Lagging H l) (hs : l'.Sublist l) :
    Lagging H l' :=
  List.Pairwise.sublist hs h

theorem lagging_snoc (H : Nat) (l : List Nat) (y : Nat) :
    Lagging H (l ++ [y]) ↔ Lagging H l ∧ ∀ x ∈ l, x < y + H := by
  simp [Lagging, List.pairwise_append]

theorem lagging_cons (H : Nat) (x : Nat) (l : List Nat) :
    Lagging H (x :: l) ↔ (∀ y ∈ l, x < y + H) ∧ Lagging H l :=
  List.pairwise_cons

/-- The messages on a link, oldest first: each meets its condition, and the
    counters of those that carry one do not lag. -/
structure Traffic {μ : Type*} (H : Nat) (counter : μ → Option Nat) (ok : μ → Prop)
    (msgs : List μ) : Prop where
  each : ∀ m ∈ msgs, ok m
  order : Lagging H (msgs.filterMap counter)

namespace Traffic

variable {μ : Type*} {H : Nat} {counter : μ → Option Nat} {ok ok' : μ → Prop} {msgs : List μ}

theorem nil : Traffic H counter ok [] :=
  ⟨nofun, .nil⟩

theorem sublist (h : Traffic H counter ok msgs) {msgs' : List μ} (hs : msgs'.Sublist msgs) :
    Traffic H counter ok msgs' :=
  ⟨fun m hm => h.each m (hs.subset hm), h.order.sublist (hs.filterMap _)⟩

theorem mono (h : Traffic H counter ok msgs) (hok : ∀ m, ok m → ok' m) :
    Traffic H counter ok' msgs :=
  ⟨fun m hm => hok m (h.each m hm), h.order⟩

/-- What enters a link is not `H` or more below anything that is on it. -/
theorem snoc (h : Traffic H counter ok msgs) (m : μ) (hm : ok m)
    (hlag : ∀ m' x y, ok m' → counter m' = some x → counter m = some y → x < y + H) :
    Traffic H counter ok (msgs ++ [m]) where
  each := List.forall_mem_append.mpr ⟨h.each, List.forall_mem_singleton.mpr hm⟩
  order := by
    rw [List.filterMap_append]
    cases hy : counter m with
    | none => simpa [hy] using h.order
    | some y =>
      rw [List.filterMap_cons_some hy, List.filterMap_nil, lagging_snoc]
      refine ⟨h.order, fun x hx => ?_⟩
      rcases List.mem_filterMap.mp hx with ⟨m', hm', hx⟩
      exact hlag m' x y (h.each m' hm') hx hy

/-- The messages behind a counter at the head are not `H` or more below it. -/
theorem tail {m : μ} {x : Nat} (h : Traffic H counter ok (m :: msgs)) (hx : counter m = some x)
    (hok : ∀ m', ok m' → (∀ y, counter m' = some y → x < y + H) → ok' m') :
    Traffic H counter ok' msgs := by
  have horder := h.order
  rw [List.filterMap_cons_some hx, lagging_cons] at horder
  refine ⟨fun m' hm' => hok m' (h.each m' (List.mem_cons_of_mem _ hm')) fun y hy => ?_, horder.2⟩
  exact horder.1 y (List.mem_filterMap.mpr ⟨m', hm', hy⟩)

end Traffic

end SglangInc.Window
