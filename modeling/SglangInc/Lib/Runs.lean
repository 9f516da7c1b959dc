/-!
# Labelled Runs

Runs of a labelled transition relation, kept together with every transition
they took.

A safety statement is about each state a run passes through, and a condition
on a run is a condition on each step it takes. Both are read off the same
list: a run carries the triples `(before, label, after)` of its steps in
order. `Run.inv` is the induction every invariant in this development goes
through, and `Run.inv_of_guard` is the same induction for an invariant that
survives only the steps that meet a guard.
-/

namespace SglangInc

open List

/-- A run of `step` from `s`, recording each transition as it is taken. The
    last transition is at the end of the list, so a run grows where it
    executes. -/
inductive Run {σ α : Type} (step : σ → α → σ → Prop) (s : σ) : List (σ × α × σ) → σ → Prop
  | nil : Run step s [] s
  | snoc {tr t u} (a : α) : Run step s tr t → step t a u → Run step s (tr ++ [(t, a, u)]) u

namespace Run

variable {σ α : Type} {step : σ → α → σ → Prop} {s t : σ} {tr : List (σ × α × σ)}

/-- A run can also be extended at its front. -/
theorem cons {u : σ} (a : α) (hs : step s a u) (hr : Run step u tr t) :
    Run step s ((s, a, u) :: tr) t := by
  induction hr with
  | nil => exact snoc a nil hs
  | snoc b _ hb ih => exact snoc b ih hb

variable (hr : Run step s tr t) {P : σ → Prop} {G : σ → α → Prop}
include hr

/-- A run of the steps of one relation is a run of those of a larger one. -/
theorem mono {step' : σ → α → σ → Prop}
    (h : ∀ t a u, step t a u → step' t a u) : Run step' s tr t := by
  induction hr with
  | nil => exact nil
  | snoc a _ hs ih => exact snoc a ih (h _ _ _ hs)

/-- An invariant of the steps holds at the end of a run. -/
theorem inv (h0 : P s) (hstep : ∀ t a u, P t → step t a u → P u) : P t := by
  induction hr with
  | nil => exact h0
  | snoc a _ hs ih => exact hstep _ a _ ih hs

/-- An invariant holds on both sides of every step taken. -/
theorem inv_mem (h0 : P s) (hstep : ∀ t a u, P t → step t a u → P u) :
    ∀ e ∈ tr, P e.1 ∧ P e.2.2 := by
  induction hr with
  | nil => exact forall_mem_nil _
  | snoc a hr' hs ih =>
    have hpre := inv hr' h0 hstep
    exact forall_mem_append.mpr ⟨ih, forall_mem_singleton.mpr ⟨hpre, hstep _ a _ hpre hs⟩⟩

/-- Every recorded transition is a step. -/
theorem step_of_mem : ∀ e ∈ tr, step e.1 e.2.1 e.2.2 := by
  induction hr with
  | nil => exact forall_mem_nil _
  | snoc a _ hs ih => exact forall_mem_append.mpr ⟨ih, forall_mem_singleton.mpr hs⟩

/-- A run whose steps all meet `G` is a run of the steps that do. -/
theorem guarded (hG : ∀ e ∈ tr, G e.1 e.2.1) : Run (fun t a u => step t a u ∧ G t a) s tr t := by
  induction hr with
  | nil => exact nil
  | snoc a _ hs ih =>
    have hlast := hG _ (mem_append_right _ (mem_singleton_self _))
    exact snoc a (ih fun e he => hG e (mem_append_left _ he)) ⟨hs, hlast⟩

/-- The guarded form: `P` need only survive the steps that meet `G`, and the
    run is one whose steps all do. -/
theorem inv_of_guard (hG : ∀ e ∈ tr, G e.1 e.2.1) (h0 : P s)
    (hstep : ∀ t a u, P t → G t a → step t a u → P u) : P t ∧ ∀ e ∈ tr, P e.2.2 := by
  have hstep' : ∀ t a u, P t → (step t a u ∧ G t a) → P u :=
    fun t a u hP h => hstep t a u hP h.2 h.1
  exact ⟨(hr.guarded hG).inv h0 hstep', fun e he => ((hr.guarded hG).inv_mem h0 hstep' e he).2⟩

end Run

end SglangInc
