/-!
# Computations That Raise

Taking a successful `Except` computation apart, one call at a time.

A function that can raise at several places is a chain of binds. When the
whole returns, so did every call in it, and `bind_eq_ok` gives the first one
back. An assertion is a call of its own (`require`), which returns exactly when
its condition holds.
-/

namespace SglangInc.Checked

open List

variable {ε α β : Type} {f : α → Except ε β}

/-- `assert condition, message`. -/
def require (condition : Prop) [Decidable condition] (error : ε) : Except ε Unit :=
  if condition then .ok () else .error error

/-- A bind that returns. -/
theorem bind_eq_ok {x : Except ε α} {b : β} : (x >>= f) = .ok b ↔ ∃ a, x = .ok a ∧ f a = .ok b := by
  cases x with
  | error e => exact ⟨nofun, fun ⟨_, h, _⟩ => (nomatch h)⟩
  | ok a => exact ⟨fun h => ⟨a, rfl, h⟩, fun ⟨a', ha, h⟩ => by
      exact ha ▸ h⟩

/-- A computation that is known to return something returns that. -/
theorem of_returns {x : Except ε (α × β)} {P : α → β → Prop}
    (h : ∃ a b, x = .ok (a, b) ∧ P a b) {a : α} {b : β} (hx : x = .ok (a, b)) : P a b := by
  obtain ⟨a', b', hx', hP⟩ := h
  cases hx'.symm.trans hx
  exact hP

/-- A computation that returns on every element of a list, and what is known of each
    result. -/
theorem mapM_map_ok {γ : Type} {g : γ → α} {P : γ → β → Prop} (l : List γ)
    (h : ∀ c ∈ l, ∃ b, f (g c) = .ok b ∧ P c b) :
    ∃ bs, (l.map g).mapM f = .ok bs ∧
      ∀ (i : Nat) c, l[i]? = some c → ∃ b, bs[i]? = some b ∧ P c b := by
  induction l with
  | nil => exact ⟨[], rfl, nofun⟩
  | cons c l ih =>
    obtain ⟨b, hb, hP⟩ := h c mem_cons_self
    obtain ⟨bs, hbs, hall⟩ := ih (forall_mem_cons.mp h).2
    refine ⟨b :: bs, by rw [map_cons, mapM_cons, hb, hbs]; rfl, fun i c' hc => ?_⟩
    cases i with
    | zero =>
      obtain rfl : c = c' := Option.some.inj hc
      exact ⟨b, rfl, hP⟩
    | succ i => exact hall i c' hc

end SglangInc.Checked
