/-!
# Computations That Keep Their State

Running `EStateM` computations one step at a time.

An `EStateM` computation either returns with a state or raises with one, and
a handler built from many small calls is a chain of binds. `bind_run` peels
the first call off such a chain. The other lemmas run the calls that never
raise; together they turn a handler applied to a state into the state it ends
in, with a case split only where a call can raise.

## Theorems

* `pure_run`, `get_run`, `set_run`, `modify_run`, `throw_run`: Running the
  calls that do not branch.
-/

namespace SglangInc.EState

variable {ε σ α β : Type}

/-- Running a bind. -/
theorem bind_run (x : EStateM ε σ α) (f : α → EStateM ε σ β) (s : σ) : (x >>= f) s = match x s with
      | .ok a s' => f a s'
      | .error e s' => .error e s' := rfl

theorem pure_run (a : α) (s : σ) : (pure a : EStateM ε σ α) s = .ok a s := rfl

theorem get_run (s : σ) : (get : EStateM ε σ σ) s = .ok s s := rfl

theorem set_run (s t : σ) : (set t : EStateM ε σ PUnit) s = .ok ⟨⟩ t := rfl

theorem modify_run (f : σ → σ) (s : σ) : (modify f : EStateM ε σ PUnit) s = .ok ⟨⟩ (f s) := rfl

theorem throw_run (e : ε) (s : σ) : (throw e : EStateM ε σ α) s = .error e s := rfl

/-- The state left behind, whether the computation returned or raised. -/
def finalState : EStateM.Result ε σ α → σ
  | .ok _ s => s
  | .error _ s => s

end SglangInc.EState
