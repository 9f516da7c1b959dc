import SglangInc.Theory.Workflow.Final

/-!
# Retries of a Workflow

Which steps of a workflow run, and how often (`retries_declared`).

A step that is retried indefinitely can be left like any other: by a failure that is not
retryable, with the last attempt that the counter can hold, and by a call of
`cancel_workflow` during the back-off or between the two looks in front of the first attempt.
Each of them ends at `unreachable!` (`retries_panics`). The executions of a run are read off
its transitions (`executions`), the last one first.
-/

namespace SglangInc.Workflow

open List

section Definitions

variable (d : WorkflowDefinition)

/-- A step that is retried indefinitely fails only where it is retried, and is not found
    cancelled in front of an attempt. -/
def Retries (x : Engine) : Event → Prop
  | .cancelWorkflow => True
  | .advance outcome => match x.point with
    | .execute step attempt _ => step.onFailure = .retryIndefinitely → outcome.Fails →
      willRetry d step attempt outcome = true
    | .executeStepWithRetry step _ | .sleep step _ _ =>
      step.onFailure = .retryIndefinitely → x.status ≠ .cancelled
    | _ => True

/-- The executor that is run, by the number of the steps behind it. -/
def executed (x : Engine) : Event → List (Nat × Outcome)
  | .cancelWorkflow => []
  | .advance outcome => match x.point with
    | .execute _ _ rest => [(rest.length, outcome)]
    | _ => []

/-- All executions of a run, in order. -/
def executions (tr : List (Engine × Event × Engine)) : List (Nat × Outcome) :=
  tr.reverse.flatMap fun e => executed e.1 e.2.1

/-- The number of attempts is within the retry policy, where there is one. -/
def Allowed (step : StepDefinition) (attempts : Nat) : Prop :=
  step.onFailure ≠ .retryIndefinitely → attempts ≤ d.getRetryPolicy step

/-- All of them failed in a way that is tried again. -/
def Retried (os : List Outcome) : Prop :=
  ∀ o ∈ os, o = .timeout ∨ o = .error true

/-- The steps before the given ones have run, and each succeeded, was skipped or failed with
    `ContinueNextStep`. -/
inductive Past : List StepDefinition → List (Nat × Outcome) → Prop
  | start : Past d.steps []
  | next {step rest log os o} : Past (step :: rest) log → Allowed d step (os.length + 1) →
      Retried os → (o = .success ∨ o = .skip ∨ step.onFailure = .continueNextStep) →
      Past rest ((o :: os).map (rest.length, ·) ++ log)

variable (log : List (Nat × Outcome))

/-- The steps before `step` have run, and it has come to `os` and then perhaps `last`. -/
def Upto (step : StepDefinition) (rest : List StepDefinition) (os last : List Outcome) : Prop :=
  (∃ past, Past d (step :: rest) past ∧ log = (last ++ os).map (rest.length, ·) ++ past) ∧
    Allowed d step (os.length + 1) ∧ Retried os

/-- Only steps that may have run did, as often as they may. -/
def Declares : Prop :=
  (∃ rest, Past d rest log) ∨ ∃ step rest os last, Upto d log step rest os last ∧ last.length ≤ 1

/-- Behind an execution that failed. -/
def Failed (step : StepDefinition) (attempt : Nat) (rest : List StepDefinition)
    (willRetry : Bool) : Prop :=
  ∃ os o, Upto d log step rest os [o] ∧ attempt = os.length + 1 ∧
    if willRetry then Upto d log step rest (o :: os) [] else
      step.onFailure ≠ .retryIndefinitely

/-- What an await says about the executions before it. -/
def Point.Declared : Point → Prop
  | .workflowStarted rest | .stepSucceeded rest | .onSuccess rest => Past d rest log
  | .executeStepWithRetry step rest => Past d (step :: rest) log
  | .stepStarted step attempt rest | .execute step attempt rest =>
    ∃ os, Upto d log step rest os [] ∧ attempt = os.length + 1
  | .stepFailed step attempt rest willRetry => Failed d log step attempt rest willRetry
  | .stepRetrying step attempt rest | .sleep step attempt rest =>
    Failed d log step attempt rest true
  | .onFailure step rest => ∃ attempt, Failed d log step attempt rest false
  | .returned => Declares d log
  | .panicked => False

end Definitions

variable {d : WorkflowDefinition} {log : List (Nat × Outcome)} {step : StepDefinition}
  {rest : List StepDefinition} {status : WorkflowStatus} {os : List Outcome} {o : Outcome}

theorem Past.suffix (h : Past d rest log) : rest <:+ d.steps := by
  induction h with
  | start => exact suffix_refl _
  | next _ _ _ _ ih => exact (suffix_cons ..).trans ih

theorem Upto.past (h : Upto d log step rest os [o])
    (ho : o = .success ∨ o = .skip ∨ step.onFailure = .continueNextStep) : Past d rest log := by
  rcases h with ⟨⟨past, hpast, rfl⟩, hallowed, hos⟩
  exact hpast.next hallowed hos ho

theorem Upto.execute (h : Upto d log step rest os []) (o : Outcome) :
    Upto d ((rest.length, o) :: log) step rest os [o] := by
  rcases h with ⟨⟨past, hpast, rfl⟩, hos⟩
  exact ⟨⟨past, hpast, rfl⟩, hos⟩

theorem Failed.upto {attempt : Nat} {willRetry : Bool}
    (h : Failed d log step attempt rest willRetry) : Declares d log := by
  rcases h with ⟨os, o, h, -⟩
  exact .inr ⟨step, rest, os, [o], h, Nat.le_refl 1⟩

theorem failed_of_upto (h : Upto d log step rest os [o])
    (hretry : step.onFailure = .retryIndefinitely → willRetry d step (os.length + 1) o = true) :
    Failed d log step (os.length + 1) rest (willRetry d step (os.length + 1) o) := by
  refine ⟨os, o, h, rfl, ?_⟩
  cases hwill : willRetry d step (os.length + 1) o with
  | false => exact fun hind => absurd (hretry hind) (hwill ▸ Bool.false_ne_true)
  | true =>
    rcases (Bool.and_eq_true _ _).mp hwill with ⟨hshould, hlt⟩
    refine ⟨h.1, fun hne => ?_, forall_mem_cons.mpr ⟨?_, h.2.2⟩⟩
    · rwa [if_neg hne, decide_eq_true_eq] at hlt
    · cases o with
      | timeout => exact .inl rfl
      | error isRetryable => exact .inr (congrArg _ hshould)
      | _ => cases hshould

theorem declared_nextStep (h : Past d rest log) : (nextStep status rest).2.Declared d log := by
  cases rest with
  | nil => exact .inl ⟨_, h⟩
  | cons step rest =>
    rw [nextStep]
    split_ifs
    · exact .inl ⟨_, h⟩
    · exact h

theorem declared_handleFailure (hne : step.onFailure ≠ .retryIndefinitely)
    (h : Upto d log step rest os [o]) : (handleFailure status step rest).2.Declared d log := by
  unfold handleFailure
  cases haction : step.onFailure with
  | failWorkflow => exact .inr ⟨_, _, _, _, h, Nat.le_refl 1⟩
  | continueNextStep => exact declared_nextStep (h.past (.inr (.inr haction)))
  | retryIndefinitely => exact absurd haction hne

/-- A step that is found cancelled before it has run is the last one. -/
theorem returned_of_cancelled (rest : List StepDefinition)
    (hne : step.onFailure ≠ .retryIndefinitely) :
    (handleFailure .cancelled step rest).2 = .returned := by
  unfold handleFailure
  cases haction : step.onFailure with
  | failWorkflow => rfl
  | continueNextStep =>
    cases rest with
    | nil => rfl
    | cons => rfl
  | retryIndefinitely => exact absurd haction hne

/-- One stretch of the engine. -/
theorem declared_step (hattempts : ∀ step ∈ d.steps, Allowed d step 1) {x y : Engine}
    {event : Event} (h : x.point.Declared d log) (hmeets : Retries d x event)
    (hstep : Step d x event y) :
    y.point.Declared d (executed x event ++ log) := by
  rw [hstep]
  rcases x with ⟨status, p⟩
  cases event with
  | cancelWorkflow => exact h
  | advance outcome =>
    cases p with
    | execute step attempt rest =>
      rcases h with ⟨os, hupto, rfl⟩
      have hran := hupto.execute outcome
      have hfailed := fun hfails => failed_of_upto hran fun hind => hmeets hind hfails
      cases outcome with
      | success => exact hran.past (.inl rfl)
      | skip => exact declared_nextStep (hran.past (.inr (.inl rfl)))
      | failure | error | timeout => exact hfailed trivial
    | workflowStarted | onSuccess => exact declared_nextStep h
    | stepFailed _ _ _ willRetry =>
      cases willRetry with
      | true => exact h
      | false => exact ⟨_, h⟩
    | executeStepWithRetry step rest =>
      -- The second look in front of the first attempt.
      rw [Engine.step, advance, attemptStep]
      split_ifs with hc
      · subst hc
        have hreturned := returned_of_cancelled rest fun hind => hmeets hind rfl
        show Point.Declared d log (handleFailure .cancelled step rest).2
        rw [hreturned]
        exact .inl ⟨_, h⟩
      · have hone := hattempts step (h.suffix.subset (mem_cons_self ..))
        exact ⟨[], ⟨⟨log, h, rfl⟩, hone, forall_mem_nil _⟩, rfl⟩
    | sleep =>
      rcases h with ⟨os, o, hupto, rfl, hagain⟩
      rw [Engine.step, advance, attemptStep]
      split_ifs with hc
      · exact declared_handleFailure (fun hind => hmeets hind hc) hupto
      · exact ⟨o :: os, hagain, rfl⟩
    | onFailure =>
      rcases h with ⟨_, os, o, hupto, _, hne⟩
      exact declared_handleFailure hne hupto
    | stepStarted | stepSucceeded | stepRetrying | returned | panicked => exact h

/-- No panic, and every step runs as declared. -/
theorem retries_declared (hattempts : ∀ step ∈ d.steps, Allowed d step 1)
    {tr : List (Engine × Event × Engine)} {x : Engine} (hr : Run (Step d) d.start tr x)
    (hmeets : ∀ e ∈ tr, Retries d e.1 e.2.1) :
    x.point ≠ .panicked ∧ Declares d (executions tr) := by
  have h : x.point.Declared d (executions tr) := by
    induction hr with
    | nil => exact .start
    | snoc event hr hstep ih =>
      have hold := ih fun e he => hmeets e (mem_append_left _ he)
      have hlast := hmeets _ (mem_append_right _ (mem_singleton_self _))
      rw [executions, reverse_append]
      exact declared_step hattempts hold hlast hstep
  rcases x with ⟨status, p⟩
  refine ⟨fun hp => by rwa [hp] at h, ?_⟩
  cases p with
  | workflowStarted | executeStepWithRetry | stepSucceeded | onSuccess => exact .inl ⟨_, h⟩
  | stepStarted | execute => exact .inr ⟨_, _, _, _, h.choose_spec.1, Nat.zero_le 1⟩
  | stepFailed | stepRetrying | sleep => exact h.upto
  | onFailure => exact h.choose_spec.upto
  | returned => exact h
  | panicked => exact h.elim

/-- A step that is retried indefinitely times out once, and then succeeds. -/
theorem retries_declared_timeout : let d : WorkflowDefinition := ⟨[⟨none, .retryIndefinitely⟩], 3⟩
    ∃ tr x, Run (Step d) d.start tr x ∧ executions tr = [(0, .success), (0, .timeout)] ∧
      x.point ≠ .panicked ∧ Declares d (executions tr) := by
  intro d
  have htimeout : Run (Step d) d.start _ _ := .snoc (.advance .timeout)
    (.snoc (.advance .success) (.snoc (.advance .success) (.snoc (.advance .success) .nil
      rfl) rfl) rfl) rfl
  have hr : Run (Step d) d.start _ _ := .snoc (.advance .success) (.snoc (.advance .success)
    (.snoc (.advance .success) (.snoc (.advance .success) (.snoc (.advance .success) htimeout
      rfl) rfl) rfl) rfl) rfl
  refine ⟨_, _, hr, rfl, retries_declared (forall_mem_singleton.mpr fun h => absurd rfl h) hr ?_⟩
  simp [Retries, Outcome.Fails, Engine.step, advance, nextStep, attemptStep, willRetry,
    WorkflowDefinition.start, d]

/-- A step that comes to `Failure` panics, although it is retried indefinitely. -/
theorem retries_panics : let d : WorkflowDefinition := ⟨[⟨none, .retryIndefinitely⟩], 3⟩
    ∃ tr x, Run (Step d) d.start tr x ∧ x.point = .panicked :=
  ⟨_, _, .snoc (.advance .failure) (.snoc (.advance .failure) (.snoc (.advance .failure)
    (.snoc (.advance .failure) (.snoc (.advance .failure) (.snoc (.advance .failure) .nil
      rfl) rfl) rfl) rfl) rfl) rfl, rfl⟩

end SglangInc.Workflow
