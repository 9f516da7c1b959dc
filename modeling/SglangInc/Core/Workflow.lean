import SglangInc.Lib.Runs
import Mathlib.Algebra.Order.Ring.Int

/-!
# The Workflow Engine

`core/workflow/engine.rs`: the execution of one workflow instance, next to calls of
`cancel_workflow`.

A call of `cancel_workflow` can come between any two accesses to the state store, since each
takes its lock and the runtime has several threads. The engine reads the status twice without
an await in between only in front of the first attempt of a step. So a state is the status in
the store with an await or with the place between those two looks (`Point`); elsewhere a call
has the effect of one at the await before. The states of the single steps, the context and
the events are written and never read.
-/

namespace SglangInc.Workflow

/-- `WorkflowStatus`. -/
inductive WorkflowStatus where
  | pending | running | paused | completed | failed | cancelled
deriving DecidableEq, Repr

/-- `FailureAction`. -/
inductive FailureAction where
  | failWorkflow | continueNextStep | retryIndefinitely
deriving DecidableEq, Repr

/-- `StepDefinition`, without its executor. -/
structure StepDefinition where
  /-- `max_attempts` of the step's own retry policy. -/
  retryPolicy : Option Nat := none
  onFailure : FailureAction := .failWorkflow

/-- `default_retry_policy` has 3 attempts unless it is set. -/
structure WorkflowDefinition where
  steps : List StepDefinition
  defaultRetryPolicy : Nat := 3

/-- `get_retry_policy`. -/
def WorkflowDefinition.getRetryPolicy (d : WorkflowDefinition) (step : StepDefinition) : Nat :=
  step.retryPolicy.getD d.defaultRetryPolicy

/-- What comes of the executor of a step, if it is not dropped by the timeout. -/
inductive Outcome where
  | success | skip | failure | error (isRetryable : Bool) | timeout

/-- The places at which a call can come, with the steps behind the present one. -/
inductive Point where
  | workflowStarted (steps : List StepDefinition)
  /-- Behind the look of `execute_workflow`, in front of that of `execute_step_with_retry`. -/
  | executeStepWithRetry (step : StepDefinition) (rest : List StepDefinition)
  | stepStarted (step : StepDefinition) (attempt : Nat) (rest : List StepDefinition)
  | execute (step : StepDefinition) (attempt : Nat) (rest : List StepDefinition)
  | stepSucceeded (rest : List StepDefinition)
  | onSuccess (rest : List StepDefinition)
  | stepFailed (step : StepDefinition) (attempt : Nat) (rest : List StepDefinition)
      (willRetry : Bool)
  | stepRetrying (step : StepDefinition) (attempt : Nat) (rest : List StepDefinition)
  | sleep (step : StepDefinition) (attempt : Nat) (rest : List StepDefinition)
  | onFailure (step : StepDefinition) (rest : List StepDefinition)
  /-- The last event, and behind it. -/
  | returned
  /-- Behind `unreachable!`. -/
  | panicked

/-- The top of the loop over the steps, and what is behind the loop. -/
def nextStep (status : WorkflowStatus) : List StepDefinition → WorkflowStatus × Point
  | [] => (.completed, .returned)
  | step :: rest =>
    if status = .cancelled then (status, .returned)
    else (status, .executeStepWithRetry step rest)

/-- A step that has not worked out, or was found cancelled. -/
def handleFailure (status : WorkflowStatus) (step : StepDefinition)
    (rest : List StepDefinition) : WorkflowStatus × Point :=
  match step.onFailure with
  | .failWorkflow => (.failed, .returned)
  | .continueNextStep => nextStep status rest
  | .retryIndefinitely => (status, .panicked)

/-- Another attempt comes after this one. -/
def willRetry (d : WorkflowDefinition) (step : StepDefinition) (attempt : Nat)
    (outcome : Outcome) : Bool :=
  let maxAttempts :=
    if step.onFailure = .retryIndefinitely then 2 ^ 32 - 1 else d.getRetryPolicy step
  let shouldRetry := match outcome with
    | .error isRetryable => isRetryable
    | .timeout => true
    | _ => false
  shouldRetry && attempt < maxAttempts

/-- The look in front of an attempt. `Err(WorkflowError::Cancelled)` is handled like any
    failure of the step. -/
def attemptStep (status : WorkflowStatus) (step : StepDefinition) (attempt : Nat)
    (rest : List StepDefinition) : WorkflowStatus × Point :=
  if status = .cancelled then handleFailure status step rest
  else (status, .stepStarted step attempt rest)

/-- From one place to the next. The outcome is that of an executor. -/
def advance (d : WorkflowDefinition) (outcome : Outcome) (status : WorkflowStatus) :
    Point → WorkflowStatus × Point
  | .workflowStarted steps => nextStep status steps
  | .executeStepWithRetry step rest => attemptStep status step 1 rest
  | .stepStarted step attempt rest => (status, .execute step attempt rest)
  | .execute step attempt rest =>
    match outcome with
    | .success => (status, .stepSucceeded rest)
    | .skip => nextStep status rest
    | failed => (status, .stepFailed step attempt rest (willRetry d step attempt failed))
  | .stepSucceeded rest => (status, .onSuccess rest)
  | .onSuccess rest => nextStep status rest
  | .stepFailed step attempt rest true => (status, .stepRetrying step attempt rest)
  | .stepFailed step _ rest false => (status, .onFailure step rest)
  | .stepRetrying step attempt rest => (status, .sleep step attempt rest)
  | .sleep step attempt rest => attemptStep status step (attempt + 1) rest
  | .onFailure step rest => handleFailure status step rest
  | .returned => (status, .returned)
  | .panicked => (status, .panicked)

/-- The stored status, and where the engine is. -/
structure Engine where
  status : WorkflowStatus
  point : Point

/-- `start_workflow`. -/
def WorkflowDefinition.start (d : WorkflowDefinition) : Engine :=
  ⟨.running, .workflowStarted d.steps⟩

/-- The engine goes on, or `cancel_workflow` is called. -/
inductive Event where
  | cancelWorkflow
  | advance (outcome : Outcome)

/-- The engine or a call of `cancel_workflow`. -/
def Engine.step (d : WorkflowDefinition) (x : Engine) : Event → Engine
  | .cancelWorkflow => { x with status := .cancelled }
  | .advance outcome =>
    let next := Workflow.advance d outcome x.status x.point
    ⟨next.1, next.2⟩

/-- One step of a run. -/
def Step (d : WorkflowDefinition) (x : Engine) (event : Event) (y : Engine) : Prop :=
  y = x.step d event

end SglangInc.Workflow
