import SglangInc.Core.Workflow

/-!
# Final States of a Workflow

Where a cancelled workflow stays cancelled (`cancelled_final`), and where it does not
(`cancelled_completes`).

The engine looks at the status before it enters a step and before each attempt, and nowhere
else. Behind the last step it writes that the workflow is complete, and a step that fails, or
is found cancelled in front of an attempt, may write that the workflow failed. So a call has
to come while the engine will still look (`Point.Heeds`), and afterwards the step that runs
must not fail the workflow.
-/

namespace SglangInc.Workflow

open List

/-- The status is final. -/
def WorkflowStatus.Final (status : WorkflowStatus) : Prop :=
  status = .completed ∨ status = .failed ∨ status = .cancelled

/-- The execution has failed. -/
def Outcome.Fails : Outcome → Prop
  | .success | .skip => False
  | _ => True

/-- A failure of the step leaves the status. -/
def Tolerates (step : StepDefinition) (rest : List StepDefinition) : Prop :=
  step.onFailure = .retryIndefinitely ∨ step.onFailure = .continueNextStep ∧ rest ≠ []

/-- The engine looks at the status before it writes it, if the step that runs does not
    fail. -/
def Point.Heeds : Point → Prop
  | .workflowStarted rest | .stepStarted _ _ rest | .execute _ _ rest
  | .stepSucceeded rest | .onSuccess rest => rest ≠ []
  | .executeStepWithRetry step rest | .stepFailed step _ rest _ | .stepRetrying step _ rest
  | .sleep step _ rest | .onFailure step rest => Tolerates step rest
  | .returned | .panicked => True

/-- The executor does not fail the workflow. -/
def Point.Spared (outcome : Outcome) : Point → Prop
  | .execute step _ _ => outcome.Fails → step.onFailure ≠ .failWorkflow
  | _ => True

/-- What a call, and an executor behind a call, has to meet. -/
def Meets (x : Engine) : Event → Prop
  | .cancelWorkflow => x.point.Heeds
  | .advance outcome => x.status = .cancelled → x.point.Spared outcome

/-- A final status is one the engine has returned with, or a call that it heeds. -/
def Inv (x : Engine) : Prop :=
  (x.status = .cancelled → x.point.Heeds) ∧
    (x.status = .completed ∨ x.status = .failed → x.point = .returned)

/-- What the engine may come to from a status. -/
def Reaches (status : WorkflowStatus) (next : WorkflowStatus × Point) : Prop :=
  Inv ⟨next.1, next.2⟩ ∧ (status.Final → next.1 = status)

section Steps

variable {d : WorkflowDefinition} {status : WorkflowStatus} {rest : List StepDefinition}

section

variable (hopen : status.Final → status = .cancelled)
include hopen

/-- Of the final statuses only a cancelled one is met on the way. -/
theorem reaches_self {p : Point}
    (hp : status = .cancelled → p.Heeds) : Reaches status (status, p) := by
  refine ⟨⟨hp, fun hf => ?_⟩, fun _ => rfl⟩
  rcases hf with rfl | rfl
  · cases hopen (.inl rfl)
  · cases hopen (.inr (.inl rfl))

theorem reaches_nextStep
    (hrest : status = .cancelled → rest ≠ []) : Reaches status (nextStep status rest) := by
  cases rest with
  | nil => exact ⟨⟨nofun, fun _ => rfl⟩, fun hf => absurd rfl (hrest (hopen hf))⟩
  | cons step rest =>
    rw [nextStep]
    split_ifs with hc
    · exact reaches_self hopen fun _ => trivial
    · exact reaches_self hopen fun h => absurd h hc

/-- A failure of the step, by its `on_failure`. -/
theorem reaches_handleFailure {step : StepDefinition}
    (h : status = .cancelled → Tolerates step rest) :
    Reaches status (handleFailure status step rest) := by
  unfold handleFailure
  cases haction : step.onFailure with
  | failWorkflow =>
    refine ⟨⟨nofun, fun _ => rfl⟩, fun hf => ?_⟩
    rcases h (hopen hf) with ht | ht
    · cases haction.symm.trans ht
    · cases haction.symm.trans ht.1
  | continueNextStep =>
    refine reaches_nextStep hopen fun hc => (h hc).elim (fun ht => ?_) And.right
    cases haction.symm.trans ht
  | retryIndefinitely => exact reaches_self hopen fun _ => trivial

theorem reaches_attemptStep {step : StepDefinition} {attempt : Nat}
    (h : status = .cancelled → Tolerates step rest) :
    Reaches status (attemptStep status step attempt rest) := by
  rw [attemptStep]
  split_ifs with hc
  · exact reaches_handleFailure hopen h
  · exact reaches_self hopen fun hc' => absurd hc' hc

end

/-- One stretch of the engine. -/
theorem reaches_advance {p : Point} {outcome : Outcome} (h : Inv ⟨status, p⟩)
    (ho : status = .cancelled → p.Spared outcome) :
    Reaches status (advance d outcome status p) := by
  by_cases hreturned : p = .returned
  · rw [hreturned] at h ⊢
    exact ⟨h, fun _ => rfl⟩
  have hopen : status.Final → status = .cancelled := by
    rintro (hf | hf | hf)
    · exact absurd (h.2 (.inl hf)) hreturned
    · exact absurd (h.2 (.inr hf)) hreturned
    · exact hf
  cases p with
  | workflowStarted | onSuccess => exact reaches_nextStep hopen h.1
  | stepStarted | stepSucceeded | stepRetrying | returned | panicked => exact reaches_self hopen h.1
  | stepFailed _ _ _ willRetry => cases willRetry <;> exact reaches_self hopen h.1
  | onFailure => exact reaches_handleFailure hopen h.1
  | executeStepWithRetry | sleep => exact reaches_attemptStep hopen h.1
  | execute step attempt rest =>
    -- A failure is tolerated, since it does not fail the workflow.
    have hfails : outcome.Fails → status = .cancelled → Tolerates step rest := by
      intro hf hc
      cases haction : step.onFailure with
      | failWorkflow => exact absurd haction (ho hc hf)
      | continueNextStep => exact .inr ⟨haction, h.1 hc⟩
      | retryIndefinitely => exact .inl haction
    cases outcome with
    | success => exact reaches_self hopen h.1
    | skip => exact reaches_nextStep hopen h.1
    | failure | error | timeout => exact reaches_self hopen (hfails trivial)

theorem inv_step {x y : Engine} {event : Event} (h : Inv x) (hmeets : Meets x event)
    (hstep : Step d x event y) : Inv y := by
  rw [hstep]
  cases event with
  | cancelWorkflow =>
    -- The call leaves the engine where it is, which is a place that heeds it.
    refine ⟨fun _ => hmeets, fun hf => ?_⟩
    rcases hf with hf | hf
    · cases hf
    · cases hf
  | advance outcome =>
    have hreaches := reaches_advance (d := d) h hmeets
    exact hreaches.1

end Steps

/-- The engine keeps a final status, and what was cancelled ends cancelled. -/
theorem cancelled_final {d : WorkflowDefinition} {tr : List (Engine × Event × Engine)} {x : Engine}
    (hr : Run (Step d) d.start tr x) (hmeets : ∀ e ∈ tr, Meets e.1 e.2.1) :
    (∀ y outcome z, (y, .advance outcome, z) ∈ tr → y.status.Final → z.status = y.status) ∧
      ((∃ y z, (y, .cancelWorkflow, z) ∈ tr) → x.status = .cancelled) := by
  have hstart : Inv d.start := ⟨nofun, fun hf => by rcases hf with hf | hf <;> cases hf⟩
  constructor
  · intro y outcome z hmem hfinal
    have hinv := (hr.guarded hmeets).inv_mem hstart fun _ _ _ h hs => inv_step h hs.2 hs.1
    have hz : z = y.step d (.advance outcome) := hr.step_of_mem _ hmem
    rw [hz]
    exact (reaches_advance (hinv _ hmem).1 (hmeets _ hmem)).2 hfinal
  · induction hr with
    | nil => exact fun ⟨_, _, hmem⟩ => nomatch hmem
    | @snoc tr t u event hr hstep ih =>
      have hmeets' : ∀ e ∈ tr, Meets e.1 e.2.1 := fun e he => hmeets e (mem_append_left _ he)
      have hlast := hmeets _ (mem_append_right _ (mem_singleton_self _))
      have hinv := (hr.guarded hmeets').inv hstart fun _ _ _ h hs => inv_step h hs.2 hs.1
      rw [hstep]
      cases event with
      | cancelWorkflow => exact fun _ => rfl
      | advance outcome =>
        rintro ⟨y, z, hmem⟩
        rcases mem_append.mp hmem with hold | hnew
        · have hc := ih hmeets' ⟨y, z, hold⟩
          exact ((reaches_advance hinv hlast).2 (.inr (.inr hc))).trans hc
        · cases mem_singleton.mp hnew

/-- Cancelled while the first of two steps runs, a workflow ends before the second. -/
theorem cancelled_final_early : let d : WorkflowDefinition := ⟨[{}, {}], 3⟩
    ∃ tr x, Run (Step d) d.start tr x ∧ x.point = .returned ∧ x.status = .cancelled := by
  intro d
  have hr : Run (Step d) d.start _ _ := .snoc (.advance .success) (.snoc (.advance .success)
    (.snoc (.advance .success) (.snoc .cancelWorkflow (.snoc (.advance .success)
      (.snoc (.advance .success) (.snoc (.advance .success) .nil rfl) rfl) rfl) rfl) rfl) rfl) rfl
  refine ⟨_, _, hr, rfl, (cancelled_final hr ?_).2 ⟨_, _, mem_append_left _ (mem_append_left _
    (mem_append_left _ (mem_append_right _ (.head _))))⟩⟩
  simp [Meets, Point.Heeds, Point.Spared, Outcome.Fails, Engine.step, advance, nextStep,
    attemptStep, WorkflowDefinition.start, d]

/-- Cancelled while its only step runs, a workflow is completed. -/
theorem cancelled_completes : let d : WorkflowDefinition := ⟨[{}], 3⟩
    ∃ tr x, Run (Step d) d.start tr x ∧
      (∃ y outcome z, (y, .advance outcome, z) ∈ tr ∧ y.status = .cancelled ∧
        z.status = .completed) ∧ x.status = .completed := by
  intro d
  refine ⟨_, _, .snoc (.advance .success) (.snoc (.advance .success) (.snoc (.advance .success)
    (.snoc .cancelWorkflow (.snoc (.advance .success) (.snoc (.advance .success)
      (.snoc (.advance .success) .nil rfl) rfl) rfl) rfl) rfl) rfl) rfl,
    ⟨_, _, _, mem_append_right _ (.head _), rfl, rfl⟩, rfl⟩

end SglangInc.Workflow
