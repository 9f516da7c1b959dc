import Mathlib.Logic.Function.Basic

/-!
# The Worker Registry

`core/worker_registry.rs`: the workers by their ids, and four indices over them, each a
map of its own. A map is a function here, and a worker has a number for the object it is.
`Uuid::new_v4` is a library's: the id it returns is an argument of `register`, and all that
is known of it is that no registered worker has it (`Call.Fresh`).
-/

namespace SglangInc.Registry

open Function

/-- `WorkerType`. -/
inductive WorkerType where
  | regular | prefill (bootstrapPort : Option Nat) | decode
deriving DecidableEq, Repr

/-- `ConnectionMode`. -/
inductive ConnectionMode where
  | http | grpc (port : Option Nat)
deriving DecidableEq, Repr

/-- What the registry reads of a worker. -/
structure Worker where
  url : String
  modelId : String
  workerType : WorkerType
  connectionMode : ConnectionMode
  object : Nat
deriving DecidableEq, Repr

/-- The workers by id, and the indexes. -/
structure WorkerRegistry where
  workers : Nat → Option Worker
  modelWorkers : String → List Nat
  modelIndex : String → List Worker
  typeWorkers : WorkerType → List Nat
  connectionWorkers : ConnectionMode → List Nat
  urlToId : String → Option Nat

namespace WorkerRegistry

/-- No workers. -/
def new : WorkerRegistry :=
  ⟨fun _ => none, fun _ => [], fun _ => [], fun _ => [], fun _ => [], fun _ => none⟩

/-- `index.entry(key).or_default().push(x)`. -/
def push {κ α : Type} [DecidableEq κ] (index : κ → List α) (key : κ) (x : α) : κ → List α :=
  update index key (index key ++ [x])

/-- `index.get_mut(key)`, and `retain` on what is there. -/
def retain {κ α : Type} [DecidableEq κ] (index : κ → List α) (key : κ) (keep : α → Bool) :
    κ → List α :=
  update index key ((index key).filter keep)

variable (r : WorkerRegistry)

/-- `register`. A url that is known keeps its id, and another one gets `newId`. -/
def register (worker : Worker) (newId : Nat) : WorkerRegistry :=
  let id := (r.urlToId worker.url).getD newId
  { workers := update r.workers id (some worker)
    urlToId := update r.urlToId worker.url (some id)
    modelWorkers := push r.modelWorkers worker.modelId id
    modelIndex := push r.modelIndex worker.modelId worker
    typeWorkers := push r.typeWorkers worker.workerType id
    connectionWorkers := push r.connectionWorkers worker.connectionMode id }

/-- `remove`. -/
def remove (id : Nat) : WorkerRegistry :=
  match r.workers id with
  | none => r
  | some worker =>
    { r with
      workers := update r.workers id none
      urlToId := update r.urlToId worker.url none
      modelWorkers := retain r.modelWorkers worker.modelId (· ≠ id)
      modelIndex := retain r.modelIndex worker.modelId (·.url ≠ worker.url)
      typeWorkers := retain r.typeWorkers worker.workerType (· ≠ id)
      connectionWorkers := retain r.connectionWorkers worker.connectionMode (· ≠ id) }

/-- `remove_by_url`. -/
def removeByUrl (url : String) : WorkerRegistry :=
  match r.urlToId url with
  | none => r
  | some id => remove { r with urlToId := update r.urlToId url none } id

/-- `get_by_url`. -/
def getByUrl (url : String) : Option Worker := (r.urlToId url).bind r.workers

/-- `get_by_model`, by the ids. -/
def getByModel (modelId : String) : List Worker := (r.modelWorkers modelId).filterMap r.workers

/-- `get_by_model_fast`, from the index of workers. -/
def getByModelFast (modelId : String) : List Worker := r.modelIndex modelId

/-- `get_by_type`. -/
def getByType (workerType : WorkerType) : List Worker :=
  (r.typeWorkers workerType).filterMap r.workers

/-- `get_by_connection`. -/
def getByConnection (connectionMode : ConnectionMode) : List Worker :=
  (r.connectionWorkers connectionMode).filterMap r.workers

end WorkerRegistry

/-- The calls that change the registry. -/
inductive Call where
  | register (worker : Worker) (newId : Nat)
  | remove (id : Nat)
  | removeByUrl (url : String)

/-- The registry after a call. -/
def WorkerRegistry.call (r : WorkerRegistry) : Call → WorkerRegistry
  | .register worker newId => r.register worker newId
  | .remove id => r.remove id
  | .removeByUrl url => r.removeByUrl url

/-- A new id is not one of a registered worker. -/
def Call.Fresh (r : WorkerRegistry) : Call → Prop
  | .register _ newId => r.workers newId = none
  | _ => True

/-- What is registered, in the order of the registrations: the workers with their ids. -/
abbrev Book := List (Nat × Worker)

/-- The last worker registered under a URL. -/
def Book.last (b : Book) (url : String) : Option (Nat × Worker) := b.find? (·.2.url = url)

/-- What a call means for it. -/
def Book.call (b : Book) : Call → Book
  | .register worker newId =>
    b.filter (·.2.url ≠ worker.url) ++ [(((b.last worker.url).map Prod.fst).getD newId, worker)]
  | .remove id => b.filter (·.1 ≠ id)
  | .removeByUrl url => b.filter (·.2.url ≠ url)

/-- One call. -/
def Step (s : WorkerRegistry × Book) (call : Call) (t : WorkerRegistry × Book) : Prop :=
  call.Fresh s.1 ∧ t = (s.1.call call, Book.call s.2 call)

end SglangInc.Registry
