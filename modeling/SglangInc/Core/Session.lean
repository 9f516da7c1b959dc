import SglangInc.Core.Finishing
import SglangInc.Core.PrefillAdder

/-!
# Sessions

`managers/session_controller.py`: the requests of a session form trees, in which
a request continues the text of its parent.

Nodes are objects of the source that refer to each other, and an object keeps its
references when it is taken out of `req_nodes`. The heap is the list of all the
nodes that a session has created, and a reference is a position in it. `req_nodes`
is a dictionary in insertion order. A loop over `.items()` of a dictionary raises
`RuntimeError` when it goes on after the dictionary has changed its size.

Between two calls the requests run: they get output, and they finish. That is not
part of a session, and `SessionOp.progress` lets it do anything to the ids and the
finish reasons of a request.

Of a request only what a session reads and writes is kept. There is a tokenizer:
`create_req` reads its `vocab_size` in any case.
-/

namespace SglangInc.Sessions

open Finish (FinishReason)

/-- The fields of a `Req` that a session reads and writes. -/
structure Req where
  rid : String
  originInputIds : List Int
  originInputIdsUnpadded : List Int
  outputIds : List Int
  maxNewTokens : Option Nat
  finishedReason : Option FinishReason
  toFinish : Option FinishReason

/-- `finished`. -/
def Req.finished (req : Req) : Bool := req.finishedReason.isSome

/-- `set_finish_with_abort`. -/
def Req.setFinishWithAbort (req : Req) (errorMsg : String) : Req :=
  { req with originInputIds := [0], toFinish := some (.abort errorMsg) }

/-- `SessionReqNode`, with indices of the heap for its links. -/
structure SessionReqNode where
  req : Req
  parent : Option Nat
  childs : List Nat

/-- `abort`. -/
def SessionReqNode.abort (node : SessionReqNode) : SessionReqNode :=
  match node.req.finishedReason with
  | none => { node with req := { node.req with toFinish := some (.abort "Aborted") } }
  | some _ => node

/-- What the calls raise. -/
inductive Error where
  | keyError (rid : String)
  /-- `dictionary changed size during iteration` -/
  | runtimeError
  | indexError
  | endless
deriving DecidableEq, Repr

/-- All the nodes that were created, and `req_nodes`. -/
structure Session where
  heap : List SessionReqNode
  reqNodes : List (String × Nat)

/-- `SessionParams`. -/
structure SessionParams where
  rid : Option String
  offset : Option Int
  replace : Bool
  dropPreviousOutput : Bool

/-- Part of a `TokenizedGenerateReqInput`. -/
structure ReqInput where
  rid : String
  inputIds : List Int
  maxNewTokens : Option Nat
  sessionParams : SessionParams

namespace Session

/-- A session without requests. -/
def init : Session := ⟨[], []⟩

/-- A node is changed in place. -/
def update (s : Session) (i : Nat) (f : SessionReqNode → SessionReqNode) : Session :=
  { s with heap := s.heap.modify i f }

/-- `del req_dict[rid]`. -/
def delete (s : Session) (rid : String) : Except Error Session :=
  if s.reqNodes.any (·.1 == rid) then
    .ok { s with reqNodes := s.reqNodes.filter (·.1 != rid) }
  else .error (.keyError rid)

/-- `SessionReqNode.clear`, to a depth below `fuel`. -/
def clear : Nat → Session → Nat → Except Error Session
  | 0, _, _ => .error .endless
  | fuel + 1, s, i =>
    match s.heap[i]? with
    | none => .error .endless
    | some node => do
        let s ← node.childs.foldlM (clear fuel) s
        (s.update i .abort).delete node.req.rid

/-- No chain of children is longer than there are nodes. -/
def clearFuel (s : Session) : Nat := s.heap.length + 1

/-- `SessionReqNode.clear_childs`. -/
def clearChilds (s : Session) (i : Nat) : Except Error Session :=
  match s.heap[i]? with
  | none => .error .endless
  | some node => do
      let s ← node.childs.foldlM (clear s.clearFuel) s
      return s.update i fun node => { node with childs := [] }

/-- The loop over `self.req_nodes.items()`, which had `size` entries at its
    start, from its entry `n` on. -/
def clearItems (size : Nat) : Nat → Session → Nat → Except Error Session
  | 0, _, _ => .error .endless
  | rounds + 1, s, n =>
    if s.reqNodes.length ≠ size then .error .runtimeError
    else
      match s.reqNodes[n]? with
      | none => .ok s
      | some (_, i) => do
          let s ← clear s.clearFuel s i
          clearItems size rounds s (n + 1)

/-- What `create_req` finds out about the request it continues: that node, and
    whether the new request is rejected. -/
def findLast (s : Session) (params : SessionParams) : Except Error (Option Nat × Bool × Session) :=
  match params.replace, params.rid with
  | true, none => do
      let s ← s.clearItems s.reqNodes.length (s.reqNodes.length + 1) 0
      return (none, false, s)
  | true, some rid =>
    match s.reqNodes.lookup rid with
    | none => .ok (none, true, s)
    | some i => do
        let s ← (s.update i .abort).clearChilds i
        return (some i, false, s)
  | false, none => .ok (none, false, s)
  | false, some rid =>
    match s.reqNodes.lookup rid with
    | none => .ok (none, true, s)
    | some i =>
      match s.heap[i]? with
      | none => .error .endless
      | some node => .ok (some i, !node.req.finished, s)

/-- The ids of the new request after those of the one it continues, of which
    `inputIds` are the input. -/
def joinIds (params : SessionParams) (lastReq : Req) (lastInputIds inputIds : List Int) :
    List Int :=
  let outputIds := match lastReq.maxNewTokens with
    | none => lastReq.outputIds
    | some maxNewTokens => lastReq.outputIds.take maxNewTokens
  let lastIds := if params.dropPreviousOutput then lastInputIds else lastInputIds ++ outputIds
  match params.offset with
  | none => lastIds ++ inputIds
  | some offset =>
    if offset ≠ 0 then Prefill.sliceTo lastIds offset ++ inputIds else lastIds ++ inputIds

/-- `trim bos token if it is an append`. -/
def trimBos (bosTokenId : Option Int) (inputIds : List Int) : Except Error (List Int) :=
  match inputIds with
  | [] => .error .indexError
  | id :: rest => .ok (if bosTokenId = some id then rest else id :: rest)

/-- A request with the given ids that has not run yet. -/
def newReq (input : ReqInput) (ids idsUnpadded : List Int) : Req :=
  ⟨input.rid, ids, idsUnpadded, [], input.maxNewTokens, none, none⟩

/-- The request for an input, which continues the request of node `last` if
    there is one. -/
def buildReq (s : Session) (bosTokenId : Option Int) (input : ReqInput) (last : Option Nat) :
    Except Error Req :=
  match last with
  | none => .ok (newReq input input.inputIds input.inputIds)
  | some i =>
    match s.heap[i]? with
    | none => .error .endless
    | some node => do
        let inputIds ← trimBos bosTokenId input.inputIds
        return newReq input
          (joinIds input.sessionParams node.req node.req.originInputIds inputIds)
          (joinIds input.sessionParams node.req node.req.originInputIdsUnpadded inputIds)

/-- `self.req_nodes[rid] = i`. -/
def setItem (reqNodes : List (String × Nat)) (rid : String) (i : Nat) : List (String × Nat) :=
  if reqNodes.any (·.1 == rid) then reqNodes.map fun e => if e.1 == rid then (rid, i) else e
  else reqNodes ++ [(rid, i)]

/-- A new node below `last`, and its entry. -/
def addNode (s : Session) (req : Req) (last : Option Nat) : Session :=
  let i := s.heap.length
  let s := match last with
    | none => s
    | some p => s.update p fun node => { node with childs := node.childs ++ [i] }
  ⟨s.heap ++ [⟨req, last, []⟩], setItem s.reqNodes req.rid i⟩

/-- `Session.create_req`. -/
def createReq (s : Session) (bosTokenId : Option Int) (input : ReqInput) :
    Except Error (Req × Session) := do
  let (last, abort, s) ← s.findLast input.sessionParams
  let req ← s.buildReq bosTokenId input last
  if abort then return (req.setFinishWithAbort "Invalid request session id", s)
  else return (req, s.addNode req last)

end Session

/-- A call, or the progress of the request of a node. -/
inductive SessionOp where
  | createReq (bosTokenId : Option Int) (input : ReqInput)
  | progress (i : Nat) (originInputIds outputIds : List Int)
      (finishedReason toFinish : Option FinishReason)

/-- A call that returns, or a change of the requests between calls. -/
inductive SessionStep : Session → SessionOp → Session → Prop
  | createReq {s s' : Session} {bosTokenId : Option Int} {input : ReqInput} {req : Req}
      (hrid : ∀ node ∈ s.heap, node.req.rid ≠ input.rid)
      (h : s.createReq bosTokenId input = .ok (req, s')) :
      SessionStep s (.createReq bosTokenId input) s'
  | progress {s : Session} (i : Nat) (originInputIds outputIds : List Int)
      (finishedReason toFinish : Option FinishReason) :
      SessionStep s (.progress i originInputIds outputIds finishedReason toFinish)
        (s.update i fun node => { node with req := { node.req with
          originInputIds := originInputIds, outputIds := outputIds,
          finishedReason := finishedReason, toFinish := toFinish } })

end SglangInc.Sessions
