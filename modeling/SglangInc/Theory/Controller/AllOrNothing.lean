import SglangInc.Theory.Controller.Safety

/-!
# Failed Requests

What a `CreateGroup` that does not grant a group leaves behind.

`undo_funcs` is a local list until the last line of the handler, so when a
call raises in the middle the record of what has been acquired is dropped
with it. The requests that leave the controller as it was are therefore the
ones turned down before the first acquisition (`Refused`) and the ones that
cannot raise at all (`Serviceable`). The second kind never fails, so
`createGroup_unchanged_iff` says that a request which fails after the
resource check always leaves something behind.

A reply with group id 0 counts as a failure, so the argument needs the ids
in the pool to be positive. This holds in every state the servicer can be in,
after failed requests as well (`positiveIds_handles`).
-/

namespace SglangInc.Controller

open List Segments EState

/-- The state a request leaves when it replies with the NULL group or
    raises. -/
def failedState : EStateM.Result Exn State CreateGroupReply → Option State
  | .ok reply s => if reply.groupId = 0 then some s else none
  | .error _ s => some s

/-- The resources, the undo table and the installed entries are the same. -/
structure Unchanged (s s' : State) : Prop where
  memseg : s'.memseg = s.memseg
  freeGroup : s'.freeGroup = s.freeGroup
  freeNode : s'.freeNode = s.freeNode
  recirPortCnt : s'.recirPortCnt = s.recirPortCnt
  undo : s'.undo = s.undo
  entries : s'.entries = s.entries

theorem Unchanged.refl (s : State) : Unchanged s s := ⟨rfl, rfl, rfl, rfl, rfl, rfl⟩

/-- There is room for the request, and every call made for it succeeds. -/
def Serviceable (topo : Topo) (bfrt : Bfrt) (request : CreateGroupRequest) (s : State) : Prop :=
  ∃ segIndex segAddr, fitSeg s.memseg request.memorySize = some (some (segIndex, segAddr)) ∧
    Installable topo bfrt request segAddr s

/-- Group id 0 is neither free nor recorded to be freed. -/
structure PositiveIds (s : State) : Prop where
  pool : 0 ∉ s.freeGroup
  recorded : ∀ g ∈ s.undo, UndoFunc.freeGroup 0 ∉ g.2

variable (topo : Topo) (bfrt : Bfrt)

theorem positiveIds_init : PositiveIds (State.init topo) where
  pool := fun h => absurd (mem_range'_1.mp h).1 (by omega)
  recorded := forall_mem_nil _

/-- One recorded call leaves the undo table alone and returns at most its own
    id to the pool. -/
theorem execUndo_pool (f : UndoFunc) (s : State) (hf : f ≠ .freeGroup 0) (hpool : 0 ∉ s.freeGroup) :
    0 ∉ (finalState (execUndo bfrt f s)).freeGroup ∧
      (finalState (execUndo bfrt f s)).undo = s.undo := by
  cases f with
  | freeSeg addrL addrR =>
    simp only [execUndo, bind_run, get_run]
    cases freeSeg s.memseg addrL addrR with
    | none | some => exact ⟨hpool, rfl⟩
  | freeGroup groupid =>
    refine ⟨fun h => ?_, rfl⟩
    rcases mem_append.mp h with h | h
    · exact hpool h
    · exact hf (by rw [← mem_singleton.mp h])
  | freeNode | recirPortDec => exact ⟨hpool, rfl⟩
  | delete key =>
    simp only [execUndo, deleteEntry, bind_run, get_run]
    split_ifs
    all_goals exact ⟨hpool, rfl⟩

theorem execUndos_pool (funcs : List UndoFunc) (s : State) (hf : UndoFunc.freeGroup 0 ∉ funcs)
    (hpool : 0 ∉ s.freeGroup) : 0 ∉ (finalState (execUndos bfrt funcs s)).freeGroup ∧
    (finalState (execUndos bfrt funcs s)).undo = s.undo := by
  induction funcs generalizing s with
  | nil => exact ⟨hpool, rfl⟩
  | cons f funcs ih =>
    rw [mem_cons, not_or] at hf
    have hone := execUndo_pool bfrt f s (fun h => hf.1 h.symm) hpool
    rw [execUndos, bind_run]
    cases hrun : execUndo bfrt f s with
    | error e s' => rwa [hrun] at hone
    | ok u s' =>
      rw [hrun] at hone
      rcases ih s' hf.2 hone.1 with ⟨hp, hu⟩
      exact ⟨hp, hu.trans hone.2⟩

/-- A group that goes gives back its own id. -/
theorem positiveIds_destroyGroup (groupid : Nat) (s : State) (h : PositiveIds s) :
    PositiveIds (finalState (destroyGroup bfrt groupid s)) := by
  simp only [destroyGroup, bind_run, get_run]
  cases hlook : s.undo.lookup groupid with
  | none => exact h
  | some funcs =>
    have hrec : UndoFunc.freeGroup 0 ∉ funcs.reverse := by
      rw [mem_reverse]
      rcases lookup_eq_some_iff.mp hlook with ⟨l, r, hundo, _⟩
      refine h.recorded (groupid, funcs) ?_
      rw [hundo]
      exact mem_append_right _ mem_cons_self
    have hpool := execUndos_pool bfrt funcs.reverse s hrec h.pool
    simp only [bind_run]
    cases hrun : execUndos bfrt funcs.reverse s with
    | error e s' =>
      rw [hrun] at hpool
      exact ⟨hpool.1, fun g hg => h.recorded g (hpool.2 ▸ hg)⟩
    | ok u s' =>
      rw [hrun] at hpool
      refine ⟨hpool.1, fun g hg => h.recorded g (hpool.2 ▸ (mem_filter.mp hg).1)⟩

/-- A new group takes its id from the pool. -/
theorem positiveIds_createGroup (request : CreateGroupRequest)
    (s : State) (h : PositiveIds s) :
    PositiveIds (finalState (createGroup topo bfrt request s)) := by
  have hpool := h.pool
  have hc := created_createGroup topo bfrt request s
  generalize createGroup topo bfrt request s = out at hc ⊢
  cases hc with
  | null | typeError => exact h
  | granted hfg =>
    rw [hfg, mem_cons, not_or] at hpool
    constructor
    · simp only [finalState, granted, hfg, drop_one, tail_cons]
      exact hpool.2
    · intro g hg
      simp only [finalState, granted, hfg, headD_cons, mem_cons] at hg
      rcases hg with rfl | hg
      · intro hmem
        rw [undoFuncs_eq, mem_append, mem_map] at hmem
        rcases hmem with hmem | ⟨k, _, hk⟩
        · simp only [mem_cons, reduceCtorEq, UndoFunc.freeGroup.injEq, not_mem_nil, or_false,
            false_or] at hmem
          exact hpool.1 hmem
        · cases hk
      · exact h.recorded g (mem_filter.mp hg).1
  | raised _ hfg _ _ hundo =>
    rw [hfg, mem_cons, not_or] at hpool
    exact ⟨hpool.2, fun g hg => h.recorded g (hundo ▸ hg)⟩

/-- Any request keeps the ids positive. -/
theorem positiveIds_handles (s s' : State) (r : Request)
    (h : PositiveIds s) (hstep : Handles topo bfrt s r s') : PositiveIds s' := by
  cases r with
  | create request =>
    have hc := positiveIds_createGroup topo bfrt request s h
    rcases hstep with ⟨reply, hrun⟩ | ⟨e, hrun⟩ <;> rwa [hrun] at hc
  | destroy groupid =>
    have hd := positiveIds_destroyGroup bfrt groupid s h
    rcases hstep with hrun | ⟨e, hrun⟩
    · have hrun' : destroyGroup bfrt groupid s = .ok () s' := hrun
      rwa [hrun'] at hd
    · rwa [hrun] at hd

theorem positiveIds_run {topo : Topo} {bfrt : Bfrt} {tr : List (State × Request × State)}
    {s : State} (hr : Run (Handles topo bfrt) (State.init topo) tr s) : PositiveIds s :=
  hr.inv (positiveIds_init topo) fun t a u => positiveIds_handles topo bfrt t u a

/-- In every state the servicer can be in, failed requests included, a
    request that grants no group leaves the controller as it was exactly when
    it is refused by the resource check or no call made for it can raise. -/
theorem createGroup_unchanged_iff (bfrt : Bfrt)
    (tr : List (State × Request × State)) (s : State)
    (hr : Run (Handles topo bfrt) (State.init topo) tr s) (request : CreateGroupRequest) :
    (∀ s', failedState (createGroup topo bfrt request s) = some s' → Unchanged s s') ↔
      Refused request s ∨ Serviceable topo bfrt request s := by
  have hpos := positiveIds_run hr
  have hc := created_createGroup topo bfrt request s
  generalize createGroup topo bfrt request s = out at hc ⊢
  cases hc with
  | null href | typeError href =>
    refine ⟨fun _ => .inl href, fun _ s' hs' => ?_⟩
    cases hs'
    exact Unchanged.refl s
  | @granted gid _ _ _ _ _ _ hfg hfit _ hinst =>
    -- The request is granted, and its id is not 0.
    have hgid : ¬gid = 0 := fun h0 => hpos.pool (by rw [hfg, h0]; exact mem_cons_self)
    refine ⟨fun _ => .inr ⟨_, _, hfit, hinst⟩, fun _ s' hs' => ?_⟩
    rw [failedState, if_neg hgid] at hs'
    cases hs'
  | raised hnr hfg hfit hno =>
    -- The request raises, and the id it took is gone from the pool.
    constructor
    · intro hsame
      have hpool := (hsame _ rfl).freeGroup
      rw [hfg] at hpool
      exact absurd (congrArg List.length hpool) (by simp only [length_cons]; omega)
    · rintro (href | ⟨_, _, hfit', hinst⟩)
      · exact absurd href hnr
      · cases hfit.symm.trans hfit'
        exact absurd hinst hno

/-- A request for more memory than is left, after one group is up. -/
theorem createGroup_unchanged_iff_full :
    ∃ tr s, Run (Handles onePort distinctKeys) (State.init onePort) tr s ∧ tr.length = 1 ∧
      ∀ s', failedState (createGroup onePort distinctKeys ⟨[⟨1, 11, 0⟩], switchMemSize⟩ s) =
        some s' → Unchanged s s' := by
  have hsome : (handleAll onePort distinctKeys [.create (onePacket 10)]
    (State.init onePort)).map (fun out => (out.1.length, out.2.memseg)) =
      some (1, [(256, switchMemSize)]) := by decide +kernel
  rcases Option.map_eq_some_iff.mp hsome with ⟨⟨tr, s⟩, hs, hfields⟩
  rw [Prod.mk.injEq] at hfields
  have hr : Run (Handles onePort distinctKeys) (State.init onePort) tr s :=
    (run_handleAll _ _ _ _ _ hs).mono fun _ _ _ h => .inl h
  refine ⟨tr, s, hr, hfields.1, ?_⟩
  refine (createGroup_unchanged_iff onePort distinctKeys tr s hr _).mpr (.inl (.inr (.inl ?_)))
  rw [hfields.2]
  decide +kernel

/-- A member whose IP is not in the topology, on the initial state: the
    handler raises, and the memory, the group id, the node, the port count
    and four table entries stay taken. -/
theorem createGroup_unknown_ip :
    ∃ s', createGroup onePort distinctKeys ⟨[⟨2, 10, 0⟩], mtuSize⟩ (State.init onePort) =
        .error (.exception "port not found for the given IP") s' ∧
      s'.memseg = [(256, switchMemSize)] ∧ s'.freeGroup.length = 254 ∧
      s'.freeNode.length = 254 ∧ s'.recirPortCnt = [1] ∧ s'.entries.length = 4 ∧ s'.undo = [] := by
  have hobs : (match createGroup onePort distinctKeys ⟨[⟨2, 10, 0⟩], mtuSize⟩
      (State.init onePort) with
    | .ok _ _ => false
    | .error e s' => e == .exception "port not found for the given IP" &&
        (s'.memseg == [(256, switchMemSize)] && (s'.freeGroup.length == 254 &&
        (s'.freeNode.length == 254 && (s'.recirPortCnt == [1] &&
        (s'.entries.length == 4 && s'.undo == [])))))) = true := by decide +kernel
  cases hrun : createGroup onePort distinctKeys ⟨[⟨2, 10, 0⟩], mtuSize⟩ (State.init onePort) with
  | ok reply s' =>
    rw [hrun] at hobs
    exact absurd hobs Bool.false_ne_true
  | error e s' =>
    simp only [hrun, Bool.and_eq_true, beq_iff_eq] at hobs
    exact ⟨s', by rw [hobs.1], hobs.2⟩

end SglangInc.Controller
