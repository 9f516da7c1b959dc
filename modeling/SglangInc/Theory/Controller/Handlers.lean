import SglangInc.Lib.EState
import SglangInc.Theory.Controller.FreeList

/-!
# The Request Handlers

What the two handlers of the controller do to its state, once for all the
results that need it.

`CreateGroup` acquires resources one call at a time and can raise at most of
them. Its ends are listed once, in `Created`: a request is refused, or after the
resource check either everything it installs is accepted, and the handler returns
in the state `granted` spells out, or some call raises and the group id taken from
the pool is gone. Which of the two applies is decided by `Installable`, a condition
on the state before the request.

`DestroyGroup` replays the recorded calls in reverse: first the deletions,
which only touch the installed entries, and then the calls that return the
four resources. `destroyGroup_cases` says that once every key is found the
outcome is `free_seg`'s alone.
-/

namespace SglangInc.Controller

open List Segments EState

section Install

variable (topo : Topo) (bfrt : Bfrt) {s : State}

/-- The IP is in the topology. -/
def Known (ip : Nat) : Prop :=
  (topo.ip2portDict ip).isSome

instance (ip : Nat) : Decidable (Known topo ip) :=
  inferInstanceAs (Decidable ((topo.ip2portDict ip).isSome = true))

/-- The driver accepts the entries one after the other. -/
def acceptsAll : List Entry → List Entry → Bool
  | _, [] => true
  | es, e :: rest => bfrt.accepts es e && acceptsAll (es ++ [e]) rest

/-- The four entries of one member. -/
def entriesOfMember (groupid groupSize aggAddr aggAddrLen i : Nat) (m : MemberInfo)
    (nodeId : Nat) : List Entry :=
  [metadataEntry topo groupid groupSize aggAddr aggAddrLen i m,
    .restoreWithReth groupid i topo.switchIp m.ip m.qpn m.rkey,
    .restore groupid i topo.switchIp m.ip m.qpn,
    .node nodeId i ((topo.ip2portDict m.ip).getD 0)]

/-- The entries of all members, which are numbered from `i` on. -/
def memberEntries (groupid groupSize aggAddr aggAddrLen : Nat) :
    Nat → List (MemberInfo × Nat) → List Entry
  | _, [] => []
  | i, (m, nodeId) :: rest =>
    entriesOfMember topo groupid groupSize aggAddr aggAddrLen i m nodeId ++
    memberEntries groupid groupSize aggAddr aggAddrLen (i + 1) rest

theorem acceptsAll_append (es a b : List Entry) :
    acceptsAll bfrt es (a ++ b) = (acceptsAll bfrt es a && acceptsAll bfrt (es ++ a) b) := by
  induction a generalizing es with
  | nil => rw [nil_append, List.append_nil, acceptsAll, Bool.true_and]
  | cons e a ih =>
    rw [cons_append, acceptsAll, acceptsAll, ih, Bool.and_assoc, append_assoc, singleton_append]

/-- The state with other entries installed: all the install calls change. -/
def State.withEntries (s : State) (es : List Entry) : State :=
  { s with entries := es }

@[simp] theorem State.withEntries_entries (s : State) (es : List Entry) :
    (s.withEntries es).entries = es := rfl

@[simp] theorem State.withEntries_withEntries (s : State) (es es' : List Entry) :
    (s.withEntries es).withEntries es' = s.withEntries es' := rfl

/-- A call that only installs entries. When `P` holds it returns with `es`
    added, and when it does not the call raises, having changed nothing but
    the installed entries. -/
def Installs (x : Ctl Unit) (s : State) (P : Prop) (es : List Entry) : Prop :=
  (P ∧ x s = .ok () (s.withEntries (s.entries ++ es))) ∨
  (¬ P ∧ ∃ e es', x s = .error e (s.withEntries es'))

theorem installs_addEntry (e : Entry) (s : State) :
    Installs (addEntry bfrt e) s (acceptsAll bfrt s.entries [e] = true) [e] := by
  simp only [Installs, addEntry, bind_run, get_run, acceptsAll, Bool.and_true]
  split_ifs with h
  · exact .inl ⟨h, rfl⟩
  · exact .inr ⟨h, .bfrtError, s.entries, rfl⟩

/-- The multicast node of a member: the port is looked up first. -/
theorem installs_node (ip nodeId i : Nat) (s : State) :
    Installs (do let port ← ip2port topo ip; addEntry bfrt (.node nodeId i port)) s (Known topo ip ∧
        acceptsAll bfrt s.entries [.node nodeId i ((topo.ip2portDict ip).getD 0)] = true)
      [.node nodeId i ((topo.ip2portDict ip).getD 0)] := by
  rw [Known, ip2port]
  cases hport : topo.ip2portDict ip with
  | none =>
    refine .inr ⟨fun h => absurd h.1 Bool.false_ne_true,
      .exception "port not found for the given IP", s.entries, rfl⟩
  | some port =>
    rcases installs_addEntry bfrt (.node nodeId i port) s with ⟨ha, hrun⟩ | ⟨ha, e, es', hrun⟩
    · exact .inl ⟨⟨rfl, ha⟩, hrun⟩
    · exact .inr ⟨fun h => ha h.2, e, es', hrun⟩

/-- Two installing calls in a row install what both do. -/
theorem Installs.bind {x y : Ctl Unit} {P Q : Prop} {es es' : List Entry} (hx : Installs x s P es)
    (hy : Installs y (s.withEntries (s.entries ++ es)) Q es') :
    Installs (do x; y) s (P ∧ Q) (es ++ es') := by
  rcases hx with ⟨hP, hrun⟩ | ⟨hP, e, left, hrun⟩
  · rcases hy with ⟨hQ, hrun'⟩ | ⟨hQ, e, left, hrun'⟩
    · refine .inl ⟨⟨hP, hQ⟩, ?_⟩
      simp [bind_run, hrun, hrun']
    · refine .inr ⟨fun h => hQ h.2, e, left, ?_⟩
      simp [bind_run, hrun, hrun']
  · refine .inr ⟨fun h => hP h.1, e, left, ?_⟩
    simp [bind_run, hrun]

theorem Installs.congr {x : Ctl Unit} {P Q : Prop} {es : List Entry} (hx : Installs x s P es)
    (h : P ↔ Q) : Installs x s Q es := by
  rwa [propext h] at hx

theorem installs_installMember (groupid groupSize aggAddr aggAddrLen i : Nat) (m : MemberInfo)
    (nodeId : Nat) (s : State) :
    Installs (installMember topo bfrt groupid groupSize aggAddr aggAddrLen i m nodeId) s
      (Known topo m.ip ∧ acceptsAll bfrt s.entries
        (entriesOfMember topo groupid groupSize aggAddr aggAddrLen i m nodeId) = true)
      (entriesOfMember topo groupid groupSize aggAddr aggAddrLen i m nodeId) := by
  refine Installs.congr ((installs_addEntry bfrt _ s).bind ((installs_addEntry bfrt _ _).bind
      ((installs_addEntry bfrt _ _).bind (installs_node topo bfrt m.ip nodeId i _)))) ?_
  simp only [entriesOfMember, acceptsAll, State.withEntries_entries, Bool.and_true,
    Bool.and_eq_true]
  tauto

/-- The member loop installs the entries of every member, or raises at the
    first that cannot be installed. -/
theorem installs_installMembers (groupid groupSize aggAddr aggAddrLen : Nat) :
    ∀ (pairs : List (MemberInfo × Nat)) (i : Nat) (s : State),
    Installs (installMembers topo bfrt groupid groupSize aggAddr aggAddrLen i pairs) s
      ((∀ p ∈ pairs, Known topo p.1.ip) ∧ acceptsAll bfrt s.entries
        (memberEntries topo groupid groupSize aggAddr aggAddrLen i pairs) = true)
      (memberEntries topo groupid groupSize aggAddr aggAddrLen i pairs) := by
  intro pairs
  induction pairs with
  | nil =>
    intro i s
    refine .inl ⟨⟨by simp, rfl⟩, ?_⟩
    rw [memberEntries, List.append_nil]
    rfl
  | cons p rest ih =>
    intro i s
    refine Installs.congr ((installs_installMember topo bfrt groupid groupSize aggAddr
      aggAddrLen i p.1 p.2 s).bind (ih (i + 1) _)) ?_
    simp only [memberEntries, acceptsAll_append, State.withEntries_entries,
      forall_mem_cons, Bool.and_eq_true]
    tauto

/-- The port `select_recir_port_idx` picks. -/
def recirPortIdx (cnt : List Int) : Option Nat :=
  cnt.min?.map (cnt.idxOf ·)

/-- Everything a granted request installs, in order. -/
def grantEntries (request : CreateGroupRequest) (groupid segAddr port : Nat)
    (node : List Nat) : List Entry :=
  .recirculate groupid port :: (memberEntries topo groupid request.member.length (segAddr / mtuSize)
      (request.memorySize / mtuSize) 0 (request.member.zip node) ++ [.mgid groupid node])

/-- Every call made after the resource check succeeds: there is a
    recirculation port, each member's IP is known and the driver accepts each
    entry. -/
def Installable (request : CreateGroupRequest) (segAddr : Nat) (s : State) : Prop :=
  ∃ idx port, recirPortIdx s.recirPortCnt = some idx ∧ topo.recirPort[idx]? = some port ∧
    (∀ m ∈ request.member, Known topo m.ip) ∧
    acceptsAll bfrt s.entries (grantEntries topo request (s.freeGroup.headD 0) segAddr port
      (s.freeNode.take request.member.length)) = true

/-- The state once memory, group id, nodes and port are taken, with nothing
    installed yet. -/
def acquired (request : CreateGroupRequest) (idx : Nat) (memseg : List Seg) (s : State) : State :=
  { s with
    freeGroup := s.freeGroup.drop 1
    freeNode := s.freeNode.drop request.member.length
    recirPortCnt := s.recirPortCnt.modify idx (· + 1)
    memseg := memseg }

/-- The state a granted request returns in. -/
def granted (request : CreateGroupRequest) (segAddr idx port : Nat) (memseg : List Seg)
    (s : State) : State :=
  let groupid := s.freeGroup.headD 0
  let node := s.freeNode.take request.member.length
  { freeGroup := s.freeGroup.drop 1
    freeNode := s.freeNode.drop request.member.length
    recirPortCnt := s.recirPortCnt.modify idx (· + 1)
    undo := (groupid, undoFuncs topo groupid segAddr request.memorySize idx node request.member) ::
      s.undo.filter (fun g => g.1 ≠ groupid)
    memseg := memseg
    entries := s.entries ++ grantEntries topo request groupid segAddr port node
    regBitmap := fun i => if segAddr / mtuSize ≤ i ∧
      i < segAddr / mtuSize + request.memorySize / mtuSize then (0, 0) else s.regBitmap i }

variable (request : CreateGroupRequest)

/-- A group's entries all go in, or a call raises. -/
theorem installs_installGroup (groupid segAddr port : Nat)
    (node : List Nat) (hnode : request.member.length ≤ node.length) (s : State) :
    Installs (installGroup topo bfrt groupid (segAddr / mtuSize) (request.memorySize / mtuSize)
        port request.member node) s ((∀ m ∈ request.member, Known topo m.ip) ∧
        acceptsAll bfrt s.entries (grantEntries topo request groupid segAddr port node) = true)
      (grantEntries topo request groupid segAddr port node) := by
  -- The member loop runs over pairs, and there is a node for every member.
  have hpairs : (∀ p ∈ request.member.zip node, Known topo p.1.ip) ↔
      ∀ m ∈ request.member, Known topo m.ip := by
    nth_rewrite 2 [← map_fst_zip hnode]
    rw [forall_mem_map]
  refine Installs.congr ((installs_addEntry bfrt (.recirculate groupid port) s).bind
    ((installs_installMembers topo bfrt groupid request.member.length (segAddr / mtuSize)
      (request.memorySize / mtuSize) (request.member.zip node) 0 _).bind
      (installs_addEntry bfrt (.mgid groupid node) _))) ?_
  simp only [hpairs, grantEntries, acceptsAll, acceptsAll_append, State.withEntries_entries,
    append_assoc, Bool.and_eq_true, Bool.and_true]
  tauto

/-- After the resource check: the whole group is installed, or a call raises
    with the group id already taken. -/
theorem grantGroup_cases (segIndex segAddr : Nat) (memseg : List Seg) (s : State)
    (halloc : allocSeg s.memseg segIndex segAddr (segAddr + request.memorySize) = some memseg)
    (hnode : request.member.length ≤ s.freeNode.length) :
    (∃ idx port, Installable topo bfrt request segAddr s ∧
      grantGroup topo bfrt request segIndex segAddr s =
        .ok ⟨s.freeGroup.headD 0, request.member.map (fun m => ⟨topo.switchIp, m.qpn, m.rkey⟩)⟩
          (granted topo request segAddr idx port memseg s)) ∨
    (¬ Installable topo bfrt request segAddr s ∧ ∃ e s',
      grantGroup topo bfrt request segIndex segAddr s = .error e s' ∧
      s'.freeGroup = s.freeGroup.drop 1 ∧ s'.undo = s.undo) := by
  simp only [grantGroup, bind_run, execAllocSeg, get_run, halloc, set_run, modify_run,
    selectRecirPortIdx]
  cases hmin : s.recirPortCnt.min? with
  | none =>
    refine .inr ⟨?_, _, _, rfl, rfl, rfl⟩
    rintro ⟨idx, port, hidx, _⟩
    rw [recirPortIdx, hmin] at hidx
    cases hidx
  | some mn =>
    have hidx : recirPortIdx s.recirPortCnt = some (s.recirPortCnt.idxOf mn) := by
      rw [recirPortIdx, hmin, Option.map_some]
    simp only [pure_run]
    cases hport : topo.recirPort[s.recirPortCnt.idxOf mn]? with
    | none =>
      refine .inr ⟨?_, _, _, rfl, rfl, rfl⟩
      rintro ⟨idx, port, hidx', hp, _⟩
      cases hidx.symm.trans hidx'
      cases hport.symm.trans hp
    | some port =>
      rcases installs_installGroup topo bfrt request (s.freeGroup.headD 0) segAddr port
          (s.freeNode.take request.member.length) (by rw [length_take]; omega)
          (acquired request (s.recirPortCnt.idxOf mn) memseg s) with
        ⟨⟨hk, ha⟩, hrun⟩ | ⟨hbad, e, es', hrun⟩
      · refine .inl ⟨s.recirPortCnt.idxOf mn, port, ⟨_, port, hidx, hport, hk, ha⟩, ?_⟩
        simp only [acquired] at hrun
        simp only [bind_run, hrun]
        rfl
      -- `Installable` names this port and no other.
      refine .inr ⟨?_, e, (acquired request (s.recirPortCnt.idxOf mn) memseg
        s).withEntries es', ?_, rfl, rfl⟩
      · rintro ⟨idx, port', hidx', hp, hk, ha⟩
        cases hidx.symm.trans hidx'
        cases hport.symm.trans hp
        exact hbad ⟨hk, ha⟩
      · simp only [acquired] at hrun
        simp only [bind_run, hrun]
        rfl

/-- The request is turned down before anything is acquired: the size is
    invalid, or there is no room, no group id or too few nodes. -/
def Refused (request : CreateGroupRequest) (s : State) : Prop :=
  fitSeg s.memseg request.memorySize = none ∨ fitSeg s.memseg request.memorySize = some none ∨
  s.freeGroup.length < 1 ∨ s.freeNode.length < request.member.length

/-- The segment found for a request can be cut out of the free list. -/
theorem allocSeg_of_fitSeg (memseg : List Seg) (size index addr : Nat)
    (h : fitSeg memseg size = some (some (index, addr))) :
    ∃ out, allocSeg memseg index addr (addr + size) = some out := by
  rcases fitSeg_spec memseg size index addr h with ⟨_, l, seg, r, rfl, rfl, _⟩
  exact ⟨_, allocSeg_append l r seg addr (addr + size)⟩

/-- What a request comes to. -/
inductive Created (s : State) : EStateM.Result Exn State CreateGroupReply → Prop
  | null : Refused request s → Created s (.ok .null s)
  | typeError : Refused request s → Created s (.error .typeError s)
  | granted {gid rest segIndex segAddr memseg idx port} : s.freeGroup = gid :: rest →
      fitSeg s.memseg request.memorySize = some (some (segIndex, segAddr)) →
      allocSeg s.memseg segIndex segAddr (segAddr + request.memorySize) = some memseg →
      Installable topo bfrt request segAddr s →
      Created s (.ok ⟨gid, request.member.map (fun m => ⟨topo.switchIp, m.qpn, m.rkey⟩)⟩
        (granted topo request segAddr idx port memseg s))
  | raised {gid segIndex segAddr e s'} : ¬Refused request s → s.freeGroup = gid :: s'.freeGroup →
      fitSeg s.memseg request.memorySize = some (some (segIndex, segAddr)) →
      ¬Installable topo bfrt request segAddr s → s'.undo = s.undo → Created s (.error e s')

/-- A request ends in one of these ways. -/
theorem created_createGroup (s : State) :
    Created topo bfrt request s (createGroup topo bfrt request s) := by
  simp only [createGroup, bind_run, get_run]
  cases hfit : fitSeg s.memseg request.memorySize with
  | none => exact .typeError (.inl hfit)
  | some o =>
    cases o with
    | none => exact .null (.inr (.inl hfit))
    | some p =>
      obtain ⟨segIndex, segAddr⟩ := p
      simp only
      split_ifs with hres
      · exact .null (.inr (.inr hres))
      have hnr : ¬Refused request s := by simpa [Refused, hfit] using hres
      rcases allocSeg_of_fitSeg _ _ _ _ hfit with ⟨memseg, halloc⟩
      rcases exists_cons_of_length_pos (l := s.freeGroup) (by omega) with ⟨gid, rest, hpool⟩
      rcases grantGroup_cases topo bfrt request segIndex segAddr memseg s halloc (by omega) with
        ⟨idx, port, hinst, hgrant⟩ | ⟨hno, e, s', hgrant, hfree, hundo⟩
      · rw [hgrant, hpool]
        exact .granted hpool hfit halloc hinst
      · rw [hgrant]
        exact .raised hnr (by rw [hfree, hpool]; rfl) hfit hno hundo

end Install

section Undo

variable (topo : Topo) (bfrt : Bfrt)

/-- The keys the member loop's undo calls delete. -/
def memberKeys (groupid : Nat) : Nat → List (MemberInfo × Nat) → List EntryKey
  | _, [] => []
  | i, (m, nodeId) :: rest =>
    [.metadata m.ip topo.switchIp m.qpn, .restore groupid i true, .restore groupid i false,
      .node nodeId] ++ memberKeys groupid (i + 1) rest

/-- The keys of everything a group installed. -/
def groupKeys (groupid : Nat) (node : List Nat) (member : List MemberInfo) : List EntryKey :=
  .recirculate groupid :: (memberKeys topo groupid 0 (member.zip node) ++ [.mgid groupid])

theorem memberUndo_eq_map (groupid : Nat) : ∀ (pairs : List (MemberInfo × Nat)) (i : Nat),
    memberUndo topo groupid i pairs = (memberKeys topo groupid i pairs).map .delete := by
  intro pairs
  induction pairs with
  | nil => intro i; rfl
  | cons p rest ih =>
    intro i
    rw [memberUndo, memberKeys, ih, map_append]
    rfl

variable (groupid segAddr segSize idx : Nat)

/-- The recorded calls: four that return a resource, then the deletions. -/
theorem undoFuncs_eq (node : List Nat)
    (member : List MemberInfo) : undoFuncs topo groupid segAddr segSize idx node member =
      [.freeSeg segAddr (segAddr + segSize), .freeGroup groupid, .freeNode node,
        .recirPortDec idx] ++ (groupKeys topo groupid node member).map .delete := by
  rw [undoFuncs, groupKeys, memberUndo_eq_map, map_cons, map_append]
  simp

theorem execUndos_append (a b : List UndoFunc) (s : State) :
    execUndos bfrt (a ++ b) s = match execUndos bfrt a s with
      | .ok () s' => execUndos bfrt b s'
      | .error e s' => .error e s' := by
  induction a generalizing s with
  | nil => rfl
  | cons f a ih =>
    rw [cons_append, execUndos, execUndos, bind_run, bind_run]
    cases execUndo bfrt f s with
    | ok u s' => exact ih s'
    | error e s' => rfl

/-- A replay of deletions leaves the entries with none of the keys, or stops
    at one that the driver refuses. -/
theorem execUndos_delete (keys : List EntryKey) (s : State) : execUndos bfrt (keys.map .delete) s =
      .ok () (s.withEntries (s.entries.filter (fun e => e.key ∉ keys))) ∨
    ∃ es, execUndos bfrt (keys.map .delete) s = .error .bfrtError (s.withEntries es) := by
  induction keys generalizing s with
  | nil =>
    refine .inl ?_
    simp only [not_mem_nil, not_false_eq_true, decide_true, filter_true]
    rfl
  | cons k keys ih =>
    rw [map_cons, execUndos, bind_run, execUndo, deleteEntry]
    simp only [bind_run, get_run]
    split_ifs
    · rw [set_run]
      rcases ih (s.withEntries (s.entries.filter (fun e => e.key != k))) with hrun | ⟨es, hrun⟩
      · refine .inl (hrun.trans ?_)
        simp only [State.withEntries_entries, State.withEntries_withEntries,
          filter_filter, mem_cons, not_or]
        congr 3
        funext e
        simp [Bool.and_comm, bne, Bool.beq_eq_decide_eq]
      · exact .inr ⟨es, hrun⟩
    · exact .inr ⟨s.entries, rfl⟩

/-- The state once the four resources are back, up to the memory. -/
def released (groupid idx : Nat) (node : List Nat) (s : State) : State :=
  { s with
    freeGroup := s.freeGroup ++ [groupid]
    freeNode := s.freeNode ++ node
    recirPortCnt := s.recirPortCnt.modify idx (· - 1) }

theorem execUndos_release (node : List Nat) (s : State) :
    execUndos bfrt [.recirPortDec idx, .freeNode node, .freeGroup groupid,
        .freeSeg segAddr (segAddr + segSize)] s =
      match freeSeg s.memseg segAddr (segAddr + segSize) with
      | none => .error .systemExit (released groupid idx node s)
      | some memseg => .ok () { released groupid idx node s with memseg := memseg } := by
  simp only [execUndos, execUndo, bind_run, modify_run, get_run]
  cases freeSeg s.memseg segAddr (segAddr + segSize) with
  | none | some => rfl

/-- The state after a group has been destroyed. -/
def destroyed (groupid idx : Nat) (node : List Nat) (member : List MemberInfo)
    (memseg : List Seg) (s : State) : State :=
  { released groupid idx node s with
    memseg := memseg
    entries := s.entries.filter (fun e => e.key ∉ groupKeys topo groupid node member)
    undo := s.undo.filter (fun g => g.1 ≠ groupid) }

/-- Destroying a recorded group: the driver refuses a deletion, or the
    outcome is decided by `free_seg` alone. -/
theorem destroyGroup_cases (node : List Nat)
    (member : List MemberInfo) (s : State) (hlook : s.undo.lookup groupid =
      some (undoFuncs topo groupid segAddr segSize idx node member)) :
    (∃ es, destroyGroup bfrt groupid s = .error .bfrtError (s.withEntries es)) ∨
    (∃ es, freeSeg s.memseg segAddr (segAddr + segSize) = none ∧ destroyGroup bfrt groupid s =
      .error .systemExit (released groupid idx node (s.withEntries es))) ∨
    ∃ memseg, freeSeg s.memseg segAddr (segAddr + segSize) = some memseg ∧
      destroyGroup bfrt groupid s = .ok () (destroyed topo groupid idx node member memseg s) := by
  have hrev : (undoFuncs topo groupid segAddr segSize idx node member).reverse =
      (groupKeys topo groupid node member).reverse.map .delete ++
      [.recirPortDec idx, .freeNode node, .freeGroup groupid,
        .freeSeg segAddr (segAddr + segSize)] := by
    rw [undoFuncs_eq, reverse_append, ← map_reverse]
    rfl
  simp only [destroyGroup, bind_run, get_run, hlook, hrev, execUndos_append]
  rcases execUndos_delete bfrt (groupKeys topo groupid node member).reverse s with hrun | ⟨es, hrun⟩
  · have hmem : ∀ es, (s.withEntries es).memseg = s.memseg := fun _ => rfl
    simp only [hrun, execUndos_release, hmem]
    cases hfree : freeSeg s.memseg segAddr (segAddr + segSize) with
    | none => exact .inr (.inl ⟨_, rfl, rfl⟩)
    | some memseg =>
      refine .inr (.inr ⟨memseg, rfl, ?_⟩)
      simp [modify_run, destroyed, released, State.withEntries]
  · simp only [hrun]
    exact .inl ⟨es, rfl⟩

end Undo

end SglangInc.Controller
