import SglangInc.Theory.Sessions.Clearing
import SglangInc.Lib.Lookup
import SglangInc.Lib.Runs

/-!
# Session Trees

The trees of a session over any sequence of calls, with requests that run and
finish in between (`session_consistent`).

What holds of `req_nodes` in every state (`SessionOk`): a node without a parent
has an entry, the children of a node with an entry have one, and the parent of a
node with an entry has one and lists it. From that, the nodes with an entry are
those that can be reached from a node without a parent (`SessionOk.in_iff_reach`).

Replacing the whole session does not work. The loop over the entries clears the
first of them, and then the dictionary has changed its size, so any session that
has a request raises (`createReq_replace_all`). The other way for a call to raise
is an append of no ids at all, whose first id is read. `Allowed` leaves these two
out. Every other call returns, keeps `SessionOk`, and does to the requests what it
should (`createReq_spec`).
-/

namespace SglangInc.Sessions

open List Lookup Session Option SessionReqNode

/-- Roots are entries, and an entry's parent and children are too. -/
structure SessionOk (s : Session) : Prop extends Base s where
  root : ∀ {i}, i < s.heap.length → s.parentOf i = none → s.In i
  closed : ∀ {i c}, s.In i → c ∈ s.childsOf i → s.In c
  parent : ∀ {i p}, s.In i → s.parentOf i = some p → s.In p ∧ i ∈ s.childsOf p

/-- A node without a parent, or one that is reached from such a node through the
    lists of children. -/
def Session.Reach (s : Session) (i : Nat) : Prop :=
  ∃ r, r < s.heap.length ∧ s.parentOf r = none ∧ s.Below r i

section Invariant

variable {s : Session}

variable {i : Nat}

theorem SessionOk.in_of_below (h : SessionOk s) {k : Nat} (hi : s.In i) (hb : s.Below i k) :
    s.In k := by
  induction hb with
  | refl => exact hi
  | tail _ hc ih => exact h.closed ih hc

theorem Base.lt_length (h : Base s) (hi : s.In i) : i < s.heap.length := by
  obtain ⟨rid, hmem⟩ := hi
  obtain ⟨node, hnode, -⟩ := h.entry hmem
  exact (List.getElem?_eq_some_iff.mp hnode).1

/-- The entries are the reachable nodes. -/
theorem SessionOk.in_iff_reach (h : SessionOk s) (i : Nat) : s.In i ↔ s.Reach i := by
  constructor
  · intro hi
    -- Parents are older, so going up ends at a node without one.
    induction i using Nat.strong_induction_on with
    | _ i ih =>
      cases hp : s.parentOf i with
      | none => exact ⟨i, h.lt_length hi, hp, Relation.ReflTransGen.refl⟩
      | some p =>
        obtain ⟨hin, hmem⟩ := h.parent hi hp
        obtain ⟨r, hr, hroot, hb⟩ := ih p (h.child hmem).2 hin
        exact ⟨r, hr, hroot, hb.tail hmem⟩
  · rintro ⟨r, hr, hroot, hb⟩
    exact h.in_of_below (h.root hr hroot) hb

theorem sessionOk_init : SessionOk Session.init where
  child := nofun
  nodup := fun _ => nodup_nil
  keys := nodup_nil
  entry := nofun
  root := fun hi => absurd hi (Nat.not_lt_zero _)
  closed := fun hi => nomatch hi.choose_spec
  parent := fun hi => nomatch hi.choose_spec

section Update

variable {f : SessionReqNode → SessionReqNode}

theorem update_heap (k : Nat) :
    (s.update i f).heap[k]? = s.heap[k]?.map fun n => if i = k then f n else n := by
  simp only [update, getElem?_modify]
  rfl

theorem update_childsOf (hf : ∀ node, (f node).childs = node.childs) (k : Nat) :
    (s.update i f).childsOf k = s.childsOf k := by
  simp only [childsOf, update_heap, Option.map_map]
  congr 2
  funext n
  split
  · exact hf n
  · rfl

theorem update_parentOf (hf : ∀ node, (f node).parent = node.parent) (k : Nat) :
    (s.update i f).parentOf k = s.parentOf k := by
  simp only [parentOf, update_heap]
  cases s.heap[k]? with
  | none => rfl
  | some n =>
    split
    · exact hf n
    · rfl

end Update

/-- An update of a node that keeps its links and its rid. -/
theorem SessionOk.update (h : SessionOk s) (i : Nat) {f : SessionReqNode → SessionReqNode}
    (hrid : ∀ node, (f node).req.rid = node.req.rid)
    (hparent : ∀ node, (f node).parent = node.parent)
    (hchilds : ∀ node, (f node).childs = node.childs) : SessionOk (s.update i f) := by
  have hc : (s.update i f).childsOf = s.childsOf := funext (update_childsOf hchilds)
  have hp : (s.update i f).parentOf = s.parentOf := funext (update_parentOf hparent)
  refine ⟨⟨?_, ?_, h.keys, fun {rid k} hk => ?_⟩, ?_, ?_, ?_⟩
  · rw [hc, hp]
    exact h.child
  · rw [hc]
    exact h.nodup
  · obtain ⟨n, hn, hr⟩ := h.entry hk
    rw [update_heap, hn]
    refine ⟨_, rfl, ?_⟩
    split
    · rw [hrid, hr]
    · exact hr
  · rw [hp, Session.update, length_modify]
    exact h.root
  · rw [hc]
    exact h.closed
  · rw [hc, hp]
    exact h.parent

/-- The nodes below the children of a node are cleared, and the node is left
    without children. -/
theorem SessionOk.withoutChilds {s1 : Session} (h : SessionOk s)
    (hcl : Cleared s s1 fun k => ∃ c ∈ s.childsOf i, s.Below c k) :
    SessionOk (s1.update i fun node => { node with childs := [] }) := by
  set t := s1.update i fun node => { node with childs := [] } with ht
  have hself : t.childsOf i = [] := by
    simp only [ht, childsOf, update_heap, if_true]
    cases s1.heap[i]? with
    | none | some => rfl
  have hother : ∀ k, k ≠ i → t.childsOf k = s.childsOf k := by
    intro k hk
    rw [← hcl.childsOf_eq]
    simp only [ht, childsOf, update_heap, if_neg (Ne.symm hk)]
    cases s1.heap[k]? with
    | none | some => rfl
  have hparent : ∀ k, t.parentOf k = s.parentOf k := by
    intro k
    rw [← hcl.parentOf_eq, ht, update_parentOf]
    exact fun _ => rfl
  have hin : ∀ k, t.In k ↔ s.In k ∧ ¬∃ c ∈ s.childsOf i, s.Below c k := hcl.in_iff
  have hbase := hcl.base h.toBase
  constructor
  · constructor
    · intro k c hc
      rw [hparent]
      by_cases hk : k = i
      · rw [hk, hself] at hc
        cases hc
      · rw [hother k hk] at hc
        exact h.child hc
    · intro k
      by_cases hk : k = i
      · rw [hk, hself]
        exact nodup_nil
      · rw [hother k hk]
        exact h.nodup k
    · exact hbase.keys
    · intro rid k hk
      obtain ⟨n, hn, hr⟩ := hbase.entry hk
      rw [ht, update_heap, hn]
      refine ⟨_, rfl, ?_⟩
      split <;> exact hr
  · intro k hk hroot
    rw [hparent] at hroot
    have hlen : t.heap.length = s.heap.length := by
      rw [ht, Session.update, length_modify, hcl.len]
    refine (hin k).mpr ⟨h.root (hlen ▸ hk) hroot, ?_⟩
    -- A node below a child has a parent.
    rintro ⟨c, hc, hb⟩
    rcases Relation.ReflTransGen.cases_tail hb with rfl | ⟨p, -, hpk⟩
    · cases (h.child hc).1.symm.trans hroot
    · cases (h.child hpk).1.symm.trans hroot
  · intro k c hk hc
    obtain ⟨hk, hnot⟩ := (hin k).mp hk
    have hki : k ≠ i := by
      rintro rfl
      rw [hself] at hc
      cases hc
    rw [hother k hki] at hc
    refine (hin c).mpr ⟨h.closed hk hc, ?_⟩
    rintro ⟨c0, hc0, hb⟩
    rcases Relation.ReflTransGen.cases_tail hb with rfl | ⟨p, hcp, hpc⟩
    · -- Then `c` is a child of `i` and of `k`.
      exact hki (some.inj ((h.child hc).1.symm.trans (h.child hc0).1))
    · cases (h.child hc).1.symm.trans (h.child hpc).1
      exact hnot ⟨c0, hc0, hcp⟩
  · intro k p hk hp
    rw [hparent] at hp
    obtain ⟨hk, hnot⟩ := (hin k).mp hk
    obtain ⟨hpin, hmem⟩ := h.parent hk hp
    have hpi : p ≠ i := by
      rintro rfl
      exact hnot ⟨k, hmem, Relation.ReflTransGen.refl⟩
    refine ⟨(hin p).mpr ⟨hpin, ?_⟩, by rw [hother p hpi]; exact hmem⟩
    rintro ⟨c0, hc0, hb⟩
    exact hnot ⟨c0, hc0, hb.tail hmem⟩

section AddNode

variable {req : Req} {last : Option Nat}

section

variable (hlast : ∀ p, last = some p → p < s.heap.length)
include hlast

/-- The nodes after a node was added below an older one. -/
theorem addNode_heap (k : Nat) :
    (s.addNode req last).heap[k]? = if k = s.heap.length then some ⟨req, last, []⟩
      else s.heap[k]?.map fun node =>
        if last = some k then { node with childs := node.childs ++ [s.heap.length] } else node := by
  rcases lt_trichotomy k s.heap.length with hlt | rfl | hgt
  · cases last <;> simp [addNode, update, getElem?_append, getElem_modify, hlt, hlt.ne]
  · cases last <;> simp [addNode, update]
  · have hk : k - s.heap.length ≠ 0 := by omega
    cases last <;> simp [addNode, update, getElem?_append_right, hgt.le, hgt.ne', hk]

theorem addNode_childsOf (k : Nat) : (s.addNode req last).childsOf k =
      s.childsOf k ++ if last = some k then [s.heap.length] else [] := by
  simp only [childsOf, addNode_heap hlast k]
  cases hget : s.heap[k]? with
  | none =>
    have hne : ¬last = some k := fun hl =>
      (List.getElem?_eq_none_iff.mp hget).not_gt (hlast k hl)
    rw [if_neg hne]
    split <;> rfl
  | some node =>
    rw [if_neg (List.getElem?_eq_some_iff.mp hget).1.ne]
    simp only [map_some, getD_some]
    split
    · rfl
    · rw [List.append_nil]

theorem addNode_parentOf (k : Nat) :
    (s.addNode req last).parentOf k = if k = s.heap.length then last else s.parentOf k := by
  simp only [parentOf, addNode_heap hlast k]
  split
  · rfl
  · cases s.heap[k]? with
    | none => rfl
    | some node =>
      split <;> rfl

end

theorem addNode_length : (s.addNode req last).heap.length = s.heap.length + 1 := by
  cases last <;> simp [addNode, update]

theorem addNode_reqNodes (h : Base s) (hfresh : ∀ node ∈ s.heap, node.req.rid ≠ req.rid) :
    (s.addNode req last).reqNodes = s.reqNodes ++ [(req.rid, s.heap.length)] := by
  have hkeys : ¬ s.reqNodes.any (·.1 == req.rid) = true := by
    simp only [List.any_eq_true, beq_iff_eq, not_exists, not_and]
    rintro ⟨rid, i⟩ he
    obtain ⟨node, hnode, rfl⟩ := h.entry he
    exact hfresh node (mem_of_getElem? hnode)
  cases last with
  | none | some => exact if_neg hkeys

/-- A new node without a parent, or below a node that has an entry. -/
theorem SessionOk.addNode (h : SessionOk s)
    (hfresh : ∀ node ∈ s.heap, node.req.rid ≠ req.rid) (hlast : ∀ p, last = some p → s.In p) :
    SessionOk (s.addNode req last) := by
  have hlt : ∀ p, last = some p → p < s.heap.length := fun p hp => h.lt_length (hlast p hp)
  have hnodes : (s.addNode req last).reqNodes = _ := addNode_reqNodes h.toBase hfresh
  have hchilds : ∀ k, (s.addNode req last).childsOf k = _ := addNode_childsOf hlt
  have hparent : ∀ k, (s.addNode req last).parentOf k = _ := addNode_parentOf hlt
  have hin : ∀ k, (s.addNode req last).In k ↔ s.In k ∨ k = s.heap.length := by
    intro k
    simp [In, hnodes, exists_or]
  have hnew : s.childsOf s.heap.length = [] := by
    simp [childsOf]
  -- The new index is a child of no old node, so every clause splits into old and new.
  have hold : ∀ {k c}, c ∈ s.childsOf k → c ≠ s.heap.length := by
    rintro k c hc rfl
    have hp := (h.child hc).1
    simp [parentOf] at hp
  constructor
  · constructor
    · intro k c hc
      rw [hchilds, mem_append] at hc
      rw [hparent]
      rcases hc with hc | hc
      · rw [if_neg (hold hc)]
        exact h.child hc
      · split at hc
        · next hl =>
            rw [mem_singleton.mp hc, if_pos rfl]
            exact ⟨hl, hlt k hl⟩
        · cases hc
    · intro k
      rw [hchilds, nodup_append]
      refine ⟨h.nodup k, by split <;> simp, fun a ha b hb => ?_⟩
      split at hb
      · rw [mem_singleton.mp hb]
        exact hold ha
      · cases hb
    · rw [hnodes, map_append, nodup_append]
      refine ⟨h.keys, nodup_singleton _, fun a ha b hb => ?_⟩
      obtain ⟨⟨rid, i⟩, he, rfl⟩ := mem_map.mp ha
      obtain ⟨node, hnode, rfl⟩ := h.entry he
      rw [mem_singleton.mp hb]
      exact hfresh node (mem_of_getElem? hnode)
    · intro rid k hk
      rw [hnodes, mem_append, mem_singleton, Prod.mk.injEq] at hk
      rw [addNode_heap hlt]
      rcases hk with hk | ⟨rfl, rfl⟩
      · obtain ⟨node, hnode, hr⟩ := h.entry hk
        have := (List.getElem?_eq_some_iff.mp hnode).1
        rw [if_neg (by omega), hnode]
        refine ⟨_, rfl, ?_⟩
        split <;> exact hr
      · rw [if_pos rfl]
        exact ⟨_, rfl, rfl⟩
  · intro k hk hroot
    rw [addNode_length] at hk
    rw [hparent] at hroot
    rw [hin]
    split at hroot
    · next hkn => exact .inr hkn
    · exact .inl (h.root (by omega) hroot)
  · intro k c hk hc
    rw [hchilds, mem_append] at hc
    rw [hin] at hk ⊢
    rcases hc with hc | hc
    · rcases hk with hk | rfl
      · exact .inl (h.closed hk hc)
      · rw [hnew] at hc
        cases hc
    · split at hc
      · exact .inr (mem_singleton.mp hc)
      · cases hc
  · intro k p hk hp
    rw [hparent] at hp
    rw [hin] at hk
    rw [hin, hchilds, mem_append]
    split at hp
    · next hkn =>
        subst hkn
        exact ⟨.inl (hlast p hp), .inr (by rw [if_pos hp]; exact mem_singleton_self _)⟩
    · next hkn =>
        obtain ⟨hpin, hmem⟩ := h.parent (hk.resolve_right hkn) hp
        exact ⟨.inl hpin, .inl hmem⟩

end AddNode

end Invariant

/-- The calls that do not raise: the whole session is replaced only while it is
    empty, and a request that continues another one has ids. -/
def Allowed (s : Session) (input : ReqInput) : Prop :=
  (input.sessionParams.replace = true → input.sessionParams.rid = none → s.reqNodes = []) ∧
  ∀ rid i, input.sessionParams.rid = some rid → (rid, i) ∈ s.reqNodes → input.inputIds ≠ []

/-- The node that a call names. -/
def namedNode (s : Session) (params : SessionParams) : Option Nat :=
  params.rid.bind fun rid => s.reqNodes.lookup rid

/-- A request without a parent, one that replaces, or one that continues a
    request that has finished. -/
def Accepted (s : Session) (params : SessionParams) : Prop :=
  params.rid = none ∨ ∃ i node, namedNode s params = some i ∧ s.heap[i]? = some node ∧
    (params.replace = true ∨ node.req.finished = true)

/-- The requests that a call replaces: the one it names and its descendants. -/
def Replaced (s : Session) (params : SessionParams) (k : Nat) : Prop :=
  params.replace = true ∧ ∃ i, namedNode s params = some i ∧ s.Below i k

/-- The ids that a request continues: input and output of its parent, the output
    capped or dropped, up to the offset. -/
def keptIds (params : SessionParams) (lastReq : Req) (lastInputIds : List Int) : List Int :=
  let outputIds := if params.dropPreviousOutput then []
    else lastReq.outputIds.take (lastReq.maxNewTokens.getD lastReq.outputIds.length)
  match params.offset with
  | none => lastInputIds ++ outputIds
  | some offset =>
    if offset = 0 then lastInputIds ++ outputIds
    else Prefill.sliceTo (lastInputIds ++ outputIds) offset

/-- The ids of a request without a leading BOS. -/
def withoutBos (bosTokenId : Option Int) : List Int → List Int
  | [] => []
  | id :: rest => if bosTokenId = some id then rest else id :: rest

/-- What a call returns, and what it does to a session. -/
structure Created (s : Session) (bosTokenId : Option Int) (input : ReqInput) (req : Req)
    (s' : Session) : Prop where
  /-- A request that is accepted has a node below the one that was named. -/
  accepted : Accepted s input.sessionParams → (input.rid, s.heap.length) ∈ s'.reqNodes ∧
    s'.heap[s.heap.length]? = some ⟨req, namedNode s input.sessionParams, []⟩ ∧
    req.rid = input.rid ∧ req.finishedReason = none ∧ req.toFinish = none
  /-- It starts with the ids it was given, or with those of its parent. -/
  noParent : Accepted s input.sessionParams → namedNode s input.sessionParams = none →
    req.originInputIds = input.inputIds ∧ req.originInputIdsUnpadded = input.inputIds
  continued : Accepted s input.sessionParams → ∀ i node,
    namedNode s input.sessionParams = some i → s.heap[i]? = some node →
    req.originInputIds = keptIds input.sessionParams node.req node.req.originInputIds ++
        withoutBos bosTokenId input.inputIds ∧
      req.originInputIdsUnpadded =
        keptIds input.sessionParams node.req node.req.originInputIdsUnpadded ++
          withoutBos bosTokenId input.inputIds
  /-- A request that is not accepted is aborted, and the session is as before. -/
  rejected : ¬Accepted s input.sessionParams →
    s' = s ∧ req.toFinish = some (.abort "Invalid request session id")
  /-- The replaced requests that have not finished are marked, and no request is
      changed in any other way. -/
  requests : ∀ k node, s.heap[k]? = some node → ∃ node', s'.heap[k]? = some node' ∧
    (Replaced s input.sessionParams k ∧ node.req.finishedReason = none →
      node'.req = { node.req with toFinish := some (.abort "Aborted") }) ∧
    (¬(Replaced s input.sessionParams k ∧ node.req.finishedReason = none) → node'.req = node.req)
  /-- The descendants of a replaced request have no entry any more, and every
      other node keeps its own. -/
  entries : ∀ e ∈ s.reqNodes, e ∈ s'.reqNodes ↔
    ¬(Replaced s input.sessionParams e.2 ∧ namedNode s input.sessionParams ≠ some e.2)

section Call

variable {s : Session} {bosTokenId : Option Int} {input : ReqInput}

variable {t : Session} {rid : String} {i : Nat} {params : SessionParams} {req : Req}

theorem joinIds_eq (params : SessionParams) (lastReq : Req) (lastInputIds inputIds : List Int) :
    joinIds params lastReq lastInputIds inputIds =
      keptIds params lastReq lastInputIds ++ inputIds := by
  unfold joinIds keptIds
  cases lastReq.maxNewTokens <;> cases params.offset <;> split_ifs <;>
    simp_all [apply_ite (· ++ inputIds)]

theorem trimBos_eq {inputIds : List Int} (h : inputIds ≠ []) :
    trimBos bosTokenId inputIds = .ok (withoutBos bosTokenId inputIds) := by
  cases inputIds with
  | nil => exact absurd rfl h
  | cons id rest => rfl

/-- The part of `Created` that is done before the new node is added. -/
structure Marked (s : Session) (params : SessionParams) (t : Session) : Prop where
  len : t.heap.length = s.heap.length
  requests : ∀ k node, s.heap[k]? = some node → ∃ node', t.heap[k]? = some node' ∧
    (Replaced s params k ∧ node.req.finishedReason = none →
      node'.req = { node.req with toFinish := some (.abort "Aborted") }) ∧
    (¬(Replaced s params k ∧ node.req.finishedReason = none) → node'.req = node.req)
  entries : ∀ e, e ∈ t.reqNodes ↔
    e ∈ s.reqNodes ∧ ¬(Replaced s params e.2 ∧ namedNode s params ≠ some e.2)

/-- A call that replaces nothing marks nothing. -/
theorem marked_self (h : params.replace = false ∨ namedNode s params = none) :
    Marked s params s := by
  have hnone : ∀ k, ¬Replaced s params k := by
    rintro k ⟨hr, i, hi, -⟩
    rcases h with h | h
    · rw [h] at hr
      exact Bool.false_ne_true hr
    · cases h.symm.trans hi
  exact ⟨rfl, fun k node hk => ⟨node, hk, fun hr => absurd hr.1 (hnone k), fun _ => rfl⟩,
    fun e => ⟨fun he => ⟨he, fun hr => hnone _ hr.1⟩, fun he => he.1⟩⟩

theorem SessionReqNode.abort_req (node : SessionReqNode) : (node.req.finishedReason = none →
      node.abort.req = { node.req with toFinish := some (.abort "Aborted") }) ∧
    (node.req.finishedReason ≠ none → node.abort.req = node.req) := by
  unfold abort
  split
  · next h => exact ⟨fun _ => rfl, fun hne => absurd h hne⟩
  · next h => exact ⟨fun hnone => (nomatch h.symm.trans hnone), fun _ => rfl⟩

/-- A call that replaces a request: the request is marked and the nodes below its
    children are cleared. -/
theorem clearChilds_marked (h : SessionOk s)
    (hreplace : params.replace = true) (hi : namedNode s params = some i) (hin : s.In i) :
    ∃ t, (s.update i .abort).clearChilds i = .ok t ∧ SessionOk t ∧ Marked s params t ∧ t.In i := by
  have h0 : SessionOk (s.update i .abort) :=
    h.update i abort_rid abort_parent abort_childs
  have hchilds0 : ∀ k, (s.update i .abort).childsOf k = s.childsOf k :=
    update_childsOf abort_childs
  have hbelow0 : (s.update i .abort).Below = s.Below := by
    unfold Below
    simp [hchilds0]
  have hreplaced : ∀ k, Replaced s params k ↔ s.Below i k := by
    intro k
    refine ⟨?_, fun hb => ⟨hreplace, i, hi, hb⟩⟩
    rintro ⟨_, j, hj, hb⟩
    cases hi.symm.trans hj
    exact hb
  obtain ⟨s1, hs1, hcl⟩ := clearChilds_spec (s.update i .abort) i h0.toBase
    fun k hk => h0.in_of_below hin hk
  -- Children come after their parent in the heap, so no node is below its own child.
  have hself : ¬∃ c ∈ s.childsOf i, s.Below c i := by
    rintro ⟨c, hc, hb⟩
    have := h.below_le hb
    have := (h.child hc).2
    omega
  have hok := h0.withoutChilds hcl
  rw [hchilds0, hbelow0] at hcl
  refine ⟨_, hs1, hok, ⟨?_, ?_, ?_⟩, ?_⟩
  · simp only [update, length_modify] at hcl ⊢
    rw [hcl.len, length_modify]
  · intro k node hnode
    simp only [hreplaced, below_iff s i k]
    by_cases hki : k = i
    · -- The request itself.
      subst hki
      rw [update_heap, hcl.off k hself, update_heap, hnode]
      simp only [map_some, if_true, true_or, true_and]
      exact ⟨_, rfl, node.abort_req⟩
    have hki' : ¬i = k := fun he => hki he.symm
    rw [update_heap, Option.map_congr (fun n _ => if_neg hki'), Option.map_id']
    by_cases hp : ∃ c ∈ s.childsOf i, s.Below c k
    · rw [hcl.on k hp, update_heap, hnode]
      simp only [map_some, if_neg hki', hp, or_true, true_and]
      exact ⟨_, rfl, node.abort_req⟩
    · rw [hcl.off k hp, update_heap, hnode]
      simp only [map_some, if_neg hki', hki, hp, false_or, false_and]
      exact ⟨_, rfl, False.elim, fun _ => rfl⟩
  · intro e
    refine (hcl.mem e).trans (and_congr_right fun _ => not_congr ?_)
    rw [hreplaced, hi, below_iff, ne_eq, some.injEq]
    constructor
    · intro hp
      refine ⟨.inr hp, ?_⟩
      rintro rfl
      exact hself hp
    · rintro ⟨rfl | hp, hne⟩
      · exact absurd rfl hne
      · exact hp
  · exact (hcl.in_iff i).mpr ⟨hin, hself⟩

theorem namedNode_in (hi : namedNode s params = some i) : s.In i := by
  obtain ⟨rid, -, hlookup⟩ := bind_eq_some_iff.mp hi
  exact ⟨rid, mem_of_lookup hlookup⟩

/-- What `findLast` returns, and what it has marked by then. -/
theorem findLast_spec (h : SessionOk s)
    (hall : params.replace = true → params.rid = none → s.reqNodes = []) :
    ∃ abort t, s.findLast params = .ok (namedNode s params, abort, t) ∧ SessionOk t ∧
      Marked s params t ∧ (abort = false ↔ Accepted s params) ∧ (abort = true → t = s) ∧
      ∀ i, namedNode s params = some i → t.In i := by
  obtain ⟨rid, offset, replace, drop⟩ := params
  cases rid with
  | none =>
    -- No request is named; a call that replaces all of them finds none to clear.
    have hacc : Accepted s ⟨none, offset, replace, drop⟩ := .inl rfl
    refine ⟨false, s, ?_, h, marked_self (.inr rfl), ⟨fun _ => hacc, fun _ => rfl⟩,
      fun _ => rfl, nofun⟩
    cases replace with
    | false => rfl
    | true => simp only [findLast, clearItems, hall rfl rfl]; rfl
  | some rid =>
    cases hlookup : s.reqNodes.lookup rid with
    | none =>
      -- An unknown name is refused, and nothing is marked.
      have hnamed : namedNode s ⟨some rid, offset, replace, drop⟩ = none := hlookup
      have hnot : ¬Accepted s ⟨some rid, offset, replace, drop⟩ := by
        rintro (hnone | ⟨i, node, hi, -⟩)
        · cases hnone
        · cases hnamed.symm.trans hi
      rw [hnamed]
      refine ⟨true, s, ?_, h, marked_self (.inr hnamed),
        ⟨nofun, fun ha => absurd ha hnot⟩, fun _ => rfl, nofun⟩
      cases replace <;> simp [findLast, hlookup]
    | some i =>
      have hnamed : ∀ replace, namedNode s ⟨some rid, offset, replace, drop⟩ = some i :=
        fun _ => hlookup
      have hin : s.In i := ⟨rid, mem_of_lookup hlookup⟩
      obtain ⟨node, hnode, -⟩ := h.entry (mem_of_lookup hlookup)
      rw [hnamed]
      cases replace with
      | true =>
        obtain ⟨t, ht, hok, hm, hint⟩ := clearChilds_marked h rfl (hnamed true) hin
        refine ⟨false, t, ?_, hok, hm,
          ⟨fun _ => .inr ⟨i, node, hnamed true, hnode, .inl rfl⟩, fun _ => rfl⟩,
          nofun, ?_⟩
        · simp only [findLast, hlookup, ht]
          rfl
        · rintro _ ⟨rfl⟩
          exact hint
      | false =>
        refine ⟨!node.req.finished, s, ?_, h, marked_self (.inl rfl), ?_, fun _ => rfl, ?_⟩
        · simp [findLast, hlookup, hnode]
        · rw [Bool.not_eq_false']
          constructor
          · exact fun hf => .inr ⟨i, node, hnamed false, hnode, .inr hf⟩
          · rintro (hnone | ⟨j, node', hj, hnode', hf⟩)
            · cases hnone
            · cases (hnamed false).symm.trans hj
              cases hnode.symm.trans hnode'
              exact hf.resolve_left (by simp)
        · rintro _ ⟨rfl⟩
          exact hin

/-- The request of a call that continues another one, which may be marked by
    then. -/
theorem buildReq_marked (hm : Marked s input.sessionParams t)
    {node : SessionReqNode} (hnode : s.heap[i]? = some node) (hids : input.inputIds ≠ []) :
    let kept := keptIds input.sessionParams node.req
    let more := withoutBos bosTokenId input.inputIds
    t.buildReq bosTokenId input (some i) = .ok (newReq input
      (kept node.req.originInputIds ++ more) (kept node.req.originInputIdsUnpadded ++ more)) := by
  obtain ⟨node', hnode', hmark, hkeep⟩ := hm.requests i node hnode
  simp only [buildReq, hnode', trimBos_eq hids, joinIds_eq]
  by_cases hr : Replaced s input.sessionParams i ∧ node.req.finishedReason = none
  · rw [hmark hr]
    rfl
  · rw [hkeep hr]
    rfl

/-- The requests and the entries that were there, after the new node was added. -/
theorem Marked.addNode (hm : Marked s params t) (hs : Base s) (hb : Base t) {last : Option Nat}
    (hlast : ∀ p, last = some p → t.In p) (hfresh : ∀ node ∈ t.heap, node.req.rid ≠ req.rid) :
    (∀ {k : Nat} {node}, t.heap[k]? = some node →
      ∃ node', (t.addNode req last).heap[k]? = some node' ∧ node'.req = node.req) ∧
    ∀ e ∈ s.reqNodes, e ∈ (t.addNode req last).reqNodes ↔
      ¬(Replaced s params e.2 ∧ namedNode s params ≠ some e.2) := by
  constructor
  · intro k node hnode
    have hlt := (List.getElem?_eq_some_iff.mp hnode).1
    rw [addNode_heap (fun p hp => hb.lt_length (hlast p hp)), if_neg hlt.ne, hnode]
    refine ⟨_, rfl, ?_⟩
    split <;> rfl
  · intro e he
    rw [addNode_reqNodes hb hfresh, mem_append, mem_singleton, hm.entries]
    refine ⟨?_, fun hne => .inl ⟨he, hne⟩⟩
    rintro (hold | rfl)
    · exact hold.2
    · -- The entry of the new node is not an old one.
      have hlt := hs.lt_length ⟨_, he⟩
      rw [hm.len] at hlt
      exact absurd hlt (lt_irrefl _)

theorem Marked.fresh (hm : Marked s params t)
    (hfresh : ∀ node ∈ s.heap, node.req.rid ≠ rid) : ∀ node ∈ t.heap, node.req.rid ≠ rid := by
  intro node' hmem
  obtain ⟨k, hk⟩ := mem_iff_getElem?.mp hmem
  have hlt : k < s.heap.length := hm.len ▸ (List.getElem?_eq_some_iff.mp hk).1
  have hnode : s.heap[k]? = some s.heap[k] := getElem?_eq_getElem hlt
  have hold := hfresh _ (getElem_mem hlt)
  obtain ⟨node, hnode', hmark, hkeep⟩ := hm.requests k _ hnode
  cases hk.symm.trans hnode'
  by_cases hr : Replaced s params k ∧ s.heap[k].req.finishedReason = none
  · rwa [hmark hr]
  · rwa [hkeep hr]

variable (h : SessionOk s)

include h

variable (bosTokenId) in
/-- The request that a call builds. -/
theorem buildReq_spec (hm : Marked s input.sessionParams t)
    (hids : ∀ i, namedNode s input.sessionParams = some i → input.inputIds ≠ []) :
    let named := namedNode s input.sessionParams
    let more := withoutBos bosTokenId input.inputIds
    ∃ ids idsUnpadded, t.buildReq bosTokenId input named = .ok (newReq input ids idsUnpadded) ∧
      (named = none → ids = input.inputIds ∧ idsUnpadded = input.inputIds) ∧
      ∀ i node, named = some i → s.heap[i]? = some node →
        let kept := keptIds input.sessionParams node.req
        ids = kept node.req.originInputIds ++ more ∧
          idsUnpadded = kept node.req.originInputIdsUnpadded ++ more := by
  cases hnamed : namedNode s input.sessionParams with
  | none => exact ⟨_, _, rfl, fun _ => ⟨rfl, rfl⟩, nofun⟩
  | some i =>
    have hlt := h.lt_length (namedNode_in hnamed)
    refine ⟨_, _, buildReq_marked hm (getElem?_eq_getElem hlt) (hids i hnamed),
      nofun, ?_⟩
    rintro _ node ⟨rfl⟩ hnode
    rw [getElem?_eq_getElem hlt] at hnode
    rw [some.inj hnode]
    exact ⟨rfl, rfl⟩

variable (bosTokenId) in
/-- A call with a fresh rid that is allowed. -/
theorem createReq_spec (hfresh : ∀ node ∈ s.heap, node.req.rid ≠ input.rid)
    (ha : Allowed s input) : ∃ req s', s.createReq bosTokenId input = .ok (req, s') ∧ SessionOk s' ∧
      Created s bosTokenId input req s' := by
  obtain ⟨abort, t, hfind, hok, hm, hacc, hsame, hin⟩ := findLast_spec h ha.1
  have hids : ∀ i, namedNode s input.sessionParams = some i → input.inputIds ≠ [] := by
    intro i hi
    obtain ⟨rid, hrid, hlookup⟩ := bind_eq_some_iff.mp hi
    exact ha.2 rid i hrid (mem_of_lookup hlookup)
  obtain ⟨ids, idsUnpadded, hbuild, hnone, hsome⟩ :=
    buildReq_spec bosTokenId h hm hids
  simp only [createReq, hfind, bind, Except.bind, hbuild]
  cases abort with
  | true =>
    have hnot : ¬Accepted s input.sessionParams := fun ha => Bool.true_eq_false.mp (hacc.mpr ha)
    obtain rfl := hsame rfl
    exact ⟨_, _, rfl, h, fun ha => absurd ha hnot, fun ha => absurd ha hnot,
      fun ha => absurd ha hnot, fun _ => ⟨rfl, rfl⟩, hm.requests,
      fun e he => (hm.entries e).trans (and_iff_right he)⟩
  | false =>
    have hyes := hacc.mp rfl
    have hfresh' : ∀ node ∈ t.heap, node.req.rid ≠ (newReq input ids idsUnpadded).rid :=
      hm.fresh hfresh
    obtain ⟨hreq, hent⟩ := hm.addNode h.toBase hok.toBase hin hfresh'
    refine ⟨_, _, rfl, hok.addNode hfresh' hin, fun _ => ⟨?_, ?_, rfl, rfl, rfl⟩, fun _ => hnone,
      fun _ => hsome, fun hnot => absurd hyes hnot, fun k node hnode => ?_, hent⟩
    · rw [addNode_reqNodes hok.toBase hfresh', hm.len]
      exact mem_append_right _ (mem_singleton_self _)
    · rw [addNode_heap (fun p hp => hok.lt_length (hin p hp)), if_pos hm.len.symm]
    · obtain ⟨node', hnode', hmark⟩ := hm.requests k node hnode
      obtain ⟨node'', hnode'', heq⟩ := hreq hnode'
      exact ⟨node'', hnode'', heq ▸ hmark⟩

/-- Replacing the whole of a session that has a request. -/
theorem findLast_replace_all
    (hreplace : params.replace = true) (hrid : params.rid = none) (hne : s.reqNodes ≠ []) :
    s.findLast params = .error .runtimeError := by
  obtain ⟨⟨rid, i⟩, rest, hnodes⟩ := exists_cons_of_ne_nil hne
  have hmem : (rid, i) ∈ s.reqNodes := hnodes ▸ mem_cons_self
  have hin : s.In i := ⟨rid, hmem⟩
  obtain ⟨s1, hs1, hcl⟩ := clear_spec s.clearFuel s i h.toBase
    (fun k hk => h.in_of_below hin hk) (by rw [clearFuel]; omega)
  -- The first entry is gone, so there are fewer than before.
  have hlt : s1.reqNodes.length ≠ s.reqNodes.length := by
    intro hlen
    have hsame := hcl.sub.eq_of_length hlen
    have := (hcl.mem (rid, i)).mp (hsame ▸ hmem)
    exact this.2 Relation.ReflTransGen.refl
  have hlen : s.reqNodes.length = rest.length + 1 := by rw [hnodes, length_cons]
  have hhead : s.reqNodes[0]? = some (rid, i) := by rw [hnodes]; rfl
  simp only [findLast, hreplace, hrid, bind, Except.bind]
  rw [clearItems, if_neg (fun hf => hf rfl), hhead]
  simp only [bind, Except.bind, hs1]
  rw [hlen] at hlt ⊢
  rw [clearItems, if_pos hlt]

/-- The calls that are not allowed are the ones that raise. -/
theorem createReq_ok_iff (hfresh : ∀ node ∈ s.heap, node.req.rid ≠ input.rid) :
    (∃ r, s.createReq bosTokenId input = .ok r) ↔ Allowed s input := by
  constructor
  · rintro ⟨r, hr⟩
    have hall : input.sessionParams.replace = true → input.sessionParams.rid = none →
        s.reqNodes = [] := by
      intro hreplace hrid
      by_contra hne
      simp only [createReq, findLast_replace_all h hreplace hrid hne, bind, Except.bind,
        reduceCtorEq] at hr
    refine ⟨hall, fun rid i hrid hmem hids => ?_⟩
    obtain ⟨abort, t, hfind, -, hm, -⟩ := findLast_spec h hall
    obtain ⟨j, hj⟩ := Option.ne_none_iff_exists'.mp fun hnone =>
      not_mem_keys_of_lookup hnone (mem_map_of_mem hmem)
    have hnamed : namedNode s input.sessionParams = some j := by rw [namedNode, hrid]; exact hj
    have hlt := h.lt_length (namedNode_in hnamed)
    obtain ⟨node, hnode, -⟩ := hm.requests j _ (getElem?_eq_getElem hlt)
    simp only [createReq, hfind, bind, Except.bind, hnamed, buildReq, hnode, hids, trimBos,
      reduceCtorEq] at hr
  · intro ha
    obtain ⟨req, s', hr, -⟩ := createReq_spec bosTokenId h hfresh ha
    exact ⟨_, hr⟩

/-- A call that returns. -/
theorem createReq_created {s' : Session}
    (hfresh : ∀ node ∈ s.heap, node.req.rid ≠ input.rid)
    (hr : s.createReq bosTokenId input = .ok (req, s')) :
    SessionOk s' ∧ Created s bosTokenId input req s' := by
  have ha := (createReq_ok_iff h hfresh).mp ⟨_, hr⟩
  obtain ⟨req', s'', hr', hcreated⟩ := createReq_spec bosTokenId h hfresh ha
  rw [hr] at hr'
  obtain ⟨rfl, rfl⟩ := Prod.mk.inj (Except.ok.inj hr')
  exact hcreated

end Call

theorem SessionOk.step {s s' : Session} {op : SessionOp} (h : SessionOk s)
    (hs : SessionStep s op s') : SessionOk s' := by
  cases hs with
  | createReq hfresh hr => exact (createReq_created h hfresh hr).1
  | progress i =>
    exact h.update i (fun _ => rfl) (fun _ => rfl) fun _ => rfl

/-- After any calls that returned, with any progress of the requests in between:
    `req_nodes` has the nodes that can be reached, a node is once among the
    children of its parent, and a further call returns if and only if it is
    allowed, and then does what it should. -/
theorem session_consistent {tr : List (Session × SessionOp × Session)} {s : Session}
    (hr : Run SessionStep Session.init tr s) : (∀ i, s.In i ↔ s.Reach i) ∧
    (∀ e ∈ s.reqNodes, s.heap[e.2]?.map (·.req.rid) = some e.1) ∧
    (∀ i p, s.In i → s.parentOf i = some p → (s.childsOf p).count i = 1) ∧
    ∀ bosTokenId input, (∀ node ∈ s.heap, node.req.rid ≠ input.rid) →
      ((∃ r, s.createReq bosTokenId input = .ok r) ↔ Allowed s input) ∧
      ∀ req s', s.createReq bosTokenId input = .ok (req, s') →
        Created s bosTokenId input req s' := by
  have h : SessionOk s := hr.inv sessionOk_init fun _ _ _ hok hs => hok.step hs
  refine ⟨h.in_iff_reach, ?_, ?_, ?_⟩
  · rintro ⟨rid, i⟩ he
    obtain ⟨node, hnode, rfl⟩ := h.entry he
    rw [hnode]
    rfl
  · intro i p hi hp
    exact count_eq_one_of_mem (h.nodup p) (h.parent hi hp).2
  · intro bosTokenId input hfresh
    exact ⟨createReq_ok_iff h hfresh, fun req s' hr => (createReq_created h hfresh hr).2⟩

/-- A request, and one that continues it. -/
theorem session_consistent_append : ∃ tr s,
    Run SessionStep Session.init tr s ∧ s.In 1 ∧ (s.childsOf 0).count 1 = 1 ∧
      s.heap.map (·.req.originInputIds) = [[1, 2], [1, 2, 3, 4]] := by
  have hr : Run SessionStep Session.init _ _ :=
    .snoc (.createReq (some 0) ⟨"b", [0, 4], none, ⟨some "a", none, false, false⟩⟩)
      (.snoc (.progress 0 [1, 2] [3] (some (.length 1)) none)
        (.snoc (.createReq (some 0) ⟨"a", [1, 2], none, ⟨none, none, false, false⟩⟩) .nil
          (.createReq (by decide) rfl))
        (.progress 0 [1, 2] [3] (some (.length 1)) none))
      (.createReq (by decide) rfl)
  refine ⟨_, _, hr, ⟨"b", by decide⟩, ?_, rfl⟩
  exact (session_consistent hr).2.2.1 1 0 ⟨"b", by decide⟩ rfl

/-- Replacing the whole session, while it has a request, raises. -/
theorem createReq_replace_all : ∃ req s,
    Session.init.createReq none ⟨"a", [1], none, ⟨none, none, false, false⟩⟩ = .ok (req, s) ∧
    s.createReq none ⟨"b", [2], none, ⟨none, none, true, false⟩⟩ = .error .runtimeError :=
  ⟨_, _, rfl, rfl⟩

end SglangInc.Sessions
