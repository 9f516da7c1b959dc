import SglangInc.Core.Session

/-!
# Clearing a Subtree

What `SessionReqNode.clear` does to a session: it takes exactly the nodes below a
node out of `req_nodes`, and marks those that have not finished.

`clear` calls itself for the children before it deletes its own entry, and a
missing entry is a `KeyError`. None is missing because no node is met twice.
Children are newer than their parents and each has one parent, so two children of
a node have nothing below them in common (`below_disjoint`), and clearing the first
leaves the entries below the second alone.

The children lists do not change while a subtree is cleared, so the nodes below a
node are the same before and after (`Cleared.below_iff`).
-/

namespace SglangInc.Sessions

open List Relation.ReflTransGen

namespace Session

/-- The `childs` of a node. -/
def childsOf (s : Session) (i : Nat) : List Nat := (s.heap[i]?.map (·.childs)).getD []

/-- The `parent` of a node. -/
def parentOf (s : Session) (i : Nat) : Option Nat := s.heap[i]?.bind (·.parent)

/-- A node has an entry in `req_nodes`. -/
def In (s : Session) (i : Nat) : Prop := ∃ rid, (rid, i) ∈ s.reqNodes

/-- A node or one of its descendants. -/
def Below (s : Session) : Nat → Nat → Prop :=
  Relation.ReflTransGen fun p c => c ∈ s.childsOf p

end Session

open Session

/-- The links and the entries of a session fit together. -/
structure Base (s : Session) : Prop where
  child : ∀ {i c}, c ∈ s.childsOf i → s.parentOf c = some i ∧ i < c
  nodup : ∀ i, (s.childsOf i).Nodup
  keys : (s.reqNodes.map Prod.fst).Nodup
  entry : ∀ {rid i}, (rid, i) ∈ s.reqNodes → ∃ node, s.heap[i]? = some node ∧ node.req.rid = rid

section Links

variable {s : Session}

theorem Base.below_le (h : Base s) {i k : Nat} (hb : s.Below i k) : i ≤ k := by
  induction hb with
  | refl => exact le_rfl
  | tail _ hc ih => exact ih.trans (h.child hc).2.le

theorem below_iff (s : Session) (i k : Nat) :
    s.Below i k ↔ k = i ∨ ∃ c ∈ s.childsOf i, s.Below c k := by
  constructor
  · intro hb
    rcases cases_head hb with rfl | ⟨c, hc, hck⟩
    · exact .inl rfl
    · exact .inr ⟨c, hc, hck⟩
  · rintro (rfl | ⟨c, hc, hck⟩)
    · exact Relation.ReflTransGen.refl
    · exact Relation.ReflTransGen.head hc hck

/-- Nothing is below two children of a node. -/
theorem Base.below_disjoint (h : Base s) {i c c' k : Nat} (hc : c ∈ s.childsOf i)
    (hc' : c' ∈ s.childsOf i) (hb : s.Below c k) (hb' : s.Below c' k) : c = c' := by
  induction k using Nat.strong_induction_on with
  | _ k ih =>
    have hi := (h.child hc).2
    have hi' := (h.child hc').2
    rcases cases_tail hb with rfl | ⟨p, hcp, hpk⟩
    · rcases cases_tail hb' with heq | ⟨p', hcp', hpk'⟩
      · exact heq
      · -- Then `k` is a child of `i`, and `i` is below its own child.
        have hp := (h.child hpk').1.symm.trans (h.child hc).1
        have := h.below_le (Option.some.inj hp ▸ hcp')
        omega
    · rcases cases_tail hb' with rfl | ⟨p', hcp', hpk'⟩
      · have hp := (h.child hpk).1.symm.trans (h.child hc').1
        have := h.below_le (Option.some.inj hp ▸ hcp)
        omega
      · have hp := (h.child hpk).1.symm.trans (h.child hpk').1
        cases hp
        exact ih p (h.child hpk).2 hcp hcp'

end Links

/-- The nodes of a set are taken out of `req_nodes` and marked, and nothing else
    changes. -/
structure Cleared (s s' : Session) (P : Nat → Prop) : Prop where
  on : ∀ k, P k → s'.heap[k]? = s.heap[k]?.map .abort
  off : ∀ k, ¬P k → s'.heap[k]? = s.heap[k]?
  mem : ∀ e, e ∈ s'.reqNodes ↔ e ∈ s.reqNodes ∧ ¬P e.2
  sub : s'.reqNodes.Sublist s.reqNodes
  len : s'.heap.length = s.heap.length

variable (node : SessionReqNode)

theorem SessionReqNode.abort_parent : node.abort.parent = node.parent := by
  unfold SessionReqNode.abort
  split <;> rfl

theorem SessionReqNode.abort_childs : node.abort.childs = node.childs := by
  unfold SessionReqNode.abort
  split <;> rfl

theorem SessionReqNode.abort_rid : node.abort.req.rid = node.req.rid := by
  unfold SessionReqNode.abort
  split <;> rfl

theorem SessionReqNode.abort_abort : node.abort.abort = node.abort := by
  obtain ⟨⟨rid, ids, unpadded, out, max, reason, toFinish⟩, parent, childs⟩ := node
  cases reason <;> rfl

section Cleared

variable {s s' s'' : Session} {P Q : Nat → Prop}

theorem Cleared.refl (s : Session) : Cleared s s fun _ => False where
  on := fun _ hk => hk.elim
  off := fun _ _ => rfl
  mem := fun e => by simp
  sub := List.Sublist.refl _
  len := rfl

variable (h : Cleared s s' P)
include h

/-- Two sets of nodes, one after the other. -/
theorem Cleared.trans (h' : Cleared s' s'' Q) : Cleared s s'' fun k => P k ∨ Q k where
  on := by
    rintro k hk
    by_cases hq : Q k
    · rw [h'.on k hq]
      by_cases hp : P k
      · rw [h.on k hp, Option.map_map]
        congr 1
        funext node
        exact node.abort_abort
      · rw [h.off k hp]
    · rw [h'.off k hq, h.on k (hk.resolve_right hq)]
  off := by
    intro k hk
    rw [not_or] at hk
    rw [h'.off k hk.2, h.off k hk.1]
  mem := by
    intro e
    rw [h'.mem, h.mem, not_or, and_assoc]
  sub := h'.sub.trans h.sub
  len := h'.len.trans h.len

theorem Cleared.congr (hPQ : ∀ k, P k ↔ Q k) : Cleared s s' Q := by
  rwa [show Q = P from funext fun k => propext (hPQ k).symm]

theorem Cleared.childsOf_eq (i : Nat) : s'.childsOf i = s.childsOf i := by
  unfold childsOf
  by_cases hp : P i
  · rw [h.on i hp, Option.map_map]
    congr 2
    funext node
    exact node.abort_childs
  · rw [h.off i hp]

theorem Cleared.parentOf_eq (i : Nat) : s'.parentOf i = s.parentOf i := by
  unfold parentOf
  by_cases hp : P i
  · rw [h.on i hp]
    cases s.heap[i]? with
    | none => rfl
    | some node => exact node.abort_parent
  · rw [h.off i hp]

theorem Cleared.below_iff (i k : Nat) : s'.Below i k ↔ s.Below i k := by
  unfold Below
  simp [h.childsOf_eq]

theorem Cleared.base (hb : Base s) : Base s' where
  child := by
    intro i c hc
    rw [h.childsOf_eq] at hc
    rw [h.parentOf_eq]
    exact hb.child hc
  nodup := fun i => by rw [h.childsOf_eq]; exact hb.nodup i
  keys := hb.keys.sublist (h.sub.map _)
  entry := by
    intro rid i hi
    obtain ⟨hmem, hp⟩ := (h.mem _).mp hi
    rw [h.off i hp]
    exact hb.entry hmem

theorem Cleared.in_iff (i : Nat) : s'.In i ↔ s.In i ∧ ¬P i := by
  constructor
  · rintro ⟨rid, hi⟩
    obtain ⟨hmem, hp⟩ := (h.mem _).mp hi
    exact ⟨⟨rid, hmem⟩, hp⟩
  · rintro ⟨⟨rid, hi⟩, hp⟩
    exact ⟨rid, (h.mem _).mpr ⟨hi, hp⟩⟩

end Cleared

/-- Marking a node and deleting its entry clears it. -/
theorem delete_spec {s : Session} {i : Nat} {node : SessionReqNode} (hb : Base s)
    (hnode : s.heap[i]? = some node) (hin : s.In i) :
    ∃ s', (s.update i .abort).delete node.req.rid = .ok s' ∧ Cleared s s' (· = i) := by
  obtain ⟨rid, hmem⟩ := hin
  obtain ⟨node', hn', rfl⟩ := hb.entry hmem
  cases hnode.symm.trans hn'
  have hany : s.reqNodes.any (·.1 == node.req.rid) = true :=
    any_eq_true.mpr ⟨_, hmem, beq_self_eq_true _⟩
  refine ⟨_, by unfold delete; exact if_pos hany, ?_⟩
  constructor
  · rintro k rfl
    simp only [update, getElem?_modify_eq]
    rfl
  · intro k hk
    exact getElem?_modify_ne _ _ (Ne.symm hk)
  · rintro ⟨rid, j⟩
    simp only [update, mem_filter, bne_iff_ne, ne_eq]
    refine and_congr_right fun hj => not_congr ⟨?_, ?_⟩
    · rintro rfl
      exact congrArg Prod.snd (inj_on_of_nodup_map hb.keys hj hmem rfl)
    · rintro rfl
      obtain ⟨node', hn, rfl⟩ := hb.entry hj
      rw [Option.some_inj.mp (hn.symm.trans hnode)]
  · exact filter_sublist
  · simp [update]

/-- Clearing the nodes below some children of a node, one after the other. -/
theorem foldlM_clear_spec {fuel i n : Nat}
    (hclear : ∀ s c, Base s → s.heap.length = n → c ∈ s.childsOf i → (∀ k, s.Below c k → s.In k) →
      ∃ s', Session.clear fuel s c = .ok s' ∧ Cleared s s' (s.Below c))
    (cs : List Nat) (s : Session) (hb : Base s) (hlen : s.heap.length = n) (hnodup : cs.Nodup)
    (hcs : ∀ c ∈ cs, c ∈ s.childsOf i) (hin : ∀ c ∈ cs, ∀ k, s.Below c k → s.In k) :
    ∃ s', cs.foldlM (Session.clear fuel) s = .ok s' ∧
      Cleared s s' fun k => ∃ c ∈ cs, s.Below c k := by
  induction cs generalizing s with
  | nil => exact ⟨s, rfl, (Cleared.refl s).congr fun k => by simp⟩
  | cons c cs ih =>
    have hc := hcs c mem_cons_self
    obtain ⟨s1, hs1, hcl1⟩ := hclear s c hb hlen hc (hin c mem_cons_self)
    rw [nodup_cons] at hnodup
    have hrest : ∀ c' ∈ cs, ∀ k, s1.Below c' k → s1.In k := by
      intro c' hc' k hk
      rw [hcl1.below_iff] at hk
      refine (hcl1.in_iff k).mpr ⟨hin c' (mem_cons_of_mem _ hc') k hk, fun hck => ?_⟩
      have heq := hb.below_disjoint hc (hcs c' (mem_cons_of_mem _ hc')) hck hk
      exact hnodup.1 (heq ▸ hc')
    have hchilds : ∀ c' ∈ cs, c' ∈ s1.childsOf i := fun c' hc' => by
      rw [hcl1.childsOf_eq]
      exact hcs c' (mem_cons_of_mem _ hc')
    obtain ⟨s2, hs2, hcl2⟩ :=
      ih s1 (hcl1.base hb) (hcl1.len.trans hlen) hnodup.2 hchilds hrest
    refine ⟨s2, ?_, (hcl1.trans hcl2).congr fun k => ?_⟩
    · rwa [foldlM_cons, hs1]
    · simp [hcl1.below_iff]

/-- Clearing the nodes below all children of a node. -/
theorem childs_clear_spec (fuel : Nat) {i : Nat} {s : Session} (hb : Base s)
    (hin : ∀ k, s.Below i k → s.In k)
    (hclear : ∀ t c, Base t → t.heap.length = s.heap.length → c ∈ t.childsOf i →
      (∀ k, t.Below c k → t.In k) →
      ∃ t', Session.clear fuel t c = .ok t' ∧ Cleared t t' (t.Below c)) :
    ∃ node s1, s.heap[i]? = some node ∧ s.childsOf i = node.childs ∧
      node.childs.foldlM (Session.clear fuel) s = .ok s1 ∧
      Cleared s s1 fun k => ∃ c ∈ node.childs, s.Below c k := by
  obtain ⟨rid, hmem⟩ := hin i Relation.ReflTransGen.refl
  obtain ⟨node, hnode, -⟩ := hb.entry hmem
  have hchilds : s.childsOf i = node.childs := by
    simp [childsOf, hnode]
  obtain ⟨s1, hs1, hcl1⟩ := foldlM_clear_spec hclear node.childs s hb rfl
    (hchilds ▸ hb.nodup i) (fun c hc => hchilds ▸ hc)
    fun c hc k hk => hin k ((below_iff s i k).mpr (.inr ⟨c, hchilds ▸ hc, hk⟩))
  exact ⟨node, s1, hnode, hchilds, hs1, hcl1⟩

/-- Clearing the nodes below a node. -/
theorem clear_spec (fuel : Nat) (s : Session) (i : Nat) (hb : Base s)
    (hin : ∀ k, s.Below i k → s.In k) (hfuel : s.heap.length < fuel + i) :
    ∃ s', Session.clear fuel s i = .ok s' ∧ Cleared s s' (s.Below i) := by
  induction fuel generalizing s i with
  | zero =>
    -- A node that has an entry is in the heap.
    obtain ⟨rid, hmem⟩ := hin i Relation.ReflTransGen.refl
    obtain ⟨node, hnode, -⟩ := hb.entry hmem
    have := (List.getElem?_eq_some_iff.mp hnode).1
    omega
  | succ fuel ih =>
    obtain ⟨node, s1, hnode, hchilds, hs1, hcl1⟩ := childs_clear_spec _ hb hin
      fun t c hbt hlen hc hint => ih t c hbt hint (by have := (hbt.child hc).2; omega)
    -- The node itself is not below its children.
    have hnot : ¬∃ c ∈ node.childs, s.Below c i := by
      rintro ⟨c, hc, hci⟩
      have hlt := (hb.child (hchilds ▸ hc)).2
      have hle := hb.below_le hci
      omega
    obtain ⟨s2, hs2, hcl2⟩ := delete_spec (hcl1.base hb) ((hcl1.off i hnot).trans hnode)
      ((hcl1.in_iff i).mpr ⟨hin i Relation.ReflTransGen.refl, hnot⟩)
    refine ⟨s2, ?_, (hcl1.trans hcl2).congr fun k => ?_⟩
    · simp only [Session.clear, hnode, hs1]
      exact hs2
    · rw [below_iff, hchilds, or_comm]

/-- Clearing the children of a node clears what is below them, and leaves the
    node without children. -/
theorem clearChilds_spec (s : Session) (i : Nat) (hb : Base s) (hin : ∀ k, s.Below i k → s.In k) :
    ∃ s1, s.clearChilds i = .ok (s1.update i fun node => { node with childs := [] }) ∧
      Cleared s s1 fun k => ∃ c ∈ s.childsOf i, s.Below c k := by
  obtain ⟨node, s1, hnode, hchilds, hs1, hcl1⟩ := childs_clear_spec s.clearFuel hb hin
    fun t c hbt hlen _ hint => clear_spec _ t c hbt hint (by rw [hlen, clearFuel]; omega)
  refine ⟨s1, ?_, by rwa [hchilds]⟩
  simp only [clearChilds, hnode, hs1]
  rfl

end SglangInc.Sessions
