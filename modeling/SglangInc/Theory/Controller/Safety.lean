import SglangInc.Theory.Controller.Handlers

/-!
# Resource Safety of the Controller

Every resource of the switch is in the controller's pools or with one live
group, and in only one place (`resources_partitioned`).

The servicer does not keep a table of live groups. What it keeps is `undo`,
the calls that would take each group down again. The abstract state used here
is the list of groups those calls belong to: `Represents topo s live` says
that `s` is what the controller holds when exactly the groups of `live` are
up. A granted request adds a group to the list (`represents_granted`), a
destroyed one leaves it (`represents_destroyed`), and nothing else a request
that returns can do changes it.

A group carries the alignment of its memory in its type, since the address
the data plane computes for a packet is only inside the group's memory when
that holds (`aggIndex_within`).
-/

namespace SglangInc.Controller

open List Segments EState

/-- A live group. Its memory is a power of two times the MTU, at a multiple
    of its own size. -/
structure Group where
  groupid : Nat
  segAddr : Nat
  order : Nat
  idx : Nat
  port : Nat
  node : List Nat
  member : List MemberInfo
  aligned : 2 ^ order * mtuSize ∣ segAddr

namespace Group

/-- The size of the group's block, in bytes. -/
def segSize (g : Group) : Nat := 2 ^ g.order * mtuSize

/-- The addresses of the block. -/
def seg (g : Group) : Seg := (g.segAddr, g.segAddr + g.segSize)

/-- The first aggregator of the block. -/
def aggAddr (g : Group) : Nat := g.segAddr / mtuSize

/-- The mask of an aggregator's place in the block. -/
def aggAddrOffsetMask (g : Group) : Nat := g.segSize / mtuSize - 1

/-- What the group's request installed in the switch. -/
def entries (topo : Topo) (g : Group) : List Entry :=
  grantEntries topo ⟨g.member, g.segSize⟩ g.groupid g.segAddr g.port g.node

/-- The keys of these entries. -/
def keys (topo : Topo) (g : Group) : List EntryKey :=
  groupKeys topo g.groupid g.node g.member

/-- The group's entry in `undo`. -/
def record (topo : Topo) (g : Group) : Nat × List UndoFunc :=
  (g.groupid, undoFuncs topo g.groupid g.segAddr g.segSize g.idx g.node g.member)

theorem seg_lt (g : Group) : g.seg.1 < g.seg.2 := by
  have : 0 < g.segSize := Nat.mul_pos (Nat.two_pow_pos _) (Nat.two_pow_pos _)
  simp only [seg]
  omega

/-- The index the data plane computes stays inside the group's memory. -/
theorem aggIndex_within (g : Group) (psn : Nat) :
    g.seg.1 ≤ aggIndex g.aggAddr g.aggAddrOffsetMask psn * mtuSize ∧
    aggIndex g.aggAddr g.aggAddrOffsetMask psn * mtuSize < g.seg.2 := by
  have hmtu : 0 < mtuSize := Nat.two_pow_pos _
  have hmask : g.aggAddrOffsetMask = 2 ^ g.order - 1 := by
    rw [aggAddrOffsetMask, segSize, Nat.mul_div_cancel _ hmtu]
  have hlt : psn % 2 ^ g.order < 2 ^ g.order := Nat.mod_lt _ (Nat.two_pow_pos _)
  have haddr : g.aggAddr * mtuSize = g.segAddr :=
    Nat.div_mul_cancel (Nat.dvd_trans (Nat.dvd_mul_left _ _) g.aligned)
  have hoff : psn % 2 ^ g.order * mtuSize < g.segSize :=
    Nat.mul_lt_mul_of_pos_right hlt hmtu
  rw [aggIndex, hmask, Nat.and_two_pow_sub_one_eq_mod, Nat.add_mul, haddr]
  simp only [seg]
  omega

end Group

section Keys

variable (topo : Topo)

theorem map_key_memberEntries (groupid groupSize aggAddr aggAddrLen i : Nat)
    (pairs : List (MemberInfo × Nat)) :
    (memberEntries topo groupid groupSize aggAddr aggAddrLen i pairs).map Entry.key =
      memberKeys topo groupid i pairs := by
  induction pairs generalizing i with
  | nil => rfl
  | cons p rest ih =>
    rw [memberEntries, memberKeys, map_append, ih]
    rfl

/-- The keys of what a group installed are the ones it will delete. -/
theorem Group.map_key_entries (g : Group) : (g.entries topo).map Entry.key = g.keys topo := by
  rw [Group.entries, grantEntries, map_cons, map_append, map_key_memberEntries]
  rfl

end Keys

/-- The controller state when exactly the groups of `live` are up. -/
structure Represents (topo : Topo) (s : State) (live : List Group) : Prop where
  undo_eq : s.undo = live.map (Group.record topo)
  ordered : Ordered s.memseg
  memory : ∀ x, cover (s.memseg ++ live.map Group.seg) x = if x < switchMemSize then 1 else 0
  groups : (s.freeGroup ++ live.map Group.groupid).Perm (List.range' 1 (maxGroupNum - 1))
  nodes : (s.freeNode ++ live.flatMap Group.node).Perm (List.range' 1 (maxQpNum - 1))
  ports : s.recirPortCnt = (List.range topo.recirPort.length).map
    (fun k => (live.countP (fun g => g.idx == k) : Int))
  installed : ∀ e ∈ s.entries, ∃ g ∈ live, e ∈ g.entries topo

theorem modify_map_range (f : Nat → Int) (n i : Nat) (h : Int → Int) :
    ((List.range n).map f).modify i h =
      (List.range n).map (fun k => if i = k then h (f k) else f k) := by
  refine ext_getElem ?_ ?_
  · rw [length_modify, length_map, length_map]
  · intro k h1 h2
    rw [getElem_modify, getElem_map, getElem_map, getElem_range]

section Represents

variable {topo : Topo} {s : State} {live : List Group} {bfrt : Bfrt}

theorem represents_init (topo : Topo) : Represents topo (State.init topo) [] where
  undo_eq := rfl
  ordered := ⟨forall_mem_singleton.mpr (Nat.two_pow_pos _), pairwise_singleton _ _⟩
  memory := by
    intro x
    rw [State.init, map_nil, List.append_nil, cover_cons, cover_nil]
    simp
  groups := by rw [map_nil, List.append_nil]; rfl
  nodes := by rw [flatMap_nil, List.append_nil]; rfl
  ports := by
    simp only [State.init, countP_nil, map_const', length_range]
    rfl
  installed := forall_mem_nil _

/-- Cutting a block out of the free list and giving it to a group covers the
    same memory. -/
theorem cover_granted (l r segs : List Seg) (seg blk : Seg) (x : Nat) (h1 : seg.1 ≤ blk.1)
    (h2 : blk.1 ≤ blk.2) (h3 : blk.2 ≤ seg.2) :
    cover (l ++ (gap seg.1 blk.1 ++ (gap blk.2 seg.2 ++ r)) ++ blk :: segs) x =
      cover (l ++ seg :: r ++ segs) x := by
  have hcutL := cover_cut seg.1 blk.1 seg.2 x h1 (by omega)
  have hcutR := cover_cut blk.1 blk.2 seg.2 x h2 h3
  rw [← singleton_append (l := segs), ← singleton_append (l := r)]
  simp only [cover_append, cover_gap]
  rw [show cover [seg] x = cover [(seg.1, seg.2)] x from rfl, hcutL, hcutR,
    show cover [blk] x = cover [(blk.1, blk.2)] x from rfl]
  omega

section

variable (h : Represents topo s live)
include h

/-- A live group's memory overlaps no free segment. -/
theorem clear_of_represents (g : Group) (hg : g ∈ live) :
    Clear s.memseg g.segAddr (g.segAddr + g.segSize) := by
  intro seg hseg
  refine apart_of_cover_le_one s.memseg (live.map Group.seg) seg g.seg ?_ hseg
    (mem_map_of_mem hg) (h.ordered.1 seg hseg) g.seg_lt
  intro x
  rw [← cover_append, h.memory]
  split_ifs <;> omega

/-- A granted request brings up one group. -/
theorem represents_granted (request : CreateGroupRequest)
    {segIndex segAddr gid : Nat} (idx port : Nat) {memseg : List Seg} {rest : List Nat}
    (hfree : s.freeGroup = gid :: rest)
    (hfit : fitSeg s.memseg request.memorySize = some (some (segIndex, segAddr)))
    (halloc : allocSeg s.memseg segIndex segAddr (segAddr + request.memorySize) = some memseg) :
    ∃ g, Represents topo (granted topo request segAddr idx port memseg s) (g :: live) := by
  rcases fitSeg_spec _ _ _ _ hfit with
    ⟨⟨k, hsize⟩, l, seg, r, hsegs, rfl, hle, hge, hdvd⟩
  have hgid : s.freeGroup.headD 0 = gid := by rw [hfree]; rfl
  have hnew : ∀ g ∈ live, g.groupid ≠ gid :=
    fun g hg heq => (nodup_append.mp (h.groups.nodup_iff.mpr (nodup_range' 1))).2.2 gid
      (hfree ▸ mem_cons_self) g.groupid (mem_map_of_mem hg) heq.symm
  rw [hsegs, allocSeg_append, Option.some.injEq] at halloc
  refine ⟨⟨gid, segAddr, k, idx, port, s.freeNode.take request.member.length, request.member,
    hsize ▸ hdvd⟩, ?_⟩
  constructor
  · -- No earlier record has the new id, so the filter drops nothing.
    simp only [granted, hgid, map_cons, Group.record, Group.segSize, ← hsize]
    rw [h.undo_eq, List.filter_eq_self.mpr]
    exact forall_mem_map.mpr fun g hg => decide_eq_true (hnew g hg)
  · simp only [granted, ← halloc]
    exact ordered_allocSeg l r seg _ _ (hsegs ▸ h.ordered) hle (Nat.le_add_right _ _) hge
  · intro x
    rw [← h.memory x, hsegs]
    simp only [granted, ← halloc, map_cons, Group.seg, Group.segSize, ← hsize]
    exact cover_granted l r _ seg (segAddr, segAddr + request.memorySize) x hle
      (Nat.le_add_right _ _) hge
  · refine List.Perm.trans ?_ h.groups
    simp only [granted, hfree, drop_one, tail_cons, map_cons, cons_append]
    exact perm_middle
  · refine List.Perm.trans ?_ h.nodes
    simp only [granted, flatMap_cons]
    rw [← append_assoc]
    refine List.Perm.append_right _ ?_
    refine perm_append_comm.trans ?_
    rw [take_append_drop]
  · simp only [granted, h.ports, modify_map_range, countP_cons, beq_iff_eq]
    refine map_congr_left fun n _ => ?_
    split_ifs <;> simp
  · intro e he
    simp only [granted, hgid] at he
    rcases mem_append.mp he with he | he
    · rcases h.installed e he with ⟨g, hg, heg⟩
      exact ⟨g, mem_cons_of_mem _ hg, heg⟩
    · refine ⟨_, mem_cons_self, ?_⟩
      simp only [Group.entries, Group.segSize, ← hsize]
      exact he

/-- The group a lookup in `undo` finds, with the live groups around it. -/
theorem live_of_lookup (groupid : Nat) (funcs : List UndoFunc)
    (hlook : s.undo.lookup groupid = some funcs) :
    ∃ l g r, live = l ++ g :: r ∧ g.record topo = (groupid, funcs) := by
  rw [h.undo_eq] at hlook
  rcases lookup_eq_some_iff.mp hlook with ⟨a, b, hmap, _⟩
  rcases map_eq_append_iff.mp hmap with ⟨l, rest, rfl, _, hrest⟩
  rcases map_eq_cons_iff.mp hrest with ⟨g, r, rfl, hrec, _⟩
  exact ⟨l, g, r, rfl, hrec⟩

end

/-- `DestroyGroup` takes one down. -/
theorem represents_destroyed (l r : List Group) (g : Group)
    (h : Represents topo s (l ++ g :: r)) (memseg : List Seg)
    (hfree : freeSeg s.memseg g.segAddr (g.segAddr + g.segSize) = some memseg) :
    Represents topo (destroyed topo g.groupid g.idx g.node g.member memseg s) (l ++ r) := by
  have hclear := clear_of_represents h g (mem_append_right _ mem_cons_self)
  rcases freeSeg_cases s.memseg _ _ h.ordered hclear with
    ⟨fl, fr, out, hsplit, hfl, hfr, hout, hfreed⟩
  cases hfree.symm.trans hout
  have hlt : g.segAddr < g.segAddr + g.segSize := g.seg_lt
  -- The ids of live groups are distinct, so only the record of this group goes.
  have hne : ∀ a ∈ l ++ r, a.groupid ≠ g.groupid := by
    have hnd := (nodup_append.mp (h.groups.nodup_iff.mpr (nodup_range' 1))).2.1
    rw [map_append, map_cons, perm_middle.nodup_iff, ← map_append, nodup_cons] at hnd
    exact fun a ha heq => hnd.1 (heq ▸ mem_map_of_mem ha)
  constructor
  · simp only [destroyed, h.undo_eq, map_append, map_cons, filter_append]
    rw [filter_cons_of_neg (by simp [Group.record]), ← filter_append, ← map_append]
    exact List.filter_eq_self.mpr (forall_mem_map.mpr fun b hb => decide_eq_true (hne b hb))
  · exact ordered_freed fl fr memseg _ _ hlt (hsplit ▸ h.ordered) hfl hfr hfreed
  · intro x
    have hcov := cover_freed fl fr memseg _ _ x hlt (hsplit ▸ h.ordered) hfreed
    rw [← h.memory x]
    simp only [destroyed, cover_append, map_append, map_cons] at hcov ⊢
    rw [hcov, hsplit, ← singleton_append (l := List.map Group.seg r)]
    simp only [cover_append, Group.seg]
    omega
  · refine List.Perm.trans ?_ h.groups
    simp only [destroyed, released, map_append, map_cons, append_assoc, singleton_append]
    exact List.Perm.append_left _ perm_middle.symm
  · refine List.Perm.trans ?_ h.nodes
    simp only [destroyed, released, flatMap_append, flatMap_cons, append_assoc]
    refine List.Perm.append_left _ ?_
    rw [← append_assoc, ← append_assoc]
    exact List.Perm.append_right _ perm_append_comm
  · simp only [destroyed, released, h.ports, modify_map_range, countP_append,
      countP_cons, beq_iff_eq]
    refine map_congr_left fun n _ => ?_
    split_ifs <;> push_cast <;> omega
  · -- An entry that survives has another owner: all of this group's keys go.
    intro e he
    rcases mem_filter.mp he with ⟨he, hkey⟩
    rcases h.installed e he with ⟨a, ha, hea⟩
    rcases mem_append.mp ha with ha | ha
    · exact ⟨a, mem_append_left _ ha, hea⟩
    rcases mem_cons.mp ha with rfl | ha
    · have hin : e.key ∈ a.keys topo := a.map_key_entries topo ▸ mem_map_of_mem hea
      exact absurd hin (of_decide_eq_true hkey)
    · exact ⟨a, mem_append_right _ ha, hea⟩

/-- `DestroyGroup` on a represented state: an unknown id is ignored, and for a
    live group `free_seg` succeeds. -/
theorem destroyGroup_represents (bfrt : Bfrt) (h : Represents topo s live) (groupid : Nat) :
    destroyGroup bfrt groupid s = .ok () s ∨
    (∃ es, destroyGroup bfrt groupid s = .error .bfrtError (s.withEntries es)) ∨
    ∃ l g r memseg, live = l ++ g :: r ∧ g.groupid = groupid ∧
      s.undo.lookup groupid = some (g.record topo).2 ∧
      freeSeg s.memseg g.segAddr (g.segAddr + g.segSize) = some memseg ∧
      destroyGroup bfrt groupid s =
        .ok () (destroyed topo g.groupid g.idx g.node g.member memseg s) := by
  cases hlook : s.undo.lookup groupid with
  | none =>
    refine .inl ?_
    simp [destroyGroup, bind_run, get_run, hlook, pure_run]
  | some funcs =>
    rcases live_of_lookup h groupid funcs hlook with ⟨l, g, r, hlive, hrec⟩
    rcases hrec with ⟨rfl, rfl⟩
    have hg : g ∈ live := hlive ▸ mem_append_right _ mem_cons_self
    rcases freeSeg_cases s.memseg _ _ h.ordered (clear_of_represents h g hg) with
      ⟨_, _, memseg, _, _, _, hfree, _⟩
    rcases destroyGroup_cases topo bfrt g.groupid g.segAddr g.segSize g.idx g.node g.member s hlook
      with ⟨es, hrun⟩ | ⟨_, hnone, _⟩ | ⟨memseg', hsome, hrun⟩
    · exact .inr (.inl ⟨es, hrun⟩)
    · cases hfree.symm.trans hnone
    · exact .inr (.inr ⟨l, g, r, memseg', hlive, rfl, rfl, hsome, hrun⟩)

/-- A request that returns brings up a group, takes one down or does
    nothing. -/
theorem represents_completes {s' : State} (r : Request) (h : Represents topo s live)
    (hstep : Completes topo bfrt s r s') : ∃ live', Represents topo s' live' := by
  cases r with
  | create request =>
    rcases hstep with ⟨reply, hrun⟩
    cases hrun ▸ created_createGroup topo bfrt request s with
    | null => exact ⟨live, h⟩
    | granted hpool hfit halloc =>
      rcases represents_granted h request _ _ hpool hfit halloc with ⟨g, hg⟩
      exact ⟨g :: live, hg⟩
  | destroy groupid =>
    have hrun : destroyGroup bfrt groupid s = .ok () s' := hstep
    rcases destroyGroup_represents bfrt h groupid with
      hok | ⟨es, herr⟩ | ⟨l, g, r, memseg, rfl, _, _, hfree, hok⟩
    · rw [hrun, EStateM.Result.ok.injEq] at hok
      exact ⟨live, hok.2 ▸ h⟩
    · cases hrun.symm.trans herr
    · rw [hrun, EStateM.Result.ok.injEq] at hok
      exact ⟨l ++ r, hok.2 ▸ represents_destroyed l r g h memseg hfree⟩

/-- Every state reached by requests that return is represented. -/
theorem represents_of_run {tr : List (State × Request × State)}
    (hr : Run (Completes topo bfrt) (State.init topo) tr s) : ∃ live, Represents topo s live := by
  refine hr.inv (P := fun t => ∃ live, Represents topo t live) ⟨[], represents_init topo⟩ ?_
  rintro t a u ⟨live, ht⟩ hstep
  exact represents_completes a ht hstep

/-- Two live groups never compute the same register index. -/
theorem aggIndex_ne (h : Represents topo s live) (g g' : Group) (hg : g ∈ live) (hg' : g' ∈ live)
    (hne : g.groupid ≠ g'.groupid) (psn psn' : Nat) :
    aggIndex g.aggAddr g.aggAddrOffsetMask psn ≠ aggIndex g'.aggAddr g'.aggAddrOffsetMask psn' := by
  rcases append_of_mem hg with ⟨l, r, rfl⟩
  have hmem : g' ∈ l ++ r := by
    rw [mem_append, mem_cons] at hg'
    rcases hg' with hl | rfl | hr
    · exact mem_append_left _ hl
    · exact absurd rfl hne
    · exact mem_append_right _ hr
  have hcov : ∀ x, cover [g.seg] x + cover ((l ++ r).map Group.seg) x ≤ 1 := by
    intro x
    have hx := h.memory x
    rw [map_append, map_cons, ← singleton_append (l := r.map Group.seg)] at hx
    simp only [cover_append, map_append] at hx ⊢
    split_ifs at hx <;> omega
  have happart := apart_of_cover_le_one [g.seg] _ g.seg g'.seg hcov (mem_singleton_self _)
    (mem_map_of_mem hmem) g.seg_lt g'.seg_lt
  have hw := g.aggIndex_within psn
  have hw' := g'.aggIndex_within psn'
  intro heq
  rw [heq] at hw
  omega

theorem aggIndex_lt (h : Represents topo s live) (g : Group) (hg : g ∈ live) (psn : Nat) :
    aggIndex g.aggAddr g.aggAddrOffsetMask psn < registerLen := by
  have hw := g.aggIndex_within psn
  have hpos : 0 < cover (s.memseg ++ live.map Group.seg)
      (aggIndex g.aggAddr g.aggAddrOffsetMask psn * mtuSize) :=
    (cover_pos_iff _ _).mpr ⟨g.seg, mem_append_right _ (mem_map_of_mem hg), hw⟩
  rw [h.memory] at hpos
  split_ifs at hpos with hlt
  · exact Nat.lt_of_mul_lt_mul_right hlt
  · omega

theorem metadata_mem_memberEntries (sip dip dqpn gid rank bitmap mask addr offset : Nat)
    (groupid groupSize aggAddr aggAddrLen : Nat) : ∀ (pairs : List (MemberInfo × Nat)) (i : Nat),
    Entry.metadata sip dip dqpn gid rank bitmap mask addr offset ∈
      memberEntries topo groupid groupSize aggAddr aggAddrLen i pairs →
    gid = groupid ∧ addr = aggAddr ∧ offset = aggAddrLen - 1 := by
  intro pairs
  induction pairs with
  | nil => intro i he; cases he
  | cons p rest ih =>
    intro i he
    rw [memberEntries, mem_append] at he
    rcases he with he | he
    · simp only [entriesOfMember, metadataEntry, mem_cons, Entry.metadata.injEq,
        reduceCtorEq, not_mem_nil, or_false] at he
      exact ⟨he.2.2.2.1, he.2.2.2.2.2.2.2.1, he.2.2.2.2.2.2.2.2⟩
    · exact ih (i + 1) he

/-- The metadata the data plane reads for a packet is that of a live group. -/
theorem metadata_of_live (h : Represents topo s live)
    (sip dip dqpn gid rank bitmap mask addr offset : Nat)
    (he : Entry.metadata sip dip dqpn gid rank bitmap mask addr offset ∈ s.entries) :
    ∃ g ∈ live, gid = g.groupid ∧ addr = g.aggAddr ∧ offset = g.aggAddrOffsetMask := by
  rcases h.installed _ he with ⟨g, hg, heg⟩
  refine ⟨g, hg, ?_⟩
  rw [Group.entries, grantEntries, mem_cons, mem_append, mem_singleton] at heg
  rcases heg with heg | heg | heg
  · cases heg
  · exact metadata_mem_memberEntries sip dip dqpn gid rank bitmap mask addr offset _ _ _ _ _ 0 heg
  · cases heg

end Represents

/-- The states of the handler are a run. -/
theorem run_handleAll (topo : Topo) (bfrt : Bfrt) : ∀ (rs : List Request) (s : State)
    (out : List (State × Request × State) × State), handleAll topo bfrt rs s = some out →
    Run (Completes topo bfrt) s out.1 out.2 := by
  intro rs
  induction rs with
  | nil =>
    intro s out h
    cases h
    exact Run.nil
  | cons r rest ih =>
    intro s out h
    cases r with
    | create request =>
      rw [handleAll] at h
      split at h
      · next reply u hrun =>
          rcases Option.map_eq_some_iff.mp h with ⟨out', hout, rfl⟩
          have hstep : Completes topo bfrt s (.create request) u := ⟨reply, hrun⟩
          exact Run.cons _ hstep (ih u out' hout)
      · cases h
    | destroy groupid =>
      rw [handleAll] at h
      split at h
      · next u hrun =>
          rcases Option.map_eq_some_iff.mp h with ⟨out', hout, rfl⟩
          have hstep : Completes topo bfrt s (.destroy groupid) u := hrun
          exact Run.cons _ hstep (ih u out' hout)
      · cases h

/-- In every state reached by requests that return, the free segments and the
    live groups' segments partition the memory, the pools and the live groups
    partition the ids, and the data plane keeps the groups apart. -/
theorem resources_partitioned (topo : Topo) (bfrt : Bfrt) (tr : List (State × Request × State))
    (s : State) (hr : Run (Completes topo bfrt) (State.init topo) tr s) :
    ∃ live : List Group, s.undo = live.map (Group.record topo) ∧ Ordered s.memseg ∧
      (∀ x, cover (s.memseg ++ live.map Group.seg) x = if x < switchMemSize then 1 else 0) ∧
      (∀ g ∈ live, g.segSize ∣ g.segAddr ∧ ∃ k, g.segSize = 2 ^ k * mtuSize) ∧
      (s.freeGroup ++ live.map Group.groupid).Perm (List.range' 1 (maxGroupNum - 1)) ∧
      (s.freeNode ++ live.flatMap Group.node).Perm (List.range' 1 (maxQpNum - 1)) ∧
      s.recirPortCnt = (List.range topo.recirPort.length).map
        (fun k => (live.countP (fun g => g.idx == k) : Int)) ∧
      (∀ sip dip dqpn gid rank bitmap mask addr offset,
        Entry.metadata sip dip dqpn gid rank bitmap mask addr offset ∈ s.entries →
        ∃ g ∈ live, gid = g.groupid ∧ addr = g.aggAddr ∧ offset = g.aggAddrOffsetMask) ∧
      (∀ g ∈ live, ∀ psn, aggIndex g.aggAddr g.aggAddrOffsetMask psn < registerLen ∧
        ∀ g' ∈ live, g.groupid ≠ g'.groupid → ∀ psn', aggIndex g.aggAddr g.aggAddrOffsetMask psn ≠
            aggIndex g'.aggAddr g'.aggAddrOffsetMask psn') ∧
      ∀ groupid e s', destroyGroup bfrt groupid s = .error e s' → e ≠ .systemExit := by
  rcases represents_of_run hr with ⟨live, h⟩
  refine ⟨live, h.undo_eq, h.ordered, h.memory, fun g _ => ⟨g.aligned, g.order, rfl⟩, h.groups,
    h.nodes, h.ports, metadata_of_live h, fun g hg psn => ⟨aggIndex_lt h g hg psn,
      fun g' hg' hne psn' => aggIndex_ne h g g' hg hg' hne psn psn'⟩, ?_⟩
  intro groupid e s' hrun
  rcases destroyGroup_represents bfrt h groupid with
    hok | ⟨es, herr⟩ | ⟨_, _, _, _, _, _, _, _, hok⟩
  · cases hrun.symm.trans hok
  · rw [hrun, EStateM.Result.error.injEq] at herr
    rw [herr.1]
    exact Exn.noConfusion
  · cases hrun.symm.trans hok

/-- A switch with one recirculation port and one server, at IP 1. -/
def onePort : Topo where
  ip2portDict := fun ip => if ip = 1 then some 7 else none
  switchIp := 99
  recirPort := [5]

/-- A driver that refuses a key it already has, and the deletion of one it has
    not. -/
def distinctKeys : Bfrt where
  accepts := fun es e => es.all (fun x => x.key != e.key)
  deletes := fun es k => es.any (fun x => x.key == k)

/-- A request for one packet's memory by one member on the known server. -/
def onePacket (qpn : Nat) : CreateGroupRequest := ⟨[⟨1, qpn, 0⟩], mtuSize⟩

theorem resources_partitioned_onePort :
    ∃ tr s, Run (Completes onePort distinctKeys) (State.init onePort) tr s ∧
      s.memseg = [(512, switchMemSize)] ∧ ∃ live : List Group, live.length = 2 ∧
      ∀ x, cover (s.memseg ++ live.map Group.seg) x = if x < switchMemSize then 1 else 0 := by
  have hsome : (handleAll onePort distinctKeys [.create (onePacket 10), .create (onePacket 11)]
    (State.init onePort)).map (fun out => (out.2.memseg, out.2.undo.length)) =
      some ([(512, switchMemSize)], 2) := by decide +kernel
  rcases Option.map_eq_some_iff.mp hsome with ⟨⟨tr, s⟩, hs, hfields⟩
  have hr := run_handleAll _ _ _ _ _ hs
  rcases resources_partitioned onePort distinctKeys tr s hr with ⟨live, hundo, _, hmem, _⟩
  rw [Prod.mk.injEq, hundo, length_map] at hfields
  exact ⟨tr, s, hr, hfields.1, live, hfields.2, hmem⟩

end SglangInc.Controller
