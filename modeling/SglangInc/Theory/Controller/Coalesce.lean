import SglangInc.Theory.Controller.Safety

/-!
# Coalescing of the Free List

When the free list of the controller stays in one piece, and when it does
not.

`free_seg` joins a returned block to one neighbour and not to two
(`Freed`). A block that is returned between two free segments is merged into
the left one, and the result still touches the right one. `twoSided` is the
condition on a request that makes this happen, and it is exact: along a run
of requests that return, the free segments stay separated if and only if no
request is two-sided (`separated_iff_not_twoSided`).

Separation is what brings the empty switch back. Once every group is gone,
a separated free list is the whole memory in one segment, and any request the
empty switch could serve passes the resource check again.
-/

namespace SglangInc.Controller

open List Segments EState

/-- The request destroys a live group whose memory has a free segment ending
    at its left end and another starting at its right end. -/
def twoSided (s : State) : Request → Bool
  | .create _ => false
  | .destroy groupid =>
    ((s.undo.lookup groupid).getD []).any (fun f => match f with
      | .freeSeg addrL addrR =>
        s.memseg.any (fun seg => seg.2 == addrL) && s.memseg.any (fun seg => seg.1 == addrR)
      | _ => false)

section Freed

variable {l r out : List Seg} {addrL addrR : Nat}

/-- A block with free segments on both sides ends up touching the right
    one. -/
theorem not_separated_freed (hlt : addrL < addrR) (ho : Ordered (l ++ r))
    (hl : ∀ a ∈ l, a.2 ≤ addrL) (hr : ∀ b ∈ r, addrR ≤ b.1) (hf : Freed l r addrL addrR out)
    (hleft : ∃ a ∈ l ++ r, a.2 = addrL) (hright : ∃ b ∈ l ++ r, b.1 = addrR) : ¬ Separated out := by
  rcases hleft with ⟨a, ha, haL⟩
  rcases hright with ⟨b, hb, hbR⟩
  have hal : a ∈ l := by
    refine (mem_append.mp ha).resolve_right fun har => ?_
    have h1 := hr a har
    have h2 := ho.1 a ha
    omega
  have hbr : b ∈ r := by
    refine (mem_append.mp hb).resolve_left fun hbl => ?_
    have h1 := hl b hbl
    have h2 := ho.1 b hb
    omega
  have hout := ordered_freed l r out addrL addrR hlt ho hl hr hf
  rw [separated_iff_pairwise out hout]
  rcases hf with ⟨l', c, _, rfl⟩ | ⟨hne, _⟩ | ⟨hne, _⟩
  · intro hp
    have := (pairwise_cons.mp (pairwise_append.mp hp).2.1).1 b hbr
    omega
  all_goals exact absurd haL (hne a hal)

/-- Returning a block does, with one free neighbour at most. -/
theorem separated_freed (hlt : addrL < addrR) (ho : Ordered (l ++ r)) (hs : Separated (l ++ r))
    (hl : ∀ a ∈ l, a.2 ≤ addrL) (hr : ∀ b ∈ r, addrR ≤ b.1) (hf : Freed l r addrL addrR out)
    (hone : (∀ a ∈ l ++ r, a.2 ≠ addrL) ∨ ∀ b ∈ l ++ r, b.1 ≠ addrR) : Separated out := by
  have hout := ordered_freed l r out addrL addrR hlt ho hl hr hf
  rw [separated_iff_pairwise _ ho, pairwise_append] at hs
  rw [separated_iff_pairwise out hout]
  rcases hs with ⟨hpl, hpr, hlr⟩
  rcases hf with ⟨l', c, rfl, rfl⟩ | ⟨hne, b, r', rfl, rfl⟩ | ⟨hne, hner, rfl⟩
  · -- Merged to the left, so nothing free starts at the block's end.
    have hright : ∀ b ∈ r, addrR < b.1 := by
      intro b hb
      rcases hone with hone | hone
      · exact absurd rfl (hone (c, addrL) (by simp))
      · exact Nat.lt_of_le_of_ne (hr b hb) fun h => hone b (mem_append_right _ hb) h.symm
    rcases pairwise_append.mp hpl with ⟨hpl', _, hlc⟩
    exact pairwise_append.mpr ⟨hpl', pairwise_cons.mpr ⟨hright, hpr⟩, fun a ha =>
      forall_mem_cons.mpr ⟨hlc a ha (c, addrL) (mem_singleton_self _),
        hlr a (mem_append_left _ ha)⟩⟩
  · rcases pairwise_cons.mp hpr with ⟨hb, hpr'⟩
    exact pairwise_append.mpr ⟨hpl, pairwise_cons.mpr ⟨hb, hpr'⟩, fun a ha =>
      forall_mem_cons.mpr ⟨Nat.lt_of_le_of_ne (hl a ha) (hne a ha),
        (forall_mem_cons.mp (hlr a ha)).2⟩⟩
  · refine pairwise_append.mpr ⟨hpl, pairwise_cons.mpr ⟨?_, hpr⟩, fun a ha =>
      forall_mem_cons.mpr ⟨Nat.lt_of_le_of_ne (hl a ha) (hne a ha), hlr a ha⟩⟩
    exact fun b hb => Nat.lt_of_le_of_ne (hr b hb) fun h => hner b hb h.symm

end Freed

/-- What `twoSided` says of a live group's request. -/
theorem twoSided_destroy (topo : Topo) (s : State) (g : Group)
    (hlook : s.undo.lookup g.groupid = some (g.record topo).2) :
    twoSided s (.destroy g.groupid) = true ↔
      (∃ a ∈ s.memseg, a.2 = g.segAddr) ∧ ∃ b ∈ s.memseg, b.1 = g.segAddr + g.segSize := by
  have hkeys : ∀ keys : List EntryKey, (keys.map UndoFunc.delete).any (fun f => match f with
      | .freeSeg addrL addrR =>
        s.memseg.any (fun seg => seg.2 == addrL) && s.memseg.any (fun seg => seg.1 == addrR)
      | _ => false) = false := by
    intro keys
    rw [any_map, any_eq_false]
    exact fun k _ => Bool.false_ne_true
  rw [twoSided, hlook, Option.getD_some, Group.record, undoFuncs_eq, any_append, hkeys]
  simp

section Runs

variable {topo : Topo} {bfrt : Bfrt} {s s' : State} {live : List Group}

/-- Granting a block keeps the segments separated. -/
theorem separated_granted (h : Represents topo s live) (hs : Separated s.memseg)
    (request : CreateGroupRequest) (segIndex segAddr : Nat) (memseg : List Seg)
    (hfit : fitSeg s.memseg request.memorySize = some (some (segIndex, segAddr)))
    (halloc : allocSeg s.memseg segIndex segAddr (segAddr + request.memorySize) = some memseg) :
    Separated memseg := by
  rcases fitSeg_spec _ _ _ _ hfit with ⟨⟨k, hsize⟩, l, seg, r, hsegs, rfl, hle, hge, _⟩
  have hpos : 0 < request.memorySize := by
    rw [hsize]
    exact Nat.mul_pos (Nat.two_pow_pos k) (Nat.two_pow_pos mtuBw)
  rw [hsegs, allocSeg_append] at halloc
  cases halloc
  have ho : Ordered (l ++ seg :: r) := hsegs ▸ h.ordered
  rw [hsegs, separated_iff_pairwise _ ho] at hs
  rw [separated_iff_pairwise _ (ordered_allocSeg l r seg _ _ ho hle (by omega) hge)]
  exact pairwise_allocSeg 1 hs hle (by omega) hge

/-- One request: a two-sided one leaves two free segments touching, and any
    other keeps them apart. -/
theorem separated_completes (r : Request) (h : Represents topo s live)
    (hstep : Completes topo bfrt s r s') : (twoSided s r = true → ¬ Separated s'.memseg) ∧
    (twoSided s r = false → Separated s.memseg → Separated s'.memseg) := by
  cases r with
  | create request =>
    refine ⟨fun hts => absurd hts Bool.false_ne_true, fun _ hs => ?_⟩
    rcases hstep with ⟨reply, hrun⟩
    cases hrun ▸ created_createGroup topo bfrt request s with
    | null => exact hs
    | granted _ hfit halloc => exact separated_granted h hs request _ _ _ hfit halloc
  | destroy groupid =>
    have hrun : destroyGroup bfrt groupid s = .ok () s' := hstep
    cases hlook : s.undo.lookup groupid with
    | none =>
      simp only [destroyGroup, bind_run, get_run, hlook, pure_run, EStateM.Result.ok.injEq,
        true_and] at hrun
      rw [twoSided, hlook, ← hrun]
      exact ⟨fun hts => absurd hts Bool.false_ne_true, fun _ hs => hs⟩
    | some funcs =>
      rcases live_of_lookup h groupid funcs hlook with ⟨l, g, r, rfl, hrec⟩
      rcases hrec with ⟨rfl, rfl⟩
      have hclear := clear_of_represents h g (mem_append_right _ mem_cons_self)
      rcases freeSeg_cases s.memseg _ _ h.ordered hclear with
        ⟨fl, fr, out, hsplit, hfl, hfr, hout, hfreed⟩
      -- The request completed, so its segment was freed.
      have hmem : s'.memseg = out := by
        rcases destroyGroup_cases topo bfrt g.groupid g.segAddr g.segSize g.idx g.node g.member s
          hlook with ⟨es, herr⟩ | ⟨es, _, herr⟩ | ⟨memseg, hsome, hok⟩
        iterate 2 cases hrun.symm.trans herr
        · cases hrun.symm.trans hok
          cases hout.symm.trans hsome
          rfl
      have hts := twoSided_destroy topo s g hlook
      rw [hmem]
      rw [hsplit] at hts
      have ho : Ordered (fl ++ fr) := hsplit ▸ h.ordered
      constructor
      · intro htrue
        rcases hts.mp htrue with ⟨hleft, hright⟩
        exact not_separated_freed g.seg_lt ho hfl hfr hfreed hleft hright
      · intro hfalse hs
        refine separated_freed g.seg_lt ho (hsplit ▸ hs) hfl hfr hfreed ?_
        by_contra hboth
        push Not at hboth
        rw [hts.mpr hboth] at hfalse
        exact Bool.noConfusion hfalse

/-- The whole memory serves any block size that fits in it. -/
theorem fitSeg_whole (size k : Nat) (hsize : size = 2 ^ k * mtuSize)
    (hle : size ≤ switchMemSize) : fitSeg [(0, switchMemSize)] size = some (some (0, 0)) := by
  have hmtu : 0 < mtuSize := Nat.two_pow_pos mtuBw
  have hpos : 0 < size := hsize ▸ Nat.mul_pos (Nat.two_pow_pos k) hmtu
  have hmod : size % mtuSize = 0 := by rw [hsize, Nat.mul_mod_left]
  have hpow : isPower2 (size / mtuSize) = true :=
    (isPower2_iff _).mpr ⟨k, by rw [hsize, Nat.mul_div_cancel _ hmtu]⟩
  have halign : upperAlign 0 size = 0 := by
    rw [upperAlign, Nat.zero_add, Nat.div_eq_of_lt (by omega), Nat.zero_mul]
  rw [fitSeg, if_neg (by simp [hmod, hpow])]
  simp [fitSegFrom, addrInSeg, halign, if_pos hle]

/-- With every group gone and the memory in one piece, a request that fits is
    granted as soon as its entries can be installed. -/
theorem createGroup_empty (h : Represents topo s []) (hmem : s.memseg = [(0, switchMemSize)])
    (request : CreateGroupRequest) (k : Nat) (hsize : request.memorySize = 2 ^ k * mtuSize)
    (hle : request.memorySize ≤ switchMemSize) (hnode : request.member.length < maxQpNum)
    (hinst : Installable topo bfrt request 0 s) :
    ∃ reply s', createGroup topo bfrt request s = .ok reply s' ∧ reply.groupId ≠ 0 := by
  have hfit := fitSeg_whole request.memorySize k hsize hle
  have hgroups := h.groups
  have hnodes := h.nodes
  rw [map_nil, List.append_nil] at hgroups
  rw [flatMap_nil, List.append_nil] at hnodes
  have hglen : s.freeGroup.length = maxGroupNum - 1 := by
    rw [hgroups.length_eq, length_range']
  have hnlen : s.freeNode.length = maxQpNum - 1 := by
    rw [hnodes.length_eq, length_range']
  rw [maxGroupNum] at hglen
  have hnr : ¬Refused request s := by
    rw [Refused, hmem, hfit]
    simp only [reduceCtorEq, Option.some.injEq, false_or]
    omega
  have hc := created_createGroup topo bfrt request s
  generalize createGroup topo bfrt request s = out at hc ⊢
  cases hc with
  | null href | typeError href => exact absurd href hnr
  | @granted gid _ _ _ _ _ _ hpool =>
    -- The id granted is the head of the pool, and the pool starts at 1.
    have hid := mem_range'_1.mp (hgroups.mem_iff.mp (hpool ▸ mem_cons_self : gid ∈ s.freeGroup))
    exact ⟨_, _, rfl, by simp only; omega⟩
  | raised _ _ hfit' hno =>
    rw [hmem, hfit] at hfit'
    cases hfit'
    exact absurd hinst hno

end Runs

/-- Along requests that return, the free segments stay apart exactly when no
    request is two-sided. In that case the empty switch comes back whole, and
    a request that fits an empty switch is granted. -/
theorem separated_iff_not_twoSided (topo : Topo) (bfrt : Bfrt)
    (tr : List (State × Request × State)) (s : State)
    (hr : Run (Completes topo bfrt) (State.init topo) tr s) :
    ((∀ e ∈ tr, Separated e.2.2.memseg) ↔ ∀ e ∈ tr, twoSided e.1 e.2.1 = false) ∧
    ((∀ e ∈ tr, twoSided e.1 e.2.1 = false) → s.undo = [] → s.memseg = [(0, switchMemSize)] ∧
      ∀ request : CreateGroupRequest, (∃ k, request.memorySize = 2 ^ k * mtuSize) →
        request.memorySize ≤ switchMemSize → request.member.length < maxQpNum →
        Installable topo bfrt request 0 s →
        ∃ reply s', createGroup topo bfrt request s = .ok reply s' ∧ reply.groupId ≠ 0) := by
  have hrep := hr.inv_mem (P := fun t => ∃ live, Represents topo t live)
    ⟨[], represents_init topo⟩ fun t a u ht hstep =>
      ht.elim fun _ ht => represents_completes a ht hstep
  -- Both facts about the guarded runs come from one induction.
  have hguard : (∀ e ∈ tr, twoSided e.1 e.2.1 = false) →
      ((∃ live, Represents topo s live) ∧ Separated s.memseg) ∧
      ∀ e ∈ tr, (∃ live, Represents topo e.2.2 live) ∧ Separated e.2.2.memseg := by
    intro hts
    refine hr.inv_of_guard (P := fun t => (∃ live, Represents topo t live) ∧ Separated t.memseg)
      (G := fun t a => twoSided t a = false) hts ?_ ?_
    · refine ⟨⟨[], represents_init topo⟩, fun i a b _ hb => ?_⟩
      simp [State.init] at hb
    · rintro t a u ⟨⟨live, ht⟩, hs⟩ hG hstep
      exact ⟨represents_completes a ht hstep, (separated_completes a ht hstep).2 hG hs⟩
  refine ⟨⟨fun hsep e he => ?_, fun hts e he => ((hguard hts).2 e he).2⟩, ?_⟩
  · rcases (hrep e he).1 with ⟨live, ht⟩
    by_contra hne
    rw [Bool.not_eq_false] at hne
    exact (separated_completes e.2.1 ht (hr.step_of_mem e he)).1 hne (hsep e he)
  · intro hts hundo
    rcases hguard hts with ⟨⟨⟨live, h⟩, hs⟩, _⟩
    have hlive : live = [] := by
      rw [h.undo_eq] at hundo
      exact map_eq_nil_iff.mp hundo
    subst hlive
    have hcov := h.memory
    rw [map_nil, List.append_nil] at hcov
    have hmem := eq_singleton_of_separated s.memseg switchMemSize (Nat.two_pow_pos _) h.ordered hs
      hcov
    refine ⟨hmem, ?_⟩
    rintro request ⟨k, hsize⟩ hle hnode hinst
    exact createGroup_empty h hmem request k hsize hle hnode hinst

/-- Two groups destroyed in the reverse order of their creation: no request
    is two-sided, and the switch is whole again. -/
theorem separated_iff_not_twoSided_reversed :
    ∃ tr s, Run (Completes onePort distinctKeys) (State.init onePort) tr s ∧ tr.length = 4 ∧
      (∀ e ∈ tr, Separated e.2.2.memseg) ∧ s.memseg = [(0, switchMemSize)] := by
  have hsome : (handleAll onePort distinctKeys [.create (onePacket 10), .create (onePacket 11),
    .destroy 2, .destroy 1] (State.init onePort)).map (fun out => (out.1.length, out.2.undo,
      out.1.all (fun e => !twoSided e.1 e.2.1))) = some (4, [], true) := by decide +kernel
  rcases Option.map_eq_some_iff.mp hsome with ⟨⟨tr, s⟩, hs, hfields⟩
  simp only [Prod.mk.injEq, all_eq_true, Bool.not_eq_true'] at hfields
  have hr := run_handleAll _ _ _ _ _ hs
  have hiff := separated_iff_not_twoSided onePort distinctKeys tr s hr
  exact ⟨tr, s, hr, hfields.1, hiff.1.mpr hfields.2.2, (hiff.2 hfields.2.2 hfields.2.1).1⟩

/-- Two groups destroyed in the order of their creation. Both requests return,
    no group is left, the memory is in two touching pieces, and a request for
    all of it is turned away. -/
theorem touching_after_two_groups :
    ∃ tr s, Run (Completes onePort distinctKeys) (State.init onePort) tr s ∧ s.undo = [] ∧
      s.memseg = [(0, 512), (512, switchMemSize)] ∧ ¬ Separated s.memseg ∧
      createGroup onePort distinctKeys ⟨[⟨1, 12, 0⟩], switchMemSize⟩ s = .ok .null s := by
  have hsome : (handleAll onePort distinctKeys [.create (onePacket 10), .create (onePacket 11),
    .destroy 1, .destroy 2] (State.init onePort)).map (fun out => (out.2.undo, out.2.memseg)) =
      some ([], [(0, 512), (512, switchMemSize)]) := by decide +kernel
  rcases Option.map_eq_some_iff.mp hsome with ⟨⟨tr, s⟩, hs, hfields⟩
  simp only [Prod.mk.injEq] at hfields
  have hfit : fitSeg s.memseg switchMemSize = some none := by
    rw [hfields.2]
    decide +kernel
  refine ⟨tr, s, run_handleAll _ _ _ _ _ hs, hfields.1, hfields.2, ?_, ?_⟩
  · rw [hfields.2]
    intro hsep
    exact absurd (hsep 0 (0, 512) (512, switchMemSize) rfl rfl) (lt_irrefl _)
  · simp [createGroup, bind_run, get_run, hfit, pure_run]

end SglangInc.Controller
