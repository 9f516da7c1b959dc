import SglangInc.Core.RdmaGroup
import SglangInc.Theory.Controller.AllOrNothing

/-!
# Failed Group Setup

Which answers of the controller leave groups behind when the construction of
an `RDMAGroup` fails.

The controller answers with a full reply, with the NULL group when it has no
resources, or not at all (`createGroup_answer`). The host tests only for the
last of the three. A NULL reply is recorded as a group and its members are
read, of which there are none; a failed call throws, but out of the
constructor, so the destructor that would return the earlier groups does not
run. `createGroups_cases` follows the RPC loop to the first answer that is
not full, and `setup_safe_iff` reads off the answers for which setup is safe:
all of them full, or the very first call failing.
-/

namespace SglangInc.RdmaGroup

open List EState Controller

/-- A reply that carries a group id and one address per rank. -/
def Answer.Full (worldSize : Nat) : Answer → Prop
  | .ok rep => rep.groupId ≠ 0 ∧ rep.member.length = worldSize
  | .rpcError => False

/-- A full reply, the NULL group with no members, or an RPC error. -/
def Answer.Possible (worldSize : Nat) (a : Answer) : Prop :=
  a.Full worldSize ∨ a = .ok .null ∨ a = .rpcError

/-- The id in the reply, or 0 when the call has failed. -/
def Answer.groupId : Answer → Nat
  | .ok rep => rep.groupId
  | .rpcError => 0

/-- Setup succeeds with one live group per queue pair, or throws with none of
    its groups left on the controller, and reads nothing a reply lacks. -/
def SetupSafe : EStateM.Result HostExn Impl Unit → Prop
  | .ok _ s => s.groupIds.length = qpNum ∧ ∀ g ∈ s.groupIds, g ≠ 0 ∧ g ∈ s.controller
  | .error (.runtimeError _) s => s.controller = []
  | .error (.memberOutOfRange _) _ => False

/-- The controller model only gives the three kinds of answer. -/
theorem createGroup_answer (topo : Topo) (bfrt : Bfrt) (tr : List (State × Request × State))
    (s : State) (hr : Run (Handles topo bfrt) (State.init topo) tr s)
    (request : CreateGroupRequest) : (match createGroup topo bfrt request s with
      | .ok reply _ => Answer.ok reply
      | .error _ _ => Answer.rpcError).Possible request.member.length := by
  have hpos := positiveIds_run hr
  have hc := created_createGroup topo bfrt request s
  generalize createGroup topo bfrt request s = out at hc ⊢
  cases hc with
  | null => exact .inr (.inl rfl)
  | typeError | raised => exact .inr (.inr rfl)
  | @granted gid _ _ _ _ _ _ hfg =>
    have hgid : gid ≠ 0 := fun h0 => hpos.pool (by rw [hfg, h0]; exact mem_cons_self)
    exact .inl ⟨hgid, length_map ..⟩

/-- A reply with enough members is copied without a bad read. -/
theorem copyMembers_full (q : Nat) (rep : CreateGroupReply) (n : Nat) : ∀ (r : Nat) (s : Impl),
    r + n ≤ rep.member.length →
    ∃ list, copyMembers q rep r n s = .ok () { s with remoteAddrList := list } := by
  induction n with
  | zero => intro r s _; exact ⟨s.remoteAddrList, rfl⟩
  | succ n ih =>
    intro r s hle
    have hget : rep.member[r]? = some rep.member[r] := getElem?_eq_getElem (by omega)
    rw [copyMembers, hget]
    rcases ih (r + 1) { s with remoteAddrList := setAddr q r rep.member[r] s.remoteAddrList }
      (by omega) with ⟨list, hrun⟩
    exact ⟨list, hrun⟩

/-- The ids of the groups behind the answers for `n` queue pairs from `q`. -/
def idsFrom (answer : Nat → Answer) (q n : Nat) : List Nat :=
  (List.range' q n).map (fun k => (answer k).groupId)

theorem idsFrom_succ (answer : Nat → Answer) (q n : Nat) :
    idsFrom answer q (n + 1) = (answer q).groupId :: idsFrom answer (q + 1) n := rfl

section Loop

variable (worldSize : Nat) (answer : Nat → Answer)

theorem callCreateGroup_full (q : Nat) (s : Impl) (h : (answer q).Full worldSize) :
    ∃ rep, rep.groupId = (answer q).groupId ∧ rep.member.length = worldSize ∧
      callCreateGroup answer q s =
        .ok (some rep) { s with controller := s.controller ++ [(answer q).groupId] } := by
  cases ha : answer q with
  | rpcError =>
    rw [ha] at h
    cases h
  | ok rep =>
    rw [ha] at h
    refine ⟨rep, rfl, h.2, ?_⟩
    simp only [callCreateGroup, ha, h.1, ne_eq, not_false_eq_true, if_true, bind_run, modify_run,
      pure_run, Answer.groupId]

/-- The loop runs through, or stops at the first answer that is not full: a
    failed call throws with the earlier groups still up, a NULL reply is read
    past its end. -/
theorem createGroups_cases (hw : 0 < worldSize) (hp : ∀ q, (answer q).Possible worldSize)
    (n : Nat) : ∀ (q : Nat) (s : Impl), ((∀ k < n, (answer (q + k)).Full worldSize) ∧ ∃ list,
      createGroups worldSize answer q n s = .ok () ⟨s.groupIds ++ idsFrom answer q n, list,
        s.controller ++ idsFrom answer q n⟩) ∨
    ∃ k < n, (∀ j < k, (answer (q + j)).Full worldSize) ∧ ((answer (q + k) = .rpcError ∧ ∃ list,
        createGroups worldSize answer q n s = .error (.runtimeError "RPC CreateGroup failed")
          ⟨s.groupIds ++ idsFrom answer q k, list, s.controller ++ idsFrom answer q k⟩) ∨
      (answer (q + k) = .ok .null ∧ ∃ s',
        createGroups worldSize answer q n s = .error (.memberOutOfRange 0) s')) := by
  induction n with
  | zero =>
    intro q s
    refine .inl ⟨fun k hk => absurd hk (Nat.not_lt_zero k), s.remoteAddrList, ?_⟩
    simp [createGroups, pure_run, idsFrom]
  | succ n ih =>
    intro q s
    rcases hp q with hfull | hnull | herr
    · -- A full reply: the loop goes on in the state with one more group.
      rcases callCreateGroup_full worldSize answer q s hfull with ⟨rep, hid, hlen, hcall⟩
      rcases copyMembers_full q rep worldSize 0 ⟨s.groupIds ++ [rep.groupId], s.remoteAddrList,
          s.controller ++ [(answer q).groupId]⟩ (by omega) with ⟨list, hcopy⟩
      rw [hid] at hcopy
      have hnext : createGroups worldSize answer q (n + 1) s =
          createGroups worldSize answer (q + 1) n ⟨s.groupIds ++ [(answer q).groupId], list,
            s.controller ++ [(answer q).groupId]⟩ := by
        simp [createGroups, bind_run, hcall, modify_run, hcopy, hid]
      have hshift : ∀ k, q + 1 + k = q + (k + 1) := fun k => by omega
      rw [hnext]
      rcases ih (q + 1) _ with ⟨hall, list', hrun⟩ | ⟨k, hk, hbefore, hstop⟩
      · refine .inl ⟨Nat.forall_lt_succ_left.mpr
          ⟨hfull, fun j hj => hshift j ▸ hall j hj⟩, list', ?_⟩
        rw [hrun, idsFrom_succ, append_assoc, append_assoc]
        rfl
      refine .inr ⟨k + 1, by omega, Nat.forall_lt_succ_left.mpr
        ⟨hfull, fun j hj => hshift j ▸ hbefore j hj⟩, ?_⟩
      rw [← hshift]
      rcases hstop with ⟨ha, list', hrun⟩ | ⟨ha, s', hrun⟩
      · refine .inl ⟨ha, list', ?_⟩
        rw [hrun, idsFrom_succ, append_assoc, append_assoc]
        rfl
      · exact .inr ⟨ha, s', hrun⟩
    · -- The NULL group is pushed like any other, and has no member 0.
      refine .inr ⟨0, Nat.succ_pos n, fun j hj => absurd hj (Nat.not_lt_zero j), .inr ⟨hnull, ?_⟩⟩
      obtain ⟨w, rfl⟩ : ∃ w, worldSize = w + 1 := ⟨worldSize - 1, by omega⟩
      refine ⟨⟨s.groupIds ++ [0], s.remoteAddrList, s.controller⟩, ?_⟩
      simp only [createGroups, callCreateGroup, hnull]
      rfl
    · refine .inr ⟨0, Nat.succ_pos n, fun j hj => absurd hj (Nat.not_lt_zero j),
        .inl ⟨herr, s.remoteAddrList, ?_⟩⟩
      simp [createGroups, callCreateGroup, herr, bind_run, pure_run, throw_run, idsFrom,
        List.append_nil]

end Loop

/-- The constructor throws at one of its checks. -/
def Invalid (cfg : Config) : Prop :=
  (cfg.worldSize < 1 ∨ 32 < cfg.worldSize ∨ cfg.worldSize ≤ cfg.rank) ∨
  (cfg.perQpSwitchWinSize &&& (cfg.perQpSwitchWinSize - 1)) ≠ 0 ∨
  (cfg.perQpSwitchWinSize % mtuSize ≠ 0 ∨ cfg.perQpBlockSize % mtuSize ≠ 0) ∨
  cfg.perQpSwitchWinSize / 2 < cfg.perQpBlockSize * 2 % 2 ^ 64

instance (cfg : Config) : Decidable (Invalid cfg) :=
  inferInstanceAs (Decidable (_ ∨ _ ∨ _ ∨ _))

theorem validate_run (cfg : Config) (s : Impl) :
    (Invalid cfg ∧ ∃ what, validate cfg s = .error (.runtimeError what) s) ∨
    (¬ Invalid cfg ∧ validate cfg s = .ok () s) := by
  simp only [validate, Invalid]
  split_ifs with h1 h2 h3 h4
  · exact .inl ⟨.inl h1, _, rfl⟩
  · exact .inl ⟨.inr (.inl h2), _, rfl⟩
  · exact .inl ⟨.inr (.inr (.inl h3)), _, rfl⟩
  · exact .inl ⟨.inr (.inr (.inr h4)), _, rfl⟩
  · exact .inr ⟨by tauto, rfl⟩

/-- Setup on rank 0 is safe exactly when no group is asked for, every answer
    is a full reply, or the first call already fails. -/
theorem setup_safe_iff (cfg : Config) (setup : Option String) (answer : Nat → Answer)
    (hrank : cfg.rank = 0) (hp : ∀ q, (answer q).Possible cfg.worldSize) :
    SetupSafe (construct cfg setup answer Impl.init) ↔
      Invalid cfg ∨ setup ≠ none ∨ (∀ q < qpNum, (answer q).Full cfg.worldSize) ∨
      answer 0 = .rpcError := by
  rcases validate_run cfg Impl.init with ⟨hbad, what, hrun⟩ | ⟨hok, hrun⟩
  · simp only [construct, bind_run, hrun, hbad, true_or, iff_true]
    rfl
  have hw : 0 < cfg.worldSize := by
    unfold Invalid at hok
    omega
  cases setup with
  | some what =>
    simp only [construct, bind_run, hrun, ne_eq, reduceCtorEq, not_false_eq_true, true_or,
      or_true, iff_true]
    rfl
  | none =>
    have hcon : construct cfg none answer Impl.init =
        createGroups cfg.worldSize answer 0 qpNum Impl.init := by
      simp [construct, bind_run, hrun, if_pos hrank]
    simp only [hcon, hok, ne_eq, not_true_eq_false, false_or]
    rcases createGroups_cases cfg.worldSize answer hw hp qpNum 0 Impl.init with
      ⟨hall, list, hloop⟩ | ⟨k, hk, hbefore, hstop⟩
    · simp only [Nat.zero_add] at hall
      refine ⟨fun _ => .inl hall, fun _ => ?_⟩
      rw [hloop]
      refine ⟨by simp [idsFrom, Impl.init], fun g hg => ⟨?_, hg⟩⟩
      rcases mem_map.mp hg with ⟨q, hq, rfl⟩
      have hfull := hall q (by have := mem_range'_1.mp hq; omega)
      cases ha : answer q with
      | rpcError => rw [ha] at hfull; cases hfull
      | ok rep => rw [ha] at hfull; exact hfull.1
    -- All answers before `k` were full, so a first call that fails is the one that stopped.
    have hfirst : answer 0 = .rpcError → k = 0 := by
      intro hfirst
      by_contra hk0
      have := hbefore 0 (Nat.pos_of_ne_zero hk0)
      rw [hfirst] at this
      cases this
    rw [Nat.zero_add] at hstop
    rcases hstop with ⟨herr, list, hloop⟩ | ⟨hnull, s', hloop⟩
    · -- The call for `k` failed: the groups of the earlier ones stay up.
      rw [hloop]
      constructor
      · intro hsafe
        have hids : idsFrom answer 0 k = [] := hsafe
        have hk0 : k = 0 := by
          have := congrArg List.length hids
          simpa only [idsFrom, length_map, length_range', length_nil] using this
        exact .inr (hk0 ▸ herr)
      · rintro (hall | h0)
        · have := hall k hk
          rw [herr] at this
          cases this
        · rw [hfirst h0]
          rfl
    · -- A NULL reply is read past its end, which is never safe.
      rw [hloop]
      refine ⟨nofun, ?_⟩
      rintro (hall | h0)
      · have := hall k hk
        rw [hnull] at this
        exact absurd rfl this.1
      · rw [hfirst h0] at hnull
        cases hnull.symm.trans h0

/-- A configuration of four ranks with the default window and block sizes. -/
def fourRanks : Config := ⟨0, 4, 32768, 131072⟩

/-- A full reply with the given group id. -/
def fullReply (groupId : Nat) : Answer :=
  .ok ⟨groupId, List.replicate 4 ⟨99, 10, 0⟩⟩

theorem setup_safe_iff_full : SetupSafe
    (construct fourRanks none (fun q => fullReply (q + 1)) Impl.init) :=
  (setup_safe_iff fourRanks none (fun q => fullReply (q + 1)) rfl
    (fun q => .inl ⟨Nat.succ_ne_zero q, rfl⟩)).mpr
    (.inr (.inr (.inl fun q _ => ⟨Nat.succ_ne_zero q, rfl⟩)))

/-- The controller grants the first group and not the second. With a NULL
    reply the host reads member 0 of a reply without members, with an RPC
    error the constructor throws, and group 1 stays up in both cases. -/
theorem setup_leaks_first_group :
    (∃ s, construct fourRanks none (fun q => if q = 0 then fullReply 1 else .ok .null)
        Impl.init = .error (.memberOutOfRange 0) s ∧ s.controller = [1]) ∧
    ∃ s, construct fourRanks none (fun q => if q = 0 then fullReply 1 else .rpcError)
        Impl.init = .error (.runtimeError "RPC CreateGroup failed") s ∧ s.controller = [1] :=
  ⟨⟨_, rfl, rfl⟩, _, rfl, rfl⟩

end SglangInc.RdmaGroup
