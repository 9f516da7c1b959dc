import SglangInc.Core.Controller

/-!
# Group Setup on the Host

The part of `server/rdma_group.cpp` in which rank 0 asks the controller for
one group per queue pair: the constructor of `RDMAGroup::Impl` and the RPC loop
of `exchange_info_socket`.

The controller is on the other end of an RPC, so its answers are a parameter:
`answer q` is what the call for queue pair `q` returns. The state keeps the
groups of this construction that the controller has up, next to the fields of
the object, because whether the two agree when construction fails is the
question.

Construction is an `EStateM` computation. An exception that leaves the
constructor of an object does not run the object's destructor, so the state
in which the computation raises is the state that remains: `return_groups`, which
the destructor calls, is not called on that path. Reading `rep.member(r)` of a reply with fewer
members is undefined behaviour in the source and its own exception here.

The socket exchange between the ranks and the verbs calls are left out. What
can throw among the latter throws before the first RPC, and is the parameter
`setup`.
-/

namespace SglangInc.RdmaGroup

open Controller (CreateGroupReply MemberInfo)

/-- The arguments that group setup reads. -/
structure Config where
  rank : Int
  worldSize : Nat
  perQpBlockSize : Nat
  perQpSwitchWinSize : Nat
deriving DecidableEq, Repr

/-- The number of queue pairs the constructor decides on. -/
def qpNum : Nat := 2

/-- `mtu_size_`. -/
def mtuSize : Nat := 128 <<< 1

/-- The outcome of a `CreateGroup` call: `ok()` with a reply, or not. -/
inductive Answer where
  | ok (rep : CreateGroupReply)
  | rpcError
deriving DecidableEq, Repr

/-- The address of a rank, with a queue pair for each group. -/
structure RankAddr where
  ip : Nat
  qpn : Nat → Nat
  rkey : Nat

/-- `group_ids_`, `remote_addr_list`, and the groups of this construction
    that are up on the controller. -/
structure Impl where
  groupIds : List Nat
  remoteAddrList : Nat → RankAddr
  controller : List Nat

/-- Before the constructor runs. -/
def Impl.init : Impl where
  groupIds := []
  remoteAddrList := fun _ => ⟨0, fun _ => 0, 0⟩
  controller := []

/-- What group setup throws. -/
inductive HostExn where
  | runtimeError (what : String)
  | memberOutOfRange (r : Nat)
deriving DecidableEq, Repr

/-- A computation of the host. -/
abbrev Host := EStateM HostExn Impl

/-- The checks at the head of the constructor, in order. `size_t` products
    wrap at 2^64. -/
def validate (cfg : Config) : Host Unit :=
  if cfg.worldSize < 1 ∨ 32 < cfg.worldSize ∨ cfg.worldSize ≤ cfg.rank then
    throw (.runtimeError "Invalid world_size or rank")
  else if (cfg.perQpSwitchWinSize &&& (cfg.perQpSwitchWinSize - 1)) ≠ 0 then
    throw (.runtimeError "Invalid per_qp_switch_win_size: must be power of 2")
  else if cfg.perQpSwitchWinSize % mtuSize ≠ 0 ∨ cfg.perQpBlockSize % mtuSize ≠ 0 then
    throw (.runtimeError "Invalid window or block size for MTU alignment")
  else if cfg.perQpSwitchWinSize / 2 < cfg.perQpBlockSize * 2 % 2 ^ 64 then
    throw (.runtimeError "Invalid message size: 2*block_size exceeds server_win_size")
  else pure ()

/-- The address of one member is filled in. -/
def setAddr (q r : Nat) (m : MemberInfo) (list : Nat → RankAddr) : Nat → RankAddr := fun r' =>
  if r' = r then
    ⟨m.ip, fun q' => if q' = q then m.qpn else (list r).qpn q', m.rkey⟩
  else list r'

/-- The inner loop: the switch-mapped address of `n` ranks from `r` on. -/
def copyMembers (q : Nat) (rep : CreateGroupReply) : Nat → Nat → Host Unit
  | _, 0 => pure ()
  | r, n + 1 => do
      match rep.member[r]? with
      | none => throw (.memberOutOfRange r)
      | some m => modify fun s => { s with remoteAddrList := setAddr q r m s.remoteAddrList }
      copyMembers q rep (r + 1) n

/-- One `CreateGroup` call. A reply with a group id means the group is up on
    the controller from here on. -/
def callCreateGroup (answer : Nat → Answer) (q : Nat) : Host (Option CreateGroupReply) := do
  match answer q with
  | .rpcError => pure none
  | .ok rep => do
      if rep.groupId ≠ 0 then
        modify fun s => { s with controller := s.controller ++ [rep.groupId] }
      pure (some rep)

/-- The RPC loop of `exchange_info_socket`: `n` queue pairs from `q` on. -/
def createGroups (worldSize : Nat) (answer : Nat → Answer) : Nat → Nat → Host Unit
  | _, 0 => pure ()
  | q, n + 1 => do
      match ← callCreateGroup answer q with
      | none => throw (.runtimeError "RPC CreateGroup failed")
      | some rep => do
          modify fun s => { s with groupIds := s.groupIds ++ [rep.groupId] }
          copyMembers q rep 0 worldSize
          createGroups worldSize answer (q + 1) n

/-- The constructor. `setup` is the message of the exception the device setup
    throws, if it throws one. Ranks other than 0 make no RPC. -/
def construct (cfg : Config) (setup : Option String) (answer : Nat → Answer) : Host Unit := do
  validate cfg
  match setup with
  | some what => throw (.runtimeError what)
  | none =>
    if cfg.rank = 0 then createGroups cfg.worldSize answer 0 qpNum

end SglangInc.RdmaGroup
