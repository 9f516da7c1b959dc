import SglangInc.Core.RdmaFlow
import SglangInc.Theory.Host.GroupSetup
import Mathlib.Algebra.Order.BigOperators.Group.List
import Mathlib.Algebra.Order.Ring.Nat

/-!
# Flow Control of the AllReduce Loop

The loop counts work requests, and what it has to bound are bytes. A request has at most
the bytes of a block, since the packets of a merged block are spread evenly over the queue
pairs, and the depth is at most the number of blocks in half of the switch window. A block
size for which the check of the constructor wraps leaves no room for a request at all.

## Theorems

* `flow_controlled`: Depth, bytes and the exit of every run.
* `validation_sufficient_iff`: What the constructor would have to check on top.
-/

namespace SglangInc.RdmaGroup

open List

/-- What is left to post on queue pair `j`. -/
def Point.ahead (j : Nat) : Point → Nat
  | .push left => left
  | .post left i _ => if j < i then left else left + 1
  | _ => 0

/-- What the constructor's checks give for the variables of `allreduce`. -/
structure Sized (block : Nat) (p : Plan) : Prop where
  qpNum : p.qpNum = 1 ∨ p.qpNum = 2
  aligned : block % mtuSize = 0
  merged : 0 < p.maxQsize → p.mergedBlockSize = p.qpNum * block
  padded : p.paddedSize % mtuSize = 0
  small : p.maxQsize < 2 ^ 64

/-- A queue pair whose depth is right, with room for `more` requests. -/
structure QpOk (block : Nat) (p : Plan) (q : Qp) (more : Nat) : Prop where
  txDepth : q.txDepth = q.sends.length
  rx : q.rxDepth = 0 ∧ q.recvs = 0
  bytes : ∀ n ∈ q.sends, n ≤ block
  room : q.sends.length + more ≤ p.maxQsize

/-- What holds at every point of the loop. -/
structure Flow (block : Nat) (p : Plan) (s : Loop) : Prop where
  qps : ∀ j < p.qpNum, QpOk block p (s.qps j) (s.point.ahead j)
  point : match s.point with
    | .post _ _ size => size ≤ p.mergedBlockSize ∧ 0 < p.maxQsize
    | .exit => ∀ j < p.qpNum, (s.qps j).sends = []
    | .thrown => False
    | _ => True

variable {block more size b : Nat} {p : Plan} {q : Qp} {s s' : Loop} {cfg : FlowConfig}

theorem minus_eq {a : Nat} (hle : b ≤ a) (ha : a < 2 ^ 64) : minus a b = a - b := by
  unfold minus
  omega

theorem foldl_max_le_iff (f : Nat → Nat) (b : Nat) (l : List Nat) (d : Nat) :
    l.foldl (fun d i => max d (f i)) d ≤ b ↔ d ≤ b ∧ ∀ i ∈ l, f i ≤ b := by
  induction l generalizing d with
  | nil => simp
  | cons i l ih => simp [ih, and_assoc]

theorem currentDepth_le_iff {qps : Nat → Qp} : p.currentDepth qps ≤ b ↔
    ∀ i < p.qpNum, (qps i).txDepth ≤ b ∧ (qps i).rxDepth ≤ b := by
  simp [Plan.currentDepth, foldl_max_le_iff]

theorem QpOk.less (h : QpOk block p q more) {more' : Nat} (hle : more' ≤ more) :
    QpOk block p q more' :=
  { h with room := (Nat.add_le_add_left hle _).trans h.room }

/-- One queue pair changes, and what is ahead of the others does not. -/
theorem Flow.update (h : Flow block p s) {i : Nat} {point : Point}
    (hq : i < p.qpNum → QpOk block p q (point.ahead i))
    (hahead : ∀ j, j ≠ i → point.ahead j ≤ s.point.ahead j) :
    ∀ j < p.qpNum, QpOk block p (Function.update s.qps i q j) (point.ahead j) := by
  intro j hj
  rw [Function.update_apply]
  split_ifs with hji
  · exact hji ▸ hq (hji ▸ hj)
  · exact (h.qps j hj).less (hahead j hji)

theorem Flow.depth_le (h : Flow block p s) : p.currentDepth s.qps ≤ p.maxQsize := by
  refine currentDepth_le_iff.mpr fun i hi => ?_
  have hq := h.qps i hi
  have hroom := hq.room
  exact ⟨by rw [hq.txDepth]; omega, by rw [hq.rx.1]; omega⟩

theorem valid_of_ok {cfg : Config} (hok : validate cfg .init = .ok () .init) :
    cfg.rank < cfg.worldSize ∧ cfg.perQpBlockSize % mtuSize = 0 ∧
      cfg.perQpBlockSize * 2 % 2 ^ 64 ≤ cfg.perQpSwitchWinSize / 2 := by
  rcases validate_run cfg .init with ⟨_, _, hrun⟩ | ⟨hvalid, _⟩
  · cases hrun.symm.trans hok
  · simp only [Invalid, not_or, Decidable.not_not, Nat.not_lt, Int.not_le] at hvalid
    exact ⟨hvalid.1.2.2, hvalid.2.2.1.2, hvalid.2.2.2⟩

/-- The plan of a valid configuration fits its window. -/
theorem plan_sized (hwin : cfg.perQpSwitchWinSize < 2 ^ 64) (hdepth : cfg.queueDepth < 2 ^ 64)
    (hok : validate cfg.toConfig .init = .ok () .init) (hplan : plan cfg size = some p) :
    Sized cfg.perQpBlockSize p ∧ p.maxQsize ≤ cfg.perQpSwitchWinSize / 2 / cfg.perQpBlockSize := by
  have hmtu : cfg.perQpBlockSize % mtuSize = 0 := (valid_of_ok hok).2.1
  simp only [plan, Option.ite_none_left_eq_some, Option.some.injEq] at hplan
  rcases hplan with ⟨_, rfl⟩
  refine ⟨⟨?_, hmtu, fun hroom => ?_, Nat.mul_mod_left _ _, by simp only; omega⟩,
    Nat.min_le_right _ _⟩
  · split_ifs <;> simp
  · -- There is room for a block in half of the window, so two blocks do not wrap.
    have hle : cfg.perQpBlockSize ≤ cfg.perQpSwitchWinSize / 2 := by
      by_contra hlt
      simp [Nat.div_eq_of_lt (Nat.not_le.mp hlt)] at hroom
    refine Nat.mod_eq_of_lt ?_
    split_ifs <;> omega

variable (hp : Sized block p)
include hp

/-- A request has at most the bytes of a block. -/
theorem Sized.subSize_le (hsize : size ≤ p.mergedBlockSize) (hroom : 0 < p.maxQsize) (i : Nat) :
    p.subSize size i ≤ block := by
  have haligned := hp.aligned
  rw [hp.merged hroom] at hsize
  simp only [Plan.subSize, show mtuSize = 256 from rfl] at haligned ⊢
  rcases hp.qpNum with h | h
  all_goals
    rw [h] at hsize ⊢
    split_ifs <;> omega

/-- No block has a part of a packet, so `post_message_to_qps` does not throw. -/
theorem Sized.block_aligned (hroom : 0 < p.maxQsize) (scnt : Nat) :
    min p.mergedBlockSize (minus p.paddedSize (scnt * p.mergedBlockSize % 2 ^ 64)) % mtuSize =
      0 := by
  have hmerged : mtuSize ∣ p.mergedBlockSize := by
    rw [hp.merged hroom]
    exact Nat.dvd_mul_left_of_dvd (Nat.dvd_of_mod_eq_zero hp.aligned) _
  have hwrap : mtuSize ∣ 2 ^ 64 := by decide
  refine Nat.mod_eq_zero_of_dvd ?_
  rcases Nat.le_total p.mergedBlockSize
    (minus p.paddedSize (scnt * p.mergedBlockSize % 2 ^ 64)) with hle | hle
  · rwa [Nat.min_eq_left hle]
  · rw [Nat.min_eq_right hle, minus, Nat.dvd_mod_iff hwrap]
    refine Nat.dvd_sub ((Nat.dvd_add_right (Nat.dvd_of_mod_eq_zero hp.padded)).mpr hwrap) ?_
    exact (Nat.dvd_mod_iff hwrap).mpr (Nat.dvd_mul_left_of_dvd hmerged _)

theorem QpOk.pollSend (h : QpOk block p q more) (reported : Bool) :
    QpOk block p (q.pollSend reported) more := by
  unfold Qp.pollSend
  split_ifs with hpoll
  · have hpos := length_pos_iff.mpr hpoll.2
    have hroom := h.room
    have hsmall := hp.small
    refine ⟨?_, h.rx, fun n hn => h.bytes n (mem_of_mem_tail hn), ?_⟩
    · rw [h.txDepth, minus_eq hpos (by omega), length_tail]
    · rw [length_tail]
      omega
  · exact h

theorem QpOk.post (h : QpOk block p q (more + 1)) {length : Nat} (hle : length ≤ block) :
    QpOk block p (q.postMessage length false false .txrx) more := by
  have hroom := h.room
  have hsmall := hp.small
  have hpost : q.postMessage length false false .txrx = { q with
      txDepth := (q.txDepth + 1) % 2 ^ 64
      sends := q.sends ++ [length % 2 ^ 32] } := rfl
  rw [hpost]
  refine ⟨?_, h.rx, forall_mem_append.mpr
    ⟨h.bytes, forall_mem_singleton.mpr ((Nat.mod_le _ _).trans hle)⟩, ?_⟩
  · rw [h.txDepth, length_append, length_singleton]
    exact Nat.mod_eq_of_lt (by omega)
  · rw [length_append, length_singleton]
    omega

/-- Every operation keeps `Flow`. -/
theorem flow_next (h : Flow block p s) {reported : Bool} (hs : p.next s reported = some s') :
    Flow block p s' := by
  obtain ⟨point, scnt, qps⟩ := s
  have hqps := h.qps
  have hpoint := h.point
  cases point with
  | head =>
    have hmax : p.currentDepth qps ≤ p.maxQsize := h.depth_le
    have hle : ∀ j < p.qpNum, (qps j).sends.length ≤ p.currentDepth qps := fun j hj =>
      (hqps j hj).txDepth ▸ (currentDepth_le_iff.mp le_rfl j hj).1
    simp only [Plan.next] at hs
    split_ifs at hs with hexit
    · cases hs
      exact ⟨hqps, fun j hj => length_eq_zero_iff.mp (Nat.le_zero.mp (hexit.2 ▸ hle j hj))⟩
    -- The pushes of a round fit in what the depth leaves.
    cases hs
    refine ⟨fun j hj => { hqps j hj with room := ?_ }, trivial⟩
    have := hle j hj
    simp only [Point.ahead, minus_eq hmax hp.small]
    omega
  | push left =>
    cases left with
    | zero =>
      cases hs
      exact ⟨hqps, trivial⟩
    | succ left =>
      have hroom : left + 1 ≤ p.maxQsize := (Nat.le_add_left _ _).trans
        (hqps 0 (by rcases hp.qpNum with h | h <;> omega)).room
      simp only [Plan.next, hp.block_aligned (Nat.zero_lt_of_lt hroom), ne_eq, not_true,
        if_false] at hs
      cases hs
      exact ⟨fun j hj => hqps j hj, Nat.min_le_left _ _, Nat.zero_lt_of_lt hroom⟩
  | post left i size =>
    simp only [Plan.next] at hs
    split_ifs at hs with hi
    · cases hs
      refine ⟨h.update (fun _ => ?_) fun j hj => ?_, hpoint⟩
      · have hq := hqps i hi
        simp only [Point.ahead, Nat.lt_irrefl, if_false, Nat.lt_succ_self, if_true] at hq ⊢
        exact hq.post hp (hp.subSize_le hpoint.1 hpoint.2 i)
      · simp only [Point.ahead]
        split_ifs <;> omega
    · cases hs
      refine ⟨fun j hj => (hqps j hj).less ?_, trivial⟩
      simp only [Point.ahead]
      split_ifs <;> omega
  | pollRecv i =>
    simp only [Plan.next] at hs
    split_ifs at hs with hi
    · -- Nothing was posted to receive, so there is no completion.
      cases hs
      rw [Qp.pollRecv, if_neg (by rw [(hqps i hi).rx.2]; simp)]
      exact ⟨h.update (fun _ => hqps i hi) fun _ _ => le_rfl, trivial⟩
    · cases hs
      exact ⟨hqps, trivial⟩
  | pollSend i =>
    cases hs
    exact ⟨h.update (fun hi => (hqps i hi).pollSend hp reported) fun _ _ => le_rfl, trivial⟩
  | exit | thrown => cases hs

omit hp

/-- In every run of the loop, for every configuration that the constructor accepts, each
    depth is the number of requests that are posted and not completed, none exceeds
    `max_qsize`, and the bytes of these requests are at most half of the switch window.
    Nothing is thrown, and at the exit all requests are completed. -/
theorem flow_controlled {cfg : FlowConfig} {size : Nat} (hwin : cfg.perQpSwitchWinSize < 2 ^ 64)
    (hdepth : cfg.queueDepth < 2 ^ 64) (hok : validate cfg.toConfig .init = .ok () .init)
    (hplan : plan cfg size = some p) {tr : List (Loop × Bool × Loop)}
    (hr : Run (fun s reported s' => p.next s reported = some s') {} tr s) :
    (∀ i < p.qpNum, (s.qps i).txDepth = (s.qps i).sends.length ∧
      (s.qps i).sends.sum ≤ cfg.perQpSwitchWinSize / 2) ∧
    p.currentDepth s.qps ≤ p.maxQsize ∧ s.point ≠ .thrown ∧
    (s.point = .exit → ∀ i < p.qpNum, (s.qps i).sends = [] ∧ (s.qps i).recvs = 0) := by
  rcases plan_sized hwin hdepth hok hplan with ⟨hp, hmax⟩
  have hstart : Flow cfg.perQpBlockSize p {} :=
    ⟨fun _ _ => ⟨rfl, ⟨rfl, rfl⟩, (forall_mem_nil _), Nat.zero_le _⟩, trivial⟩
  have h := hr.inv hstart fun s reported s' h hs => flow_next hp h hs
  have hpoint := h.point
  refine ⟨fun i hi => ⟨(h.qps i hi).txDepth, ?_⟩, h.depth_le, fun ht => ?_, fun he i hi => ?_⟩
  · have hroom := (h.qps i hi).room
    calc (s.qps i).sends.sum ≤ (s.qps i).sends.length * cfg.perQpBlockSize :=
          sum_le_card_nsmul _ _ (h.qps i hi).bytes
      _ ≤ cfg.perQpSwitchWinSize / 2 / cfg.perQpBlockSize * cfg.perQpBlockSize :=
          Nat.mul_le_mul_right _ (by omega)
      _ ≤ cfg.perQpSwitchWinSize / 2 := Nat.div_mul_le_self _ _
  · rwa [ht] at hpoint
  · rw [he] at hpoint
    exact ⟨hpoint i hi, (h.qps i hi).rx.2⟩

/-- A message of one block on one queue pair, after its completion. -/
theorem flow_controlled_oneBlock : ∃ p tr s, plan ⟨⟨0, 1, 256, 1024⟩, 1, 4096⟩ 1 = some p ∧
    Run (fun s reported s' => p.next s reported = some s') {} tr s ∧ s.point = .exit ∧
    (s.qps 0).sends = [] := by
  have hrun : ∃ tr s, Run (fun s reported s' => Plan.next ⟨256, 1, 256, 1, 1⟩ s reported = some s')
      {} tr s ∧ s.point = .exit :=
    ⟨_, _, .snoc true (.snoc true (.snoc true (.snoc true (.snoc true (.snoc true (.snoc true
      (.snoc true (.snoc true .nil rfl) rfl) rfl) rfl) rfl) rfl) rfl) rfl) rfl, rfl⟩
  rcases hrun with ⟨tr, s, hr, hexit⟩
  have hflow := @flow_controlled _ _ ⟨⟨0, 1, 256, 1024⟩, 1, 4096⟩ 1 (by decide) (by decide) rfl
    rfl tr hr
  exact ⟨_, tr, s, rfl, hr, hexit, (hflow.2.2.2 hexit 0 Nat.one_pos).1⟩

/-- With blocks left and nothing in flight, the loop pushes a block. -/
def Plan.Progress (p : Plan) : Prop :=
  ∀ s : Loop, s.point = .head → s.scnt < p.totalBlocks → p.currentDepth s.qps = 0 →
    ∀ reported, ∃ left, p.next s reported = some { s with point := .push (left + 1) }

/-- A queue without room for a block stops the loop. -/
theorem Plan.progress_iff (hsmall : p.maxQsize < 2 ^ 64) (htotal : p.totalBlocks < 2 ^ 64) :
    p.Progress ↔ (0 < p.totalBlocks → 0 < p.maxQsize) := by
  constructor
  · intro hprog hblocks
    have hdepth : p.currentDepth (fun _ => {}) = 0 :=
      Nat.le_zero.mp (currentDepth_le_iff.mpr fun _ _ => ⟨le_rfl, le_rfl⟩)
    obtain ⟨left, hnext⟩ := hprog {} rfl hblocks hdepth true
    simp only [Plan.next, hdepth, minus_eq (Nat.zero_le _) hsmall, hblocks.ne, false_and, if_false,
      Option.some.injEq, Loop.mk.injEq, Point.push.injEq] at hnext
    omega
  · rintro hpos ⟨_, scnt, qps⟩ rfl hscnt hdepth reported
    refine ⟨min (min p.maxQsize (p.totalBlocks - scnt)) (2 ^ 31) - 1, ?_⟩
    simp only at hscnt hdepth
    simp only [Plan.next, hdepth, minus_eq (Nat.zero_le _) hsmall, minus_eq hscnt.le htotal,
      hscnt.ne, if_false, Option.some.injEq, Loop.mk.injEq, Point.push.injEq, and_true]
    omega

/-- A message of one byte has a block, since the last block does not wrap. -/
theorem plan_one (hmtu : cfg.perQpBlockSize % mtuSize = 0) (hp : plan cfg 1 = some p) :
    0 < p.totalBlocks := by
  have hpad : (1 + mtuSize - 1) % 2 ^ 64 / mtuSize * mtuSize = 256 := rfl
  simp only [plan, hpad, Option.ite_none_left_eq_some, Option.some.injEq] at hp
  rcases hp with ⟨hmerged, rfl⟩
  rw [show mtuSize = 256 from rfl] at hmtu
  refine Nat.div_pos ?_ (Nat.pos_of_ne_zero hmerged)
  split_ifs <;> omega

/-- For an accepted configuration, the rank is an index, no division traps and the loop
    makes progress for every size, if and only if the rank is not negative, a block is not
    empty and two of them do not wrap, and the queues have a depth. -/
theorem validation_sufficient_iff {cfg : FlowConfig} (hwin : cfg.perQpSwitchWinSize < 2 ^ 64)
    (hdepth : cfg.queueDepth < 2 ^ 64) (hok : validate cfg.toConfig .init = .ok () .init) :
    ((0 ≤ cfg.rank ∧ cfg.rank < cfg.worldSize) ∧ ∀ size, ∃ p, plan cfg size = some p ∧ p.Progress) ↔
    0 ≤ cfg.rank ∧ 0 < cfg.perQpBlockSize ∧ cfg.perQpBlockSize < 2 ^ 63 ∧ 0 < cfg.queueDepth := by
  obtain ⟨hrank, hmtu, hfit⟩ := valid_of_ok hok
  have hmax (size : Nat) {p : Plan} (hp : plan cfg size = some p) :
      p.maxQsize = min cfg.queueDepth (cfg.perQpSwitchWinSize / 2 / cfg.perQpBlockSize) ∧
      (p.Progress ↔ (0 < p.totalBlocks → 0 < p.maxQsize)) := by
    simp only [plan, Option.ite_none_left_eq_some, Option.some.injEq] at hp
    rcases hp with ⟨_, rfl⟩
    exact ⟨rfl, Plan.progress_iff ((Nat.min_le_left _ _).trans_lt hdepth)
      ((Nat.div_le_self _ _).trans_lt (Nat.mod_lt _ (by decide)))⟩
  constructor
  · rintro ⟨⟨hpos, _⟩, h⟩
    obtain ⟨p, hp, hprog⟩ := h 1
    have hroom := (hmax 1 hp).2.mp hprog (plan_one hmtu hp)
    rw [(hmax 1 hp).1, lt_min_iff, Nat.div_pos_iff] at hroom
    exact ⟨hpos, hroom.2.1, by omega, hroom.1⟩
  · rintro ⟨hpos, hempty, hwrap, hqueue⟩
    refine ⟨⟨hpos, hrank⟩, fun size => ?_⟩
    obtain ⟨p, hp⟩ : ∃ p, plan cfg size = some p := ⟨_, if_neg (by split_ifs <;> omega)⟩
    refine ⟨p, hp, (hmax size hp).2.mpr fun _ => ?_⟩
    rw [(hmax size hp).1]
    exact lt_min hqueue (Nat.div_pos (by omega) hempty)

theorem validation_sufficient_default :
    ∃ p, plan ⟨⟨0, 4, 32768, 131072⟩, 128, 4096⟩ 1000000 = some p ∧ p.Progress :=
  ((validation_sufficient_iff (by decide) (by decide) rfl).mpr (by decide)).2 1000000

/-- A negative rank, an empty block and an empty queue are accepted. -/
theorem validation_accepts : validate ⟨-1, 1, 256, 1024⟩ .init = .ok () .init ∧
    (validate ⟨0, 1, 0, 1024⟩ .init = .ok () .init ∧ plan ⟨⟨0, 1, 0, 1024⟩, 128, 4096⟩ 1 = none) ∧
    (validate ⟨0, 1, 256, 1024⟩ .init = .ok () .init ∧ ∃ p,
      plan ⟨⟨0, 1, 256, 1024⟩, 0, 4096⟩ 1 = some p ∧ ¬ p.Progress) := by
  refine ⟨rfl, ⟨rfl, rfl⟩, rfl, _, rfl, fun hprog => ?_⟩
  exact lt_irrefl 0 ((Plan.progress_iff (by decide) (by decide)).mp hprog (by decide))

end SglangInc.RdmaGroup
