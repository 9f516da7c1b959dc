import SglangInc.Theory.Abort.Accounting
import SglangInc.Lib.Checked
import SglangInc.Lib.Runs

/-!
# Exact Aborts

An abort gives back what the named request has, once, and touches no other
request, as long as it is `Abortable` (`abort_exact`).

`abort_request` does three things. It pops the named requests of the waiting queue
and releases what they own; it marks the others; and the marked ones are released
when they are processed the next time. Each has its exceptions, which are what
`Abortable` excludes:

* A request is named by a prefix of its rid, so an abort of `r1` is also one of
  `r10` (`abort_other_request`).
* A waiting request of a prefill server has a metadata index, which is not freed.
* A waiting request of a decode server with a Mamba pool is released twice.
* A request that was retracted still has the number of its old row. If it gets a
  Mamba slot while it waits, the release looks that row up and frees it, with the
  slot of whoever owns it now.
* A request in the grammar queue loses its `grammar`, which is read when the queue
  is looked at next.
* A retracted request of a decode server is not looked for.
* Some transfer backends cannot abort.
-/

namespace SglangInc.Abort

open List Scheduler Req

/-- None of the exceptions above applies to an abort of `rid`. -/
structure Abortable (s : Scheduler) (rid : String) : Prop where
  /-- No other rid starts with this one. -/
  names : ∀ req ∈ s.reqs, named rid req = true → req.rid = rid
  place : ∀ req ∈ s.reqs, req.rid = rid → req.place ≠ .grammar ∧ req.place ≠ .retracted
  prefill : s.cfg.mode = .prefill → ∀ req ∈ s.reqs, req.rid = rid → req.place ≠ .waiting
  decode : s.cfg.mode = .decode → ∀ req ∈ s.reqs, req.rid = rid → req.place = .waiting →
    req.mambaPoolIdx = none
  unified : s.cfg.mode = .unified → ∀ req ∈ s.reqs, req.rid = rid → req.place = .waiting →
    req.mambaPoolIdx ≠ none → req.reqPoolIdx = none
  transfer : ∀ req ∈ s.reqs, req.rid = rid →
    req.place = .bootstrap ∨ req.place = .prealloc ∨ req.place = .transfer →
    s.cfg.abortable = true

/-- The request leaves when it is processed. -/
def Marked (req : Req) : Prop :=
  match req.place with
  | .running | .waiting | .retracted => req.toFinish = true
  | .bootstrap | .prealloc | .transfer => req.transferAborted = true
  | .inflight => True
  | .grammar => False

/-- The named requests of the waiting queue. -/
def popped (s : Scheduler) (rid : String) : List Req :=
  s.reqs.filter fun req => req.rid = rid ∧ req.place = .waiting

/-- What an abort does, from state `s` to state `s'`. -/
structure AbortExact (s : Scheduler) (rid : String) (s' : Scheduler) : Prop where
  /-- The requests with another rid are what they were. -/
  others : s'.reqs.filter (·.rid ≠ rid) = s.reqs.filter (·.rid ≠ rid)
  /-- Those with this rid are going to leave, or are popped already. -/
  marked : ∀ req ∈ s'.reqs, req.rid = rid → Marked req ∧ req.place ≠ .waiting
  /-- All that the popped ones owned is free again. -/
  released : (↑s'.free : Multiset Resource) = ↑s.free + ((popped s rid).map (holds s.cfg)).sum
  tree : s'.tree = s.tree

section Drop

variable {s s' : Scheduler} {req : Req} {isInsert : Bool} {takes : Takes}

theorem giveSlots_nil (s : Scheduler) (kv : List Nat) : (s.giveSlots kv []).tree = s.tree := by
  simp [giveSlots]

/-- A release that inserts nothing leaves the prefix cache alone. -/
theorem cacheFinishedReq_tree (hno : s.cfg.radix = false ∨ isInsert = false)
    (h : s.cacheFinishedReq req isInsert takes = .ok s') : s'.tree = s.tree := by
  cases hradix : s.cfg.radix with
  | false =>
    simp only [cacheFinishedReq, hradix, Bool.false_eq_true, if_false] at h
    split at h
    · cases h
      exact giveSlots_nil _ req.kv
    · cases h
  | true =>
    obtain rfl : isInsert = false := hno.resolve_left (by rw [hradix]; decide)
    simp only [cacheFinishedReq, hradix, Bool.false_eq_true, if_false, Bool.false_and,
      Bool.not_false, if_true] at h
    repeat' split at h
    all_goals cases h
    all_goals exact giveSlots_nil s req.kv

theorem releaseKvCache_tree {req' : Req} (hno : s.cfg.radix = false ∨ isInsert = false)
    (h : s.releaseKvCache req isInsert takes = .ok (s', req')) : s'.tree = s.tree := by
  simp only [releaseKvCache] at h
  split at h
  · cases h
  · obtain ⟨s1, hs1, h⟩ := Checked.bind_eq_ok.mp h
    split at h
    · cases h
    · obtain rfl : s1 = s' := congrArg Prod.fst (Except.ok.inj h)
      exact cacheFinishedReq_tree hno hs1

/-- A popped request: all it owns is free afterwards. -/
structure Dropped (s s' : Scheduler) (l : Multiset Resource) : Prop extends Gives s s' l where
  tree : s'.tree = s.tree

theorem Dropped.refl (s : Scheduler) : Dropped s s 0 := ⟨⟨rfl, rfl, rfl, (add_zero _).symm⟩, rfl⟩

theorem Dropped.trans {s'' : Scheduler} {l l' : Multiset Resource} (h : Dropped s s' l)
    (h' : Dropped s' s'' l') : Dropped s s'' (l + l') :=
  ⟨h.toGives.trans h'.toGives, h'.tree.trans h.tree⟩

/-- What `dropWaiting` relies on. -/
structure Droppable (cfg : Config) (req : Req) : Prop where
  place : req.place = .waiting
  prefill : cfg.mode ≠ .prefill
  decode : cfg.mode = .decode → req.mambaPoolIdx = none
  unified : cfg.mode = .unified → req.mambaPoolIdx ≠ none → req.reqPoolIdx = none

/-- A waiting request is dropped with all that it holds. -/
theorem dropWaiting_spec (hf : Fits s.cfg s.mambaIndex req) (hd : Droppable s.cfg req) :
    ∃ s', s.dropWaiting req = .ok s' ∧ Dropped s s' (req.holds s.cfg) := by
  have hmeta : req.metadataBufferIndex = none :=
    of_not_not fun hm => hd.prefill (hf.metadata_prefill hm hd.place (by decide)).1
  have hholds : req.holds s.cfg = req.cached s.cfg := by
    rw [holds, hmeta]
    exact add_zero _
  rw [hholds]
  cases hmode : s.cfg.mode with
  | prefill => exact absurd hmode hd.prefill
  | decode =>
    -- On a decode server a waiting request has its row already.
    have howns : req.ownsRow s.cfg = true := by simp [ownsRow, hd.place, hmode]
    have hmamba := hd.decode hmode
    obtain ⟨s1, req1, hs1, hg, rfl⟩ := releaseKvCache_spec hf howns true ⟨[], false⟩
    refine ⟨s1, ?_, hg, releaseKvCache_tree (.inl (s.cfg.decode_chunk hmode)) hs1⟩
    simp only [dropWaiting, hmode, if_true, hs1, bind, Except.bind, hmamba, Option.isSome_none,
      Bool.false_eq_true, if_false]
    rfl
  | unified =>
    have howns : req.ownsRow s.cfg = false := by simp [ownsRow, hd.place, hmode]
    have hkv := hf.kv howns
    have hcached : req.cached s.cfg = ↑(req.mambaPoolIdx.toList.map Resource.mamba) := by
      simp [cached, howns, hkv]
    rw [hcached]
    cases hm : req.mambaPoolIdx with
    | none =>
      refine ⟨s, ?_, Dropped.refl s⟩
      simp only [dropWaiting, hmode, reduceCtorEq, if_false, bind, Except.bind, hm,
        Option.isSome_none, Bool.false_eq_true]
      rfl
    | some m =>
      -- A copied Mamba state is freed although there is no row.
      have hne : req.mambaPoolIdx ≠ none := by rw [hm]; exact Option.some_ne_none m
      have hrow := hd.unified hmode hne
      have hpool := hf.mamba hne
      have hradix := (hf.copy hne howns).2
      have hslots : s.giveSlots req.kv [] = s := by
        simp [giveSlots, hkv]
      refine ⟨s.release [.mamba m], ?_, Gives.release s _, rfl⟩
      simp only [dropWaiting, hmode, reduceCtorEq, if_false, bind, Except.bind, hm,
        Option.isSome_some, if_true, releaseKvCache, hf.committed, hf.overallocated, Bool.and_false,
        Bool.false_eq_true, cacheFinishedReq, hradix, hslots, hpool, hrow, Bool.not_false]
      rfl

theorem foldlM_dropWaiting (l : List Req) (s : Scheduler)
    (hf : ∀ req ∈ l, Fits s.cfg s.mambaIndex req) (hd : ∀ req ∈ l, Droppable s.cfg req) :
    ∃ s', l.foldlM dropWaiting s = .ok s' ∧ Dropped s s' (l.map (holds s.cfg)).sum := by
  induction l generalizing s with
  | nil => exact ⟨s, rfl, Dropped.refl s⟩
  | cons req l ih =>
    obtain ⟨s1, hs1, hd1⟩ := dropWaiting_spec (hf req mem_cons_self) (hd req mem_cons_self)
    obtain ⟨s2, hs2, hd2⟩ := ih s1
      (fun a ha => by rw [hd1.cfg, hd1.mambaIndex]; exact hf a (mem_cons_of_mem _ ha))
      (fun a ha => by rw [hd1.cfg]; exact hd a (mem_cons_of_mem _ ha))
    refine ⟨s2, ?_, ?_⟩
    · rwa [foldlM_cons, hs1]
    · rw [hd1.cfg] at hd2
      exact hd1.trans hd2

end Drop

section Mark

variable {cfg : Config} {rid : String} {req : Req}

@[simp] theorem mark_rid (cfg : Config) (rid : String) (req : Req) :
    (mark cfg rid req).rid = req.rid := by
  unfold mark
  split
  · split <;> rfl
  · rfl

theorem holds_mark (cfg : Config) (rid : String) (req : Req) :
    (mark cfg rid req).holds cfg = req.holds cfg := by
  unfold mark
  split
  · split <;> rfl
  · rfl

theorem fits_mark {f : Nat → Nat} (h : Fits cfg f req)
    (hplace : named rid req = true → req.place ≠ .grammar) : Fits cfg f (mark cfg rid req) := by
  unfold mark
  split
  · next hn =>
      split
      · next hp => exact absurd hp (hplace hn)
      all_goals exact { h with }
  · exact h

/-- What is left of the named requests is marked. -/
theorem marked_mark (hn : named rid req = true) (hw : req.place ≠ .waiting)
    (hplace : req.place ≠ .grammar ∧ req.place ≠ .retracted)
    (habort : req.place = .bootstrap ∨ req.place = .prealloc ∨ req.place = .transfer →
      cfg.abortable = true) : Marked (mark cfg rid req) ∧ (mark cfg rid req).place ≠ .waiting := by
  unfold mark
  rw [if_pos hn]
  cases hp : req.place with
  | waiting => exact absurd hp hw
  | grammar => exact absurd hp hplace.1
  | retracted => exact absurd hp hplace.2
  | running | inflight => exact ⟨by simp [Marked], by simp⟩
  | bootstrap | prealloc | transfer =>
    exact ⟨by simp [Marked, habort (by simp [hp])], by simp⟩

end Mark

section Effect

variable {pool : List Resource} {s s' : Scheduler} {rid : String} {req : Req}

theorem Abortable.named_iff (h : Abortable s rid) (hreq : req ∈ s.reqs) :
    named rid req = true ↔ req.rid = rid :=
  ⟨h.names req hreq, fun heq => heq ▸ isPrefixOf_iff_prefix.mpr (prefix_refl _)⟩

theorem Abortable.of_running (h : ∀ req ∈ s.reqs, req.rid = rid ∧ req.place = .running) :
    Abortable s rid := by
  constructor
  · exact fun req hreq _ => (h req hreq).1
  · exact fun req hreq _ => by simp [(h req hreq).2]
  · exact fun _ req hreq _ => by simp [(h req hreq).2]
  iterate 2 · exact fun _ req hreq _ hp => absurd ((h req hreq).2.symm.trans hp) (by decide)
  · exact fun req hreq _ hp => by simp [(h req hreq).2] at hp

/-- The sum over a list, split by a condition. -/
theorem sum_filter_add {α : Type} [AddCommMonoid α] (h : Req → α) (p : Req → Bool) (l : List Req) :
    (l.map h).sum = ((l.filter p).map h).sum + ((l.filter fun req => !p req).map h).sum := by
  rw [← sum_append, ← map_append]
  exact ((filter_append_perm p l).map h).sum_eq.symm

/-- An abort under the condition returns and is exact. -/
theorem abortRequest_spec (h : Inv pool s) (ha : Abortable s rid) :
    ∃ s', s.abortRequest rid = .ok s' ∧ Inv pool s' ∧ AbortExact s rid s' := by
  set toDel : Req → Bool := fun req => decide (req.place = .waiting ∧ named rid req = true)
    with htoDel
  have hpopped : s.reqs.filter toDel = popped s rid := by
    refine filter_congr fun req hreq => ?_
    simp only [htoDel, ha.named_iff hreq, decide_eq_decide]
    exact and_comm
  have hmem : ∀ req ∈ popped s rid, req ∈ s.reqs ∧ req.rid = rid ∧ req.place = .waiting := by
    intro req hreq
    obtain ⟨hin, hp⟩ := mem_filter.mp hreq
    exact ⟨hin, of_decide_eq_true hp⟩
  -- The popped requests are released one after the other.
  obtain ⟨s1, hs1, hdrop⟩ := foldlM_dropWaiting (popped s rid).reverse
    { s with reqs := s.reqs.filter fun req => !toDel req }
    (fun req hreq => h.fits req (hmem req (mem_reverse.mp hreq)).1)
    (fun req hreq => by
      obtain ⟨hin, hrid, hplace⟩ := hmem req (mem_reverse.mp hreq)
      exact ⟨hplace, fun hm => ha.prefill hm req hin hrid hplace,
        fun hm => ha.decode hm req hin hrid hplace, fun hm => ha.unified hm req hin hrid hplace⟩)
  rw [map_reverse, sum_reverse] at hdrop
  have hcfg : s1.cfg = s.cfg := hdrop.cfg
  have hreqs : s1.reqs = s.reqs.filter fun req => !toDel req := hdrop.reqs
  have hleft : ∀ req ∈ s1.reqs, req ∈ s.reqs ∧ (req.rid = rid → req.place ≠ .waiting) := by
    intro req hreq
    rw [hreqs] at hreq
    obtain ⟨hin, hp⟩ := mem_filter.mp hreq
    refine ⟨hin, fun hrid hplace => ?_⟩
    have : toDel req = true := decide_eq_true ⟨hplace, (ha.named_iff hin).mpr hrid⟩
    rw [this] at hp
    exact Bool.noConfusion hp
  refine ⟨{ s1 with reqs := s1.reqs.map (mark s1.cfg rid) }, ?_, ⟨?_, ?_⟩, ⟨?_, ?_, ?_, hdrop.tree⟩⟩
  · simp only [abortRequest]
    have hdel : (s.reqs.filter fun req =>
        decide ¬(req.place = .waiting ∧ named rid req = true)) =
        s.reqs.filter fun req => !toDel req := by
      simp [htoDel]
    rw [hdel, ← htoDel, hpopped, hs1]
    rfl
  · -- The popped requests leave, and the marked ones own what they did.
    have hsum : ((s1.reqs.map (mark s1.cfg rid)).map (holds s1.cfg)).sum =
        ((s.reqs.filter fun req => !toDel req).map (holds s.cfg)).sum := by
      rw [map_map, hreqs, hcfg]
      exact congrArg List.sum (map_congr_left fun req _ => holds_mark s.cfg rid req)
    have htotal := h.total
    rw [Abort.total, sum_filter_add _ toDel, hpopped, ← add_assoc] at htotal
    show (↑s1.free : Multiset Resource) + ↑s1.tree +
      ((s1.reqs.map (mark s1.cfg rid)).map (holds s1.cfg)).sum = ↑pool
    rwa [hsum, hdrop.total]
  · refine forall_mem_map.mpr fun a ha' => ?_
    obtain ⟨hin, -⟩ := hleft a ha'
    rw [hcfg, hdrop.mambaIndex]
    exact fits_mark (h.fits a hin) fun hn => (ha.place a hin ((ha.named_iff hin).mp hn)).1
  · rw [filter_map, hreqs, filter_filter]
    have hsame : ∀ req ∈ s.reqs.filter (·.rid ≠ rid), mark s1.cfg rid req = req := by
      intro req hreq
      obtain ⟨hin, hne⟩ := mem_filter.mp hreq
      refine if_neg fun hn => ?_
      exact of_decide_eq_true hne ((ha.named_iff hin).mp hn)
    have hfilter : (s.reqs.filter fun req =>
        ((fun r : Req => decide (r.rid ≠ rid)) ∘ mark s1.cfg rid) req && !toDel req) =
        s.reqs.filter (·.rid ≠ rid) := by
      refine filter_congr fun req hreq => ?_
      simp only [Function.comp, mark_rid, htoDel, ha.named_iff hreq]
      by_cases hrid : req.rid = rid <;> simp [hrid]
    rw [hfilter]
    exact (map_congr_left hsame).trans (map_id _)
  · refine forall_mem_map.mpr fun a ha' hrid => ?_
    obtain ⟨hin, hw⟩ := hleft a ha'
    have hrid' : a.rid = rid := by simpa using hrid
    refine marked_mark ((ha.named_iff hin).mpr hrid') (hw hrid') (ha.place a hin hrid') fun hp => ?_
    rw [hcfg]
    exact ha.transfer a hin hrid' hp
  · have htotal := hdrop.total
    rw [hdrop.tree, add_right_comm] at htotal
    exact add_right_cancel htotal

/-- A new request holds nothing. -/
theorem Inv.handleGenerateRequest (h : Inv pool s) (rid : String) (grammar : Bool) :
    Inv pool { s with reqs := s.reqs ++
      [newReq rid (if grammar then .grammar else queueOf s.cfg.mode) grammar] } := by
  -- A new request owns nothing, in either queue.
  have hplace : ∀ place : Place, (place = .grammar ∧ grammar = true) ∨ place = queueOf s.cfg.mode →
      (newReq rid place grammar).holds s.cfg = 0 ∧
        Fits s.cfg s.mambaIndex (newReq rid place grammar) := by
    intro place hp
    have howns : (newReq rid place grammar).ownsRow s.cfg = false := by
      rcases hp with ⟨rfl, -⟩ | rfl
      · rfl
      · cases hm : s.cfg.mode <;> simp [newReq, queueOf, ownsRow, hm]
    refine ⟨?_, rfl, rfl, fun ho => ?_, fun _ => rfl, fun hm => absurd rfl hm,
      fun hm => absurd rfl hm, fun hm => absurd rfl hm, ?_, ?_⟩
    · rw [holds, cached, howns]
      rfl
    · rw [howns] at ho
      exact Bool.noConfusion ho
    · rintro rfl
      rcases hp with ⟨-, hg⟩ | hq
      · exact hg
      · cases hm : s.cfg.mode <;> simp [queueOf, hm] at hq
    · rcases hp with ⟨rfl, -⟩ | rfl
      · simp [newReq]
      · cases hm : s.cfg.mode <;> simp [newReq, queueOf]
  obtain ⟨hholds, hfits⟩ := hplace (if grammar then .grammar else queueOf s.cfg.mode) (by
    cases grammar <;> simp)
  constructor
  · rw [Abort.total, map_append, sum_append, map_singleton, sum_singleton, hholds, add_zero]
    exact h.total
  · exact forall_mem_append.mpr ⟨h.fits, forall_mem_singleton.mpr hfits⟩

theorem Inv.evict (h : Inv pool s) {l : List Resource} (hl : l.Subperm s.tree) :
    Inv pool { s with tree := s.tree.diff l, free := s.free ++ l } := by
  refine ⟨?_, h.fits⟩
  have htotal := h.total
  rw [Abort.total, coe_diff hl] at htotal
  rw [Abort.total, ← htotal, ← Multiset.coe_add]
  abel

end Effect

section Leaving

variable {pool : List Resource} {s s' : Scheduler} {i : Nat} {req : Req}

/-- The events at which a marked request leaves. -/
def Op.Ends (cfg : Config) : Op → Prop
  | .processResult .. => cfg.mode ≠ .prefill
  | .popBootstrapped .. | .processInflight .. | .popTransferred .. => True
  | _ => False

/-- The request at a position has left, and all it owned is free or in the prefix
    cache. -/
structure Left (s : Scheduler) (i : Nat) (req : Req) (s' : Scheduler) : Prop where
  reqs : s'.reqs = s.reqs.eraseIdx i
  released : (↑s'.free : Multiset Resource) + ↑s'.tree = ↑s.free + ↑s.tree + req.holds s.cfg

/-- The request is still there, and still marked. -/
def Stays (s : Scheduler) (i : Nat) (req : Req) (s' : Scheduler) : Prop :=
  ∃ req', s'.reqs = s.reqs.set i req' ∧ req'.rid = req.rid ∧ Marked req'

/-- What an event does to a marked request. -/
structure Leaves (s : Scheduler) (op : Op) (i : Nat) (req : Req) (s' : Scheduler) : Prop where
  moves : Left s i req s' ∨ Stays s i req s'
  ends : op.Ends s.cfg → Left s i req s'

/-- Nothing else can have happened to what it owned. -/
theorem Left.of_inv (h : Inv pool s) (h' : Inv pool s') (hi : s.reqs[i]? = some req)
    (hcfg : s'.cfg = s.cfg) (hreqs : s'.reqs = s.reqs.eraseIdx i) : Left s i req s' := by
  refine ⟨hreqs, ?_⟩
  have htotal := h.total.trans h'.total.symm
  rw [Abort.total, Abort.total, sum_eraseIdx _ hi, hcfg, hreqs, ← add_assoc] at htotal
  exact (add_right_cancel htotal).symm

theorem finish_reqs (hf : Fits s.cfg s.mambaIndex req) (howns : req.ownsRow s.cfg = true)
    {isInsert : Bool} {takes : Takes} (h : s.finish i req isInsert takes = .ok s') :
    s'.cfg = s.cfg ∧ s'.reqs = s.reqs.eraseIdx i := by
  obtain ⟨s1, req1, hs1, hg, -⟩ := releaseKvCache_spec hf howns isInsert takes
  simp only [Scheduler.finish, hs1] at h
  cases h
  exact ⟨hg.cfg, by rw [← hg.reqs]⟩

/-- A marked request leaves at the next step that is about it, whichever that is. -/
theorem Marked.leaves (hpool : pool.Nodup) (h : Inv pool s) (hi : s.reqs[i]? = some req)
    (hm : Marked req) {op : Op} (hpos : op.pos = some i) (hen : op.EnabledAt s req) :
    ∃ s', s.execAt i req op = .ok s' ∧ Inv pool s' ∧ Leaves s op i req s' := by
  obtain ⟨s', hs', hinv⟩ := h.execAt hpool hi hpos hen
  refine ⟨s', hs', hinv, ?_⟩
  have hf := h.fitsAt hi
  have stay : ¬op.Ends s.cfg → Stays s i req s' → Leaves s op i req s' :=
    fun hno hstays => ⟨.inr hstays, fun he => absurd he hno⟩
  have leave : s'.cfg = s.cfg ∧ s'.reqs = s.reqs.eraseIdx i → Leaves s op i req s' := by
    rintro ⟨hcfg, hreqs⟩
    have hleft := Left.of_inv h hinv hi hcfg hreqs
    exact ⟨.inl hleft, fun _ => hleft⟩
  -- The request is finished, and its metadata buffer is freed after that.
  have finish : ∀ {isInsert takes}, req.ownsRow s.cfg = true →
      ((s.finish i req isInsert takes).bind fun s1 => .ok (s1.freeMetadata req)) = .ok s' →
      Leaves s op i req s' := by
    intro isInsert takes hown hs'
    obtain ⟨s1, hs1, hs'⟩ := Checked.bind_eq_ok.mp hs'
    have hfinish := finish_reqs hf hown hs1
    cases hs'
    exact leave hfinish
  cases op with
  | handleGenerateRequest | evict | abort => exact absurd hpos (by simp [Op.pos])
  | moveReadyGrammar j =>
    have hplace : req.place = .grammar := hen
    simp [Marked, hplace] at hm
  | cowMamba | extend | cacheUnfinishedReq =>
    cases hs'
    exact stay id ⟨_, rfl, rfl, hm⟩
  | nextChunk j row =>
    obtain ⟨-, r, hr, -⟩ := hen
    simp only [Scheduler.execAt, hr] at hs'
    cases hs'
    exact stay id ⟨_, rfl, rfl, hm⟩
  | retract j =>
    obtain ⟨hplace, -⟩ := hen
    have howns : req.ownsRow s.cfg = true := by rw [ownsRow, hplace]
    obtain ⟨s1, req1, hs1, hg, rfl⟩ := releaseKvCache_spec hf howns false ⟨[], false⟩
    simp only [Scheduler.execAt, hs1] at hs'
    cases hs'
    simp only [Marked, hplace] at hm
    refine stay id ⟨_, congrArg (fun l : List Req => l.set i _) hg.reqs, rfl, ?_⟩
    split_ifs <;> exact hm
  | processResult j finished takes =>
    have hplace : req.place = .running := hen
    simp only [Marked, hplace] at hm
    by_cases hmode : s.cfg.mode = .prefill
    · simp only [Scheduler.execAt, if_pos hmode] at hs'
      cases hs'
      exact stay (fun hne => hne hmode) ⟨_, rfl, rfl, trivial⟩
    · simp only [Scheduler.execAt, if_neg hmode, hm, Bool.true_or, if_true] at hs'
      exact leave (finish_reqs hf (by rw [ownsRow, hplace]) hs')
  | popBootstrapped j failed index =>
    simp only [Marked, hen.1] at hm
    obtain rfl : failed = true := hen.2.1 hm
    cases hs'
    exact leave ⟨rfl, rfl⟩
  | processInflight j takes =>
    have hplace : req.place = .inflight := hen
    exact finish (by rw [ownsRow, hplace]) hs'
  | popPreallocated j failed row mamba kv index =>
    simp only [Marked, hen.1] at hm
    cases failed with
    | true =>
      cases hs'
      exact leave ⟨rfl, rfl⟩
    | false =>
      cases hs'
      exact stay id ⟨_, rfl, rfl, hm⟩
  | popTransferred j failed =>
    obtain ⟨hplace, hfailed⟩ := hen
    simp only [Marked, hplace] at hm
    obtain rfl : failed = true := hfailed hm
    exact finish (by rw [ownsRow, hplace]) hs'
  | schedule | prebuilt | resumeRetracted =>
    cases hs'
    simp only [Marked, hen.1] at hm
    exact stay id ⟨_, rfl, rfl, hm⟩

end Leaving

section Runs

variable {pool : List Resource} {s : Scheduler} {op : Op} {req : Req} {i : Nat}

/-- Every abort is `Abortable`. -/
def Guard (s : Scheduler) (op : Op) : Prop := ∀ rid, op = .abort rid → Abortable s rid

theorem exec_of_pos (hpos : op.pos = some i) (hi : s.reqs[i]? = some req) :
    s.exec op = s.execAt i req op := by
  cases op <;> simp_all [Op.pos, exec]

theorem Enabled.of_pos (hpos : op.pos = some i) (hi : s.reqs[i]? = some req)
    (hen : op.EnabledAt s req) : Enabled s op := by
  have hat : ∀ j, op.pos = some j → ∃ req, s.reqs[j]? = some req ∧ op.EnabledAt s req := by
    intro j hj
    cases hpos.symm.trans hj
    exact ⟨req, hi, hen⟩
  cases op with
  | evict l => exact absurd hpos (by simp [Op.pos])
  | _ => exact hat

theorem Enabled.handleGenerateRequest (rid : String) (grammar : Bool) :
    Enabled s (.handleGenerateRequest rid grammar) := nofun

theorem Enabled.abort (rid : String) : Enabled s (.abort rid) := nofun

theorem inv_init (cfg : Config) (pool : List Resource) : Inv pool (init cfg pool) :=
  ⟨by simp [Abort.total, init], forall_mem_nil _⟩

/-- An event that can happen and meets the condition does not raise, and keeps the
    accounts. -/
theorem exec_spec (hpool : pool.Nodup) (h : Inv pool s) (hen : Enabled s op) (hg : Guard s op) :
    ∃ s', s.exec op = .ok s' ∧ Inv pool s' := by
  cases hpos : op.pos with
  | some i =>
    have hat : ∃ req, s.reqs[i]? = some req ∧ op.EnabledAt s req := by
      cases op with
      | evict l => exact absurd hpos (by simp [Op.pos])
      | _ => exact hen i hpos
    obtain ⟨req, hi, hat⟩ := hat
    rw [exec_of_pos hpos hi]
    exact h.execAt hpool hi hpos hat
  | none =>
    cases op with
    | handleGenerateRequest rid grammar => exact ⟨_, rfl, h.handleGenerateRequest rid grammar⟩
    | evict l => exact ⟨_, rfl, h.evict hen⟩
    | abort rid =>
      obtain ⟨s', hs', hinv, -⟩ := abortRequest_spec h (hg rid rfl)
      exact ⟨s', hs', hinv⟩
    | _ => exact absurd hpos (by simp [Op.pos])

/-- In every run whose aborts are all `Abortable`: each slot, row and index of the
    pools is in one place; no event raises; an abort frees what the named waiting
    request owns, marks the named request elsewhere, and changes no other; and a
    marked request gives back all it owns when it is processed. -/
theorem abort_exact (cfg : Config) (hpool : pool.Nodup) {tr : List (Scheduler × Op × Scheduler)}
    (hr : Run Step (init cfg pool) tr s) (hG : ∀ e ∈ tr, Guard e.1 e.2.1) : total s = ↑pool ∧
    (∀ op, Enabled s op → Guard s op → ∃ s', s.exec op = .ok s') ∧
    (∀ rid, Abortable s rid → ∃ s', s.exec (.abort rid) = .ok s' ∧ AbortExact s rid s') ∧
    (∀ op i req, op.pos = some i → s.reqs[i]? = some req → op.EnabledAt s req → Marked req →
      ∃ s', s.exec op = .ok s' ∧ Leaves s op i req s') := by
  have h : Inv pool s := by
    refine (hr.inv_of_guard hG (inv_init cfg pool) ?_).1
    rintro t op u hinv hg ⟨hen, hu⟩
    obtain ⟨u', hu', hinv'⟩ := exec_spec hpool hinv hen hg
    cases hu.symm.trans hu'
    exact hinv'
  refine ⟨h.total, fun op hen hg => ?_, fun rid ha => ?_, fun op i req hpos hi hen hm => ?_⟩
  · obtain ⟨s', hs', -⟩ := exec_spec hpool h hen hg
    exact ⟨s', hs'⟩
  · obtain ⟨s', hs', -, hexact⟩ := abortRequest_spec h ha
    exact ⟨s', hs', hexact⟩
  · obtain ⟨s', hs', -, hleaves⟩ := hm.leaves hpool h hi hpos hen
    exact ⟨s', (exec_of_pos hpos hi).trans hs', hleaves⟩

/-- A running request is aborted. -/
theorem abort_exact_running : ∃ tr s,
    Run Step (init ⟨.unified, false, true, true, false, nofun⟩ [.row 0, .kv 5]) tr s ∧
    (∀ e ∈ tr, Guard e.1 e.2.1) ∧ s.reqs.map (fun req => (req.kv, req.toFinish)) = [([5], true)] ∧
    total s = ↑[Resource.row 0, Resource.kv 5] := by
  have hr : Run Step (init ⟨.unified, false, true, true, false, nofun⟩ [.row 0, .kv 5]) _ _ :=
    .snoc (.abort "r1") (.snoc (.schedule 0 0 0 [5])
      (.snoc (.handleGenerateRequest "r1" false) .nil ⟨.handleGenerateRequest _ _, rfl⟩)
      ⟨.of_pos rfl rfl (by exact ⟨rfl, by decide, List.Subperm.refl _⟩), rfl⟩)
      ⟨.abort _, rfl⟩
  refine ⟨_, _, hr, ?guard, rfl, (abort_exact _ (by decide) hr ?guard).1⟩
  intro e he rid hop
  rcases mem_append.mp he with he | he
  · rcases mem_append.mp he with he | he
    all_goals
      rw [mem_singleton.mp he] at hop
      cases hop
  · rw [mem_singleton.mp he] at hop ⊢
    obtain rfl : "r1" = rid := Op.abort.inj hop
    refine Abortable.of_running fun req hreq => ?_
    rw [mem_singleton.mp hreq]
    exact ⟨rfl, rfl⟩

/-- A waiting request of a prefill server is aborted, and its metadata index is
    lost; an abort of `r1` drops `r10` as well; and an abort on a decode server with
    a Mamba pool raises. -/
theorem abort_other_request :
    (∃ tr s, Run Step (init ⟨.prefill, false, true, true, true, nofun⟩ [.metadata 0]) tr s ∧
      tr.map (·.2.1) = [.handleGenerateRequest "r1" false, .popBootstrapped 0 false 0,
        .abort "r1"] ∧ s.reqs = [] ∧ s.free = [] ∧ s.tree = []) ∧
    (∃ tr s, Run Step (init ⟨.unified, false, true, true, true, nofun⟩ []) tr s ∧
      tr.map (·.2.1) = [.handleGenerateRequest "r10" false, .abort "r1"] ∧ s.reqs = []) ∧
    ∃ tr s, Run Step (init ⟨.decode, true, false, true, true, fun _ => rfl⟩
        [.metadata 0, .row 0, .mamba 0]) tr s ∧
      tr.map (·.2.1) = [.handleGenerateRequest "r1" false, .popPreallocated 0 false 0 0 [] 0,
        .popTransferred 0 false] ∧ s.exec (.abort "r1") = .error .assertionError := by
  refine ⟨⟨_, _, .snoc (.abort "r1") (.snoc (.popBootstrapped 0 false 0)
      (.snoc (.handleGenerateRequest "r1" false) .nil ⟨.handleGenerateRequest _ _, rfl⟩)
      ⟨.of_pos rfl rfl (by exact ⟨rfl, nofun, fun _ => List.Subperm.refl _⟩), rfl⟩) ⟨.abort _, rfl⟩,
      rfl, rfl, rfl, rfl⟩,
    ⟨_, _, .snoc (.abort "r1") (.snoc (.handleGenerateRequest "r10" false) .nil
      ⟨.handleGenerateRequest _ _, rfl⟩) ⟨.abort _, rfl⟩, rfl, rfl⟩,
    ⟨_, _, .snoc (.popTransferred 0 false) (.snoc (.popPreallocated 0 false 0 0 [] 0)
      (.snoc (.handleGenerateRequest "r1" false) .nil ⟨.handleGenerateRequest _ _, rfl⟩)
      ⟨.of_pos rfl rfl (by exact ⟨rfl, fun _ => List.Subperm.refl _⟩), rfl⟩)
      ⟨.of_pos rfl rfl (by exact ⟨rfl, nofun⟩), rfl⟩, rfl, rfl⟩⟩

end Runs

end SglangInc.Abort
