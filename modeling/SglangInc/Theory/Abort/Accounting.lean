import SglangInc.Core.Aborting
import Mathlib.Algebra.BigOperators.Group.List.Basic
import Mathlib.Algebra.Order.Group.Multiset
import Mathlib.Tactic.Abel

/-!
# What Requests Own

Every slot, row and index is free, in the prefix cache or owned by one request, in
every state the scheduler gets into.

What a request owns depends on its place (`Req.holds`). The field `req_pool_idx`
does not tell: a request that was retracted keeps it after its row was freed.
`Fits` has the facts about a request that the release paths rely on. In particular
the Mamba slot that is freed along with a row is looked up in a table, and must be
the one of the request.

Nothing is lost and nothing is freed twice if what a step takes from one account
goes to another, so there is one equation for each event (`Inv.replace`,
`Inv.drop`), and a release is one equation too (`releaseKvCache_spec`).
-/

namespace SglangInc.Abort

open List Scheduler Option Req Resource

/-- The request has a row, which is its own. -/
def Req.ownsRow (cfg : Config) (req : Req) : Bool :=
  match req.place with
  | .running | .inflight | .transfer => true
  | .waiting => cfg.mode = .decode
  | .grammar | .bootstrap | .prealloc | .retracted => false

/-- What a release of the KV cache is about. -/
def Req.cached (cfg : Config) (req : Req) : Multiset Resource :=
  ↑(req.kv.map Resource.kv) +
    ↑(if req.ownsRow cfg then req.reqPoolIdx.toList.map Resource.row else []) +
    ↑(req.mambaPoolIdx.toList.map mamba)

/-- What a request owns. -/
def Req.holds (cfg : Config) (req : Req) : Multiset Resource :=
  req.cached cfg + ↑(req.metadataBufferIndex.toList.map metadata)

/-- What is known of a request at its place. -/
structure Fits (cfg : Config) (mambaIndex : Nat → Nat) (req : Req) : Prop where
  committed : req.kvCommittedFreed = false
  overallocated : req.kvOverallocatedFreed = false
  row : req.ownsRow cfg = true → ∃ row, req.reqPoolIdx = some row ∧
    (cfg.mambaPool = true → req.mambaPoolIdx = some (mambaIndex row))
  kv : req.ownsRow cfg = false → req.kv = []
  mamba : req.mambaPoolIdx ≠ none → cfg.mambaPool = true
  /-- Without a row, only a copy of a state in the prefix cache. -/
  copy : req.mambaPoolIdx ≠ none → req.ownsRow cfg = false → req.place = .waiting ∧ cfg.radix = true
  metadata : req.metadataBufferIndex ≠ none → req.place = .inflight ∨ req.place = .transfer ∨
    (cfg.mode = .prefill ∧ (req.place = .waiting ∨ req.place = .running))
  grammar : req.place = .grammar → req.grammar = true
  mode : (req.place = .bootstrap ∨ req.place = .inflight → cfg.mode = .prefill) ∧
    (req.place = .prealloc ∨ req.place = .transfer ∨ req.place = .retracted → cfg.mode = .decode)

/-- All that the accounts of a scheduler add up to. -/
def total (s : Scheduler) : Multiset Resource :=
  ↑s.free + ↑s.tree + (s.reqs.map (holds s.cfg)).sum

/-- The pools, the cache and the requests have all of the pool between them. -/
structure Inv (pool : List Resource) (s : Scheduler) : Prop where
  total : total s = ↑pool
  fits : ∀ req ∈ s.reqs, Fits s.cfg s.mambaIndex req

theorem Inv.fitsAt {pool : List Resource} {s : Scheduler} {i : Nat} {req : Req} (h : Inv pool s)
    (hi : s.reqs[i]? = some req) : Fits s.cfg s.mambaIndex req :=
  h.fits req (mem_of_getElem? hi)

section Lists

variable {α : Type} [AddCommMonoid α] {reqs : List Req} {i : Nat} {req : Req}

theorem sum_eraseIdx (h : Req → α) (hi : reqs[i]? = some req) :
    (reqs.map h).sum = h req + ((reqs.eraseIdx i).map h).sum := by
  induction reqs generalizing i with
  | nil => cases hi
  | cons r reqs ih =>
    cases i with
    | zero =>
      obtain rfl : r = req := some.inj hi
      rw [eraseIdx_cons_zero, map_cons, sum_cons]
    | succ i =>
      rw [eraseIdx_cons_succ, map_cons, map_cons, sum_cons, sum_cons, ih hi, add_left_comm]

theorem sum_set (h : Req → α) (hi : reqs[i]? = some req) (req' : Req) :
    ((reqs.set i req').map h).sum = h req' + ((reqs.eraseIdx i).map h).sum := by
  have hlt := (List.getElem?_eq_some_iff.mp hi).1
  rw [sum_eraseIdx h (getElem?_set_self hlt), eraseIdx_set_eq]

theorem coe_diff {l free : List Resource} (h : l.Subperm free) :
    (↑free : Multiset Resource) = ↑(free.diff l) + ↑l := by
  exact (Multiset.sub_add_cancel (Multiset.coe_le.mpr h)).symm

end Lists

section Steps

variable {pool : List Resource} {s s' : Scheduler} {i : Nat} {req req' a : Req}

/-- The request at a position is replaced, and what it owns more or less came from
    or went to the pools and the cache. -/
theorem Inv.replace (h : Inv pool s) (hi : s.reqs[i]? = some req) (hcfg : s'.cfg = s.cfg)
    (hreqs : s'.reqs = s.reqs.set i req')
    (hbal : (↑s'.free : Multiset Resource) + ↑s'.tree + req'.holds s.cfg =
      ↑s.free + ↑s.tree + req.holds s.cfg)
    (hothers : ∀ a ∈ s.reqs, Fits s.cfg s.mambaIndex a → Fits s.cfg s'.mambaIndex a)
    (hfits : Fits s.cfg s'.mambaIndex req') : Inv pool s' := by
  constructor
  · have htotal := h.total
    rw [Abort.total, sum_eraseIdx _ hi] at htotal
    rw [Abort.total, hcfg, hreqs, sum_set _ hi, ← add_assoc, hbal, ← htotal, add_assoc]
  · intro a ha
    rw [hcfg]
    rw [hreqs] at ha
    rcases mem_or_eq_of_mem_set ha with ha | rfl
    · exact hothers a ha (h.fits a ha)
    · exact hfits

/-- The request at a position is dropped, and all it owned was given back. -/
theorem Inv.drop (h : Inv pool s) (hi : s.reqs[i]? = some req) (hcfg : s'.cfg = s.cfg)
    (hreqs : s'.reqs = s.reqs.eraseIdx i) (hmap : s'.mambaIndex = s.mambaIndex)
    (hbal : (↑s'.free : Multiset Resource) + ↑s'.tree = ↑s.free + ↑s.tree + req.holds s.cfg) :
    Inv pool s' := by
  constructor
  · have htotal := h.total
    rw [Abort.total, sum_eraseIdx _ hi] at htotal
    rw [Abort.total, hcfg, hreqs, hbal, ← htotal, add_assoc]
  · intro a ha
    rw [hcfg, hmap]
    rw [hreqs] at ha
    exact h.fits a (mem_of_mem_eraseIdx ha)

/-- A resource that is free or being taken is not owned by a request. -/
theorem Inv.row_ne (hpool : pool.Nodup) (h : Inv pool s) (ha : a ∈ s.reqs)
    (howns : a.ownsRow s.cfg = true) {row r : Nat} (hr : a.reqPoolIdx = some r)
    (hfree : Resource.row row ∈ s.free) : r ≠ row := by
  rintro rfl
  have hnodup : (Abort.total s).Nodup := by
    rw [h.total]
    exact Multiset.coe_nodup.mpr hpool
  rw [Abort.total, Multiset.nodup_add] at hnodup
  have hmem : Resource.row r ∈ (s.reqs.map (holds s.cfg)).sum := by
    obtain ⟨i, hi⟩ := mem_iff_getElem?.mp ha
    rw [sum_eraseIdx _ hi, Multiset.mem_add]
    left
    simp only [holds, cached, howns, if_true, hr, Multiset.mem_add]
    left; left; right
    exact mem_singleton_self _
  have hfree' : Resource.row r ∈ (↑s.free + ↑s.tree : Multiset Resource) :=
    Multiset.mem_add.mpr (.inl hfree)
  exact Multiset.disjoint_left.mp hnodup.2.2 hfree' hmem

/-- The table gets a new entry for a row that the request does not own. -/
theorem Fits.update {cfg : Config} {f : Nat → Nat} (h : Fits cfg f a) {row m : Nat}
    (hne : ∀ r, a.ownsRow cfg = true → a.reqPoolIdx = some r → r ≠ row) :
    Fits cfg (Function.update f row m) a := by
  refine { h with row := fun howns => ?_ }
  obtain ⟨r, hr, hm⟩ := h.row howns
  refine ⟨r, hr, fun hpool => ?_⟩
  rw [Function.update_of_ne (hne r howns hr)]
  exact hm hpool

end Steps

section Release

variable {s : Scheduler} {req : Req}

/-- The slots of a request are given to the cache or freed. -/
theorem giveSlots_total (s : Scheduler) (kv kept : List Nat) :
    (↑(s.giveSlots kv kept).free : Multiset Resource) + ↑(s.giveSlots kv kept).tree =
      ↑s.free + ↑s.tree + ↑(kv.map Resource.kv) := by
  have hsplit : (↑((kv.filter (· ∉ kept)).map Resource.kv) : Multiset Resource) +
      ↑((kv.filter (· ∈ kept)).map Resource.kv) = ↑(kv.map Resource.kv) := by
    rw [Multiset.coe_add, ← map_append, Multiset.coe_eq_coe]
    refine List.Perm.map _ ?_
    have hperm := filter_append_perm (fun x => decide (x ∉ kept)) kv
    simpa only [decide_not, Bool.not_not] using hperm
  rw [giveSlots, ← hsplit, ← Multiset.coe_add, ← Multiset.coe_add]
  abel

/-- What a step that gives something back does: it changes nothing else. -/
structure Gives (s s' : Scheduler) (l : Multiset Resource) : Prop where
  cfg : s'.cfg = s.cfg
  mambaIndex : s'.mambaIndex = s.mambaIndex
  reqs : s'.reqs = s.reqs
  total : (↑s'.free : Multiset Resource) + ↑s'.tree = ↑s.free + ↑s.tree + l

theorem Gives.release (s : Scheduler) (l : List Resource) : Gives s (s.release l) ↑l := by
  refine ⟨rfl, rfl, rfl, ?_⟩
  rw [Scheduler.release, ← Multiset.coe_add]
  abel

theorem Gives.trans {s' s'' : Scheduler} {l l' : Multiset Resource} (h : Gives s s' l)
    (h' : Gives s' s'' l') : Gives s s'' (l + l') := by
  refine ⟨h'.cfg.trans h.cfg, h'.mambaIndex.trans h.mambaIndex, h'.reqs.trans h.reqs, ?_⟩
  rw [h'.total, h.total, add_assoc]

theorem Gives.giveSlots (s : Scheduler) (kv kept : List Nat) :
    Gives s (s.giveSlots kv kept) ↑(kv.map Resource.kv) :=
  ⟨rfl, rfl, rfl, giveSlots_total s kv kept⟩

theorem Fits.mamba_of_pool {cfg : Config} {f : Nat → Nat} (h : Fits cfg f req)
    (hpool : cfg.mambaPool = false) : req.mambaPoolIdx = none := by
  by_contra hne
  exact nomatch hpool.symm.trans (h.mamba hne)

variable (h : Fits s.cfg s.mambaIndex req)

include h

/-- A row that belongs to a request is freed, with its Mamba slot. -/
theorem gives_freeRow (howns : req.ownsRow s.cfg = true) :
    ∃ row, req.reqPoolIdx = some row ∧ Gives s (s.freeRow row true)
      (↑(req.reqPoolIdx.toList.map Resource.row) + ↑(req.mambaPoolIdx.toList.map mamba)) ∧
      Gives s (s.freeRow row false) ↑(req.reqPoolIdx.toList.map Resource.row) := by
  obtain ⟨row, hrow, hmamba⟩ := h.row howns
  refine ⟨row, hrow, ?_, ?_⟩
  · rw [hrow, Multiset.coe_add]
    cases hpool : s.cfg.mambaPool with
    | false =>
      rw [h.mamba_of_pool hpool]
      simp only [freeRow, hpool, Bool.false_and, Bool.false_eq_true, if_false]
      exact Gives.release s _
    | true =>
      rw [hmamba hpool]
      simp only [freeRow, hpool, Bool.and_self, if_true]
      exact Gives.release s _
  · rw [hrow]
    simp only [freeRow, Bool.and_false, Bool.false_eq_true, if_false]
    exact Gives.release s _

/-- Whatever the cache takes, all the slots of the request change hands. -/
theorem cacheFinishedReq_spec
    (howns : req.ownsRow s.cfg = true) (isInsert : Bool) (takes : Takes) :
    ∃ s', s.cacheFinishedReq req isInsert takes = .ok s' ∧ Gives s s' (req.cached s.cfg) := by
  have hcached : req.cached s.cfg = ↑(req.kv.map Resource.kv) +
      (↑(req.reqPoolIdx.toList.map Resource.row) + ↑(req.mambaPoolIdx.toList.map mamba)) := by
    rw [cached, if_pos howns, add_assoc]
  cases hradix : s.cfg.radix with
  | false =>
    obtain ⟨row, hrow, hgives, -⟩ := gives_freeRow h howns
    refine ⟨(s.freeRow row true).giveSlots req.kv [], ?_, ?_⟩
    · simp [cacheFinishedReq, hradix, hrow]
    · rw [hcached, add_comm]
      exact hgives.trans (Gives.giveSlots _ _ _)
  | true =>
    set s1 := s.giveSlots req.kv (if isInsert = true then takes.kv else []) with hs1
    have hslots : Gives s s1 _ := Gives.giveSlots s req.kv _
    have h1 : Fits s1.cfg s1.mambaIndex req := h
    obtain ⟨row, hrow, hgives, hgives'⟩ := gives_freeRow h1 howns
    cases hpool : s.cfg.mambaPool with
    | false =>
      have hpool' : s1.cfg.mambaPool = false := hpool
      refine ⟨s1.freeRow row true, ?_, ?_⟩
      · simp [cacheFinishedReq, hradix, ← hs1, hpool', hrow]
      · rw [hcached]
        exact hslots.trans hgives
    | true =>
      have hpool' : s1.cfg.mambaPool = true := hpool
      obtain ⟨r, hr, hmamba⟩ := h.row howns
      have hm := hmamba hpool
      cases hins : (isInsert && takes.mamba) with
      | false =>
        refine ⟨s1.freeRow row true, ?_, ?_⟩
        · simp [cacheFinishedReq, hradix, ← hs1, hm, hins, hrow]
        · rw [hcached]
          exact hslots.trans hgives
      | true =>
        -- The cache takes the Mamba slot, so only the row is freed.
        set s2 : Scheduler := { s1 with tree := s1.tree ++ [.mamba (s.mambaIndex r)] } with hs2
        refine ⟨s2.freeRow row false, ?_, ?_⟩
        · simp [cacheFinishedReq, hradix, ← hs1, hpool', hm, hins, ← hs2, hrow]
        · have htree : Gives s1 s2 ↑(req.mambaPoolIdx.toList.map mamba) := by
            refine ⟨rfl, rfl, rfl, ?_⟩
            rw [hm, ← Multiset.coe_add, add_assoc]
            rfl
          obtain ⟨row', hrow', -, hfree⟩ := gives_freeRow (s := s2) h howns
          cases hrow.symm.trans hrow'
          have hall := hslots.trans (htree.trans hfree)
          rw [add_comm (Multiset.ofList (req.mambaPoolIdx.toList.map mamba))] at hall
          rwa [hcached]

/-- A release of a request that has a row: it does not raise, and all it had for its
    KV cache is free or in the prefix cache. -/
theorem releaseKvCache_spec
    (howns : req.ownsRow s.cfg = true) (isInsert : Bool) (takes : Takes) :
    ∃ s' req', s.releaseKvCache req isInsert takes = .ok (s', req') ∧
      Gives s s' (req.cached s.cfg) ∧ req' = { req with
        kvCommittedFreed := s.cfg.enableKvCommittedLen
        kvOverallocatedFreed := true } := by
  obtain ⟨s', hs', hgives⟩ := cacheFinishedReq_spec h howns isInsert takes
  refine ⟨s', _, ?_, hgives, rfl⟩
  simp only [releaseKvCache, h.committed, h.overallocated, Bool.and_false, Bool.false_eq_true,
    if_false, hs', bind, Except.bind, Bool.or_false]
  rw [hgives.cfg]
  rfl

end Release

section Events

variable {pool : List Resource} {s : Scheduler} {i : Nat} {req : Req} {cfg : Config} {f : Nat → Nat}

/-- Only a prefill server gives a metadata index before a transfer. -/
theorem Fits.metadata_prefill (h : Fits cfg f req) (hne : req.metadataBufferIndex ≠ none)
    {p : Place} (hplace : req.place = p) (hp : p ≠ .inflight ∧ p ≠ .transfer) :
    cfg.mode = .prefill ∧ (p = .waiting ∨ p = .running) := by
  subst hplace
  rcases h.metadata hne with h' | h' | h'
  · exact absurd h' hp.1
  · exact absurd h' hp.2
  · exact h'

/-- A request that waits for its grammar, a bootstrap or slots owns nothing. -/
theorem Fits.bare (h : Fits cfg f req)
    (hplace : req.place = .grammar ∨ req.place = .bootstrap ∨ req.place = .prealloc) :
    req.ownsRow cfg = false ∧ req.kv = [] ∧ req.mambaPoolIdx = none ∧
      req.metadataBufferIndex = none := by
  have hne : ¬ (req.place = .waiting ∨ req.place = .running) ∧ req.place ≠ .inflight ∧
      req.place ≠ .transfer := by
    rcases hplace with hp | hp | hp <;> rw [hp] <;> decide
  have howns : req.ownsRow cfg = false := by
    rcases hplace with hp | hp | hp <;> rw [ownsRow, hp]
  exact ⟨howns, h.kv howns, of_not_not fun hm => hne.1 (.inl (h.copy hm howns).1),
    of_not_not fun hm => hne.1 (h.metadata_prefill hm rfl hne.2).2⟩

theorem Fits.holds_bare (h : Fits cfg f req)
    (hplace : req.place = .grammar ∨ req.place = .bootstrap ∨ req.place = .prealloc) :
    req.holds cfg = 0 := by
  obtain ⟨howns, hkv, hmamba, hmeta⟩ := h.bare hplace
  simp [holds, cached, howns, hkv, hmamba, hmeta]

/-- A request without a row gets one, with slots. -/
theorem Inv.allocRow (hpool : pool.Nodup) (h : Inv pool s) (hi : s.reqs[i]? = some req)
    (howns : req.ownsRow s.cfg = false) {row mamba : Nat} {kv : List Nat} {place : Place}
    (taken : List Resource) {index : Option Nat}
    (hsub : (taken ++ s.needs req row mamba kv).Subperm s.free)
    (hmeta : (↑(index.toList.map metadata) : Multiset Resource) =
      ↑taken + ↑(req.metadataBufferIndex.toList.map metadata))
    (hplace : ({ req with place := place } : Req).ownsRow s.cfg = true)
    (hindex : index ≠ none → place = .inflight ∨ place = .transfer ∨
      (s.cfg.mode = .prefill ∧ (place = .waiting ∨ place = .running)))
    (hmode : (place = .bootstrap ∨ place = .inflight → s.cfg.mode = .prefill) ∧
      (place = .prealloc ∨ place = .transfer ∨ place = .retracted → s.cfg.mode = .decode)) :
    Inv pool ((s.allocRow i req row mamba kv place index).take taken) := by
  have hf := h.fitsAt hi
  have hrow : Resource.row row ∈ s.free := by
    refine hsub.subset (mem_append_right _ ?_)
    exact mem_cons_self
  have hgrammar : place ≠ .grammar := by
    rintro rfl
    exact Bool.noConfusion hplace
  refine h.replace hi rfl rfl ?_ ?_ ?_
  · -- What is taken is what the request gets.
    have hfree : (↑s.free : Multiset Resource) =
        ↑((s.free.diff (s.needs req row mamba kv)).diff taken) + ↑(s.needs req row mamba kv) +
          ↑taken := by
      have hperm := perm_append_comm.subperm.trans hsub
      have hdiff := coe_diff hperm
      rw [diff_append, ← Multiset.coe_add] at hdiff
      rw [hdiff]
      abel
    have hneeds : (↑(s.needs req row mamba kv) : Multiset Resource) +
        ↑(req.mambaPoolIdx.toList.map Resource.mamba) =
        ↑(kv.map Resource.kv) + ↑[Resource.row row] +
          ↑((s.mambaOf req mamba).toList.map Resource.mamba) := by
      simp only [Scheduler.needs, Scheduler.mambaOf]
      cases hp : s.cfg.mambaPool <;> cases hm : req.mambaPoolIdx
      case false.some => cases hm.symm.trans (hf.mamba_of_pool hp)
      all_goals
        simp only [reduceCtorEq, Bool.false_eq_true, false_and, and_false, and_self, if_false,
          if_true, getD_none, getD_some, toList_none, toList_some, map_nil, map_cons,
          List.append_nil, ← Multiset.coe_add, ← Multiset.cons_coe, Multiset.coe_nil,
          ← Multiset.singleton_add, add_zero]
        abel
    have hkv : req.kv = [] := hf.kv howns
    simp only [holds, cached, howns, hkv, map_nil, Multiset.coe_nil, zero_add,
      Bool.false_eq_true, if_false]
    rw [if_pos (show ownsRow s.cfg { req with
        place := place, kv := kv, reqPoolIdx := some row, mambaPoolIdx := s.mambaOf req mamba,
        metadataBufferIndex := index } = true from hplace), hfree, hmeta]
    show (↑((s.free.diff (s.needs req row mamba kv)).diff taken) : Multiset Resource) + ↑s.tree +
      (↑(kv.map Resource.kv) + ↑[Resource.row row] +
        ↑((s.mambaOf req mamba).toList.map Resource.mamba) +
        (↑taken + ↑(req.metadataBufferIndex.toList.map metadata))) = _
    rw [← hneeds]
    abel
  · -- The row was free, so it belongs to no other request.
    intro a ha hfa
    simp only [Scheduler.take, Scheduler.allocRow]
    split
    · exact hfa.update fun r ho hr => h.row_ne hpool ha ho hr hrow
    · exact hfa
  · refine ⟨hf.committed, hf.overallocated, fun _ => ⟨row, rfl, fun hp => ?_⟩,
      fun hno => ?_, ?_, fun _ hno => ?_, hindex, fun hg => absurd hg hgrammar, hmode⟩
    · have hmamba : s.mambaOf req mamba = some (req.mambaPoolIdx.getD mamba) := by
        rw [Scheduler.mambaOf, if_pos hp]
      simp [Scheduler.take, Scheduler.allocRow, hmamba]
    · exact Bool.noConfusion (hno.symm.trans hplace)
    · intro hne
      by_contra hp
      refine hne ?_
      rw [Scheduler.mambaOf, if_neg hp]
    · exact Bool.noConfusion (hno.symm.trans hplace)

/-- The next chunk of a prefill gets a row, which may be the one just freed. -/
theorem Inv.nextChunk (hpool : pool.Nodup) (h : Inv pool s) (hi : s.reqs[i]? = some req)
    {row : Nat} (hen : (Op.nextChunk i row).EnabledAt s req) :
    ∃ s', s.execAt i req (.nextChunk i row) = .ok s' ∧ Inv pool s' := by
  obtain ⟨hplace, r, hr, hsub⟩ := hen
  have hreq := mem_of_getElem? hi
  have hf := h.fits req hreq
  have howns : req.ownsRow s.cfg = true := by rw [ownsRow, hplace]
  have howns' : ({ req with reqPoolIdx := some row } : Req).ownsRow s.cfg = true := howns
  obtain ⟨r', hr', hmamba⟩ := hf.row howns
  cases hr.symm.trans hr'
  have hfreed : (s.freeRow r false).free = s.free ++ [.row r] := by
    simp [freeRow, Scheduler.release]
  refine ⟨_, by simp only [execAt, hr]; rfl, ?_⟩
  refine h.replace hi rfl rfl ?_ ?_ ?_
  · simp only [holds, cached, howns, howns', if_true, hr, Scheduler.take, hfreed,
      toList_some, map_cons, map_nil]
    have hdiff := coe_diff hsub
    rw [← Multiset.coe_add] at hdiff
    have htree : (s.freeRow r false).tree = s.tree := rfl
    rw [htree]
    have hsum := congrArg (· + (Multiset.ofList s.tree + (Multiset.ofList (req.kv.map .kv) +
      Multiset.ofList (req.mambaPoolIdx.toList.map .mamba) +
      Multiset.ofList (req.metadataBufferIndex.toList.map .metadata)))) hdiff
    refine Eq.trans ?_ (Eq.trans hsum.symm ?_)
    · abel
    · abel
  · intro a ha hfa
    split
    · next m hm =>
      rcases mem_append.mp (hsub.subset mem_cons_self) with hfree | hsame
      · exact hfa.update fun r' ho hr' => h.row_ne hpool ha ho hr' hfree
      -- The same row again: the table has this entry already.
      obtain rfl : row = r := by simpa using hsame
      have hm' := hmamba (hf.mamba (by rw [hm]; simp))
      rw [hm] at hm'
      have heq : Function.update s.mambaIndex row m = s.mambaIndex := by
        rw [some.inj hm', Function.update_eq_self]
      exact heq.symm ▸ hfa
    · exact hfa
  · refine { hf with
      row := fun _ => ⟨row, rfl, fun hp => ?_⟩, kv := fun ho => ?_, copy := fun _ ho => ?_ }
    · simp [hmamba hp]
    all_goals cases ho.symm.trans howns'

section

variable (h : Inv pool s) (hi : s.reqs[i]? = some req) {failed : Bool}
include h hi

/-- A request is released and dropped, with its metadata index. -/
theorem Inv.finish (howns : req.ownsRow s.cfg = true) (isInsert : Bool) (takes : Takes) :
    ∃ s', s.finish i req isInsert takes = .ok s' ∧ Inv pool (s'.freeMetadata req) := by
  have hf := h.fitsAt hi
  obtain ⟨s1, req1, hs1, hg, -⟩ := releaseKvCache_spec hf howns isInsert takes
  refine ⟨{ s1 with reqs := s1.reqs.eraseIdx i }, ?_, ?_⟩
  · simp only [Scheduler.finish, hs1]
    rfl
  · refine h.drop hi hg.cfg (by rw [← hg.reqs]; rfl) hg.mambaIndex ?_
    have hgm := (Gives.release s1 (req.metadataBufferIndex.toList.map .metadata)).total
    rwa [hg.total, add_assoc] at hgm

/-- The slots of a request that has a row change. -/
theorem Inv.withKv (howns : req.ownsRow s.cfg = true) {kv : List Nat} {free tree : List Resource}
    (hbal : (↑free : Multiset Resource) + ↑tree + ↑(kv.map Resource.kv) =
      ↑s.free + ↑s.tree + ↑(req.kv.map Resource.kv)) :
    Inv pool { s with free := free, tree := tree, reqs := s.reqs.set i { req with kv := kv } } := by
  have hf := h.fitsAt hi
  have howns' : ({ req with kv := kv } : Req).ownsRow s.cfg = true := howns
  refine h.replace hi rfl rfl ?_ (fun _ _ hfa => hfa)
    { hf with kv := fun ho => nomatch ho.symm.trans howns' }
  simp only [holds, cached, howns, howns', ← add_assoc, hbal]

/-- A request goes to another place and keeps what it has, up to its metadata index. -/
theorem Inv.move {place : Place} {index : Option Nat} {free : List Resource}
    (hfree : (↑free : Multiset Resource) + ↑(index.toList.map metadata) =
      ↑s.free + ↑(req.metadataBufferIndex.toList.map metadata))
    (howns : ({ req with place := place } : Req).ownsRow s.cfg = req.ownsRow s.cfg)
    (hcopy : req.mambaPoolIdx ≠ none → req.ownsRow s.cfg = false → place = .waiting)
    (hmeta : index ≠ none → place = .inflight ∨ place = .transfer ∨
      (s.cfg.mode = .prefill ∧ (place = .waiting ∨ place = .running))) (hgrammar : place ≠ .grammar)
    (hmode : (place = .bootstrap ∨ place = .inflight → s.cfg.mode = .prefill) ∧
      (place = .prealloc ∨ place = .transfer ∨ place = .retracted → s.cfg.mode = .decode)) :
    Inv pool { s with
      free := free
      reqs := s.reqs.set i { req with place := place, metadataBufferIndex := index } } := by
  have hf := h.fitsAt hi
  have howns' : ({ req with place := place, metadataBufferIndex := index } : Req).ownsRow s.cfg =
    req.ownsRow s.cfg := howns
  refine h.replace hi rfl rfl ?_ (fun _ _ hfa => hfa) ?_
  · have hsum := congrArg (· + (↑s.tree + req.cached s.cfg)) hfree
    simp only [holds, cached, howns'] at hsum ⊢
    refine Eq.trans ?_ (hsum.trans ?_)
    all_goals abel
  · refine ⟨hf.committed, hf.overallocated, fun ho => hf.row (howns ▸ ho),
      fun ho => hf.kv (howns ▸ ho), hf.mamba, fun hm ho => ?_, hmeta,
      fun hg => absurd hg hgrammar, hmode⟩
    exact ⟨hcopy hm (howns ▸ ho), (hf.copy hm (howns ▸ ho)).2⟩

theorem Inv.moveReadyGrammar (hplace : req.place = .grammar) :
    ∃ s', s.execAt i req (.moveReadyGrammar i) = .ok s' ∧ Inv pool s' := by
  have hf := h.fitsAt hi
  obtain ⟨howns, -, hmamba, hmeta⟩ := hf.bare (.inl hplace)
  refine ⟨_, if_pos (hf.grammar hplace), ?_⟩
  refine h.move hi rfl ?_ (fun hm => absurd hmamba hm) (fun hm => absurd hmeta hm) ?_ ?_
  · rw [howns]
    cases hm : s.cfg.mode <;> simp [queueOf, ownsRow, hm]
  all_goals cases s.cfg.mode <;> simp [queueOf]

/-- A copied Mamba slot is the request's own. -/
theorem Inv.cowMamba {m : Nat} (hen : (Op.cowMamba i m).EnabledAt s req) :
    ∃ s', s.execAt i req (.cowMamba i m) = .ok s' ∧ Inv pool s' := by
  obtain ⟨hplace, hmode, hradix, hpool, hnone, hsub⟩ := hen
  have hf := h.fitsAt hi
  have howns : req.ownsRow s.cfg = false := by
    simp [ownsRow, hplace, hmode]
  have howns' : ({ req with mambaPoolIdx := some m } : Req).ownsRow s.cfg = false := howns
  refine ⟨_, rfl, h.replace hi rfl rfl ?_ (fun _ _ hfa => hfa) ?_⟩
  · simp only [holds, cached, howns, howns', hnone, Scheduler.take]
    rw [coe_diff hsub]
    simp only [Bool.false_eq_true, if_false, toList_none, toList_some, map_nil,
      map_cons, Multiset.coe_nil, add_zero]
    abel
  · refine { hf with
      row := fun ho => nomatch ho.symm.trans howns'
      kv := fun _ => hf.kv howns, mamba := fun _ => hpool, copy := fun _ _ => ⟨hplace, hradix⟩ }

theorem Inv.extend {kv : List Nat} (hen : (Op.extend i kv).EnabledAt s req) :
    ∃ s', s.execAt i req (.extend i kv) = .ok s' ∧ Inv pool s' := by
  obtain ⟨hplace, hsub⟩ := hen
  refine ⟨_, rfl, h.withKv hi (by rw [ownsRow, hplace]) ?_⟩
  simp only [Scheduler.take, map_append, ← Multiset.coe_add]
  rw [coe_diff hsub]
  abel

theorem Inv.cacheUnfinishedReq {kept freed : List Nat} {fork : Option Nat}
    (hen : (Op.cacheUnfinishedReq i kept freed fork).EnabledAt s req) :
    ∃ s', s.execAt i req (.cacheUnfinishedReq i kept freed fork) = .ok s' ∧ Inv pool s' := by
  obtain ⟨hplace, hradix, hkv, hsub⟩ := hen
  have hsplit : (↑(req.kv.map Resource.kv) : Multiset Resource) =
      ↑((req.kv.diff (kept ++ freed)).map Resource.kv) + ↑(kept.map Resource.kv) +
        ↑(freed.map Resource.kv) := by
    rw [Multiset.coe_add, Multiset.coe_add, ← map_append, ← map_append,
      Multiset.coe_eq_coe, append_assoc]
    refine List.Perm.map _ ?_
    exact ((subperm_append_diff_self_of_count_le fun x _ => hkv.count_le x).symm.trans
      perm_append_comm)
  refine ⟨_, rfl, h.withKv hi (by rw [ownsRow, hplace]) ?_⟩
  simp only [Scheduler.take, ← Multiset.coe_add]
  rw [coe_diff hsub, hsplit]
  abel

/-- A request that is retracted gives up its row and waits again. -/
theorem Inv.retract (hen : (Op.retract i).EnabledAt s req) :
    ∃ s', s.execAt i req (.retract i) = .ok s' ∧ Inv pool s' := by
  obtain ⟨hplace, hmode⟩ := hen
  have hf := h.fitsAt hi
  have howns : req.ownsRow s.cfg = true := by rw [ownsRow, hplace]
  have hmeta : req.metadataBufferIndex = none :=
    of_not_not fun hm => hmode (hf.metadata_prefill hm hplace (by decide)).1
  obtain ⟨s1, req1, hs1, hg, rfl⟩ := releaseKvCache_spec hf howns false ⟨[], false⟩
  refine ⟨_, by simp only [execAt, hs1]; rfl, ?_⟩
  have hcfg := hg.cfg
  have howns' : ∀ r : Req, r.place = (if s.cfg.mode = .decode then .retracted else .waiting) →
      r.ownsRow s.cfg = false := by
    intro r hr
    cases hm : s.cfg.mode <;> simp [ownsRow, hr, hm]
  refine h.replace hi hcfg (by rw [← hg.reqs]) ?_ (fun _ _ hfa => hg.mambaIndex ▸ hfa) ?_
  · rw [holds, holds, hmeta, cached, howns' _ (by rw [hcfg])]
    simp only [map_nil, Multiset.coe_nil, Bool.false_eq_true, if_false, toList_none, add_zero]
    exact hg.total
  · refine ⟨rfl, rfl, fun ho => ?_, fun _ => rfl, fun hm => absurd rfl hm, fun hm => absurd rfl hm,
      fun hm => absurd hmeta hm, ?_, ?_⟩
    · rw [howns' _ (by rw [hcfg])] at ho
      exact Bool.noConfusion ho
    all_goals
      simp only [hcfg]
      cases s.cfg.mode <;> simp

/-- The result of a running request. -/
theorem Inv.processResult {finished : Bool} {takes : Takes} (hplace : req.place = .running) :
    ∃ s', s.execAt i req (.processResult i finished takes) = .ok s' ∧ Inv pool s' := by
  have hf := h.fitsAt hi
  have howns : req.ownsRow s.cfg = true := by rw [ownsRow, hplace]
  by_cases hmode : s.cfg.mode = .prefill
  · refine ⟨_, by simp only [execAt]; exact if_pos hmode, ?_⟩
    refine h.move hi rfl (by rw [howns]; rfl) (fun _ ho => ?_) (fun _ => .inl rfl) (by decide)
      ⟨fun _ => hmode, by simp⟩
    exact nomatch ho.symm.trans howns
  have hmeta : req.metadataBufferIndex = none :=
    of_not_not fun hm => hmode (hf.metadata_prefill hm hplace (by decide)).1
  simp only [execAt, if_neg hmode]
  split
  · obtain ⟨s', hs', hinv⟩ := h.finish hi howns true takes
    simp only [freeMetadata, hmeta, toList_none, map_nil, Scheduler.release,
      List.append_nil] at hinv
    exact ⟨s', hs', hinv⟩
  · exact ⟨s, rfl, h⟩

theorem Inv.popBootstrapped {index : Nat}
    (hen : (Op.popBootstrapped i failed index).EnabledAt s req) :
    ∃ s', s.execAt i req (.popBootstrapped i failed index) = .ok s' ∧ Inv pool s' := by
  obtain ⟨hplace, -, hsub⟩ := hen
  have hf := h.fitsAt hi
  have hmode := hf.mode.1 (.inl hplace)
  obtain ⟨howns, hkv, hmamba, hmeta⟩ := hf.bare (.inr (.inl hplace))
  cases failed with
  | true =>
    refine ⟨_, rfl, h.drop hi rfl rfl rfl ?_⟩
    rw [hf.holds_bare (.inr (.inl hplace)), add_zero]
  | false =>
    refine ⟨_, rfl, h.move hi ?_ ?_ (fun hm => absurd hmamba hm)
      (fun _ => .inr (.inr ⟨hmode, .inl rfl⟩)) (by simp) (by simp)⟩
    · rw [hmeta, coe_diff (hsub rfl)]
      simp [Scheduler.take]
    · simp [ownsRow, hplace, hmode]

theorem Inv.popTransferred (hplace : req.place = .transfer) :
    ∃ s', s.execAt i req (.popTransferred i failed) = .ok s' ∧ Inv pool s' := by
  have hf := h.fitsAt hi
  have hmode := hf.mode.2 (.inr (.inl hplace))
  have howns : req.ownsRow s.cfg = true := by rw [ownsRow, hplace]
  cases failed with
  | true =>
    obtain ⟨s', hs', hinv⟩ := h.finish hi howns false ⟨[], false⟩
    refine ⟨s'.freeMetadata req, ?_, hinv⟩
    simp only [execAt, if_true, hs']
    rfl
  | false =>
    refine ⟨_, rfl, h.move hi ?_ ?_ (fun _ ho => nomatch ho.symm.trans howns)
      (fun hm => absurd rfl hm) (by simp) (by simp)⟩
    · simp [freeMetadata, Scheduler.release, ← Multiset.coe_add]
    · simp [ownsRow, hplace, hmode]

end

/-- The events of a request do not raise, and keep the invariant. -/
theorem Inv.execAt (hpool : pool.Nodup) (h : Inv pool s) (hi : s.reqs[i]? = some req) {op : Op}
    (hpos : op.pos = some i) (hen : op.EnabledAt s req) :
    ∃ s', s.execAt i req op = .ok s' ∧ Inv pool s' := by
  have hf := h.fitsAt hi
  cases op with
  | handleGenerateRequest | evict | abort => exact absurd hpos (by simp [Op.pos])
  | moveReadyGrammar j => exact h.moveReadyGrammar hi hen
  | cowMamba j m => exact h.cowMamba hi hen
  | schedule j row mamba kv =>
    obtain ⟨hplace, hmode, hsub⟩ := hen
    have howns : req.ownsRow s.cfg = false := by
      simp [ownsRow, hplace, hmode]
    refine ⟨_, rfl, h.allocRow hpool hi howns [] hsub (by simp) rfl (fun hne => ?_) (by simp)⟩
    exact .inr (.inr ⟨(hf.metadata_prefill hne hplace (by decide)).1, .inr rfl⟩)
  | extend j kv => exact h.extend hi hen
  | nextChunk j row => exact h.nextChunk hpool hi hen
  | cacheUnfinishedReq j kept freed fork => exact h.cacheUnfinishedReq hi hen
  | retract j => exact h.retract hi hen
  | processResult j finished takes => exact h.processResult hi hen
  | popBootstrapped j failed index => exact h.popBootstrapped hi hen
  | processInflight j takes =>
    have hplace : req.place = .inflight := hen
    obtain ⟨s', hs', hinv⟩ := h.finish hi (by rw [ownsRow, hplace]) true takes
    refine ⟨s'.freeMetadata req, ?_, hinv⟩
    simp only [Scheduler.execAt, hs']
    rfl
  | popPreallocated j failed row mamba kv index =>
    obtain ⟨hplace, hsub⟩ := hen
    have hmode := hf.mode.2 (.inl hplace)
    -- Before its allocation a request holds nothing, so it can be dropped as it is.
    obtain ⟨howns, hkv, hmamba, hmeta⟩ := hf.bare (.inr (.inr hplace))
    cases failed with
    | true =>
      refine ⟨_, rfl, h.drop hi rfl rfl rfl ?_⟩
      rw [hf.holds_bare (.inr (.inr hplace)), add_zero]
    | false =>
      refine ⟨_, rfl, h.allocRow hpool hi howns [.metadata index] (hsub rfl) ?_ rfl
        (fun _ => .inr (.inl rfl)) ⟨by simp, fun _ => hmode⟩⟩
      rw [hmeta]
      rfl
  | popTransferred j failed => exact h.popTransferred hi hen.1
  | prebuilt j =>
    obtain ⟨hplace, hmode⟩ := hen
    have howns : req.ownsRow s.cfg = true := by simp [ownsRow, hplace, hmode]
    refine ⟨_, rfl, h.move hi rfl (by rw [howns]; rfl) (fun _ ho => ?_) (fun hne => ?_)
      (by decide) (by simp)⟩
    · exact nomatch ho.symm.trans howns
    · have hm := (hf.metadata_prefill hne hplace (by decide)).1
      exact absurd (hmode.symm.trans hm) (by decide)
  | resumeRetracted j row mamba kv =>
    obtain ⟨hplace, hsub⟩ := hen
    have hmode := hf.mode.2 (.inr (.inr hplace))
    have howns : req.ownsRow s.cfg = false := by rw [ownsRow, hplace]
    refine ⟨_, rfl, h.allocRow hpool hi howns [] hsub (by simp) ?_ (fun hne => ?_) (by simp)⟩
    · simp [ownsRow, hmode]
    · have hm := (hf.metadata_prefill hne hplace (by decide)).1
      exact absurd (hmode.symm.trans hm) (by decide)

end Events

end SglangInc.Abort
