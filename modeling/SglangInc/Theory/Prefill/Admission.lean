import SglangInc.Theory.Prefill.Memory
import Mathlib.Algebra.BigOperators.Ring.List

/-!
# Admission Is Sound for Memory

The requests that a `PrefillAdder` has admitted never need more pages than are
free or evictable once their prefixes are locked, so the allocation of their batch
does not run out of memory.

The adder compares token counts that are not rounded with a budget that is. This
works because what is left is a number of whole pages: the free pages, the
evictable ones, and the pages of the requests before. If a number of tokens fits
into whole pages, the pages of these tokens do. A lock can only take evictable
tokens away, and `add_one_req` looks again after it has taken the lock.

What it takes is that the reservations never make the budget larger. The tokens of
a running request are counted as `max_new_tokens - len(output_ids)`, and this is
negative when a request has more output tokens than it may have. `add_one_req`
cuts the same difference at zero. So the sum over the running batch has to be a
reservation, and not the opposite.

`add_one_req_ignore_eos` takes no lock. It is only called where the cache is
disabled and there is nothing to lock.

A chunked request is added whatever the budget is, also when nothing is left of it.

## Theorems

* `admitted_pages_fit`: The pages of every batch that is admitted.
* `prefill_progress_iff`: When a request that is added makes progress.
* `reqStates_ordered_iff`: When the states stay sorted.
-/

namespace SglangInc.Prefill

open List Radix Kv Slots Forest Option Adder Serving

variable {s s' : Adder} {req : Req} {held : List Nat} {a : Allocator}

section Rounding

theorem dvd_ceil (s : Adder) (tokens : Int) : (s.cache.pageSize : Int) ∣ s.ceilPagedTokens tokens :=
  Int.dvd_mul_left _ _

theorem ceil_congr (h : s'.cache.pageSize = s.cache.pageSize) (tokens : Int) :
    s'.ceilPagedTokens tokens = s.ceilPagedTokens tokens := by
  rw [ceilPagedTokens, ceilPagedTokens, h]

theorem le_ceil (hps : 0 < s.cache.pageSize) (tokens : Int) :
    tokens ≤ s.ceilPagedTokens tokens := by
  have := Int.ediv_mul_le (-tokens) (Int.natCast_ne_zero.mpr hps.ne')
  rw [ceilPagedTokens, Int.neg_mul]
  omega

variable {n : Int}

/-- Tokens that fit into whole pages, with their pages. -/
theorem ceil_le (hps : 0 < s.cache.pageSize) {tokens : Int} (hle : tokens ≤ n)
    (hdvd : (s.cache.pageSize : Int) ∣ n) : s.ceilPagedTokens tokens ≤ n := by
  rcases hdvd with ⟨k, rfl⟩
  have hpos : (0 : Int) < s.cache.pageSize := Int.natCast_pos.mpr hps
  have hk : -k ≤ -tokens / s.cache.pageSize := by
    rw [Int.le_ediv_iff_mul_le hpos, Int.neg_mul, Int.mul_comm k]
    omega
  rw [ceilPagedTokens, Int.mul_comm _ k]
  exact Int.mul_le_mul_of_nonneg_right (by omega) (Int.le_of_lt hpos)

/-- The new pages of a request are in its tokens, rounded up. -/
theorem numNewPages_mul_le (hps : 0 < s.cache.pageSize) (hsized : req.Sized) :
    (numNewPages s.cache.pageSize req.prefixIndices.length req.fillIds.length : Int) *
      s.cache.pageSize ≤ s.ceilPagedTokens req.extendInputLen := by
  rcases hsized with ⟨hnonneg, hlen⟩
  have hceil := le_ceil hps req.extendInputLen
  rcases dvd_ceil s req.extendInputLen with ⟨k, hk⟩
  have hpos : (0 : Int) < s.cache.pageSize := Int.natCast_pos.mpr hps
  have hk0 : 0 ≤ s.cache.pageSize * k := hk ▸ hnonneg.trans hceil
  obtain ⟨n, rfl⟩ := Int.eq_ofNat_of_zero_le (nonneg_of_mul_nonneg_right hk0 hpos)
  -- The pages of the prefix and these pages hold all tokens.
  have hfill : req.fillIds.length ≤
      (pagesFor s.cache.pageSize req.prefixIndices.length + n) * s.cache.pageSize := by
    have hpre := le_pagesFor_mul hps req.prefixIndices.length
    have hn : ((n * s.cache.pageSize : Nat) : Int) = s.ceilPagedTokens req.extendInputLen := by
      rw [hk, Nat.mul_comm, Int.natCast_mul]
    rw [Nat.add_mul]
    omega
  have hmono := pagesFor_mono s.cache.pageSize hfill
  rw [pagesFor_mul hps] at hmono
  have hle : numNewPages s.cache.pageSize req.prefixIndices.length req.fillIds.length ≤ n :=
    Nat.sub_le_iff_le_add'.mpr hmono
  rw [hk, Int.mul_comm]
  exact Int.mul_le_mul_of_nonneg_left (Int.ofNat_le.mpr hle) (Int.le_of_lt hpos)

/-- `int` of what is at least one. -/
theorem pyInt_le {q : ℚ} (h : 0 < pyInt q) : (pyInt q : ℚ) ≤ q := by
  unfold pyInt at h ⊢
  split_ifs at h ⊢ with hq
  · exact Int.floor_le q
  · exact absurd (Int.ceil_pos.mp h) (fun hpos => hq (le_of_lt hpos))

theorem Req.Sized.truncate (h : req.Sized) (h0 : 0 ≤ n)
    (hle : n ≤ req.extendInputLen) : (req.truncate n).Sized := by
  rcases h with ⟨hnonneg, hlen⟩
  refine ⟨h0, ?_⟩
  simp only [Req.truncate]
  rw [sliceTo, if_pos (by omega), length_take]
  omega

end Rounding

section Calls

/-- A request is admitted: it fits into what is left afterwards. -/
structure Admits (s : Adder) (req : Req) (s' : Adder) : Prop where
  sized : req.Sized
  list : s'.canRunList = s.canRunList ++ [req]
  alloc : s'.alloc = s.alloc
  cur : s'.curRemTokenOffset = s.curRemTokenOffset + s.ceilPagedTokens req.extendInputLen
  total : ∃ m : Nat, s'.remTotalTokenOffset =
    s.remTotalTokenOffset + (s.ceilPagedTokens req.extendInputLen + m)
  room : (req.extendInputLen : ℚ) ≤ s'.availableAndEvictable - s.remTotalTokenOffset

/-- Nothing is admitted. The states of the requests may have been computed. -/
structure Rejects (s s' : Adder) : Prop where
  list : s'.canRunList = s.canRunList
  alloc : s'.alloc = s.alloc
  cache : s'.cache = s.cache
  cur : s'.curRemTokenOffset = s.curRemTokenOffset
  total : s'.remTotalTokenOffset = s.remTotalTokenOffset

theorem Rejects.refl (s : Adder) : Rejects s s := ⟨rfl, rfl, rfl, rfl, rfl⟩

/-- `add` admits what fits. -/
theorem admits_add {s0 : Adder} (h : Rejects s s0) (hsized : req.Sized) {n : Int} {m : Nat}
    (hn : s.ceilPagedTokens n = s.ceilPagedTokens req.extendInputLen)
    (hroom : (req.extendInputLen : ℚ) ≤ s.remTotalTokens) : Admits s req (s0.add req n m) := by
  have hceil := (ceil_congr (congrArg Cache.pageSize h.cache) n).trans hn
  refine ⟨hsized, ?_, h.alloc, ?_, ⟨m, ?_⟩, ?_⟩
  · rw [← h.list]
    rfl
  · rw [← h.cur, ← hceil]
    rfl
  · rw [← h.total, ← hceil]
    rfl
  · unfold remTotalTokens availableAndEvictable at hroom
    rwa [← h.alloc, ← h.cache] at hroom

theorem addChunkedReq_admits (hsized : req.Sized)
    (hbudget : ∀ remTokens ∈ s.chunkTokens, 1 ≤ remTokens) {r : Option Req}
    (heq : s.addChunkedReq req = some (r, s')) :
    ∃ req', Admits s req' s' ∧ s'.cache = s.cache ∧ req'.lastNode = req.lastNode := by
  rcases map_eq_some_iff.mp heq with ⟨remTokens, hchunk, heq⟩
  have hpos := hbudget remTokens hchunk
  rcases map_eq_some_iff.mp hchunk with ⟨remChunkTokens, _, rfl⟩
  cases heq
  refine ⟨_, admits_add (Rejects.refl s) (hsized.truncate ?_ (min_le_left _ _)) rfl ?_, rfl, rfl⟩
  · have := hsized.1
    omega
  · have hint := pyInt_le (q := s.remTotalTokens) (by omega)
    refine le_trans (Int.cast_le.mpr ?_) hint
    simp only [Req.truncate]
    omega

variable {r : AddReqResult}

/-- What `add_one_req_ignore_eos` does: nothing, or it adds the request, or a beginning
    of it that is as long as the chunk. -/
theorem addOneReqIgnoreEos_shape (hps : 0 < s.cache.pageSize)
    (heq : s.addOneReqIgnoreEos req = (r, s')) : Rejects s s' ∨ ∃ req' m s0, Rejects s s0 ∧
      s' = s0.add req' req'.extendInputLen m ∧ (req.extendInputLen : ℚ) ≤ s.remTotalTokens ∧
      ((req' = req ∧ ∀ n ∈ s.remChunkTokens, req.extendInputLen ≤ n) ∨
        ∃ n ∈ s.remChunkTokens, 0 < n ∧ n < req.extendInputLen ∧ req' = { req with
          extendInputLen := n
          fillIds := sliceTo req.fillIds n }) := by
  unfold addOneReqIgnoreEos at heq
  simp only at heq
  have hsame : Rejects s { s with reqStates := some (s.addReqStates req) } :=
    ⟨rfl, rfl, rfl, rfl, rfl⟩
  split_ifs at heq with hless hstates
  · cases heq
    exact .inl (Rejects.refl s)
  · cases heq
    exact .inl hsame
  · have hroom : (req.extendInputLen : ℚ) ≤ s.remTotalTokens :=
      le_trans (Int.cast_le.mpr (le_ceil hps _)) (le_trans (not_lt.mp hless) (min_le_right _ _))
    split at heq
    · next hnone =>
        cases heq
        exact .inr ⟨req, _, _, hsame, rfl, hroom, .inl ⟨rfl, fun n hn => by cases hnone ▸ hn⟩⟩
    next remChunkTokens hsome =>
      split_ifs at heq with hlast hzero
      · cases heq
        refine .inr ⟨req, _, _, hsame, rfl, hroom, .inl ⟨rfl, fun n hn => ?_⟩⟩
        exact some.inj (hsome.symm.trans hn) ▸ hlast
      · cases heq
        exact .inl hsame
      · cases heq
        -- The ids are cut as if there were no prefix.
        refine .inr ⟨_, 0, _, ?_, rfl, hroom, .inr ⟨_, hsome, by omega, by omega, rfl⟩⟩
        exact ⟨rfl, rfl, rfl, rfl, rfl⟩

theorem addOneReqIgnoreEos_cases (hps : 0 < s.cache.pageSize) (hsized : req.Sized)
    (hindices : req.prefixIndices = []) (heq : s.addOneReqIgnoreEos req = (r, s')) : Rejects s s' ∨
      ∃ req', Admits s req' s' ∧ s'.cache = s.cache ∧ req'.lastNode = req.lastNode := by
  refine (addOneReqIgnoreEos_shape hps heq).imp_right ?_
  rintro ⟨req', m, s0, hsame, rfl, hroom, ⟨rfl, -⟩ | ⟨n, -, hpos, hlt, rfl⟩⟩
  · exact ⟨_, admits_add hsame hsized rfl hroom, hsame.cache, rfl⟩
  · -- Without a prefix the two ways to cut `fill_ids` agree.
    have hcut : { req with extendInputLen := n, fillIds := sliceTo req.fillIds n } =
        req.truncate n := by
      simp [Req.truncate, hindices]
    rw [hcut]
    exact ⟨_, admits_add hsame (hsized.truncate hpos.le hlt.le) rfl
      (le_trans (Int.cast_le.mpr hlt.le) hroom), hsame.cache, rfl⟩

theorem incLockRef_pageSize (c : Cache) (node : Nat) :
    (c.incLockRef node).2.pageSize = c.pageSize := by
  unfold Cache.incLockRef Cache.moveLockRef
  split_ifs
  · rfl
  · split <;> rfl

/-- A request is added to a cache that is locked. -/
theorem add_locked (s : Adder) (node : Nat) (req : Req) (n : Int) (m : Nat) :
    Adder.add { s with cache := (s.cache.incLockRef node).2 } req n m =
      { s.add req n m with cache := (s.cache.incLockRef node).2 } := by
  simp [Adder.add, updatePrefillBudget, ceilPagedTokens, incLockRef_pageSize]

variable {align : Option Nat} {returned : Option AddReqResult} {totalTokens : Int}
  {loaded : LoadBack}

/-- The truncated length is not longer, and there is at least a token. -/
theorem alignTrunc_le {truncLen n : Int} (hpos : 0 < truncLen)
    (h : alignTrunc truncLen align = some (some n)) : 0 < n ∧ n ≤ truncLen := by
  cases align with
  | none =>
    simp only [alignTrunc, some.injEq] at h
    omega
  | some align =>
    simp only [alignTrunc] at h
    split_ifs at h with hless hzero
    · simp at h
    cases h
    have hone : 1 ≤ truncLen / align := (Int.le_ediv_iff_mul_le (by omega)).mpr (by omega)
    exact ⟨Int.mul_pos (by omega) hone, Int.mul_ediv_self_le (by omega)⟩

/-- What happens under the lock: nothing, or the request is added, or a beginning of it
    within the chunk, with a second lock. -/
theorem addLoaded_shape (hps : 0 < s.cache.pageSize)
    (heq : s.addLoaded req align = some (returned, s')) :
    s' = s ∨ ∃ req' n m s0, Rejects s s0 ∧
      s' = { s0.add req' n m with cache := (s.cache.incLockRef req.lastNode).2 } ∧
      ((req' = req ∧ n = s.ceilPagedTokens req.extendInputLen ∧ ∀ k ∈ s.remChunkTokens, n ≤ k) ∨
        (req' = req.truncate n ∧ 0 < n ∧ n ≤ req.extendInputLen ∧
          ∀ k ∈ s.remChunkTokens, n ≤ k)) := by
  unfold addLoaded at heq
  simp only at heq
  split_ifs at heq with hinput
  · cases heq
    exact .inl rfl
  split at heq
  · next hnone =>
      cases heq
      exact .inr ⟨req, _, _, s, Rejects.refl s, add_locked _ _ _ _ _,
        .inl ⟨rfl, rfl, fun k hk => by cases hnone ▸ hk⟩⟩
  · next remChunkTokens hsome =>
      split_ifs at heq with hfits hzero
      · cases heq
        exact .inr ⟨req, _, _, s, Rejects.refl s, add_locked _ _ _ _ _,
          .inl ⟨rfl, rfl, fun k hk => some.inj (hsome.symm.trans hk) ▸ hfits⟩⟩
      · cases heq
        exact .inl rfl
      · rcases map_eq_some_iff.mp heq with ⟨aligned, halign, heq⟩
        cases aligned with
        | none =>
          cases heq
          exact .inl rfl
        | some truncLen =>
          cases heq
          rcases alignTrunc_le (Int.lt_of_not_ge hzero) halign with ⟨hpos, hle⟩
          have hdiv := Int.ediv_mul_le remChunkTokens (Int.natCast_ne_zero.mpr hps.ne')
          have hs' := add_locked { s with newChunkedReq := some (req.truncate truncLen) }
            req.lastNode (req.truncate truncLen) truncLen 0
          refine .inr ⟨_, truncLen, 0, _, ?_, hs', .inr ⟨rfl, hpos, ?_, fun k hk => ?_⟩⟩
          · exact ⟨rfl, rfl, rfl, rfl, rfl⟩
          · -- Whole pages below the pages of the request are within its tokens.
            by_contra hlt
            have hceil := ceil_le hps (Int.le_of_lt (Int.lt_of_not_ge fun hge =>
              hlt (hle.trans hge))) (Int.dvd_mul_left (remChunkTokens / s.cache.pageSize) _)
            omega
          · rw [← some.inj (hsome.symm.trans hk)]
            omega

/-- Under the lock, a request without a hit on the host is admitted with a second lock. -/
theorem addLocked_cases (hps : 0 < s.cache.pageSize) (hsized : req.Sized)
    (hhost : req.hostHitLength = 0) (htotal : req.extendInputLen ≤ totalTokens)
    (heq : s.addLocked req totalTokens align loaded = some (returned, s')) : s' = s ∨
      ∃ req' s1, s' = { s1 with cache := (s.cache.incLockRef req.lastNode).2 } ∧
        Admits s req' s1 ∧ s1.cache = s.cache ∧ req'.lastNode = req.lastNode := by
  have hload : s.loadBack req loaded = (s, req) := if_neg (Nat.not_lt.mpr hhost.le)
  rw [addLocked, hload] at heq
  split_ifs at heq with hless
  · cases heq
    exact .inl rfl
  refine (addLoaded_shape hps heq).imp_right ?_
  rintro ⟨req', n, m, s0, hsame, rfl, hcase⟩
  have hroom : (req.extendInputLen : ℚ) ≤ s.remTotalTokens :=
    le_trans (Int.cast_le.mpr htotal) (le_of_lt (not_le.mp hless))
  rcases hcase with ⟨rfl, rfl, -⟩ | ⟨rfl, hpos, hle, -⟩
  · have hceil := ceil_le hps (Int.le_refl _) (dvd_ceil s req'.extendInputLen)
    exact ⟨_, _, rfl, admits_add hsame hsized (Int.le_antisymm hceil (le_ceil hps _)) hroom,
      hsame.cache, rfl⟩
  · exact ⟨_, _, rfl, admits_add hsame (hsized.truncate hpos.le hle) rfl
      (le_trans (Int.cast_le.mpr hle) hroom), hsame.cache, rfl⟩

/-- A request is locked when it is admitted, and the cache is as before when it is
    not. -/
theorem addOneReq_cases (hps : 0 < s.cache.pageSize) (hsized : req.Sized)
    (hhost : req.hostHitLength = 0) (hindices : s.cache.disable = true → req.prefixIndices = [])
    (heq : s.addOneReq req align loaded = some (r, s')) : Rejects s s' ∨
      ∃ req', Admits s req' s' ∧ req'.lastNode = req.lastNode ∧
        (s'.cache = (s.cache.incLockRef req.lastNode).2 ∨
          s.cache.disable = true ∧ s'.cache = s.cache) := by
  unfold addOneReq at heq
  simp only at heq
  split_ifs at heq with hnsa heos htokens hinput
  any_goals
    cases heq
    exact .inl (Rejects.refl s)
  · refine (addOneReqIgnoreEos_cases hps hsized (hindices heos.2) (some.inj heq)).imp_right ?_
    rintro ⟨req', hadmits, hcache, hnode⟩
    exact ⟨req', hadmits, hnode, .inr ⟨heos.2, hcache⟩⟩
  · rcases map_eq_some_iff.mp heq with ⟨⟨returned, s1⟩, hlocked, heq⟩
    cases heq
    have htotal : req.extendInputLen ≤ req.extendInputLen +
        min (max ((req.maxNewTokens : Int) - req.outputIds.length) 0) s.clipMaxNewTokens := by
      omega
    have hps' : 0 < (s.cache.incLockRef req.lastNode).2.pageSize := by
      rwa [incLockRef_pageSize]
    rcases addLocked_cases hps' hsized hhost htotal hlocked with
      rfl | ⟨req', s2, rfl, hadmits, hc, hnode⟩
    · left
      exact ⟨rfl, rfl, decLockRef_incLockRef _ _, rfl, rfl⟩
    -- The lock of the call is given back, and that of the request stays.
    have hceil : Adder.ceilPagedTokens { s with cache := (s.cache.incLockRef req.lastNode).2 }
        req'.extendInputLen = s.ceilPagedTokens req'.extendInputLen :=
      ceil_congr (incLockRef_pageSize _ _) req'.extendInputLen
    have hback := decLockRef_incLockRef (s.cache.incLockRef req.lastNode).2 req.lastNode
    refine .inr ⟨req', ⟨hadmits.sized, hadmits.list, hadmits.alloc, hceil ▸ hadmits.cur,
      hceil ▸ hadmits.total, ?_⟩, hnode, .inl hback⟩
    have hroom := hadmits.room
    simp only [availableAndEvictable, hc] at hroom
    simp only [availableAndEvictable, hback]
    exact hroom

end Calls

section Invariant

/-- The locks and the store of an adder: every request that it has admitted has a
    lock on its prefix. -/
def Guarded (held : List Nat) (s : Adder) : Prop :=
  ∃ held', StoreOk held' s.cache s.alloc ∧ held ⊆ held' ∧
    ∀ req ∈ s.canRunList, req.lastNode = rootNode ∨ req.lastNode ∈ held'

/-- The invariant of an adder: the pages that it has given away are there. -/
structure AdderOk (held : List Nat) (a : Allocator) (s : Adder) : Prop where
  alloc : s.alloc = a
  guarded : Guarded held s
  sized : ∀ req ∈ s.canRunList, req.Sized
  cur : s.curRemTokenOffset = (s.canRunList.map fun req => s.ceilPagedTokens req.extendInputLen).sum
  le_total : (s.curRemTokenOffset : ℚ) ≤ s.remTotalTokenOffset
  fits : s.curRemTokenOffset ≤ s.availableAndEvictable

variable (h : AdderOk held a s)

include h

theorem AdderOk.pageSize_pos : 0 < s.cache.pageSize := by
  rcases h.guarded with ⟨_, hstore, _⟩
  exact hstore.accounted.pageSize_pos

/-- What the requests have is a number of whole pages. -/
theorem AdderOk.dvd_cur :
    (s.cache.pageSize : Int) ∣ s.curRemTokenOffset := by
  rw [h.cur]
  exact List.dvd_sum (forall_mem_map.mpr fun _ _ => dvd_ceil s _)

theorem AdderOk.rejects (hr : Rejects s s') : AdderOk held a s' := by
  have hceil := ceil_congr (congrArg Cache.pageSize hr.cache)
  refine ⟨hr.alloc.trans h.alloc, ?_, hr.list ▸ h.sized, ?_, ?_, ?_⟩
  · rcases h.guarded with ⟨held', hstore, hsub, hlocked⟩
    exact ⟨held', hr.cache.symm ▸ hr.alloc.symm ▸ hstore, hsub, hr.list.symm ▸ hlocked⟩
  · simp only [hr.list, hr.cur, hceil]
    exact h.cur
  · rw [hr.cur, hr.total]
    exact h.le_total
  · rw [hr.cur, availableAndEvictable, hr.cache, hr.alloc]
    exact h.fits

/-- What is admitted fits, with the pages of what was admitted before. -/
theorem AdderOk.admits (ha : Admits s req s') (hg : Guarded held s')
    (hsize : s'.cache.pageSize = s.cache.pageSize) : AdderOk held a s' := by
  have hceil := ceil_congr hsize
  refine ⟨ha.alloc.trans h.alloc, hg, ?_, ?_, ?_, ?_⟩
  · rw [ha.list]
    exact forall_mem_append.mpr ⟨h.sized, forall_mem_singleton.mpr ha.sized⟩
  · simp [ha.list, ha.cur, hceil, h.cur]
  · rcases ha.total with ⟨m, hm⟩
    have hle := h.le_total
    rw [ha.cur, hm]
    push_cast
    linarith
  · -- The rest is a number of whole pages, so the tokens can be rounded up.
    rcases hg with ⟨held', hstore, _⟩
    have hroom : req.extendInputLen ≤ s'.availableAndEvictable - s.curRemTokenOffset := by
      have hle := h.le_total
      have hfits := ha.room
      have : (req.extendInputLen : ℚ) ≤
          ((s'.availableAndEvictable - s.curRemTokenOffset : Int) : ℚ) := by
        push_cast
        linarith
      exact_mod_cast this
    have hdvd : (s.cache.pageSize : Int) ∣ s'.availableAndEvictable - s.curRemTokenOffset := by
      have hcur := h.dvd_cur
      rw [← hsize] at hcur ⊢
      exact Int.dvd_sub (Int.dvd_add hstore.dvd_available hstore.dvd_evictable) hcur
    have := ceil_le h.pageSize_pos hroom hdvd
    rw [ha.cur]
    omega

omit h

variable {c : Cache} {result : MatchResult} {key : RadixKey}

theorem matchPrefix_evictable {c' : Cache} (hacc : Accounted c held)
    (heq : c.matchPrefix key = .ok (result, c')) :
    c'.evictableSize = c.evictableSize ∧ c'.pageSize = c.pageSize := by
  have hcases := Checked.of_returns
    (matchPrefix_cases c hacc.pageSize_pos hacc.counted.tree key) heq
  rcases hcases with ⟨_, _, rfl⟩ | ⟨_, _, path, m, stop, r, _, _, _, rfl⟩
  all_goals exact ⟨rfl, rfl⟩

theorem AdderOk.matchPrefix (h : AdderOk held a s)
    (heq : s.cache.matchPrefix key = .ok (result, c)) : AdderOk held a { s with cache := c } := by
  rcases h.guarded with ⟨held', hstore, hsub, hlocked⟩
  rcases matchPrefix_evictable hstore.accounted heq with ⟨hevictable, hsize⟩
  have hceil (n : Int) : Adder.ceilPagedTokens { s with cache := c } n = s.ceilPagedTokens n :=
    ceil_congr hsize n
  refine ⟨h.alloc, ⟨held', hstore.matchPrefix heq, hsub, hlocked⟩, h.sized, ?_, h.le_total, ?_⟩
  · simp only [hceil]
    exact h.cur
  · simp only [availableAndEvictable, hevictable]
    exact h.fits

/-- `add_one_req_ignore_eos` is called where the cache is disabled. -/
def Call.AsCalled (s : Adder) : Call → Prop
  | .addOneReqIgnoreEos _ => s.cache.disable = true
  | _ => True

/-- A request is matched in a disabled cache without a prefix. -/
theorem Req.Matched.of_disabled (h : req.Matched c) (hacc : Accounted c held)
    (hdisable : c.disable = true) : req.lastNode = rootNode ∧ req.prefixIndices = [] := by
  rcases h with hroot | hpos
  · exact hroot
  · rw [hacc.disabled hdisable] at hpos
    exact absurd hpos (by simp [Forest.count, Forest.sum])

theorem Req.Matched.node (h : req.Matched c) :
    req.lastNode = rootNode ∨ 0 < count (·.id == req.lastNode) c.children :=
  h.imp_left And.left

/-- A request that is admitted without a new lock. -/
theorem Guarded.admits (h : Guarded held s) (ha : Admits s req s') (hcache : s'.cache = s.cache)
    (hnode : req.lastNode = rootNode ∨ req.lastNode ∈ held) : Guarded held s' := by
  rcases h with ⟨held', hstore, hsub, hlocked⟩
  refine ⟨held', hcache.symm ▸ ha.alloc.symm ▸ hstore, hsub, ?_⟩
  rw [ha.list]
  exact forall_mem_append.mpr ⟨hlocked,
    forall_mem_singleton.mpr (hnode.imp_right fun hmem => hsub hmem)⟩

/-- A request that is admitted with a lock. -/
theorem Guarded.locks (h : Guarded held s) (ha : Admits s req s')
    (hcache : s'.cache = (s.cache.incLockRef req.lastNode).2)
    (hnode : req.lastNode = rootNode ∨ 0 < count (·.id == req.lastNode) s.cache.children) :
    Guarded held s' := by
  rcases h with ⟨held', hstore, hsub, hlocked⟩
  refine ⟨req.lastNode :: held', ?_, fun i hi => mem_cons_of_mem _ (hsub hi), ?_⟩
  · rw [hcache, ha.alloc]
    exact hstore.moves (moves_inc hstore.pages hstore.accounted hnode)
  · rw [ha.list]
    exact forall_mem_append.mpr ⟨fun r hr => (hlocked r hr).imp_right (mem_cons_of_mem _),
      forall_mem_singleton.mpr (.inr mem_cons_self)⟩

/-- Every call keeps the invariant. -/
theorem adderOk_step {call : Call} (h : AdderOk held a s) (hcall : call.AsCalled s)
    (hstep : Step held s call s') : AdderOk held a s' := by
  have hps := h.pageSize_pos
  rcases h.guarded with ⟨held', hstore, _⟩
  cases call with
  | matchPrefix key =>
    rcases hstep with ⟨result, c, heq, rfl⟩
    exact h.matchPrefix heq
  | addChunkedReq req =>
    rcases hstep with ⟨hsized, hmem, hbudget, r, heq⟩
    rcases addChunkedReq_admits hsized hbudget heq with ⟨req', ha, hcache, hnode⟩
    exact h.admits ha (h.guarded.admits ha hcache (.inr (hnode ▸ hmem)))
      (congrArg Cache.pageSize hcache)
  | addOneReq req align =>
    rcases hstep with ⟨hsized, hmatched, hhost, loaded, r, heq⟩
    have hindices := fun hdisable => (hmatched.of_disabled hstore.accounted hdisable).2
    rcases addOneReq_cases hps hsized hhost hindices heq with hr | ⟨req', ha, hnode, hcache⟩
    · exact h.rejects hr
    rcases hcache with hcache | ⟨hdisable, hcache⟩
    · rw [← hnode] at hcache
      refine h.admits ha (h.guarded.locks ha hcache (hnode ▸ hmatched.node)) ?_
      rw [hcache, incLockRef_pageSize]
    -- A disabled cache has only the root to lock.
    · have hroot := (hmatched.of_disabled hstore.accounted hdisable).1
      exact h.admits ha (h.guarded.admits ha hcache (.inl (hnode.trans hroot)))
        (congrArg Cache.pageSize hcache)
  | addOneReqIgnoreEos req =>
    rcases hstep with ⟨hsized, hmatched, r, heq⟩
    rcases hmatched.of_disabled hstore.accounted hcall with ⟨hroot, hindices⟩
    rcases addOneReqIgnoreEos_cases hps hsized hindices heq with hr | ⟨req', ha, hcache, hnode⟩
    · exact h.rejects hr
    · exact h.admits ha (h.guarded.admits ha hcache (.inl (hnode.trans hroot)))
        (congrArg Cache.pageSize hcache)

/-- A new adder, where the running requests have a reservation. -/
theorem adderOk_init (hstore : StoreOk held c a)
    (clipMaxNewTokens : Nat) (nsaEnablePrefillCp : Bool) {runningBatch : List Req}
    {newTokenRatio : ℚ} (remInputTokens : Int) (remChunkTokens : Option Int)
    (hreserved : 0 ≤ runningOffset clipMaxNewTokens newTokenRatio runningBatch) :
    AdderOk held a (Adder.init c a clipMaxNewTokens nsaEnablePrefillCp runningBatch newTokenRatio
      remInputTokens remChunkTokens 0) := by
  refine ⟨rfl, ⟨held, hstore, List.Subset.refl _, forall_mem_nil _⟩, forall_mem_nil _, rfl, ?_, ?_⟩
  · simp only [Adder.init, Int.cast_zero, zero_add]
    exact hreserved
  · exact Int.add_nonneg (Int.natCast_nonneg _) hstore.evictable_nonneg

end Invariant

/-- The free pages and the evictable ones. -/
def Adder.freeAndEvictablePages (s : Adder) : Int :=
  s.alloc.freePages.length + s.alloc.releasePages.length + s.cache.evictableSize / s.cache.pageSize

/-- The requests that can run, as a batch. -/
def Adder.batch (s : Adder) : List Serving.Req := s.canRunList.map (·.toReq)

/-- The pages of the batch are those of the budget. -/
theorem AdderOk.newPages_mul_le (h : AdderOk held a s) :
    (newPages s.cache.pageSize s.batch : Int) * s.cache.pageSize ≤ s.availableAndEvictable := by
  refine Int.le_trans ?_ h.fits
  rw [h.cur, newPages, batch, List.map_map]
  have hsized := h.sized
  generalize s.canRunList = reqs at hsized
  induction reqs with
  | nil => simp
  | cons req reqs ih =>
    have hreq := numNewPages_mul_le h.pageSize_pos (hsized req mem_cons_self)
    have hrest := ih (forall_mem_cons.mp hsized).2
    simp only [map_cons, sum_cons, Function.comp_apply] at hrest ⊢
    rw [Int.natCast_add, Int.add_mul]
    exact Int.add_le_add hreq hrest

theorem AdderOk.newPages_le (h : AdderOk held a s) :
    (newPages s.cache.pageSize s.batch : Int) ≤ s.freeAndEvictablePages := by
  have hpos : (0 : Int) < s.cache.pageSize := Int.natCast_pos.mpr h.pageSize_pos
  have hle := h.newPages_mul_le
  rcases h.guarded with ⟨held', hstore, _⟩
  rcases hstore.dvd_evictable with ⟨k, hk⟩
  rw [freeAndEvictablePages, hk, Int.mul_ediv_cancel_left _ (Int.ne_of_gt hpos)]
  refine Int.le_of_mul_le_mul_right ?_ hpos
  rw [availableAndEvictable, Allocator.availableSize, hstore.pageSize, hk] at hle
  push_cast at hle
  rwa [Int.add_mul, Int.mul_comm k]

theorem Guarded.locked (h : Guarded held s) (hreq : req ∈ s.canRunList) :
    ∀ n ∈ pathTo s.cache.children req.lastNode, 0 < n.lockRef := by
  rcases h with ⟨held', hstore, _, hlocked⟩
  rcases hlocked req hreq with hroot | hmem
  · -- No node has the id of the root.
    rw [hroot, pathTo_of_count hstore.accounted.counted.ids.root_absent]
    exact forall_mem_nil _
  · exact accounted_locked hstore.accounted hmem

/-- In every state that an adder reaches on a server, the requests that it has
    admitted need no more pages than are free or evictable, their prefixes are
    locked, and the allocation of their batch does not run out of memory. -/
theorem admitted_pages_fit {pageSize size : Nat} (hps : 0 < pageSize)
    {isEagle disable disableFinishedInsert needSort : Bool}
    {tr : List (Server × Serving.Op × Server)} {server : Server}
    (hserver : Run Serving.Step
      (Server.init pageSize size isEagle disable disableFinishedInsert needSort) tr server)
    {clipMaxNewTokens : Nat} {nsaEnablePrefillCp : Bool} {runningBatch : List Req}
    {newTokenRatio : ℚ} {remInputTokens : Int} {remChunkTokens : Option Int}
    (hreserved : 0 ≤ runningOffset clipMaxNewTokens newTokenRatio runningBatch)
    {calls : List (Adder × Call × Adder)} {s : Adder}
    (hcalls : Run (Step (server.reqs.map (·.lastNode)))
      (Adder.init server.cache server.alloc clipMaxNewTokens nsaEnablePrefillCp runningBatch
        newTokenRatio remInputTokens remChunkTokens 0) calls s)
    (hascalled : ∀ x ∈ calls, x.2.1.AsCalled x.1) :
    (newPages pageSize s.batch : Int) ≤ s.freeAndEvictablePages ∧
    (∀ req ∈ s.canRunList, ∀ n ∈ pathTo s.cache.children req.lastNode, 0 < n.lockRef) ∧
    (server.alloc.isNotInFreeGroup = true →
      ∀ order, allocForExtend order s.cache s.alloc s.batch ≠ none) := by
  rcases storeOk_run hps hserver with ⟨hsize, hstore⟩
  have h : AdderOk (server.reqs.map (·.lastNode)) server.alloc s :=
    (hcalls.inv_of_guard (G := fun s call => call.AsCalled s) hascalled
      (adderOk_init hstore _ _ _ _ hreserved)
      fun _ _ _ h hcall hstep => adderOk_step h hcall hstep).1
  rcases h.guarded with ⟨held', hstore', _⟩
  have hpageSize : s.cache.pageSize = pageSize := by
    rw [← hstore'.pageSize, h.alloc, hstore.pageSize, hsize]
  refine ⟨hpageSize ▸ h.newPages_le, fun req hreq => h.guarded.locked hreq, fun hgroup order => ?_⟩
  refine allocForExtend_ne_none hstore' (h.alloc.symm ▸ hgroup) order
    (forall_mem_map.mpr fun r hr => ?_) h.newPages_mul_le
  have := (h.sized r hr).2
  have := (h.sized r hr).1
  omega

/-- A request of `n` new tokens that are not in the cache. -/
def newReq (n : Nat) : Req :=
  ⟨⟨List.replicate n 7, [], List.replicate n 7, none, [], 0, 0, 0, none⟩, 0, false, n, 0⟩

/-- A running request that may generate one token and has generated `n`. -/
def runningReq (n : Nat) : Req :=
  ⟨⟨[1], List.replicate n 7, [1], none, [], 0, 0, 0, none⟩, 1, false, 0, 0⟩

/-- An adder on this server. -/
def adderWith (running : Req) : Adder :=
  Adder.init twoCached twoSlots 4096 false [running] (1 / 2) 100 none 0

/-- Nothing is loaded from the host. -/
def Adder.noLoad (s : Adder) : LoadBack := ⟨[], rootNode, s.cache, s.alloc⟩

/-- The adder after a request has been offered. -/
def offered (s : Adder) (req : Req) (h : (s.addOneReq req none s.noLoad).isSome) : Adder :=
  ((s.addOneReq req none s.noLoad).get h).2

theorem step_offered (held : List Nat) (s : Adder) (req : Req)
    (h : (s.addOneReq req none s.noLoad).isSome) (hsized : req.Sized)
    (hmatched : req.Matched s.cache) (hhost : req.hostHitLength = 0) :
    Step held s (.addOneReq req none) (offered s req h) :=
  ⟨hsized, hmatched, hhost, _, _, (Option.some_get h).symm⟩

/-- A request of three tokens is admitted while a running request has a token left:
    two slots are free and two are evictable. -/
theorem admitted_pages_fit_twoCached : ∃ tr calls s,
    Run Serving.Step (Server.init 1 4 false false false false) tr ⟨twoCached, twoSlots, []⟩ ∧
    Run (Step []) (adderWith (runningReq 0)) calls s ∧ newPages 1 s.batch = 3 ∧
    s.freeAndEvictablePages = 4 ∧ allocForExtend (fun _ => 0) s.cache s.alloc s.batch ≠ none := by
  rcases run_twoCached with ⟨tr, hserver⟩
  have hstep := step_offered [] (adderWith (runningReq 0)) (newReq 3)
    (by decide +kernel) ⟨by decide, by decide⟩ (.inl ⟨rfl, rfl⟩) rfl
  have hcalls := Run.nil.snoc _ hstep
  refine ⟨tr, _, _, hserver, hcalls, by decide +kernel, by decide +kernel, ?_⟩
  exact (admitted_pages_fit (by decide) hserver (by decide +kernel) hcalls
    (by simp [Call.AsCalled])).2.2 rfl _

/-- A running request may generate one token and has generated four. A request of
    five tokens is admitted, and the pool has four slots. -/
theorem admitted_pages_exceed_overshot : ∃ tr calls s,
    Run Serving.Step (Server.init 1 4 false false false false) tr ⟨twoCached, twoSlots, []⟩ ∧
    Run (Step []) (adderWith (runningReq 4)) calls s ∧ (∀ x ∈ calls, x.2.1.AsCalled x.1) ∧
    newPages 1 s.batch = 5 ∧ s.freeAndEvictablePages = 4 ∧
    allocForExtend (fun _ => 0) s.cache s.alloc s.batch = none := by
  rcases run_twoCached with ⟨tr, hserver⟩
  have hstep := step_offered [] (adderWith (runningReq 4)) (newReq 5)
    (by decide +kernel) ⟨by decide, by decide⟩ (.inl ⟨rfl, rfl⟩) rfl
  have hcalls := Run.nil.snoc _ hstep
  exact ⟨tr, _, _, hserver, hcalls, by simp [Call.AsCalled], by decide +kernel,
    by decide +kernel, by decide +kernel⟩

section Progress

/-- The request that is added still has a token, no more than before and no more than
    the chunk, and its `fill_ids` end with them. -/
structure Progress (s : Adder) (req req' : Req) : Prop where
  sized : req'.Sized
  pos : 1 ≤ req'.extendInputLen
  le : req'.extendInputLen ≤ req.extendInputLen
  chunk : ∀ n ∈ s.remChunkTokens, req'.extendInputLen ≤ n

/-- If the request is added, it makes progress exactly under the condition. -/
def ProgressIff (s : Adder) (req : Req) (s' : Adder) (condition : Prop) : Prop :=
  ∀ req', s'.canRunList = s.canRunList ++ [req'] → (Progress s req req' ↔ condition)

/-- The request is within the chunk, or it has no prefix. -/
def Adder.CutsInput (s : Adder) (req : Req) : Prop :=
  ∀ n ∈ s.remChunkTokens, n < req.extendInputLen → req.prefixIndices = []

/-- What `add_one_req` needs: the same where it calls `add_one_req_ignore_eos`, and otherwise
    a token that is not loaded from the host. -/
def Adder.Leaves (s : Adder) (req : Req) (loaded : LoadBack) : Prop :=
  if req.ignoreEos = true ∧ s.cache.disable = true then s.CutsInput req
  else 0 < req.hostHitLength → loaded.newIndices.length < req.extendInputLen

theorem one_le_pyInt (q : ℚ) : 1 ≤ pyInt q ↔ 1 ≤ q := by
  constructor
  · exact fun h => le_trans (by exact_mod_cast h) (pyInt_le h)
  · intro h
    rw [pyInt, if_pos (le_trans zero_le_one h), Int.le_floor]
    exact_mod_cast h

theorem progressIff_of_list {condition : Prop} (hlist : s'.canRunList = s.canRunList) :
    ProgressIff s req s' condition := fun _ h => by simp [hlist] at h

theorem progressIff_of_added {req' : Req} {condition : Prop}
    (hlist : s'.canRunList = s.canRunList ++ [req']) (h : Progress s req req' ↔ condition) :
    ProgressIff s req s' condition := by
  intro req'' h'
  rwa [← singleton_inj.mp (append_cancel_left (hlist.symm.trans h'))]

variable (hsized : req.Sized) (hpos : 1 ≤ req.extendInputLen)
include hsized hpos

/-- A chunked request gets what is left of the budget, which can be less than nothing. -/
theorem addChunkedReq_progress (hchunk : ∀ n ∈ s.remChunkTokens, 0 < n) {r : Option Req}
    (heq : s.addChunkedReq req = some (r, s')) : ProgressIff s req s' (1 ≤ s.remTotalTokens) := by
  rcases map_eq_some_iff.mp heq with ⟨remTokens, hmin, heq⟩
  rcases map_eq_some_iff.mp hmin with ⟨k, hk, rfl⟩
  cases heq
  have hone := one_le_pyInt s.remTotalTokens
  refine progressIff_of_added rfl ⟨fun h => hone.mp ?_, fun h => ?_⟩
  · have hlen := h.pos
    simp only [Req.truncate] at hlen
    omega
  · have := hone.mpr h
    have := hchunk k hk
    refine ⟨hsized.truncate (by omega) (min_le_left _ _), ?_, min_le_left _ _, fun n hn => ?_⟩
    · simp only [Req.truncate]
      omega
    · rw [← some.inj (hk.symm.trans hn)]
      simp only [Req.truncate]
      omega

variable (hps : 0 < s.cache.pageSize) {r : AddReqResult}
include hps

/-- A prefix is cut off the tokens that are added. -/
theorem addOneReqIgnoreEos_progress (heq : s.addOneReqIgnoreEos req = (r, s')) :
    ProgressIff s req s' (s.CutsInput req) := by
  rcases addOneReqIgnoreEos_shape hps heq with hr | ⟨_, m, s0, hsame, rfl, -, hcase⟩
  · exact progressIff_of_list hr.list
  refine progressIff_of_added (congrArg (· ++ [_]) hsame.list) ?_
  rcases hcase with ⟨rfl, hfits⟩ | ⟨n, hn, hpos', hlt, rfl⟩
  · exact iff_of_true ⟨hsized, hpos, le_rfl, hfits⟩ fun n hn hlt => absurd (hfits n hn) (by omega)
  -- The cut leaves `n` tokens, with those of the prefix among them.
  have hlen : ((sliceTo req.fillIds n).length : Int) = n := by
    have := hsized.2
    rw [sliceTo, if_pos hpos'.le, length_take]
    omega
  constructor
  · intro h _ _ _
    have : (req.prefixIndices.length : Int) + n = (sliceTo req.fillIds n).length := h.sized.2
    exact length_eq_zero_iff.mp (by omega)
  · intro h
    refine ⟨⟨hpos'.le, ?_⟩, hpos', hlt.le, fun k hk => (some.inj (hk.symm.trans hn)).ge⟩
    simp [h n hn hlt, hlen]

omit hpos hps in
/-- What is loaded from the host is taken off the tokens of the request. -/
theorem loadBack_spec {loaded : LoadBack} {s1 : Adder} {req1 : Req}
    (heq : s.loadBack req loaded = (s1, req1)) : s1.canRunList = s.canRunList ∧
      s1.remChunkTokens = s.remChunkTokens ∧ s1.cache.pageSize = s.cache.pageSize ∧
      req1.prefixIndices.length + req1.extendInputLen = req1.fillIds.length ∧
      req1.extendInputLen = req.extendInputLen -
        (if 0 < req.hostHitLength then loaded.newIndices.length else 0 : Nat) := by
  have hlen := hsized.2
  unfold loadBack at heq
  split_ifs at heq with hhost
  · cases heq
    rw [if_pos hhost]
    refine ⟨rfl, rfl, rfl, ?_, ?_⟩
    · simp only
      omega
    · simp only [length_append]
      omega
  · cases heq
    exact ⟨rfl, rfl, rfl, hlen, by rw [if_neg hhost, Int.natCast_zero, Int.sub_zero]⟩

/-- A request is added with a token unless all its tokens are loaded. -/
theorem addOneReq_progress {align : Option Nat} {loaded : LoadBack}
    (heq : s.addOneReq req align loaded = some (r, s')) :
    ProgressIff s req s' (s.Leaves req loaded) := by
  unfold addOneReq at heq
  simp only at heq
  split_ifs at heq with hnsa heos htokens hinput
  any_goals
    cases heq
    exact progressIff_of_list rfl
  · rw [Adder.Leaves, if_pos heos]
    exact addOneReqIgnoreEos_progress hsized hpos hps (some.inj heq)
  rw [Adder.Leaves, if_neg heos]
  rcases map_eq_some_iff.mp heq with ⟨⟨returned, s1⟩, hlocked, heq⟩
  cases heq
  unfold addLocked at hlocked
  split_ifs at hlocked
  · cases hlocked
    exact progressIff_of_list rfl
  rcases hload : loadBack _ req loaded with ⟨s2, req2⟩
  obtain ⟨hlist, hchunks, hpage, hlen, hext⟩ := loadBack_spec hsized hload
  rw [hload] at hlocked
  have hps' : 0 < s2.cache.pageSize := by rwa [hpage, incLockRef_pageSize]
  -- Without a hit nothing is loaded.
  have htoken : 1 ≤ req2.extendInputLen ↔
      (0 < req.hostHitLength → loaded.newIndices.length < req.extendInputLen) := by
    split_ifs at hext with hhost
    · rw [imp_iff_right hhost]
      omega
    · exact iff_of_true (by omega) fun h => absurd h hhost
  rcases addLoaded_shape hps' hlocked with rfl | ⟨_, n, m, s0, hsame, rfl, hcase⟩
  · exact progressIff_of_list hlist
  refine progressIff_of_added (congrArg (· ++ [_]) (hsame.list.trans hlist)) ?_
  rcases hcase with ⟨rfl, rfl, hfits⟩ | ⟨rfl, hpos', hle, hfits⟩
  · refine ⟨fun h => htoken.mp h.pos, fun hc => ?_⟩
    have hone := htoken.mpr hc
    exact ⟨⟨by omega, hlen⟩, hone, by omega,
      fun k hk => (le_ceil hps' _).trans (hfits k (hchunks ▸ hk))⟩
  · refine iff_of_true ⟨Req.Sized.truncate ⟨by omega, hlen⟩ hpos'.le hle, hpos', ?_, fun k hk => ?_⟩
      (htoken.mp (by omega))
    · exact hle.trans (by omega)
    · exact hfits k (hchunks ▸ hk)

/-- Each of the calls, on any adder whose chunk is not used up. -/
theorem prefill_progress_iff (hchunk : ∀ n ∈ s.remChunkTokens, 0 < n) :
    (∀ r s', s.addChunkedReq req = some (r, s') → ProgressIff s req s' (1 ≤ s.remTotalTokens)) ∧
    (∀ r s', s.addOneReqIgnoreEos req = (r, s') → ProgressIff s req s' (s.CutsInput req)) ∧
    ∀ align loaded r s', s.addOneReq req align loaded = some (r, s') →
      ProgressIff s req s' (s.Leaves req loaded) :=
  ⟨fun _ _ => addChunkedReq_progress hsized hpos hchunk,
    fun _ _ => addOneReqIgnoreEos_progress hsized hpos hps,
    fun _ _ _ _ => addOneReq_progress hsized hpos hps⟩

omit hsized hpos hps

/-- The adder with a chunk of four tokens, where a running request may generate `n`
    tokens: two slots are free, and two are evictable. -/
def chunkAdder (n : Nat) : Adder :=
  .init twoCached twoSlots 4096 false [{ runningReq 0 with maxNewTokens := n }] 1 100 (some 4) 0

/-- A chunked request of three tokens goes on with one if three are reserved. -/
theorem prefill_progress_iff_reserved : ∃ r s' req',
    (chunkAdder 3).addChunkedReq (newReq 3) = some (r, s') ∧ s'.canRunList = [req'] ∧
    req'.extendInputLen = 1 ∧ Progress (chunkAdder 3) (newReq 3) req' := by
  refine ⟨_, _, _, rfl, rfl, by decide +kernel, ?_⟩
  exact ((prefill_progress_iff ⟨by decide, by decide⟩ (by decide) (by decide)
    (by simp [chunkAdder, Adder.init])).1 _ _ rfl _ rfl).mpr (by decide +kernel)

/-- If six are reserved, it goes on with less than none. -/
theorem chunked_prefill_negative : (newReq 3).Sized ∧ (chunkAdder 6).remChunkTokens = some 4 ∧
    ∃ r s', (chunkAdder 6).addChunkedReq (newReq 3) = some (r, s') ∧
      s'.canRunList.map (·.extendInputLen) = [-2] :=
  ⟨⟨by decide, by decide⟩, rfl, _, _, rfl, by decide +kernel⟩

end Progress

end SglangInc.Prefill
