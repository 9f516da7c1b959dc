import SglangInc.Theory.Serving.Requests

/-!
# Pages Are Conserved

Every page of the pool has one owner in every state that is reached: the
allocator, a node of the tree, or a request whose row has it behind what is
cached (`kv_pages_conserved`).

The invariant counts first slots. For each page the counts of the allocator, of
the tree and of the requests add up to one, and a step moves counts between the
three. A request gives up its uncached slots in three parts. The part up to the
prefix that was in the tree already is a duplicate and is freed, the part up to
the last whole page goes to the tree, and the rest is kept, or freed when the
request finishes. The parts meet because an insertion finds at least what the
request has cached: its path is locked, and so it is still there.
-/

namespace SglangInc.Serving

open List Radix Kv Slots Forest

open PrefixMap (Whole)

variable {numPages page : Nat} {c c' : Cache} {a a' : Allocator} {req : Req} {reqs rest : List Req}

/-- Each page has one owner, and the requests are what they are taken for. -/
structure Conserved (numPages : Nat) (s : Server) : Prop where
  accounted : Accounted s.cache (s.reqs.map (·.lastNode))
  pageSize : s.alloc.pageSize = s.cache.pageSize
  released : Released s.alloc
  pages : TreePages s.cache.pageSize s.cache.children
  reqs : ∀ req ∈ s.reqs, ReqOk s.cache req
  balance : ∀ page, (pagesIn s.alloc page : Int) +
    treeHeads s.cache.pageSize page s.cache.children + ownHeads s.cache.pageSize page s.reqs =
      if 0 < page ∧ page ≤ numPages then 1 else 0

section Basics

theorem accounted_perm {held held' : List Nat} (h : Accounted c held) (hp : held.Perm held') :
    Accounted c held' := by
  have hcount : (fun i => (held'.count i : Int)) = fun i => (held.count i : Int) :=
    funext fun i => by rw [hp.count_eq]
  refine ⟨h.pageSize_pos, h.disabled, { h.counted with locks := ?_, held := ?_ }⟩
  · rw [hcount]
    exact h.counted.locks
  · exact fun i hi => h.counted.held i (hp.mem_iff.mpr hi)

variable {reqs' : List Req} {pageSize : Nat}

theorem ownHeads_perm (hp : reqs.Perm reqs') :
    ownHeads pageSize page reqs = ownHeads pageSize page reqs' :=
  (hp.map _).sum_nat

theorem ownHeads_append : ownHeads pageSize page (reqs ++ reqs') =
      ownHeads pageSize page reqs + ownHeads pageSize page reqs' := by
  rw [ownHeads, map_append, sum_append_nat, ownHeads, ownHeads]

theorem ownHeads_cons : ownHeads pageSize page (req :: reqs) =
      heads pageSize page req.uncached + ownHeads pageSize page reqs := by
  rw [ownHeads, map_cons, sum_cons, ownHeads]

/-- The order of the requests does not matter. -/
theorem Conserved.perm (h : Conserved numPages ⟨c, a, reqs⟩)
    (hp : reqs.Perm reqs') : Conserved numPages ⟨c, a, reqs'⟩ :=
  { h with
    accounted := accounted_perm h.accounted (hp.map _)
    reqs := fun req hreq => h.reqs req (hp.mem_iff.mpr hreq)
    balance := fun page => by
      rw [← ownHeads_perm hp]
      exact h.balance page }

/-- No page is counted twice. -/
theorem Conserved.le_one (h : Conserved numPages ⟨c, a, reqs⟩) (page : Nat) :
    (pagesIn a page : Int) + treeHeads c.pageSize page c.children +
      ownHeads c.pageSize page reqs ≤ 1 := by
  have hbalance := h.balance page
  simp only at hbalance
  split_ifs at hbalance <;> omega

/-- A step that changes one request only, and not its slots. -/
theorem Conserved.change (h : Conserved numPages ⟨c, a, req :: rest⟩) {req' : Req}
    (hok : ReqOk c req') (hnode : req'.lastNode = req.lastNode)
    (hown : req'.uncached = req.uncached) : Conserved numPages ⟨c, a, req' :: rest⟩ :=
  { h with
    accounted := by
      rw [map_cons, hnode]
      exact h.accounted
    reqs := forall_mem_cons.mpr ⟨hok, (forall_mem_cons.mp h.reqs).2⟩
    balance := fun page => by
      rw [ownHeads_cons, hown, ← ownHeads_cons]
      exact h.balance page }

/-- A step that allocates slots for a batch. -/
theorem Conserved.grant {batch batch' : List Req} {pages : List Nat}
    (h : Conserved numPages ⟨c, a, batch ++ rest⟩) (htook : Took a pages a')
    (hoks : ∀ req ∈ batch', ReqOk c req) (hnodes : batch'.map (·.lastNode) = batch.map (·.lastNode))
    (hown : ∀ page, ownHeads c.pageSize page batch' =
      ownHeads c.pageSize page batch + pages.count page) :
    Conserved numPages ⟨c, a', batch' ++ rest⟩ where
  accounted := by
    rw [map_append, hnodes, ← map_append]
    exact h.accounted
  pageSize := htook.pageSize.trans h.pageSize
  released := htook.released h.released
  pages := h.pages
  reqs := forall_mem_append.mpr ⟨hoks, (forall_mem_append.mp h.reqs).2⟩
  balance := fun page => by
    have hbalance := h.balance page
    simp only [ownHeads_append] at hbalance ⊢
    rw [← hbalance, htook.count page, hown page]
    push_cast
    omega

end Basics

section Caching

variable {i j n pageSize : Nat} {row l : List Nat}

/-- A list from some point on is the part up to a later point and the rest. -/
theorem heads_slice (l : List Nat) (hij : i ≤ j) : heads pageSize page (l.drop i) =
      heads pageSize page (slice l i j) + heads pageSize page (l.drop j) := by
  have hcut : slice l i j ++ l.drop j = l.drop i := by
    rw [slice, drop_take, ← Nat.add_sub_cancel' hij, Nat.add_sub_cancel_left,
      ← drop_drop, take_append_drop]
  rw [← heads_append, hcut]

theorem slice_take (l : List Nat) {m : Nat} (h : j ≤ m) : slice (l.take m) i j = slice l i j := by
  rw [slice, slice, take_take, Nat.min_eq_left h]

theorem paged_slice (hps : 0 < pageSize) (h : Paged pageSize l) (hi : pageSize ∣ i) (j : Nat) :
    Paged pageSize (slice l i j) :=
  (h.take hps j).drop hps hi

/-- A change of the cache that keeps all paths. -/
structure Carries (c c' : Cache) : Prop where
  kept : Kept c c'
  along : ∀ {node e tokens indices}, Along c.children node e tokens indices →
    Along c'.children node e tokens indices

theorem Carries.trans {c1 c2 c3 : Cache} (h : Carries c1 c2) (h' : Carries c2 c3) : Carries c1 c3 :=
  ⟨h.kept.trans h'.kept, fun ha => h'.along (h.along ha)⟩

/-- A change that also leaves every page of the tree where it is. -/
structure Moves (held : List Nat) (c c' : Cache) : Prop extends Carries c c' where
  accounted : Accounted c' held
  pages : TreePages c'.pageSize c'.children
  heads : ∀ page, treeHeads c'.pageSize page c'.children = treeHeads c.pageSize page c.children

variable {held : List Nat} {k : Nat}

theorem Moves.trans {held' : List Nat} {c1 c2 c3 : Cache} (h : Moves held c1 c2)
    (h' : Moves held' c2 c3) : Moves held' c1 c3 :=
  ⟨h.toCarries.trans h'.toCarries, h'.accounted, h'.pages,
    fun page => (h'.heads page).trans (h.heads page)⟩

section

variable (hpages : TreePages c.pageSize c.children)
include hpages

theorem moves_match (hacc : Accounted c held) {key : RadixKey} {result : MatchResult}
    (heq : c.matchPrefix key = .ok (result, c')) : Moves held c c' := by
  rcases matchPrefix_effect hacc hpages heq with ⟨hkept, hpages', hheads⟩
  exact ⟨⟨hkept, fun ha => ha.matchPrefix hacc heq⟩, hacc.matchPrefix heq, hpages', hheads⟩

theorem moves_dec (hacc : Accounted c (i :: held)) : Moves held c (c.decLockRef i).2 := by
  have hdec := hacc.decLockRef (mem_cons_self (a := i))
  rw [erase_cons_head] at hdec
  rcases lock_effect 1 (-1) i hpages rfl with ⟨hkept, hpages', hheads⟩
  exact ⟨⟨hkept, fun ha => ha.moveLockRef 1 (-1) i⟩, hdec, hpages', hheads⟩

theorem moves_inc (hacc : Accounted c held) (hi : i = rootNode ∨ 0 < count (·.id == i) c.children) :
    Moves (i :: held) c (c.incLockRef i).2 := by
  rcases lock_effect 0 1 i hpages rfl with ⟨hkept, hpages', hheads⟩
  exact ⟨⟨hkept, fun ha => ha.moveLockRef 0 1 i⟩, hacc.incLockRef hi, hpages', hheads⟩

end

/-- The slots of a request go to the tree, from the end of the prefix that was
    there. That prefix has at least what the request has cached. -/
theorem insert_row (hacc : Accounted c held)
    (hpages : TreePages c.pageSize c.children) (henabled : c.disable = false)
    (hok : ReqOk c req) (hrow : Paged c.pageSize row) (hle : (radixKey c req).length ≤ row.length) :
    ∃ n c', c.insert (radixKey c req) (row.take (radixKey c req).length) = .ok (n, c') ∧
      req.cacheProtectedLen ≤ n ∧ n ≤ (radixKey c req).length ∧ Carries c c' ∧
      TreePages c'.pageSize c'.children ∧ Accounted c' held ∧
      (∀ page, treeHeads c'.pageSize page c'.children = treeHeads c.pageSize page c.children +
        heads c.pageSize page (slice row n (radixKey c req).length)) ∧
      ∀ p, Whole c'.pageSize p → p <+: (radixKey c req).tokenIds →
        (find c'.pageSize req.extraKey c'.children p).isSome := by
  have hps := hacc.pageSize_pos
  have hv : (row.take (radixKey c req).length).length = (radixKey c req).length :=
    length_take_of_le hle
  rcases insert_cases c hps hacc.counted.tree (radixKey c req)
    (row.take (radixKey c req).length) with ⟨n, c', heq, _⟩
  rcases insert_effect hacc hpages henabled (readyKey c req) hv (hrow.take hps _) heq
    with ⟨hkept, hpages', hn, _, hheads, hafter, hbefore⟩
  refine ⟨n, c', heq, ?_, hn, ⟨hkept, fun ha => ha.insert hacc heq⟩, hpages', hacc.insert hv heq,
    hheads, hafter⟩
  -- What is cached of the request is on a path of the tree.
  rcases Nat.eq_zero_or_pos req.cacheProtectedLen with hzero | hpos
  · rw [hzero]
    exact Nat.zero_le n
  have hlen : ((pageKeys c req.fillIds).take req.cacheProtectedLen).length =
      req.cacheProtectedLen := length_take_of_le hok.le_keys
  have hwhole : Whole c.pageSize ((pageKeys c req.fillIds).take req.cacheProtectedLen) := by
    refine ⟨length_pos_iff.mp (by omega), ?_⟩
    rw [hlen]
    exact hok.dvd_protected hps hacc.counted.tree hpages
  have hfound := find_along hok.along hacc.counted.tree hpages.aligned hwhole (prefix_refl _)
  have hiff := hbefore _ hwhole <| take_prefix _ _
  have hsome := hiff.mp (by
    show (find c.pageSize req.extraKey c.children _).isSome
    rw [hfound]
    rfl)
  rwa [hlen] at hsome

theorem Kept.radixKey (h : Kept c c') (req : Req) : radixKey c' req = radixKey c req := by
  rw [Serving.radixKey, h.pageKeys, h.isEagle, Serving.radixKey]

/-- What is cached of a request, read in its row. -/
theorem ReqOk.take_row (h : ReqOk c req) (hrow : req.row = some row) :
    row.take req.cacheProtectedLen = req.prefixIndices.take req.cacheProtectedLen := by
  rcases (h.row row hrow).2.1 with ⟨more, hmore⟩
  rw [← hmore, take_append_of_le_length h.le_prefix]

/-- What `cache_unfinished_req` returns. -/
theorem cacheUnfinishedReq_eq (n : Nat) (c1 : Cache) (henabled : c.disable = false) {c2 : Cache}
    {result : MatchResult}
    (hinsert : c.insert (radixKey c req) ((req.reqToToken.take req.fillIds.length).take
      (radixKey c req).length) = .ok (n, c1))
    (hmatch : c1.matchPrefix (radixKey c req) = .ok (result, c2))
    (hlen : result.deviceIndices.length = (radixKey c req).length) :
    cacheUnfinishedReq c a req = .ok
      (((c2.decLockRef req.lastNode).2.incLockRef result.lastDeviceNode).2,
        a.free (slice (req.reqToToken.take req.fillIds.length) req.cacheProtectedLen n),
        { req with
          row := some (writeIndices req.reqToToken req.cacheProtectedLen result.deviceIndices)
          cacheProtectedLen := result.deviceIndices.length
          prefixIndices :=
            if result.deviceIndices.length < (req.reqToToken.take req.fillIds.length).length then
              result.deviceIndices ++
                (req.reqToToken.take req.fillIds.length).drop result.deviceIndices.length
            else result.deviceIndices
          lastNode := result.lastDeviceNode }) := by
  unfold cacheUnfinishedReq
  rw [if_neg (by rw [henabled]; exact Bool.false_ne_true)]
  simp only [hinsert, bind, Except.bind, hmatch]
  rw [if_neg (fun hne => hne hlen)]
  rfl

/-- The uncached slots of a request, in three parts. -/
theorem cut_uncached (pageSize : Nat) (hrow : req.row = some row) (hcn : req.cacheProtectedLen ≤ n)
    (hnk : n ≤ k) (page : Nat) :
    heads pageSize page req.uncached =
      heads pageSize page (slice row req.cacheProtectedLen n) +
        (heads pageSize page (slice row n k) + heads pageSize page (row.drop k)) := by
  rw [Req.uncached, Req.reqToToken, hrow, Option.getD_some, heads_slice row hcn,
    heads_slice row hnk]

/-- A free of slots that the requests have. -/
theorem Conserved.free (h : Conserved numPages ⟨c, a, reqs⟩) (hl : Paged c.pageSize l)
    (hle : ∀ page, heads c.pageSize page l ≤ ownHeads c.pageSize page reqs)
    (hps : a'.pageSize = c.pageSize) (page : Nat) :
    pagesIn (a'.free l) page = pagesIn a' page + heads c.pageSize page l := by
  have hone := h.le_one page
  have hnonneg := treeHeads_nonneg c.pageSize page c.children
  have hpage := hle page
  have hfree := pagesIn_free a' (hps.symm ▸ h.accounted.pageSize_pos) (hps.symm ▸ hl)
    (show heads a'.pageSize page l ≤ 1 by rw [hps]; omega)
  rwa [hps] at hfree

/-- A request after its slots have been cached: what the tree has for it
    replaces the beginning of its row. -/
theorem ReqOk.refresh (hps : 0 < c.pageSize) (h : ReqOk c req) (hkept : Kept c c')
    {new : List Nat} {node : Nat} (hrow : req.row = some row)
    (hfill : req.fillIds.length ≤ row.length)
    (halong : Along c'.children node req.extraKey (pageKeys c req.fillIds) new)
    (hnew : Paged c'.pageSize new) (hlen : new.length = (pageKeys c req.fillIds).length) :
    ReqOk c' { req with
      row := some (new ++ row.drop new.length)
      cacheProtectedLen := new.length
      prefixIndices :=
        if new.length < (row.take req.fillIds.length).length then
          new ++ (row.take req.fillIds.length).drop new.length
        else new
      lastNode := node } := by
  rcases h.row row hrow with ⟨hrl, _, hpaged⟩
  have hkl : new.length ≤ req.fillIds.length := hlen ▸ length_pageKeys_le c req.fillIds
  have htake : (row.take req.fillIds.length).length = req.fillIds.length :=
    length_take_of_le hfill
  -- Without a rest there is nothing to append.
  have hindices : (if new.length < (row.take req.fillIds.length).length then
      new ++ (row.take req.fillIds.length).drop new.length else new) =
      new ++ (row.take req.fillIds.length).drop new.length := by
    split_ifs with hlt
    · rfl
    · rw [drop_eq_nil_of_le (not_lt.mp hlt), List.append_nil]
  have hpl : (new ++ (row.take req.fillIds.length).drop new.length).length =
      req.fillIds.length := by
    rw [length_append, List.length_drop, htake]
    omega
  rw [hindices]
  refine ⟨h.fill, ?_, ?_, ?_, hpl.le, fun hnone => ?_, ?_⟩
  · simp only [hkept.pageKeys, hlen, take_length]
    rwa [← hlen, take_left]
  · simp [hkept.pageKeys, hlen]
  · exact hkl.trans hpl.symm.le
  · cases hnone
  · intro row' hrow'
    cases hrow'
    rw [hkept.pageSize] at hnew ⊢
    have hdvd : c.pageSize ∣ new.length := hlen ▸ dvd_length_pageKeys c req.fillIds
    refine ⟨?_, ?_, paged_append hps hnew hdvd (hpaged.drop hps hdvd)⟩
    · show (new ++ row.drop new.length).length = req.kvCommittedLen
      rw [length_append, List.length_drop]
      omega
    · rw [prefix_append_right_inj, drop_take]
      exact take_prefix _ _

/-- What `cache_finished_req` inserts, if it inserts. -/
theorem cacheFinishedReq_eq (n : Nat) (c' : Cache) (henabled : c.disable = false) (isInsert : Bool)
    (hkv : req.kvCommittedLen ≤ req.tokens.length)
    (hstore : if c.disableFinishedInsert = false ∧ isInsert = true then
        c.insert (radixKey c req) ((req.reqToToken.take req.kvCommittedLen).take
          (radixKey c req).length) = .ok (n, c') else n = (radixKey c req).length ∧ c' = c) :
    cacheFinishedReq c a req isInsert = .ok ((c'.decLockRef req.lastNode).2,
      (a.free (slice (req.reqToToken.take req.kvCommittedLen) req.cacheProtectedLen n)).free
        ((req.reqToToken.take req.kvCommittedLen).drop (radixKey c req).length)) := by
  have hlen : (req.tokens.take req.kvCommittedLen).length = req.kvCommittedLen :=
    length_take_of_le hkv
  unfold cacheFinishedReq
  simp only [hlen]
  rw [if_neg (by rw [henabled]; exact Bool.false_ne_true)]
  cases hd : c.disableFinishedInsert <;> cases isInsert <;>
    simp only [hd, Bool.false_eq_true, and_self, and_false, and_true, if_false, if_true,
      reduceCtorEq] at hstore ⊢
  · rcases hstore with ⟨rfl, rfl⟩
    rfl
  · rw [hstore]
    rfl
  all_goals
    rcases hstore with ⟨rfl, rfl⟩
    rfl

variable (h : Conserved numPages ⟨c, a, req :: rest⟩)
include h

/-- `cache_unfinished_req` does not fail, and keeps the pages. -/
theorem cacheUnfinishedReq_conserved (hslots : req.HasSlots) :
    ∃ c' a' req', cacheUnfinishedReq c a req = .ok (c', a', req') ∧
      Kept c c' ∧ Conserved numPages ⟨c', a', req' :: rest⟩ := by
  by_cases hdisable : c.disable = true
  · refine ⟨c, a, req, ?_, Kept.refl c, h⟩
    rw [cacheUnfinishedReq, if_pos hdisable]
  have henabled : c.disable = false := by simpa using hdisable
  have hacc : Accounted c (req.lastNode :: rest.map (·.lastNode)) := h.accounted
  have hps := hacc.pageSize_pos
  have hpages : TreePages c.pageSize c.children := h.pages
  have hok : ReqOk c req := h.reqs req mem_cons_self
  rcases Option.isSome_iff_exists.mp hslots.1 with ⟨row, hrow⟩
  rcases hok.row row hrow with ⟨hrl, hpre, hpaged⟩
  have hread : req.reqToToken = row := by rw [Req.reqToToken, hrow, Option.getD_some]
  have hfill : req.fillIds.length ≤ row.length := hrl ▸ hslots.2
  have hkl : (radixKey c req).length ≤ req.fillIds.length := length_pageKeys_le c req.fillIds
  -- The insertion finds what the request has cached.
  rcases insert_row hacc hpages henabled hok hpaged (hkl.trans hfill)
    with ⟨n, c1, hinsert, hcn, hnk, hcarry1, hpages1, hacc1, hheads1, hbound⟩
  -- The match finds the whole key.
  rcases matchPrefix_cases c1 hacc1.pageSize_pos hacc1.counted.tree (radixKey c req)
    with ⟨result, c2, hmatch, _⟩
  have hready1 : ReadyKey c1 (radixKey c req) := hcarry1.kept.radixKey req ▸ readyKey c1 req
  have hlen : result.deviceIndices.length = (radixKey c req).length :=
    matchPrefix_inserted hacc1 hpages1 (hcarry1.kept.disable.trans henabled) hready1 hbound hmatch
  have halong2 := (along_matchPrefix hacc1 hpages1.aligned hmatch).1
  rw [hready1.lookupKey.1, hready1.lookupKey.2, hlen,
    show (radixKey c req).tokenIds.take (radixKey c req).length = pageKeys c req.fillIds from
      take_length] at halong2
  -- The lock moves to the node that was found.
  have hmatched := moves_match hpages1 hacc1 hmatch
  have hdec := moves_dec hmatched.pages hmatched.accounted
  have hinc := moves_inc hdec.pages hdec.accounted (hdec.along halong2).present
  have hmoves := (hmatched.trans hdec).trans hinc
  have halong := hinc.along (hdec.along halong2)
  have hcarry := hcarry1.trans hmoves.toCarries
  have hps3 := hmoves.accounted.pageSize_pos
  have htree3 := hmoves.accounted.counted.tree
  -- Both paths have the same indices for what was cached.
  have hagree : row.take req.cacheProtectedLen =
      result.deviceIndices.take req.cacheProtectedLen := by
    have hsame := along_agree hps3 htree3 hmoves.pages (hcarry.along hok.along) halong <|
      take_prefix _ _
    rw [length_take_of_le hok.le_keys] at hsame
    rw [hok.take_row hrow, hsame]
  have hpagedNew := along_paged hps3 halong htree3 hmoves.pages
  have hcl : req.cacheProtectedLen ≤ result.deviceIndices.length := by
    rw [hlen]
    exact hok.le_keys
  have hwrite : writeIndices row req.cacheProtectedLen result.deviceIndices =
      result.deviceIndices ++ row.drop result.deviceIndices.length := by
    rw [writeIndices, Nat.max_eq_right hcl, hagree, take_append_drop]
  refine ⟨_, _, _, cacheUnfinishedReq_eq n c1 henabled ?_ hmatch hlen, hcarry.kept, ?_⟩
  · rwa [hread, take_take, Nat.min_eq_left hkl]
  · rw [hread, slice_take _ (hnk.trans hkl), hwrite]
    have hcut := cut_uncached c.pageSize hrow hcn hnk
    have hkeeps := free_keeps a (slice row req.cacheProtectedLen n)
    refine ⟨hmoves.accounted, ?_, hkeeps.released h.released, hmoves.pages, ?_, fun page => ?_⟩
    · exact (hkeeps.pageSize.trans h.pageSize).trans hcarry.kept.pageSize.symm
    · exact forall_mem_cons.mpr ⟨hok.refresh hps hcarry.kept hrow hfill halong hpagedNew.1 hlen,
        fun r hr => (h.reqs r (mem_cons_of_mem _ hr)).keep hcarry.kept hcarry.along⟩
    · have hprotected := hok.dvd_protected hps hacc.counted.tree hpages
      have hfree := h.free (paged_slice hps hpaged hprotected n) (fun page => by
        rw [ownHeads_cons, hcut page]
        omega) h.pageSize page
      have hbalance := h.balance page
      simp only [ownHeads_cons, hcut page] at hbalance
      simp only [hmoves.heads, hheads1]
      simp only [hcarry.kept.pageSize, ownHeads_cons, Req.uncached, Req.reqToToken,
        Option.getD_some, drop_left, hfree]
      rw [hlen]
      push_cast
      omega

/-- A request ends: the duplicates and the rest of its slots are freed, and its
    lock is given back. -/
theorem Conserved.release
    (hrow : req.row = some row) (hcn : req.cacheProtectedLen ≤ n) (hnk : n ≤ k)
    (hk : c.pageSize ∣ k) (hacc : Accounted c' (req.lastNode :: rest.map (·.lastNode)))
    (hcarry : Carries c c') (hpages : TreePages c'.pageSize c'.children)
    (hheads : ∀ page, treeHeads c'.pageSize page c'.children =
      treeHeads c.pageSize page c.children + heads c.pageSize page (slice row n k)) :
    Conserved numPages ⟨(c'.decLockRef req.lastNode).2,
      (a.free (slice row req.cacheProtectedLen n)).free (row.drop k), rest⟩ := by
  have hps : 0 < c.pageSize := h.accounted.pageSize_pos
  have hok : ReqOk c req := h.reqs req mem_cons_self
  have hpaged := (hok.row row hrow).2.2
  have hdec := moves_dec hpages hacc
  have hkept := hcarry.kept.trans hdec.kept
  have hcut := cut_uncached c.pageSize hrow hcn hnk
  have hkeep := free_keeps a (slice row req.cacheProtectedLen n)
  have hkeep' := hkeep.trans (free_keeps _ (row.drop k))
  have hdvd := hok.dvd_protected hps h.accounted.counted.tree h.pages
  refine ⟨hdec.accounted, ?_, hkeep'.released h.released, hdec.pages, ?_, fun page => ?_⟩
  · exact (hkeep'.pageSize.trans h.pageSize).trans hkept.pageSize.symm
  · exact fun r hr => (h.reqs r (mem_cons_of_mem _ hr)).keep hkept fun ha =>
      hdec.along (hcarry.along ha)
  -- The two frees and the tree share the slots of the request.
  · have hfree := h.free (paged_slice hps hpaged hdvd n) (fun page => by
      rw [ownHeads_cons, hcut page]
      omega) h.pageSize page
    have hfree' := h.free (hpaged.drop hps hk) (fun page => by
      rw [ownHeads_cons, hcut page]
      omega) (hkeep.pageSize.trans h.pageSize) page
    have hbalance := h.balance page
    simp only [ownHeads_cons, hcut page] at hbalance
    simp only [hdec.heads, hheads]
    simp only [hkept.pageSize, hfree', hfree]
    push_cast
    omega

/-- `cache_finished_req` does not fail, and keeps the pages. -/
theorem cacheFinishedReq_conserved (hfin : req.Finishable) (isInsert : Bool) :
    ∃ c' a', cacheFinishedReq c a req isInsert = .ok (c', a') ∧
      Kept c c' ∧ Conserved numPages ⟨c', a', rest⟩ := by
  have hacc : Accounted c (req.lastNode :: rest.map (·.lastNode)) := h.accounted
  have hpages : TreePages c.pageSize c.children := h.pages
  have hok : ReqOk c req := h.reqs req mem_cons_self
  rcases hfin with ⟨hslots, hkv⟩
  rcases Option.isSome_iff_exists.mp hslots.1 with ⟨row, hrow⟩
  rcases hok.row row hrow with ⟨hrl, _, hpaged⟩
  have hread : req.reqToToken = row := by rw [Req.reqToToken, hrow, Option.getD_some]
  have hrefl : Carries c c := ⟨Kept.refl c, fun ha => ha⟩
  have hempty : ∀ n page, heads c.pageSize page (slice row n n) = 0 := by
    intro n page
    rw [slice, drop_take_self]
    rfl
  by_cases hdisable : c.disable = true
  · -- Nothing is cached of a request, so all of its slots are freed.
    have hzero : req.cacheProtectedLen = 0 := by
      have hindices := hok.along.indices
      rw [hacc.disabled hdisable] at hindices
      have hlen := congrArg List.length hindices
      rw [length_take_of_le hok.le_prefix] at hlen
      exact hlen.symm
    have hrelease := h.release hrow (n := 0) (k := 0) hzero.le (Nat.le_refl 0)
      (Nat.dvd_zero _) hacc hrefl hpages (fun page => by rw [hempty]; simp)
    have hlock : (c.decLockRef req.lastNode).2 = c := by
      rw [Cache.decLockRef, Cache.moveLockRef, if_pos hdisable]
    have hnone : a.free (slice row req.cacheProtectedLen 0) = a := by
      rw [hzero, slice, drop_zero, take_zero, Allocator.free, if_pos length_nil]
    rw [hlock, hnone, drop_zero] at hrelease
    refine ⟨_, _, ?_, Kept.refl c, hrelease⟩
    unfold cacheFinishedReq
    rw [if_pos hdisable, hread, ← hrl, take_length]
  have henabled : c.disable = false := by simpa using hdisable
  have hkl : (radixKey c req).length ≤ row.length :=
    (length_pageKeys_le c req.fillIds).trans (hrl ▸ hslots.2)
  have hdvd : c.pageSize ∣ (radixKey c req).length := (readyKey c req).aligned
  have htake : req.reqToToken.take req.kvCommittedLen = row := by
    rw [hread, ← hrl, take_length]
  -- With an insertion the tree keeps what is new to it; without, all behind the prefix goes.
  by_cases hins : c.disableFinishedInsert = false ∧ isInsert = true
  · rcases insert_row hacc hpages henabled hok hpaged hkl
      with ⟨n, c1, hinsert, hcn, hnk, hcarry1, hpages1, hacc1, hheads1, _⟩
    refine ⟨_, _, cacheFinishedReq_eq n c1 henabled isInsert hkv ?_,
      hcarry1.kept.trans (moves_dec hpages1 hacc1).kept, ?_⟩
    · rwa [if_pos hins, htake]
    · rw [htake]
      exact h.release hrow hcn hnk hdvd hacc1 hcarry1 hpages1 hheads1
  · refine ⟨_, _, cacheFinishedReq_eq (radixKey c req).length c henabled isInsert
      hkv ?_, (moves_dec hpages hacc).kept, ?_⟩
    · rw [if_neg hins]
      exact ⟨rfl, rfl⟩
    · rw [htake]
      exact h.release hrow hok.le_keys le_rfl hdvd hacc hrefl hpages
        (fun page => by rw [hempty]; simp)

end Caching

/-- The tokens that a request is matched for come before its `fill_ids` end, so
    the keys of what is found are keys of `fill_ids`, also when a prefill is
    cut after more tokens. -/
theorem le_pageKeys (hps : 0 < c.pageSize) {ids : List Int} {k n m : Nat}
    (hn : n ≤ (pageKeys c (ids.take k)).length) (hdvd : c.pageSize ∣ n)
    (hm : n < m ∨ ids.length ≤ m) : n ≤ (pageKeys c (ids.take m)).length := by
  have hraw : n ≤ (rawKeys c (ids.take k)).length := by
    rw [length_pageKeys] at hn
    exact hn.trans (Nat.div_mul_le_self _ _)
  have hraw' : n ≤ (rawKeys c (ids.take m)).length := by
    rw [length_rawKeys, length_take] at hraw ⊢
    split_ifs at hraw ⊢ <;> omega
  rw [length_pageKeys]
  rcases hdvd with ⟨q, rfl⟩
  rw [Nat.mul_comm] at hraw' ⊢
  exact Nat.mul_le_mul_right _ ((Nat.le_div_iff_mul_le hps).mpr hraw')

theorem take_pageKeys {ids ids' all : List Int} (h : ids <+: all) (h' : ids' <+: all) {n : Nat}
    (hn : n ≤ (pageKeys c ids).length) (hn' : n ≤ (pageKeys c ids').length) :
    (pageKeys c ids).take n = (pageKeys c ids').take n := by
  rcases pageKeys_mono c h with ⟨more, hmore⟩
  rcases pageKeys_mono c h' with ⟨more', hmore'⟩
  rw [← @List.take_append_of_le_length _ _ more _ hn, hmore, ← hmore', take_append_of_le_length hn']

/-- A new request, with the lock on what was found for it. -/
theorem initNextRoundInput_conserved (h : Conserved numPages ⟨c, a, reqs⟩)
    {origin output : List Int} {extraKey : Option String} {logprobStartLen : Option Int}
    {truncLen : Option Nat} (htrunc : truncLen ≠ some 0)
    (heq : initNextRoundInput c origin output extraKey logprobStartLen truncLen =
      .ok (c', req)) : Kept c c' ∧ Conserved numPages ⟨c', a, req :: reqs⟩ := by
  have hacc : Accounted c (reqs.map (·.lastNode)) := h.accounted
  have hps := hacc.pageSize_pos
  have hpages : TreePages c.pageSize c.children := h.pages
  unfold initNextRoundInput at heq
  simp only at heq
  -- How far the match may go does not matter.
  generalize (max _ (0 : Int)).toNat = maxPrefixLen at heq
  generalize hids : origin ++ output = ids at heq
  rcases matchPrefix_cases c hps hacc.counted.tree ⟨(ids.take maxPrefixLen).map .int, extraKey,
    false⟩ with ⟨result, c1, hmatch, _⟩
  rw [hmatch] at heq
  -- A prefill is cut after more than what was found.
  obtain ⟨m, hm, hreq⟩ : ∃ m, (result.deviceIndices.length < m ∨ ids.length ≤ m) ∧
      ((c1.incLockRef result.lastDeviceNode).2, (⟨origin, output, ids.take m, extraKey,
        result.deviceIndices, result.lastDeviceNode, result.deviceIndices.length, 0,
        none⟩ : Req)) = (c', req) := by
    cases truncLen with
    | none =>
      refine ⟨ids.length, .inr le_rfl, ?_⟩
      rw [take_length]
      exact Except.ok.inj heq
    | some n =>
      have hpos : n ≠ 0 := fun hz => htrunc (congrArg some hz)
      exact ⟨_, .inl (Nat.lt_add_of_pos_right (Nat.pos_of_ne_zero hpos)), Except.ok.inj heq⟩
  rcases hreq with ⟨rfl, rfl⟩
  have halong := (along_matchPrefix hacc hpages.aligned hmatch).1
  rw [(lookupKey_ids c _ extraKey).1, (lookupKey_ids c _ extraKey).2] at halong
  have hmatched := moves_match hpages hacc hmatch
  rcases along_paged hmatched.accounted.pageSize_pos halong hmatched.accounted.counted.tree
    hmatched.pages with ⟨_, hdvd, hlen⟩
  rw [hmatched.kept.pageSize] at hdvd
  rw [length_take] at hlen
  have hfound : result.deviceIndices.length ≤ (pageKeys c (ids.take maxPrefixLen)).length := by
    omega
  have hkeys := le_pageKeys hps hfound hdvd hm
  have htake (n : Nat) : ids.take n <+: ids := take_prefix n ids
  rw [take_pageKeys (htake _) (htake m) hfound hkeys] at halong
  have hinc := moves_inc hmatched.pages hmatched.accounted halong.present
  have hmoves := hmatched.trans hinc
  refine ⟨hmoves.kept, hmoves.accounted, h.pageSize.trans hmoves.kept.pageSize.symm, h.released,
    hmoves.pages, forall_mem_cons.mpr ⟨?_, fun r hr => (h.reqs r hr).keep hmoves.kept hmoves.along⟩,
    fun page => ?_⟩
  · refine ⟨?_, ?_, ?_, le_rfl, ?_, fun _ => rfl, fun row hrow => ?_⟩
    · simp only [Req.tokens, hids]
      exact take_prefix _ _
    · simp only [hmoves.kept.pageKeys, take_length]
      exact hinc.along halong
    · simp only [hmoves.kept.pageKeys]
      exact hkeys
    · exact hkeys.trans (length_pageKeys_le c _)
    · cases hrow
  · have hbalance := h.balance page
    simp only [hmoves.heads]
    simp only [ownHeads_cons, hmoves.kept.pageSize]
    rw [← hbalance]
    simp [Req.uncached, Req.reqToToken, heads]

section Steps

theorem conserved_init (pageSize size : Nat) (hps : 0 < pageSize)
    (isEagle disable disableFinishedInsert needSort : Bool) : Conserved (size / pageSize)
      (Server.init pageSize size isEagle disable disableFinishedInsert needSort) where
  accounted := accounted_init pageSize hps isEagle disable disableFinishedInsert
  pageSize := rfl
  released := fun _ => rfl
  pages := ⟨trivial, trivial⟩
  reqs := forall_mem_nil _
  balance := fun page => by
    simp only [Server.init, Allocator.init, Cache.init, pagesIn, treeHeads, Forest.sum, ownHeads,
      map_nil, sum_nil, count_nil, if_true, count_range'_one]
    split_ifs <;> rfl

/-- An eviction gives pages of the tree to the allocator. -/
theorem evict_conserved (h : Conserved numPages ⟨c, a, reqs⟩) {order : List TreeNode → Nat}
    {numTokens : Nat} {removed : List TreeNode} (heq : c.evict order numTokens = (removed, c')) :
    Kept c c' ∧ Conserved numPages ⟨c', freeLeaves a removed, reqs⟩ := by
  have hacc : Accounted c (reqs.map (·.lastNode)) := h.accounted
  have hsize : a.pageSize = c.pageSize := h.pageSize
  have hone : ∀ page, (pagesIn a page : Int) + treeHeads c.pageSize page c.children ≤ 1 := by
    intro page
    have := h.le_one page
    omega
  rcases evict_effect hacc h.pages hsize hone heq with ⟨hkept, hpages, hheads⟩
  have hkeeps := freeLeaves_keeps a removed
  refine ⟨hkept, ?_, ?_, hkeeps.released h.released, hpages, fun r hr => ?_, fun page => ?_⟩
  · have hevict := hacc.evict order numTokens
    rwa [heq] at hevict
  · exact (hkeeps.pageSize.trans h.pageSize).trans hkept.pageSize.symm
  · -- The node of a request is locked and stays.
    have hheld := mem_map_of_mem (f := fun req : Req => req.lastNode) hr
    exact (h.reqs r hr).keep hkept fun ha => ha.evict hacc hheld heq
  · rw [hheads page, hkept.pageSize]
    exact h.balance page

/-- A change of the allocator that keeps its pages. -/
theorem Conserved.alloc (h : Conserved numPages ⟨c, a, reqs⟩)
    (hkeeps : Keeps a a') (hpages : ∀ page, pagesIn a' page = pagesIn a page) :
    Conserved numPages ⟨c, a', reqs⟩ :=
  { h with
    pageSize := hkeeps.pageSize.trans h.pageSize
    released := hkeeps.released h.released
    balance := fun page => by
      simp only [hpages page]
      exact h.balance page }

variable {s : Server}

/-- Every step keeps the pages, and the parameters of the cache. -/
theorem conserved_step {s' : Server} {op : Op} (h : Conserved numPages s)
    (hstep : Step s op s') : Kept s.cache s'.cache ∧ Conserved numPages s' := by
  obtain ⟨c, a, reqs⟩ := s
  have hps : 0 < c.pageSize := h.accounted.pageSize_pos
  have hsize : a.pageSize = c.pageSize := h.pageSize
  cases op with
  | start origin output extraKey logprobStartLen truncLen =>
    rcases hstep with ⟨_, htrunc, c', req, heq, rfl⟩
    exact initNextRoundInput_conserved h htrunc heq
  | nextChunk req extendInputLen =>
    rcases hstep with ⟨_, hslots, hall, rest, hperm, rfl⟩
    have hp := h.perm hperm
    have hok : ReqOk c req := hp.reqs req mem_cons_self
    -- A chunk starts where the last one ended, so the ids that are filled only grow.
    have htake := take_prefix (req.prefixIndices.length + extendInputLen) req.tokens
    have hfill : req.fillIds <+: req.tokens.take (req.prefixIndices.length + extendInputLen) :=
      prefix_of_prefix_length_le hok.fill htake (by
        have := hok.fill.length_le
        have := hslots.2
        rw [length_take]
        omega)
    exact ⟨Kept.refl c, hp.change (hok.refill hfill htake) rfl rfl⟩
  | extend batch =>
    rcases hstep with ⟨_, hext, rest, outs, a', hperm, halloc, rfl⟩
    have hp := h.perm hperm
    rcases allocForExtend_granted (hsize.symm ▸ hps) (fun r hr => (hext r hr).2) halloc
      with ⟨pages, hgranted, htook⟩
    rw [← map_id outs, extendBatch] at hgranted
    -- The kernel serves the batch request by request.
    rcases granted_batch extended (fun req => ReqOk c req ∧ req.Extensible)
      (fun req out new hreq hgrant => hreq.1.extended hps h.accounted.counted.tree h.pages
        hreq.2 hgrant)
      (hsize ▸ hgranted) (fun r hr => ⟨hp.reqs r (mem_append_left _ hr), hext r hr⟩)
      with ⟨hoks, hnodes, hown⟩
    exact ⟨Kept.refl c, hp.grant htook hoks hnodes hown⟩
  | cacheUnfinished req =>
    rcases hstep with ⟨_, hslots, rest, c', a', req', hperm, heq, rfl⟩
    rcases cacheUnfinishedReq_conserved (h.perm hperm) hslots with ⟨_, _, _, heq', hcons⟩
    rw [heq] at heq'
    cases heq'
    exact hcons
  | decode batch =>
    rcases hstep with ⟨_, hslots, rest, outs, a', hperm, halloc, rfl⟩
    have hp := h.perm hperm
    rcases allocForDecode_granted (hsize.symm ▸ hps) halloc with ⟨pages, hgranted, htook⟩
    rcases granted_batch decoded (fun req => ReqOk c req ∧ req.HasSlots)
      (fun req out new hreq hgrant => hreq.1.decoded hps hreq.2 hgrant)
      (hsize ▸ hgranted) (fun r hr => ⟨hp.reqs r (mem_append_left _ hr), hslots r hr⟩)
      with ⟨hoks, hnodes, hown⟩
    exact ⟨Kept.refl c, hp.grant htook hoks hnodes hown⟩
  | output req token =>
    rcases hstep with ⟨rest, hperm, rfl⟩
    have hp := h.perm hperm
    have hok : ReqOk c req := hp.reqs req mem_cons_self
    have htokens : req.fillIds <+: req.originInputIds ++ (req.outputIds ++ [token]) := by
      rw [← append_assoc]
      exact hok.fill.trans (prefix_append _ _)
    exact ⟨Kept.refl c, hp.change (hok.refill (prefix_refl _) htokens) rfl rfl⟩
  | mix req =>
    rcases hstep with ⟨_, _, _, rest, hperm, rfl⟩
    have hp := h.perm hperm
    have hok : ReqOk c req := hp.reqs req mem_cons_self
    exact ⟨Kept.refl c, hp.change (hok.refill hok.fill (prefix_refl _)) rfl rfl⟩
  | finish req isInsert =>
    rcases hstep with ⟨hfin, rest, c', a', hperm, heq, rfl⟩
    rcases cacheFinishedReq_conserved (h.perm hperm) hfin isInsert with ⟨_, _, heq', hcons⟩
    rw [heq] at heq'
    cases heq'
    exact hcons
  | evict order numTokens =>
    rcases hstep with ⟨_, removed, c', heq, rfl⟩
    exact evict_conserved h heq
  | freeGroupBegin =>
    rcases hstep with ⟨hgroup, rfl⟩
    exact ⟨Kept.refl c, h.alloc ⟨rfl, rfl, id⟩ (pagesIn_freeGroupBegin a hgroup)⟩
  | freeGroupEnd =>
    rcases hstep with ⟨hgroup, rfl⟩
    -- The end of a group frees its pages, none of them twice.
    refine ⟨Kept.refl c, h.alloc (freeGroupEnd_keeps a) fun page =>
      pagesIn_freeGroupEnd a hgroup ?_⟩
    have hone := h.le_one page
    have := treeHeads_nonneg c.pageSize page c.children
    omega

/-- The invariant of a whole run. -/
theorem conserved_run {pageSize size : Nat} (hps : 0 < pageSize)
    {isEagle disable disableFinishedInsert needSort : Bool} {tr : List (Server × Op × Server)}
    (hr : Run Step
      (Server.init pageSize size isEagle disable disableFinishedInsert needSort) tr s) :
    Kept (Cache.init pageSize isEagle disable disableFinishedInsert) s.cache ∧
      Conserved (size / pageSize) s := by
  refine hr.inv (P := fun s => Kept (Cache.init pageSize isEagle disable disableFinishedInsert)
    s.cache ∧ Conserved (size / pageSize) s) ⟨Kept.refl _,
      conserved_init pageSize size hps isEagle disable disableFinishedInsert needSort⟩ ?_
  intro t op u ht hstep
  rcases conserved_step ht.2 hstep with ⟨hkept, hcons⟩
  exact ⟨ht.1.trans hkept, hcons⟩

/-- A request of a state can be put first. -/
theorem Conserved.front (h : Conserved numPages s) (hreq : req ∈ s.reqs) :
    ∃ rest, Conserved numPages ⟨s.cache, s.alloc, req :: rest⟩ := by
  rcases append_of_mem hreq with ⟨before, after, hsplit⟩
  refine ⟨before ++ after, Conserved.perm h (show s.reqs.Perm _ from ?_)⟩
  rw [hsplit]
  exact perm_middle

end Steps

section Owners

variable {pageSize : Nat}

/-- Some of the slots are in the page. -/
def touches (pageSize page : Nat) (l : List Nat) : Bool := l.any (· / pageSize == page)

/-- The number of nodes whose values touch the page. -/
def nodesWith (pageSize page : Nat) (f : Children) : Int :=
  count (fun n => touches pageSize page n.value) f

/-- The number of requests whose uncached slots touch the page. -/
def reqsWith (pageSize page : Nat) (reqs : List Req) : Nat :=
  reqs.countP (fun req => touches pageSize page req.uncached)

/-- The number of owners of a page. -/
def owners (s : Server) (page : Nat) : Int :=
  pagesIn s.alloc page + nodesWith s.cache.pageSize page s.cache.children +
    reqsWith s.cache.pageSize page s.reqs

theorem touches_eq (page : Nat) (hps : 0 < pageSize) {l : List Nat} (h : Paged pageSize l)
    (hone : heads pageSize page l ≤ 1) :
    (if touches pageSize page l then 1 else 0) = heads pageSize page l := by
  have hmem := h.mem_pages_iff hps page
  have htouch : touches pageSize page l = true ↔ 0 < heads pageSize page l := by
    rw [← hmem, touches, any_eq_true, mem_map]
    simp
  by_cases hpos : 0 < heads pageSize page l
  · rw [if_pos (htouch.mpr hpos)]
    omega
  · rw [if_neg fun ht => hpos (htouch.mp ht)]
    omega

/-- A page that is counted once is in one node. -/
theorem nodesWith_eq (hps : 0 < pageSize) {f : Children}
    (hf : f.All fun _ n _ => Paged pageSize n.value) (hone : treeHeads pageSize page f ≤ 1) :
    nodesWith pageSize page f = treeHeads pageSize page f := by
  induction f with
  | nil => rfl
  | cons key n children rest ihc ihr =>
    have hc := treeHeads_nonneg pageSize page children
    have hr := treeHeads_nonneg pageSize page rest
    have hsum : treeHeads pageSize page (.cons key n children rest) =
        heads pageSize page n.value + treeHeads pageSize page children +
          treeHeads pageSize page rest := rfl
    have hn := touches_eq page hps hf.1 (by omega)
    have ihc := ihc hf.2.1 (by omega)
    have ihr := ihr hf.2.2 (by omega)
    unfold nodesWith at ihc ihr ⊢
    rw [count_cons, ihc, ihr, hsum, ← hn]
    split_ifs <;> rfl

/-- The same for the requests. -/
theorem reqsWith_eq (hps : 0 < pageSize)
    (h : ∀ req ∈ reqs, Paged pageSize req.uncached) (hone : ownHeads pageSize page reqs ≤ 1) :
    reqsWith pageSize page reqs = ownHeads pageSize page reqs := by
  induction reqs with
  | nil => rfl
  | cons req reqs ih =>
    rw [ownHeads_cons] at hone ⊢
    have hreq := touches_eq page hps (h req mem_cons_self) (by omega)
    have ih := ih (forall_mem_cons.mp h).2 (by omega)
    unfold reqsWith at ih ⊢
    rw [countP_cons, ih, hreq, Nat.add_comm]

variable {s : Server}

theorem Conserved.paged_uncached (h : Conserved numPages s) :
    ∀ req ∈ s.reqs, Paged s.cache.pageSize req.uncached := by
  intro req hreq
  have hps := h.accounted.pageSize_pos
  have hok := h.reqs req hreq
  unfold Req.uncached Req.reqToToken
  cases hrow : req.row with
  | none =>
    rw [Option.getD_none, drop_nil]
    exact .nil hps
  | some row =>
    exact (hok.row row hrow).2.2.drop hps (hok.dvd_protected hps h.accounted.counted.tree h.pages)

/-- The counts of the invariant are the owners. -/
theorem Conserved.owners_eq (h : Conserved numPages s) (page : Nat) :
    owners s page = if 0 < page ∧ page ≤ numPages then 1 else 0 := by
  have hps := h.accounted.pageSize_pos
  have hone := h.le_one page
  have hnonneg := treeHeads_nonneg s.cache.pageSize page s.cache.children
  rw [owners, nodesWith_eq hps h.pages.paged (by omega),
    reqsWith_eq hps h.paged_uncached (by omega)]
  exact h.balance page

/-- The nodes on the path to a node that is held are locked. -/
theorem accounted_locked {held : List Nat} {i : Nat} (h : Accounted c held) (hi : i ∈ held) :
    ∀ n ∈ pathTo c.children i, 0 < n.lockRef := by
  intro n hn
  have hpos := count_pos_iff.mpr hi
  rcases has_of_mem_pathTo hn with ⟨sub, hsub, hor⟩
  have hle := h.counted.le_lockRef hsub i hor
  omega

/-- The nodes on the path of a request are locked. -/
theorem Conserved.locked (h : Conserved numPages s) (hreq : req ∈ s.reqs) :
    ∀ n ∈ pathTo s.cache.children req.lastNode, 0 < n.lockRef :=
  accounted_locked h.accounted (mem_map_of_mem (f := fun req : Req => req.lastNode) hreq)

/-- In every state reached, each page of the pool has exactly one owner and no
    other page has any. What is cached of a request is what its locked path
    has, and the requests can be cached without an error. -/
theorem kv_pages_conserved (pageSize size : Nat) (hps : 0 < pageSize)
    (isEagle disable disableFinishedInsert needSort : Bool) {tr : List (Server × Op × Server)}
    {s : Server} (hr : Run Step
      (Server.init pageSize size isEagle disable disableFinishedInsert needSort) tr s) :
    (∀ page, owners s page = if 0 < page ∧ page ≤ size / pageSize then 1 else 0) ∧
    (∀ req ∈ s.reqs, ∀ row, req.row = some row → row.take req.cacheProtectedLen =
        (pathTo s.cache.children req.lastNode).flatMap (·.value) ∧
      req.cacheProtectedLen ≤ row.length ∧
      ∀ n ∈ pathTo s.cache.children req.lastNode, 0 < n.lockRef) ∧
    ∀ req ∈ s.reqs, (req.HasSlots → ∃ r, cacheUnfinishedReq s.cache s.alloc req = .ok r) ∧
      (req.Finishable →
        ∀ isInsert, ∃ r, cacheFinishedReq s.cache s.alloc req isInsert = .ok r) := by
  have h := (conserved_run hps hr).2
  refine ⟨h.owners_eq, fun req hreq row hrow => ?_, fun req hreq => ?_⟩
  · have hok := h.reqs req hreq
    refine ⟨?_, hok.le_prefix.trans (hok.row row hrow).2.1.length_le, h.locked hreq⟩
    rw [hok.take_row hrow, hok.along.indices]
  · rcases h.front hreq with ⟨rest, hp⟩
    refine ⟨fun hslots => ?_, fun hfin isInsert => ?_⟩
    · rcases cacheUnfinishedReq_conserved hp hslots with ⟨_, _, _, heq, _⟩
      exact ⟨_, heq⟩
    · rcases cacheFinishedReq_conserved hp hfin isInsert with ⟨_, _, heq, _⟩
      exact ⟨_, heq⟩

/-- A request of three tokens before it has slots, with page size two. -/
def waitingReq : Req := ⟨[1, 2, 3], [], [1, 2, 3], none, [], 0, 0, 0, none⟩

/-- The pool after its slots have been allocated. -/
def threeSlots : Allocator := ⟨8, 2, false, [3, 4], [], true, []⟩

/-- The tree with its first page. -/
def firstPage : Cache :=
  ⟨2, false, false, false, .cons (.plain (.tuple [.int 1, .int 2]))
    ⟨1, ⟨[.int 1, .int 2], none, false⟩, [2, 3], 1⟩ .nil .nil, 0, 2, 2⟩

/-- The same before the request has locked it. -/
def insertedPage : Cache :=
  { firstPage with
    children := firstPage.children.alterPath (fun _ => true) (TreeNode.moveLock (-1))
    evictableSize := 2
    protectedSize := 0 }

/-- The request after its first page has been cached. -/
def cachedReq : Req := ⟨[1, 2, 3], [], [1, 2, 3], none, [2, 3, 4], 1, 2, 3, some [2, 3, 4]⟩

/-- A chunk is prefilled and cached: the first page is in the tree and the
    second is the request's own. -/
theorem kv_pages_conserved_chunk : ∃ tr s,
    Run Step (Server.init 2 8 false false false false) tr s ∧ s.reqs = [cachedReq] ∧
    owners s 1 = 1 ∧ owners s 2 = 1 := by
  have hstart : Step (Server.init 2 8 false false false false) (.start [1, 2, 3] [] none none none)
      ⟨Cache.init 2 false false false, Allocator.init 8 2 false, [waitingReq]⟩ :=
    ⟨rfl, by decide, _, _, rfl, rfl⟩
  have hextend : Step ⟨Cache.init 2 false false false, Allocator.init 8 2 false, [waitingReq]⟩
      (.extend [waitingReq])
      ⟨Cache.init 2 false false false, threeSlots, [extended waitingReq [2, 3, 4]]⟩ := by
    refine ⟨rfl, ?_, [], [[2, 3, 4]], threeSlots, List.Perm.refl _, rfl, rfl⟩
    intro req hreq
    rw [mem_singleton.mp hreq]
    exact ⟨.inl rfl, Nat.zero_le _⟩
  have hcached : cacheUnfinishedReq (Cache.init 2 false false false) threeSlots
      (extended waitingReq [2, 3, 4]) = .ok (firstPage, threeSlots, cachedReq) := by
    have hinsert : (Cache.init 2 false false false).insert
        ⟨[.int 1, .int 2], none, false⟩ [2, 3] = .ok (0, insertedPage) := rfl
    have hmatch : insertedPage.matchPrefix ⟨[.int 1, .int 2], none, false⟩ =
        .ok (⟨[2, 3], 1, 1⟩, insertedPage) := by
      rfl
    have hkey : radixKey (Cache.init 2 false false false) (extended waitingReq [2, 3, 4]) =
        ⟨[.int 1, .int 2], none, false⟩ := rfl
    exact cacheUnfinishedReq_eq _ _ rfl (hkey ▸ hinsert) (hkey ▸ hmatch) rfl
  have hcache : Step ⟨Cache.init 2 false false false, threeSlots, [extended waitingReq [2, 3, 4]]⟩
      (.cacheUnfinished (extended waitingReq [2, 3, 4])) ⟨firstPage, threeSlots, [cachedReq]⟩ :=
    ⟨rfl, ⟨rfl, by decide⟩, [], _, _, _, List.Perm.refl _, hcached, rfl⟩
  have hrun := ((Run.nil.snoc _ hstart).snoc _ hextend).snoc _ hcache
  have hpages := (kv_pages_conserved 2 8 (by decide) false false false false hrun).1
  exact ⟨_, _, hrun, rfl, hpages 1, hpages 2⟩

end Owners

end SglangInc.Serving
