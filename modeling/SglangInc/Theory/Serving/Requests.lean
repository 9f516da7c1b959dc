import SglangInc.Theory.Serving.Effects

/-!
# What Holds of a Request

The keys of a request, the slots it holds, and what the tree holds for it.

`ReqOk` is what is kept of a request while the tree changes around it. The path
to its `last_node` spells the first `cache_protected_len` tokens of its keys and
the first `cache_protected_len` of its indices, its row is slots of whole pages
up to the last one, and `prefix_indices` is the beginning of the row. `fill_ids`
only grows inside the tokens of the request, and the keys grow with it, by one
token less for bigrams.

An allocation goes on where the slots end (`Grant.extend`), so the pages that
are new to the allocator are exactly those that are new to the request.
-/

namespace SglangInc.Serving

open List Radix Kv Slots Forest PrefixMap Option

variable {pageSize page : Nat} {c c' : Cache} {held : List Nat}

section Keys

/-- The keys before they are cut to whole pages. -/
def rawKeys (c : Cache) (ids : List Int) : List TokenId :=
  if c.isEagle then convertToBigramKey (ids.map .int) else ids.map .int

theorem convertToBigramKey_eq (ids : List Int) : convertToBigramKey (ids.map .int) =
    List.zipWith .tuple (ids.map .int) (ids.map .int).tail := by
  match ids with
  | [] => rfl
  | [a] => rfl
  | a :: b :: rest =>
    simp only [map_cons, convertToBigramKey, length_cons]
    rw [if_neg (by omega)]

theorem zipWith_tail_prefix {a : TokenId} {l l' : List TokenId} (h : l <+: l') :
    List.zipWith TokenId.tuple (a :: l) l <+: List.zipWith TokenId.tuple (a :: l') l' := by
  induction l generalizing a l' with
  | nil => exact nil_prefix
  | cons b rest ih =>
    cases l' with
    | nil => exact nomatch h
    | cons b' rest' =>
      rw [cons_prefix_cons] at h
      rcases h with ⟨rfl, h⟩
      rw [zipWith_cons_cons, zipWith_cons_cons, cons_prefix_cons]
      exact ⟨rfl, ih h⟩

variable (c : Cache)

theorem rawKeys_prefix {ids ids' : List Int} (h : ids <+: ids') :
    rawKeys c ids <+: rawKeys c ids' := by
  unfold rawKeys
  split_ifs
  · rw [convertToBigramKey_eq, convertToBigramKey_eq]
    cases ids with
    | nil => exact nil_prefix
    | cons a rest =>
      cases ids' with
      | nil => exact nomatch h
      | cons a' rest' =>
        rw [cons_prefix_cons] at h
        rcases h with ⟨rfl, h⟩
        exact zipWith_tail_prefix (h.map TokenId.int)
  · exact h.map TokenId.int

theorem length_rawKeys (ids : List Int) :
    (rawKeys c ids).length = ids.length - if c.isEagle then 1 else 0 := by
  unfold rawKeys
  split_ifs
  · rw [convertToBigramKey_eq, length_zipWith, length_tail, length_map]
    omega
  · rw [length_map, Nat.sub_zero]

theorem pageKeys_eq (ids : List Int) : pageKeys c ids =
    (rawKeys c ids).take ((rawKeys c ids).length / c.pageSize * c.pageSize) := by
  unfold pageKeys Cache.pageAlignKeys
  rw [← rawKeys]
  split_ifs with hone
  · rw [hone, Nat.div_one, Nat.mul_one, take_length]
  · rfl

theorem length_pageKeys (ids : List Int) :
    (pageKeys c ids).length = (rawKeys c ids).length / c.pageSize * c.pageSize := by
  rw [pageKeys_eq]
  exact length_take_of_le (Nat.div_mul_le_self _ _)

theorem dvd_length_pageKeys (ids : List Int) :
    c.pageSize ∣ (pageKeys c ids).length := by
  rw [length_pageKeys]
  exact Nat.dvd_mul_left _ _

theorem length_pageKeys_le (ids : List Int) : (pageKeys c ids).length ≤ ids.length := by
  have h := Nat.div_mul_le_self (rawKeys c ids).length c.pageSize
  rw [← length_pageKeys, length_rawKeys] at h
  omega

/-- More tokens, more keys. -/
theorem pageKeys_mono {ids ids' : List Int} (h : ids <+: ids') :
    pageKeys c ids <+: pageKeys c ids' := by
  have hraw := rawKeys_prefix c h
  rw [pageKeys_eq, pageKeys_eq]
  have htake (l : List TokenId) (n : Nat) : l.take n <+: l := take_prefix n l
  refine prefix_of_prefix_length_le ((htake _ _).trans hraw) (htake _ _) ?_
  rw [length_take_of_le (Nat.div_mul_le_self _ _), length_take_of_le (Nat.div_mul_le_self _ _)]
  exact Nat.mul_le_mul_right _ (Nat.div_le_div_right hraw.length_le)

theorem Kept.pageKeys (h : Kept c c') (ids : List Int) : pageKeys c' ids = pageKeys c ids := by
  unfold Serving.pageKeys Cache.pageAlignKeys
  rw [h.isEagle, h.pageSize]

theorem readyKey (req : Req) : ReadyKey c (radixKey c req) :=
  ⟨rfl, dvd_length_pageKeys c req.fillIds⟩

/-- The key of a match that is made before the first prefill. -/
theorem lookupKey_ids (ids : List Int) (e : Option String) :
    (c.lookupKey ⟨ids.map .int, e, false⟩).extraKey = e ∧
    (c.lookupKey ⟨ids.map .int, e, false⟩).tokenIds = pageKeys c ids := by
  have hconvert : c.maybeBigramConvert ⟨ids.map .int, e, false⟩ = ⟨rawKeys c ids, e, false⟩ := by
    unfold Cache.maybeBigramConvert rawKeys
    cases c.isEagle <;> rfl
  have heq := c.lookupKey_eq ⟨ids.map .int, e, false⟩
  rw [hconvert] at heq
  rwa [pageKeys_eq]

end Keys

section Indices

variable (hps : 0 < pageSize) {e : Option String} {f : Children}
include hps

/-- Slots of whole pages, and more slots behind them. -/
theorem paged_append {l l' : List Nat} (h : Paged pageSize l)
    (hlen : pageSize ∣ l.length) (h' : Paged pageSize l') : Paged pageSize (l ++ l') := by
  rcases h with ⟨pages, n, hn, rfl⟩
  rcases h' with ⟨pages', n', hn', rfl⟩
  rw [length_slots] at hlen
  rcases hlen with ⟨k, rfl⟩
  rw [Nat.mul_comm, pagesFor_mul hps] at hn
  refine ⟨pages ++ pages', pages.length * pageSize + n', ?_, ?_⟩
  · rw [pagesFor_add hps, length_append, hn']
  · rw [slots_append hps, hn, Nat.mul_comm]

/-- The indices along a path are whole pages, one for each token. -/
theorem along_paged {node : Nat} {tokens : List TokenId} {indices : List Nat}
    (h : Along f node e tokens indices) (hf : TreeOk pageSize f) (hpages : TreePages pageSize f) :
    Paged pageSize indices ∧ pageSize ∣ indices.length ∧ indices.length = tokens.length := by
  have hnodes : ∀ n ∈ pathTo f node, Paged pageSize n.value ∧ pageSize ∣ n.value.length ∧
      n.value.length = n.key.tokenIds.length := by
    intro n hn
    rcases has_of_mem_pathTo hn with ⟨s, hs, _⟩
    rcases has_of_all hf.nodes hs with ⟨_, hok⟩
    rcases has_of_all hpages.aligned hs with ⟨_, hal⟩
    rcases has_of_all hpages.paged hs with ⟨_, hpg⟩
    exact ⟨hpg, hok.value_length ▸ hal, hok.value_length⟩
  rw [← h.tokens, ← h.indices]
  clear h
  generalize pathTo f node = path at hnodes
  induction path with
  | nil => exact ⟨.nil hps, Nat.dvd_zero _, rfl⟩
  | cons n path ih =>
    rcases ih (forall_mem_cons.mp hnodes).2 with ⟨hpg, hdvd, hlen⟩
    rcases hnodes n mem_cons_self with ⟨hpg', hdvd', hlen'⟩
    rw [flatMap_cons, flatMap_cons, length_append, length_append]
    exact ⟨paged_append hps hpg' hdvd' hpg, Nat.dvd_add hdvd' hdvd, by omega⟩

/-- The slots of an allocation go on where the slots end, and its pages are
    the new ones. -/
theorem Grant.extend {base out new : List Nat} {seqLen : Nat}
    (h : Grant pageSize ⟨base.length, seqLen, lastLoc base⟩ out new)
    (hbase : Paged pageSize base) (hle : base.length ≤ seqLen) :
    Paged pageSize (base ++ out) ∧ (base ++ out).length = seqLen ∧
    ∀ page, heads pageSize page out = new.count page := by
  rcases hbase with ⟨pages, n, hn, rfl⟩
  rcases h with ⟨hnew, hslots⟩
  rw [length_slots] at hnew hslots hle
  simp only at hnew hslots
  have hall : (pages ++ new).length = pagesFor pageSize seqLen := by
    have := pagesFor_mono pageSize hle
    rw [length_append, hnew, numNewPages, hn]
    omega
  rw [hslots pages hn rfl]
  refine ⟨⟨_, _, hall, rfl⟩, length_slots, fun page => ?_⟩
  have hcount := congrArg (heads pageSize page) (hslots pages hn rfl)
  rw [heads_append, heads_slots hps hn, heads_slots hps hall, count_append] at hcount
  omega

/-- Two paths that spell the same tokens have the same indices. -/
theorem along_agree (hf : TreeOk pageSize f) (hpages : TreePages pageSize f) {node node' : Nat}
    {tokens tokens' : List TokenId} {indices indices' : List Nat}
    (h : Along f node e tokens indices) (h' : Along f node' e tokens' indices')
    (hpre : tokens <+: tokens') : indices = indices'.take tokens.length := by
  rcases along_paged hps h hf hpages with ⟨_, hdvd, hlen⟩
  rw [hlen] at hdvd
  obtain ⟨k, hk⟩ := hdvd
  rw [Nat.mul_comm] at hk
  -- The tree has one value for each prefix of whole pages.
  have hpage : ∀ i ∈ List.range k, page pageSize indices ((i + 1) * pageSize) =
      page pageSize indices' ((i + 1) * pageSize) := by
    intro i hi
    have hle : (i + 1) * pageSize ≤ tokens.length := by
      rw [hk]
      exact Nat.mul_le_mul_right _ (mem_range.mp hi)
    have hwhole := whole_take hps (Nat.succ_pos i) hle
    have htake := take_prefix ((i + 1) * pageSize) tokens
    have hfind := find_along h hf hpages.aligned hwhole htake
    rw [find_along h' hf hpages.aligned hwhole (htake.trans hpre),
      some.injEq, length_take_of_le hle] at hfind
    exact hfind.symm
  calc indices = indices.take (k * pageSize) := by
        rw [← hk, ← hlen, take_length]
    _ = indices'.take tokens.length := by
        rw [← flatMap_page, flatMap_congr hpage, flatMap_page, hk]

end Indices

section Requests

/-- What holds of a request. -/
structure ReqOk (c : Cache) (req : Req) : Prop where
  fill : req.fillIds <+: req.tokens
  along : Along c.children req.lastNode req.extraKey
    ((pageKeys c req.fillIds).take req.cacheProtectedLen)
    (req.prefixIndices.take req.cacheProtectedLen)
  le_keys : req.cacheProtectedLen ≤ (pageKeys c req.fillIds).length
  le_prefix : req.cacheProtectedLen ≤ req.prefixIndices.length
  le_fill : req.prefixIndices.length ≤ req.fillIds.length
  waiting : req.row = none → req.prefixIndices.length = req.cacheProtectedLen
  row : ∀ row, req.row = some row →
    row.length = req.kvCommittedLen ∧ req.prefixIndices <+: row ∧ Paged c.pageSize row

/-- The part of the row behind what is cached. -/
def Req.uncached (req : Req) : List Nat := req.reqToToken.drop req.cacheProtectedLen

/-- How often a page is in the uncached parts of the rows. -/
def ownHeads (pageSize page : Nat) (reqs : List Req) : Nat :=
  (reqs.map fun req => heads pageSize page req.uncached).sum

variable {req : Req}

/-- A change of the cache that keeps the path to the node of the request. -/
theorem ReqOk.keep (h : ReqOk c req) (hkept : Kept c c')
    (halong : ∀ {e tokens indices}, Along c.children req.lastNode e tokens indices →
      Along c'.children req.lastNode e tokens indices) : ReqOk c' req := by
  refine { h with along := ?_, le_keys := ?_, row := ?_ }
  · rw [hkept.pageKeys]
    exact halong h.along
  · rw [hkept.pageKeys]
    exact h.le_keys
  · rw [hkept.pageSize]
    exact h.row

/-- More tokens, and more of them in `fill_ids`. -/
theorem ReqOk.refill (h : ReqOk c req) {ids outputIds : List Int} (hfill : req.fillIds <+: ids)
    (htokens : ids <+: req.originInputIds ++ outputIds) :
    ReqOk c { req with fillIds := ids, outputIds := outputIds } := by
  have hkeys := pageKeys_mono c hfill
  refine { h with
    fill := htokens
    along := ?_
    le_keys := h.le_keys.trans hkeys.length_le
    le_fill := h.le_fill.trans hfill.length_le }
  have hsame : (pageKeys c ids).take req.cacheProtectedLen =
      (pageKeys c req.fillIds).take req.cacheProtectedLen := by
    rcases hkeys with ⟨more, hmore⟩
    rw [← hmore, take_append_of_le_length h.le_keys]
  simp only [hsame]
  exact h.along

section Tree

variable (hps : 0 < c.pageSize) (hf : TreeOk c.pageSize c.children)
  (hpages : TreePages c.pageSize c.children)

include hps hf hpages

/-- What is cached of a request is whole pages. -/
theorem ReqOk.dvd_protected (h : ReqOk c req) : c.pageSize ∣ req.cacheProtectedLen := by
  have hdvd := (along_paged hps h.along hf hpages).2.1
  rwa [length_take_of_le h.le_prefix] at hdvd

theorem ReqOk.paged_prefix (h : ReqOk c req) : Paged c.pageSize req.prefixIndices := by
  cases hrow : req.row with
  | none =>
    have hpaged := (along_paged hps h.along hf hpages).1
    rwa [← h.waiting hrow, take_length] at hpaged
  | some row =>
    rcases h.row row hrow with ⟨_, hpre, hpaged⟩
    rw [prefix_iff_eq_take.mp hpre]
    exact hpaged.take hps _

/-- The slots that a prefill adds to a request. -/
theorem ReqOk.extended (h : ReqOk c req) (hext : req.Extensible) {out new : List Nat}
    (hgrant : Grant c.pageSize
      ⟨req.prefixIndices.length, req.fillIds.length, lastLoc req.prefixIndices⟩ out new) :
    ReqOk c (extended req out) ∧ (extended req out).lastNode = req.lastNode ∧
    ∀ page, heads c.pageSize page (extended req out).uncached =
      heads c.pageSize page req.uncached + new.count page := by
  rcases Grant.extend hps hgrant (h.paged_prefix hps hf hpages) hext.2 with ⟨hpaged, hlen, hheads⟩
  refine ⟨{ h with waiting := fun hnone => ?_, row := ?_ }, rfl, fun page => ?_⟩
  · cases hnone
  · intro row hrow
    cases hrow
    exact ⟨hlen, prefix_append _ _, hpaged⟩
  · -- All slots of the request are in `prefix_indices`.
    have hown : req.uncached = req.prefixIndices.drop req.cacheProtectedLen := by
      unfold Req.uncached Req.reqToToken
      cases hrow : req.row with
      | none =>
        rw [getD_none, drop_nil, ← h.waiting hrow, drop_length]
      | some row =>
        rcases h.row row hrow with ⟨hrl, hpre, _⟩
        have hall := hext.1.resolve_left (by
          rw [hrow]
          exact some_ne_none row)
        rw [getD_some, hpre.eq_of_length (hall.trans hrl.symm)]
    have hnew : (Serving.extended req out).uncached =
        req.prefixIndices.drop req.cacheProtectedLen ++ out :=
      drop_append_of_le_length h.le_prefix
    rw [hnew, heads_append, hheads, hown]

omit hf hpages in
/-- The slot that a decode adds to a request. -/
theorem ReqOk.decoded (h : ReqOk c req) (hslots : req.HasSlots) {out : Nat} {new : List Nat}
    (hgrant : Grant c.pageSize
      ⟨req.kvCommittedLen, req.kvCommittedLen + 1, lastLoc req.reqToToken⟩ [out] new) :
    ReqOk c (decoded req out) ∧ (decoded req out).lastNode = req.lastNode ∧
    ∀ page, heads c.pageSize page (decoded req out).uncached =
      heads c.pageSize page req.uncached + new.count page := by
  rcases isSome_iff_exists.mp hslots.1 with ⟨row, hrow⟩
  rcases h.row row hrow with ⟨hlen, hpre, hpaged⟩
  have hread : req.reqToToken = row := by rw [Req.reqToToken, hrow, getD_some]
  rw [hread, ← hlen] at hgrant
  rcases Grant.extend hps hgrant hpaged (Nat.le_succ _) with ⟨hpaged', hlen', hheads⟩
  refine ⟨{ h with waiting := fun hnone => ?_, row := ?_ }, rfl, fun page => ?_⟩
  · cases hnone
  · intro row' hrow'
    cases hrow'
    rw [hread]
    exact ⟨hlen'.trans (congrArg (· + 1) hlen), hpre.trans (prefix_append _ _), hpaged'⟩
  · have hnew : (Serving.decoded req out).uncached = req.uncached ++ [out] := by
      have hle := h.le_prefix.trans hpre.length_le
      unfold Req.uncached
      rw [hread, ← drop_append_of_le_length hle, ← hread]
      rfl
    rw [hnew, heads_append, hheads]

end Tree

/-- The requests of a batch, each with the slots it gets. -/
theorem granted_batch {β : Type} {ask : Req → Extend} (give : Req → β → Req)
    {slotsOf : β → List Nat} (P : Req → Prop)
    (hone : ∀ req out new, P req → Grant pageSize (ask req) (slotsOf out) new →
      ReqOk c (give req out) ∧ (give req out).lastNode = req.lastNode ∧
      ∀ page, heads pageSize page (give req out).uncached =
        heads pageSize page req.uncached + new.count page)
    {batch : List Req} {outs : List β} {pages : List Nat}
    (hg : Granted pageSize (batch.map ask) (outs.map slotsOf) pages) (hP : ∀ req ∈ batch, P req) :
    (∀ req ∈ List.zipWith give batch outs, ReqOk c req) ∧
    (List.zipWith give batch outs).map (·.lastNode) = batch.map (·.lastNode) ∧
    ∀ page, ownHeads pageSize page (List.zipWith give batch outs) =
      ownHeads pageSize page batch + pages.count page := by
  induction batch generalizing outs pages with
  | nil =>
    have hpages : pages = [] := by
      generalize outs.map slotsOf = slots at hg
      cases hg
      rfl
    rw [hpages]
    exact ⟨nofun, rfl, fun _ => rfl⟩
  | cons req batch ih =>
    cases outs with
    | nil => nomatch hg
    | cons out outs =>
      cases hg with
      | cons hgrant hrest =>
        rcases hone req out _ (hP req mem_cons_self) hgrant with ⟨hok, hnode, hheads⟩
        rcases ih hrest (forall_mem_cons.mp hP).2 with ⟨hoks, hnodes, hall⟩
        rw [zipWith_cons_cons]
        refine ⟨forall_mem_cons.mpr ⟨hok, hoks⟩, ?_, fun page => ?_⟩
        · rw [map_cons, map_cons, hnode, hnodes]
        · have := hall page
          simp only [ownHeads, map_cons, sum_cons, count_append] at this ⊢
          rw [hheads]
          omega

end Requests

end SglangInc.Serving
