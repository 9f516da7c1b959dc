import SglangInc.Theory.Serving.Conservation

/-!
# What a Finished Request Leaves

`cache_finished_req` of `RadixCache` takes its key from `fill_ids`, and its
values from the slots of the committed tokens. `RadixCacheCpp` and
`MambaRadixCache` take both from the committed tokens. `fill_ids` is set when a
prefill is prepared and when a batch is mixed, not by a decode, so the two keys
differ for a request that has decoded past a page since.

The keys are the same exactly when the two lengths have the same number of whole
pages. Then a match of the committed tokens finds all their whole pages.

## Theorems

* `finished_reusable_iff`: When it can, for every request that can finish.
* `finished_not_reusable`: A request that has decoded one token.
-/

namespace SglangInc.Serving

open List Radix Kv Slots Forest

open PrefixMap (Whole)

/-- The key that `cache_finished_req` of `RadixCacheCpp` and of
    `MambaRadixCache` insert: the committed tokens, cut to whole pages. -/
def committedKey (c : Cache) (req : Req) : RadixKey :=
  ⟨c.pageAlignKeys ((req.tokens.take req.kvCommittedLen).map .int), req.extraKey, false⟩

/-- The key of the other caches was inserted, and a match of the committed
    tokens finds all their whole pages. -/
def Reusable (c c' : Cache) (req : Req) : Prop :=
  radixKey c req = committedKey c req ∧
  ∃ result c'', c'.matchPrefix
      ⟨(req.tokens.take req.kvCommittedLen).map .int, req.extraKey, false⟩ = .ok (result, c'') ∧
    result.deviceIndices.length = req.kvCommittedLen / c.pageSize * c.pageSize

variable {c c' : Cache} {req : Req}

theorem pageKeys_plain (hplain : c.isEagle = false) (ids : List Int) :
    pageKeys c ids = (ids.map .int).take (ids.length / c.pageSize * c.pageSize) := by
  rw [pageKeys_eq, rawKeys, hplain, if_neg Bool.false_ne_true, length_map]

theorem committedKey_tokenIds (hplain : c.isEagle = false) (req : Req) :
    (committedKey c req).tokenIds = pageKeys c (req.tokens.take req.kvCommittedLen) := by
  rw [committedKey, pageKeys, hplain, if_neg Bool.false_ne_true]

/-- The keys are the same when they have the same number of pages. -/
theorem radixKey_eq_iff (hps : 0 < c.pageSize) (hplain : c.isEagle = false) (hok : ReqOk c req)
    (hfin : req.Finishable) : radixKey c req = committedKey c req ↔
      req.fillIds.length / c.pageSize = req.kvCommittedLen / c.pageSize := by
  have hlen : (req.tokens.take req.kvCommittedLen).length = req.kvCommittedLen :=
    length_take_of_le hfin.2
  have hkey : radixKey c req = committedKey c req ↔
      pageKeys c req.fillIds = pageKeys c (req.tokens.take req.kvCommittedLen) := by
    rw [← committedKey_tokenIds hplain, radixKey, hplain, committedKey]
    simp
  rw [hkey, pageKeys_plain hplain, pageKeys_plain hplain, hlen]
  constructor
  · intro heq
    have hl := congrArg List.length heq
    rw [length_take_of_le (by rw [length_map]; exact Nat.div_mul_le_self _ _),
      length_take_of_le (by rw [length_map, hlen]; exact Nat.div_mul_le_self _ _)] at hl
    exact Nat.eq_of_mul_eq_mul_right hps hl
  · intro hpages
    -- Both are the beginning of the request's tokens.
    have hfill : req.fillIds = req.tokens.take req.fillIds.length :=
      prefix_iff_eq_take.mp hok.fill
    have hle := Nat.div_mul_le_self req.fillIds.length c.pageSize
    have hle' := Nat.div_mul_le_self req.kvCommittedLen c.pageSize
    rw [← hpages] at hle' ⊢
    rw [← map_take, ← map_take, take_take, Nat.min_eq_left hle']
    conv_lhs => rw [hfill]
    rw [length_take_of_le hok.fill.length_le, take_take, Nat.min_eq_left hle]

/-- What is bound stays bound when a lock is given back. -/
theorem find_decLockRef (c : Cache) (i : Nat) (pageSize : Nat) (e : Option String)
    (p : List TokenId) : find pageSize e (c.decLockRef i).2.children p =
      find pageSize e c.children p := by
  unfold Cache.decLockRef Cache.moveLockRef
  split_ifs
  · rfl
  · cases c.children.locate (·.id == i) with
    | none => rfl
    | some found =>
      exact find_alterPath _ (g := TreeNode.moveLock (-1)) (fun _ => rfl) (fun _ => rfl) _ _

/-- In every state reached without EAGLE, a request that can finish leaves its
    whole committed sequence for reuse exactly when `fill_ids` has as many
    whole pages as it. -/
theorem finished_reusable_iff (pageSize size : Nat) (hps : 0 < pageSize) (needSort : Bool)
    {tr : List (Server × Op × Server)} {s : Server}
    (hr : Run Step (Server.init pageSize size false false false needSort) tr s)
    {req : Req} (hreq : req ∈ s.reqs) (hfin : req.Finishable) :
    ∃ c a, cacheFinishedReq s.cache s.alloc req true = .ok (c, a) ∧ (Reusable s.cache c req ↔
        req.fillIds.length / pageSize = req.kvCommittedLen / pageSize) := by
  rcases conserved_run hps hr with ⟨hkept, hcons⟩
  have hplain : s.cache.isEagle = false := hkept.isEagle
  have henabled : s.cache.disable = false := hkept.disable
  have hsize : s.cache.pageSize = pageSize := hkept.pageSize
  have hok := hcons.reqs req hreq
  rcases hcons.front hreq with ⟨rest, hp⟩
  have hacc : Accounted s.cache (req.lastNode :: rest.map (·.lastNode)) := hp.accounted
  rcases Option.isSome_iff_exists.mp hfin.1.1 with ⟨row, hrow⟩
  rcases hok.row row hrow with ⟨hrl, _, hpaged⟩
  have htake : req.reqToToken.take req.kvCommittedLen = row := by
    rw [Req.reqToToken, hrow, Option.getD_some, ← hrl, take_length]
  have hkl : (radixKey s.cache req).length ≤ row.length :=
    (length_pageKeys_le s.cache req.fillIds).trans (hrl ▸ hfin.1.2)
  rcases insert_row hacc hcons.pages henabled hok hpaged hkl
    with ⟨n, c₁, hinsert, _, _, hcarry₁, hpages₁, hacc₁, _, hbound⟩
  refine ⟨_, _, cacheFinishedReq_eq n c₁ henabled true hfin.2 ?_, ?_⟩
  · rwa [if_pos ⟨hkept.disableFinishedInsert, rfl⟩, htake]
  rw [← hsize, ← radixKey_eq_iff hacc.pageSize_pos hplain hok hfin]
  refine ⟨And.left, fun hkey => ⟨hkey, ?_⟩⟩
  -- The cache after the request has given back its lock.
  have hdec := moves_dec hpages₁ hacc₁
  have hall := hcarry₁.kept.trans hdec.kept
  generalize hc₂ : (c₁.decLockRef req.lastNode).2 = c₂ at hdec hall ⊢
  rcases matchPrefix_cases c₂ hdec.accounted.pageSize_pos hdec.accounted.counted.tree
    ⟨(req.tokens.take req.kvCommittedLen).map .int, req.extraKey, false⟩
    with ⟨result, c₃, hmatch, _⟩
  have hlookup := lookupKey_ids c₂ (req.tokens.take req.kvCommittedLen) req.extraKey
  have htokens : pageKeys c₂ (req.tokens.take req.kvCommittedLen) =
      (radixKey s.cache req).tokenIds := by
    rw [hall.pageKeys, hkey, committedKey_tokenIds hplain]
  refine ⟨result, c₃, hmatch, ?_⟩
  have hlen := matchPrefix_bound hdec.accounted hdec.pages
    (hall.disable.trans henabled) (fun p hp hpre => by
      rw [hlookup.2, htokens] at hpre
      rw [hdec.kept.pageSize] at hp ⊢
      rw [hlookup.1, ← hc₂, find_decLockRef]
      exact hbound p hp hpre) hmatch
  rw [hlen, RadixKey.length, hlookup.2, hall.pageKeys, length_pageKeys, length_rawKeys, hplain,
    if_neg Bool.false_ne_true, Nat.sub_zero, length_take_of_le hfin.2]

/-- A request of one token before its prefill. -/
def oneToken : Req := ⟨[1], [], [1], none, [], 0, 0, 0, none⟩

/-- The server after a prefill of one token with page size one. -/
def prefilled : Server :=
  ⟨Cache.init 1 false false false, ⟨4, 1, false, [2, 3, 4], [], true, []⟩, [extended oneToken [1]]⟩

/-- The request after it has decoded one token more. -/
def oneDecoded : Req := ⟨[1], [5], [1], none, [], 0, 0, 2, some [1, 2]⟩

theorem run_prefilled : ∃ tr, Run Step (Server.init 1 4 false false false false) tr prefilled := by
  have hstart : Step (Server.init 1 4 false false false false) (.start [1] [] none none none)
      ⟨Cache.init 1 false false false, Allocator.init 4 1 false, [oneToken]⟩ :=
    ⟨rfl, by decide, _, _, rfl, rfl⟩
  have hextend : Step ⟨Cache.init 1 false false false, Allocator.init 4 1 false, [oneToken]⟩
      (.extend [oneToken]) prefilled :=
    ⟨rfl, forall_mem_singleton.mpr ⟨.inl rfl, Nat.zero_le _⟩, [], [[1]], _, List.Perm.refl _,
      rfl, rfl⟩
  exact ⟨_, (Run.nil.snoc _ hstart).snoc _ hextend⟩

/-- A request of two tokens before its prefill. -/
def twoTokens : Req := ⟨[1, 2], [], [1, 2], none, [], 0, 0, 0, none⟩

/-- The server with page size two, when a prompt of one page has its first
    output. -/
def onePage : Server :=
  ⟨Cache.init 2 false false false, ⟨4, 2, false, [2], [], true, []⟩,
    [{ extended twoTokens [2, 3] with outputIds := [5] }]⟩

theorem run_onePage : ∃ tr, Run Step (Server.init 2 4 false false false false) tr onePage := by
  have hstart : Step (Server.init 2 4 false false false false) (.start [1, 2] [] none none none)
      ⟨Cache.init 2 false false false, Allocator.init 4 2 false, [twoTokens]⟩ :=
    ⟨rfl, by decide, _, _, rfl, rfl⟩
  have hextend : Step ⟨Cache.init 2 false false false, Allocator.init 4 2 false, [twoTokens]⟩
      (.extend [twoTokens]) { onePage with reqs := [extended twoTokens [2, 3]] } :=
    ⟨rfl, forall_mem_singleton.mpr ⟨.inl rfl, Nat.zero_le _⟩, [], [[2, 3]], _, List.Perm.refl _,
      rfl, rfl⟩
  have houtput : Step { onePage with reqs := [extended twoTokens [2, 3]] }
      (.output (extended twoTokens [2, 3]) 5) onePage := ⟨[], List.Perm.refl _, rfl⟩
  exact ⟨_, ((Run.nil.snoc _ hstart).snoc _ hextend).snoc _ houtput⟩

/-- A request that has decoded one token behind the page of its prompt. -/
theorem finished_reusable_decoded :
    let req : Req := ⟨[1, 2], [5], [1, 2], none, [], 0, 0, 3, some [2, 3, 4]⟩
    ∃ tr s, Run Step (Server.init 2 4 false false false false) tr s ∧ req ∈ s.reqs ∧
      ∃ c a, cacheFinishedReq s.cache s.alloc req true = .ok (c, a) ∧ Reusable s.cache c req := by
  intro req
  rcases run_onePage with ⟨tr, hrun⟩
  have hdecode : Step onePage (.decode onePage.reqs)
      ⟨onePage.cache, ⟨4, 2, false, [], [], true, []⟩, [req]⟩ :=
    ⟨rfl, forall_mem_singleton.mpr ⟨rfl, by decide⟩, [], [4], _, List.Perm.refl _, rfl, rfl⟩
  rcases finished_reusable_iff 2 4 (by decide) false (hrun.snoc _ hdecode)
    (mem_singleton_self _) ⟨⟨rfl, by decide⟩, by decide⟩ with ⟨c, a, heq, hiff⟩
  exact ⟨_, _, hrun.snoc _ hdecode, mem_singleton_self _, c, a, heq, hiff.mpr (by decide)⟩

/-- A request that has decoded one token: two tokens are committed, and one is
    found. -/
theorem finished_not_reusable :
    ∃ tr s, Run Step (Server.init 1 4 false false false false) tr s ∧ oneDecoded ∈ s.reqs ∧
      oneDecoded.Finishable ∧ ∃ c a, cacheFinishedReq s.cache s.alloc oneDecoded true =
        .ok (c, a) ∧ ¬ Reusable s.cache c oneDecoded ∧
        c.matchPrefix ⟨(oneDecoded.tokens.take oneDecoded.kvCommittedLen).map .int, none, false⟩ =
          .ok (⟨[1], 1, 1⟩, c) ∧ oneDecoded.kvCommittedLen / 1 * 1 = 2 := by
  rcases run_prefilled with ⟨tr, hrun⟩
  have houtput : Step prefilled (.output (extended oneToken [1]) 5)
      { prefilled with reqs := [{ extended oneToken [1] with outputIds := [5] }] } :=
    ⟨[], List.Perm.refl _, rfl⟩
  have hdecode : Step { prefilled with reqs := [{ extended oneToken [1] with outputIds := [5] }] }
      (.decode [{ extended oneToken [1] with outputIds := [5] }])
      ⟨Cache.init 1 false false false, ⟨4, 1, false, [3, 4], [], true, []⟩, [oneDecoded]⟩ :=
    ⟨rfl, forall_mem_singleton.mpr ⟨rfl, by decide⟩, [], [2], _, List.Perm.refl _, rfl, rfl⟩
  refine ⟨_, _, (hrun.snoc _ houtput).snoc _ hdecode, mem_singleton_self _,
    ⟨⟨rfl, by decide⟩, by decide⟩, _, _, rfl, ?_, rfl, rfl⟩
  rintro ⟨hkey, _⟩
  exact absurd hkey (by decide)

end SglangInc.Serving
