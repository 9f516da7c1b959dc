import SglangInc.Theory.RadixCpp.Access

/-!
# Namespaces in the C++ Radix Tree

The cache drops the extra key of its keys, so requests of two namespaces share
the nodes of a common prefix. They are kept apart only by their tokens: an
access reads and writes the entry of its first page. As long as no access has
the first page of an earlier insertion under another extra key, a match depends
on the accesses under its own extra key alone. The entry of a page in any run is
compared with the one in a replay of the accesses that count.

## Theorems

* `isolated_of_separate`: What a match returns in runs that are separate.
* `matched_across_namespaces`: A match under one extra key returns an index that
  was inserted under another.
-/

namespace SglangInc.RadixCpp

open List Forest
open Radix (TokenId RadixKey)
open Serving (Req)
open Kv (Allocator)

section Runs

/-- What two runs can have in common in an access: the tokens, and whether it
    inserts. -/
def Access.kind (a : Access) : List TokenId × Bool := (a.key.tokenIds, a.value.isSome)

/-- The second access has the first page of an insertion under another extra
    key. -/
def Clash (pageSize : Nat) (a b : Access) : Prop :=
  a.value.isSome = true ∧ a.key.extraKey ≠ b.key.extraKey ∧
    (firstPage pageSize a.key.tokenIds).isSome = true ∧
    firstPage pageSize a.key.tokenIds = firstPage pageSize b.key.tokenIds

instance (pageSize : Nat) (a b : Access) : Decidable (Clash pageSize a b) :=
  inferInstanceAs (Decidable (_ ∧ _))

theorem Clash.of_pages {pageSize : Nat} {a b : Access} {page : List TokenId}
    (hs : a.value.isSome = true) (hne : a.key.extraKey ≠ b.key.extraKey)
    (ha : firstPage pageSize a.key.tokenIds = some page)
    (hb : firstPage pageSize b.key.tokenIds = some page) : Clash pageSize a b :=
  ⟨hs, hne, by rw [ha]; rfl, ha.trans hb.symm⟩

/-- No access has the first page of an earlier insertion under another extra
    key. -/
def Separate (pageSize : Nat) (accesses : List Access) : Prop :=
  accesses.Pairwise fun a b => ¬ Clash pageSize a b

instance (pageSize : Nat) (accesses : List Access) : Decidable (Separate pageSize accesses) :=
  inferInstanceAs (Decidable (accesses.Pairwise _))

/-- The tree after an access of a kind, with zeros for the indices. -/
def replayStep (t : RadixTree) (kind : List TokenId × Bool) : RadixTree :=
  if kind.2 then
    match t.writingThrough kind.1 (List.replicate kind.1.length 0) with
    | .ok (_, t') => t'
    | .error _ => t
  else (t.matchPrefix kind.1).2

/-- The tree after some accesses. -/
def replay (disabled : Bool) (pageSize : Nat) (kinds : List (List TokenId × Bool)) : RadixTree :=
  kinds.foldl replayStep (RadixTree.init disabled pageSize)

theorem writingThrough_ok (t : RadixTree) {key : List TokenId} {value : List Nat}
    (h : key.length = value.length) : ∃ n t', t.writingThrough key value = .ok (n, t') := by
  unfold RadixTree.writingThrough
  rw [if_neg (not_not_intro h)]
  dsimp only
  split_ifs <;> exact ⟨_, _, rfl⟩

theorem replayStep_accessed (t : RadixTree) (kind : List TokenId × Bool) :
    ∃ a, a.kind = kind ∧ Accessed t a (replayStep t kind) := by
  rcases kind with ⟨tokens, isInsert⟩
  cases isInsert with
  | false => exact ⟨⟨{ tokenIds := tokens }, none⟩, rfl, .lookup _⟩
  | true =>
    have hlen : tokens.length = (List.replicate tokens.length 0).length := length_replicate.symm
    rcases writingThrough_ok t hlen with ⟨n, t', hw⟩
    refine ⟨⟨{ tokenIds := tokens }, some (List.replicate tokens.length 0)⟩, rfl, ?_⟩
    have heq : replayStep t (tokens, true) = t' := by
      simp [replayStep, hw]
    rw [heq]
    exact .insert hw

theorem replayAll_fields (t : RadixTree) (kinds : List (List TokenId × Bool)) :
    (kinds.foldl replayStep t).disabled = t.disabled ∧
    (kinds.foldl replayStep t).pageSize = t.pageSize := by
  induction kinds generalizing t with
  | nil => exact ⟨rfl, rfl⟩
  | cons kind kinds ih =>
    rcases replayStep_accessed t kind with ⟨a, _, ha⟩
    exact ⟨(ih _).1.trans ha.cases.1, (ih _).2.trans ha.cases.2.1⟩

variable {disabled : Bool} {pageSize : Nat} {page : List TokenId} {extraKey : Option String}

/-- The accesses that count for a page and an extra key. -/
def relevant (pageSize : Nat) (page : List TokenId) (extraKey : Option String)
    (accesses : List Access) : List (List TokenId × Bool) :=
  (accesses.filter fun a => decide (a.key.extraKey = extraKey ∧
    firstPage pageSize a.key.tokenIds = some page)).map Access.kind

/-- An index was inserted under a first page. -/
def InsertedAt (pageSize : Nat) (page : List TokenId) (accesses : List Access) (i : Nat) : Prop :=
  ∃ a ∈ accesses, firstPage pageSize a.key.tokenIds = some page ∧
    ∃ value, a.value = some value ∧ i ∈ value

/-- The entry of a page after some accesses. -/
structure Traced (disabled : Bool) (pageSize : Nat) (page : List TokenId)
    (extraKey : Option String) (accesses : List Access) (t : RadixTree) : Prop where
  disabled_eq : t.disabled = disabled
  pageSize_eq : t.pageSize = pageSize
  same : SameAt page t.children
    (replay disabled pageSize (relevant pageSize page extraKey accesses)).children
  source : EntryAll (fun n => ∀ i ∈ n.deviceIndices, InsertedAt pageSize page accesses i) page
    t.children
  empty : (∀ a ∈ accesses, a.value.isSome = true →
    firstPage pageSize a.key.tokenIds ≠ some page) → t.children.lookup page = none

theorem traced_init (disabled : Bool) (pageSize : Nat) (page : List TokenId)
    (extraKey : Option String) :
    Traced disabled pageSize page extraKey [] (RadixTree.init disabled pageSize) where
  disabled_eq := rfl
  pageSize_eq := rfl
  same := rfl
  source := nofun
  empty := fun _ => rfl

variable {t' t : RadixTree} {accesses : List Access} {tr : List (State × Op × State)} {s : State}

theorem InsertedAt.snoc {i : Nat} (a : Access)
    (h : InsertedAt pageSize page accesses i) : InsertedAt pageSize page (accesses ++ [a]) i := by
  rcases h with ⟨b, hb, hrest⟩
  exact ⟨b, mem_append_left _ hb, hrest⟩

theorem relevant_snoc (accesses : List Access) (a : Access) :
    relevant pageSize page extraKey (accesses ++ [a]) = relevant pageSize page extraKey accesses ++
        if a.key.extraKey = extraKey ∧ firstPage pageSize a.key.tokenIds = some page
        then [a.kind] else [] := by
  rw [relevant, filter_append, map_append, ← relevant]
  split_ifs with ha
  · rw [filter_cons, if_pos (decide_eq_true ha), filter_nil, map_singleton]
  · rw [filter_cons, if_neg (by rwa [decide_eq_true_eq]), filter_nil, map_nil]

section

variable (h : Traced disabled pageSize page extraKey accesses t) {key : RadixKey}
include h

/-- Locks do not count. -/
theorem Traced.relocked
    (hlock : Relocked t t') : Traced disabled pageSize page extraKey accesses t' := by
  rcases hlock with ⟨hd, hps, hbare⟩
  have hcontent : ∀ f : Children, f.map content =
      (f.map bare).map fun n => (n.1, n.2.length) := fun f => by
    induction f with
    | nil => rfl
    | cons key node children rest ihc ihr => simp [Forest.map, ihc, ihr, content, bare]
  refine ⟨hd.trans h.disabled_eq, hps.trans h.pageSize_eq, ?_, ?_, fun hnone => ?_⟩
  · rw [SameAt, hcontent, hbare, ← hcontent]
    exact h.same
  · have hmap := entryAll_map (g := bare) (Q := fun n => ∀ i ∈ n.2,
      InsertedAt pageSize page accesses i) (k := page) (f := t.children)
    exact entryAll_map.mp (hbare ▸ hmap.mpr h.source)
  · have hnone' := h.empty hnone
    have hlookup := congrArg (Forest.lookup page) hbare
    rwa [lookup_map, lookup_map, hnone', Option.map_none, Option.map_eq_none_iff] at hlookup

/-- One more access. The one that does not count is a lookup of another extra
    key, and finds no entry. -/
theorem Traced.access {a : Access} (ha : Accessed t a t') (hextra : key.extraKey = extraKey)
    (hkey : firstPage pageSize key.tokenIds = some page)
    (hsep : Separate pageSize (accesses ++ [a] ++ [⟨key, none⟩])) :
    Traced disabled pageSize page extraKey (accesses ++ [a]) t' := by
  rcases ha.cases with ⟨hd, hps, _, _⟩
  have hdis := hd.trans h.disabled_eq
  have hpsz := hps.trans h.pageSize_eq
  have hmono : EntryAll (fun n => ∀ i ∈ n.deviceIndices,
      InsertedAt pageSize page (accesses ++ [a]) i) page t.children :=
    h.source.mono fun n hn i hi => (hn i hi).snoc a
  by_cases hpage : firstPage pageSize a.key.tokenIds = some page
  · have hpage' : firstPage t.pageSize a.key.tokenIds = some page := by
      rwa [h.pageSize_eq]
    have hsource := ha.entryAll hpage' (Q := InsertedAt pageSize page (accesses ++ [a]))
      (fun value hv i hi => ⟨a, mem_append_right _ (mem_singleton_self a), hpage,
        value, hv, hi⟩) hmono
    have hempty : (∀ b ∈ accesses ++ [a], b.value.isSome = true →
        firstPage pageSize b.key.tokenIds ≠ some page) → t'.children.lookup page = none := by
      intro hnone
      have hv : a.value = none := Option.not_isSome_iff_eq_none.mp fun hs =>
        hnone a (mem_append_right _ (mem_singleton_self a)) hs hpage
      exact ha.lookup_missing hv hpage' (h.empty fun b hb =>
        hnone b (mem_append_left _ hb))
    refine ⟨hdis, hpsz, ?_, hsource, hempty⟩
    rw [relevant_snoc]
    by_cases hmine : a.key.extraKey = extraKey
    · rw [if_pos ⟨hmine, hpage⟩, replay, foldl_concat]
      rcases replayStep_accessed (replay disabled pageSize
        (relevant pageSize page extraKey accesses)) a.kind with ⟨b, hb, hreplay⟩
      rcases replayAll_fields (RadixTree.init disabled pageSize)
        (relevant pageSize page extraKey accesses) with ⟨hrd, hrps⟩
      rw [Access.kind, Access.kind, Prod.mk.injEq] at hb
      exact ha.sameAt hreplay (h.disabled_eq.trans hrd.symm) (h.pageSize_eq.trans hrps.symm)
        hb.1.symm hb.2.symm (by rw [replay, hrps, hb.1]; exact hpage) h.same
    rw [if_neg fun hc => hmine hc.1, List.append_nil]
    -- Before an insertion the page has no entry, in either tree.
    rcases pairwise_append.mp hsep with ⟨hpast, _, hlast⟩
    rcases pairwise_append.mp hpast with ⟨_, _, hbefore⟩
    have hfinal : ∀ b ∈ accesses ++ [a], b.value.isSome = true →
        firstPage pageSize b.key.tokenIds = some page → b.key.extraKey = extraKey := by
      intro b hb hs hpb
      by_contra hne
      exact hlast b hb _ (mem_singleton_self _) (.of_pages hs (hextra.symm ▸ hne) hpb hkey)
    have hlookup : a.value = none := Option.not_isSome_iff_eq_none.mp fun hs =>
      hmine (hfinal a (mem_append_right _ (mem_singleton_self a)) hs hpage)
    have hnone : t.children.lookup page = none := h.empty fun b hb hs hpb => by
      have hown := hfinal b (mem_append_left _ hb) hs hpb
      refine hbefore b hb a (mem_singleton_self a) (.of_pages hs (fun heq => hmine ?_) hpb hpage)
      exact heq.symm.trans hown
    have hnone' := ha.lookup_missing hlookup hpage' hnone
    have hsame := h.same
    rw [SameAt, lookup_map, hnone] at hsame
    rwa [SameAt, lookup_map, hnone']
  · have hframe := ha.lookup_of_ne (show _ ≠ some page by rwa [h.pageSize_eq])
    refine ⟨hdis, hpsz, ?_, fun x t hx => hmono x t (hframe.symm.trans hx), fun hnone => ?_⟩
    · rw [relevant_snoc, if_neg fun hc => hpage hc.2, List.append_nil, SameAt, lookup_map, hframe,
        ← lookup_map]
      exact h.same
    · rw [hframe]
      exact h.empty fun b hb => hnone b (mem_append_left _ hb)

theorem Traced.accessAll {more : List Access} (hmore : AccessedAll t more t')
    (hextra : key.extraKey = extraKey) (hkey : firstPage pageSize key.tokenIds = some page)
    (hsep : Separate pageSize (accesses ++ more ++ [⟨key, none⟩])) :
    Traced disabled pageSize page extraKey (accesses ++ more) t' := by
  induction hmore generalizing accesses with
  | nil t =>
    rwa [List.append_nil]
  | @cons t t' t'' a more ha _ ih =>
    have hassoc : accesses ++ a :: more = accesses ++ [a] ++ more := by
      rw [append_assoc, singleton_append]
    rw [hassoc] at hsep ⊢
    refine ih (h.access ha hextra hkey (hsep.sublist ?_)) hsep
    rw [append_assoc _ more]
    exact List.Sublist.append_left (sublist_append_right _ _) _

end

/-- The accesses of a run. -/
def accessesOf (tr : List (State × Op × State)) : List Access := tr.flatMap fun e => e.2.1.accesses

/-- The entry of a page depends on the accesses of one extra key. -/
theorem sameAt_replay {a : Allocator} (hr : Run Step ⟨RadixTree.init disabled pageSize, a⟩ tr s)
    {key : RadixKey} (hextra : key.extraKey = extraKey)
    (hkey : firstPage pageSize key.tokenIds = some page)
    (hsep : Separate pageSize (accessesOf tr ++ [⟨key, none⟩])) :
    Traced disabled pageSize page extraKey (accessesOf tr) s.tree := by
  induction hr with
  | nil => exact traced_init disabled pageSize page extraKey
  | @snoc tr s s' op _ hstep ih =>
    have happend : accessesOf (tr ++ [(s, op, s')]) = accessesOf tr ++ op.accesses := by
      rw [accessesOf, flatMap_append, flatMap_singleton, ← accessesOf]
    rw [happend] at hsep ⊢
    rcases step_accesses hstep with ⟨t, hall, hlock⟩
    have hbefore := ih (hsep.sublist (by
      rw [append_assoc]
      exact List.Sublist.append_left (sublist_append_right _ _) _))
    exact (hbefore.accessAll hall hextra hkey hsep).relocked hlock

theorem AccessedAll.pageSize_eq (h : AccessedAll t accesses t') : t'.pageSize = t.pageSize := by
  induction h with
  | nil => rfl
  | cons ha _ ih => exact ih.trans ha.cases.2.1

theorem run_pageSize {a : Allocator} (hr : Run Step ⟨RadixTree.init disabled pageSize, a⟩ tr s) :
    s.tree.pageSize = pageSize := by
  refine hr.inv (P := fun s => s.tree.pageSize = pageSize) rfl fun s op s' h hstep => ?_
  rcases step_accesses hstep with ⟨t, hall, _, hps, _⟩
  exact (hps.trans hall.pageSize_eq).trans h

/-- The accesses under an extra key. -/
def under (extraKey : Option String) (accesses : List Access) : List Access :=
  accesses.filter fun a => decide (a.key.extraKey = extraKey)

theorem relevant_eq (pageSize : Nat) (page : List TokenId) (extraKey : Option String)
    (accesses : List Access) : relevant pageSize page extraKey accesses =
      ((under extraKey accesses).map Access.kind).filter fun k =>
        decide (firstPage pageSize k.1 = some page) := by
  rw [relevant, under, filter_map, filter_filter]
  refine congrArg (List.map Access.kind) (filter_congr fun a _ => ?_)
  rw [Function.comp_apply, Bool.decide_and, Bool.and_comm]
  rfl

/-- In runs where no access has the first page of an earlier insertion under
    another extra key, what a match returns depends on the accesses of its own
    extra key: its length is the same after runs that have the same ones, and
    its indices were inserted under that extra key. -/
theorem isolated_of_separate (disabled : Bool) (pageSize : Nat) (a₁ a₂ : Allocator)
    {tr₁ tr₂ : List (State × Op × State)} {s₁ s₂ : State}
    (hr₁ : Run Step ⟨RadixTree.init disabled pageSize, a₁⟩ tr₁ s₁)
    (hr₂ : Run Step ⟨RadixTree.init disabled pageSize, a₂⟩ tr₂ s₂) (key : RadixKey)
    (hsep₁ : Separate pageSize (accessesOf tr₁ ++ [⟨key, none⟩]))
    (hsep₂ : Separate pageSize (accessesOf tr₂ ++ [⟨key, none⟩]))
    (hsame : (under key.extraKey (accessesOf tr₁)).map Access.kind =
      (under key.extraKey (accessesOf tr₂)).map Access.kind) :
    (matchPrefix s₁.tree key).1.deviceIndices.length =
      (matchPrefix s₂.tree key).1.deviceIndices.length ∧
    ∀ i ∈ (matchPrefix s₁.tree key).1.deviceIndices,
      ∃ a ∈ under key.extraKey (accessesOf tr₁), ∃ value, a.value = some value ∧ i ∈ value := by
  rcases hpage : firstPage pageSize key.tokenIds with _ | page
  · -- A key without a whole page matches nothing.
    have h₁ := run_pageSize hr₁
    have h₂ := run_pageSize hr₂
    rw [matched_of_firstPage (by rw [h₁]; exact hpage),
      matched_of_firstPage (by rw [h₂]; exact hpage)]
    exact ⟨rfl, forall_mem_nil _⟩
  have h₁ := sameAt_replay hr₁ rfl hpage hsep₁
  have h₂ := sameAt_replay hr₂ rfl hpage hsep₂
  have hentry : SameAt page s₁.tree.children s₂.tree.children := by
    have hs₁ := h₁.same
    rw [relevant_eq, hsame, ← relevant_eq] at hs₁
    exact hs₁.trans h₂.same.symm
  refine ⟨length_matched_same (h₁.disabled_eq.trans h₂.disabled_eq.symm)
    (h₁.pageSize_eq.trans h₂.pageSize_eq.symm) (by rw [h₂.pageSize_eq]; exact hpage) hentry, ?_⟩
  intro i hi
  rcases mem_matched (by rw [h₁.pageSize_eq]; exact hpage) h₁.source i hi with
    ⟨a, ha, hapage, value, hv, hmem⟩
  refine ⟨a, mem_filter.mpr ⟨ha, decide_eq_true ?_⟩, value, hv, hmem⟩
  -- An insertion under another key would have had this first page before the match.
  by_contra hne
  rcases pairwise_append.mp hsep₁ with ⟨_, _, hlast⟩
  exact hlast a ha _ (mem_singleton_self _) (.of_pages (by rw [hv]; rfl) hne hapage hpage)

/-- A finished request of one token. -/
def oneToken (extraKey : String) (token : Int) (slot : Nat) : Req :=
  ⟨[token], [], [token], some extraKey, [], rootId, 0, 1, some [slot]⟩

/-- The key of such a request. -/
def oneTokenKey (extraKey : String) (token : Int) : RadixKey :=
  { tokenIds := [.int token], extraKey := some extraKey }

/-- Nothing is cached yet. -/
def fresh : State := ⟨RadixTree.init false 1, Allocator.init 9 1 false⟩

/-- After the request of token 1. -/
def afterFirst : State :=
  { fresh with tree := ⟨false, 1, .cons [.int 1] ⟨1, [.int 1], [7], 0⟩ .nil .nil, 2⟩ }

/-- And then after that of token 2. -/
def afterSecond : State :=
  { fresh with tree := ⟨false, 1, .cons [.int 1] ⟨1, [.int 1], [7], 0⟩ .nil
      (.cons [.int 2] ⟨2, [.int 2], [8], 0⟩ .nil .nil), 3⟩ }

theorem isolated_of_separate_afterSecond :
    (matchPrefix afterSecond.tree (oneTokenKey "a" 1)).1.deviceIndices.length =
      (matchPrefix afterFirst.tree (oneTokenKey "a" 1)).1.deviceIndices.length := by
  have hfirst : Step fresh (.cacheFinished (oneToken "a" 1 7) true) afterFirst :=
    ⟨_, _, rfl, rfl⟩
  have hsecond : Step afterFirst (.cacheFinished (oneToken "b" 2 8) true) afterSecond :=
    ⟨_, _, rfl, rfl⟩
  exact (isolated_of_separate false 1 _ _ ((Run.nil.snoc _ hfirst).snoc _ hsecond)
    (Run.nil.snoc _ hfirst) (oneTokenKey "a" 1) (by decide) (by decide) rfl).1

/-- A match under one extra key returns the index that was inserted under
    another. -/
theorem matched_across_namespaces :
    ∃ tr, Run Step fresh tr afterFirst ∧ under (some "b") (accessesOf tr) = [] ∧
      (matchPrefix afterFirst.tree (oneTokenKey "b" 1)).1.deviceIndices = [7] ∧
      (matchPrefix fresh.tree (oneTokenKey "b" 1)).1.deviceIndices = [] := by
  have hfirst : Step fresh (.cacheFinished (oneToken "a" 1 7) true) afterFirst :=
    ⟨_, _, rfl, rfl⟩
  exact ⟨_, Run.nil.snoc _ hfirst, by decide, rfl, rfl⟩

end Runs

end SglangInc.RadixCpp
