import SglangInc.Theory.Eagle.BuildTree
import Mathlib.Data.List.Induction

/-!
# Greedy Verification Is Lossless

The target model accepts of a draft tree what it would have said itself.

`VerifyTreeGreedy` goes down from the root. At each node it takes the child whose
token the target predicts there, as long as there is one. The tokens of siblings
differ, so there is at most one way down on which the drafts agree with the target,
and a walk that stops has reached its end: either no child agrees, or there are no
children, since no node is deeper than the walk can go.

The target is a function `T` from token lists to the next token, and plain greedy
decoding appends what it says (`greedy`). The context is all that comes before the
drafts, with the token of node 0.

## Theorems

* `greedy_lossless`: Both kernels.
* `mask_cut_behindLong`: Behind `2 ^ 31` entries of the mask, a row is not written.
-/

namespace SglangInc.Eagle

open List Function

section Greedy

variable {T : List Int → Int} {context u : List Int}

/-- The next `count` tokens of plain greedy decoding. -/
def greedy (T : List Int → Int) (context : List Int) : Nat → List Int
  | 0 => []
  | count + 1 => greedy T context count ++ [T (context ++ greedy T context count)]

/-- Greedy decoding produces these tokens. -/
def Agrees (T : List Int → Int) (context u : List Int) : Prop := u = greedy T context u.length

theorem agrees_concat {x : Int} :
    Agrees T context (u ++ [x]) ↔ Agrees T context u ∧ x = T (context ++ u) := by
  rw [Agrees, Agrees, length_append, length_singleton, greedy]
  constructor
  · intro h
    obtain ⟨hu, hx⟩ := append_inj' h rfl
    refine ⟨hu, ?_⟩
    rw [← hu] at hx
    exact singleton_inj.mp hx
  · rintro ⟨hu, rfl⟩
    rw [← hu]

theorem Agrees.of_append {v : List Int} (h : Agrees T context (u ++ v)) : Agrees T context u := by
  induction v using reverseRecOn with
  | nil => rwa [List.append_nil] at h
  | append_singleton v x ih =>
    rw [← append_assoc, agrees_concat] at h
    exact ih h.1

end Greedy

namespace TreeInput

variable {t : TreeInput} {bs numSpec b i j : Nat} {l : List Nat}

theorem RootPath.eq_getLastD (h : t.RootPath b i l) : i = l.getLastD 0 := by
  cases h <;> simp

/-- The path to a node on a path. -/
theorem RootPath.split {u v : List Nat} {c : Nat} (h : t.RootPath b i (u ++ c :: v)) :
    ∃ p, t.RootPath b p u ∧ c ∈ t.childrenAfter b p 0 := by
  generalize hl : u ++ c :: v = l at h
  induction h generalizing v with
  | root => exact absurd hl (by simp)
  | @child p i l hpath hpos hlt hpar ih =>
    rcases eq_nil_or_concat v with rfl | ⟨v, x, rfl⟩
    · obtain ⟨rfl, hc⟩ := append_inj' hl rfl
      obtain rfl := singleton_inj.mp hc
      exact ⟨p, hpath, mem_childrenAfter.mpr ⟨hpos, hlt, hpar⟩⟩
    · rw [concat_eq_append, ← cons_append, ← append_assoc] at hl
      exact ih (append_inj' hl rfl).1

end TreeInput

open TreeInput

variable {t : TreeInput} {bs numSpec b : Nat} {candidates : Nat → Int} {T : List Int → Int}
  {context : List Int}

/-- The tokens of the nodes of a request. -/
def tokens (t : TreeInput) (candidates : Nat → Int) (b : Nat) (l : List Nat) : List Int :=
  l.map fun c => candidates (b * t.draftTokenNum + c)

theorem tokens_concat {l : List Nat} {c : Nat} : tokens t candidates b (l ++ [c]) =
      tokens t candidates b l ++ [candidates (b * t.draftTokenNum + c)] :=
  map_append

/-- The children of a node have different tokens. -/
def DistinctSiblings (t : TreeInput) (candidates : Nat → Int) (b : Nat) : Prop :=
  ∀ p, ∀ i ∈ t.childrenAfter b p 0, ∀ j ∈ t.childrenAfter b p 0,
    candidates (b * t.draftTokenNum + i) = candidates (b * t.draftTokenNum + j) → i = j

/-- No child of node `i` goes on as the target does. -/
def Stuck (t : TreeInput) (candidates : Nat → Int) (T : List Int → Int) (context : List Int)
    (b i : Nat) (l : List Nat) : Prop :=
  ∀ c ∈ t.childrenAfter b i 0,
    candidates (b * t.draftTokenNum + c) ≠ T (context ++ tokens t candidates b l)

/-- Where a walk is stuck, it has gone down the only path that agrees. -/
theorem isPrefix_of_stuck (hdistinct : DistinctSiblings t candidates b) {i i' : Nat}
    {l l' : List Nat} (h : t.RootPath b i l) (hl : Agrees T context (tokens t candidates b l))
    (hstuck : Stuck t candidates T context b i l) (h' : t.RootPath b i' l')
    (hl' : Agrees T context (tokens t candidates b l')) : l' <+: l := by
  induction h' with
  | root => exact nil_prefix
  | @child p i' l' hpath hpos hlt hpar ih =>
    rw [tokens_concat, agrees_concat] at hl'
    obtain ⟨v, rfl⟩ := ih hl'.1
    have hmem : i' ∈ t.childrenAfter b p 0 := mem_childrenAfter.mpr ⟨hpos, hlt, hpar⟩
    cases v with
    | nil =>
      rw [List.append_nil] at h hstuck
      obtain rfl := hpath.eq_getLastD.trans h.eq_getLastD.symm
      exact absurd hl'.2 (hstuck i' hmem)
    | cons c v =>
      -- The path has a child here as well, with the same token.
      obtain ⟨q, hq, hcmem⟩ := h.split
      obtain rfl := hpath.eq_getLastD.trans hq.eq_getLastD.symm
      have hc : Agrees T context (tokens t candidates b (l' ++ [c])) := by
        rw [show l' ++ c :: v = (l' ++ [c]) ++ v by simp, tokens, map_append] at hl
        exact hl.of_append
      rw [tokens_concat, agrees_concat] at hc
      obtain rfl := hdistinct p i' hmem c hcmem (hl'.2.trans hc.2.symm)
      exact ⟨v, by simp⟩

/-- What the target predicts along a path that agrees. -/
theorem map_targetPredict {targetPredict : Nat → Int}
    (htarget : ∀ i l, t.RootPath b i l → targetPredict (b * t.draftTokenNum + i) =
      T (context ++ tokens t candidates b l)) {i : Nat} {l : List Nat} (h : t.RootPath b i l)
    (hl : Agrees T context (tokens t candidates b l)) :
    (0 :: l).map (fun c => targetPredict (b * t.draftTokenNum + c)) =
      greedy T context (l.length + 1) := by
  induction h with
  | root =>
    have hroot := htarget 0 [] .root
    rw [map_singleton, hroot]
    rfl
  | @child p i l hpath hpos hlt hpar ih =>
    have hi := htarget i (l ++ [i]) (.child hpath hpos hlt hpar)
    have hlen : (tokens t candidates b (l ++ [i])).length = l.length + 1 := by
      rw [tokens, length_map, length_append, length_singleton]
    have hgreedy := hl
    rw [Agrees, hlen] at hgreedy
    rw [tokens_concat, agrees_concat] at hl
    rw [← cons_append, map_append, ih hl.1, map_singleton, hi,
      length_append, length_singleton, hgreedy]
    rfl

section Walk

variable {v : VerifyInput} {fuel i : Nat} {bufs : VerifyBuffers} {l : List Nat} {st : VerifyState}

/-- The `while` loop finds the first child with the right token. -/
theorem scan_spec {cur : Int} (last : Int)
    (h : Linked (fun j => v.retriveNextSibling (b * v.numDraftTokens + j)) cur l)
    (hfuel : l.length < fuel) : (v.scan b last fuel cur = some (-1) ∧ ∀ c ∈ l,
      v.candidates (b * v.numDraftTokens + c) ≠ v.targetPredict last.toNat) ∨
    ∃ c ∈ l, v.scan b last fuel cur = some (c : Int) ∧
      v.candidates (b * v.numDraftTokens + c) = v.targetPredict last.toNat := by
  induction h generalizing fuel with
  | nil =>
    obtain ⟨fuel, rfl⟩ := Nat.exists_eq_succ_of_ne_zero hfuel.ne'
    exact .inl ⟨by rw [VerifyInput.scan, if_pos rfl], forall_mem_nil _⟩
  | @cons i l _ ih =>
    rw [length_cons] at hfuel
    obtain ⟨fuel, rfl⟩ := Nat.exists_eq_succ_of_ne_zero (show fuel ≠ 0 by omega)
    rw [VerifyInput.scan, if_neg (show (i : Int) ≠ -1 by omega), Int.toNat_natCast]
    by_cases hi : v.candidates (b * v.numDraftTokens + i) = v.targetPredict last.toNat
    · exact .inr ⟨i, mem_cons_self, if_pos hi, hi⟩
    · rw [if_neg hi]
      rcases @ih fuel (by omega) with ⟨hnone, hall⟩ | ⟨c, hc, hsome, heq⟩
      · exact .inl ⟨hnone, forall_mem_cons.mpr ⟨hi, hall⟩⟩
      · exact .inr ⟨c, mem_cons_of_mem _ hc, hsome, heq⟩

/-- The verification reads what the tree kernel has built for a request, and what the
    target predicts at its nodes. -/
structure Reads (t : TreeInput) (v : VerifyInput) (T : List Int → Int) (context : List Int)
    (b : Nat) : Prop where
  numDraftTokens : v.numDraftTokens = t.draftTokenNum
  next : ∀ p < t.draftTokenNum,
    Linked (fun j => v.retriveNextSibling (b * t.draftTokenNum + j))
      (v.retriveNextToken (b * t.draftTokenNum + p)) (t.childrenAfter b p 0)
  index : ∀ i < t.draftTokenNum,
    v.retriveIndex (b * t.draftTokenNum + i) = (b * t.draftTokenNum + i : Nat)
  target : ∀ i l, t.RootPath b i l → v.targetPredict (b * t.draftTokenNum + i) =
    T (context ++ tokens t v.candidates b l)

/-- Nothing but the rows of block `b` has changed. -/
structure OnlyBlock (t : TreeInput) (v : VerifyInput) (b : Nat) (bufs bufs' : VerifyBuffers) :
    Prop where
  predicts : ∀ k, k < b * t.draftTokenNum ∨ b * t.draftTokenNum + t.draftTokenNum ≤ k →
    bufs'.predicts k = bufs.predicts k
  acceptIndex : ∀ k, k < b * v.numSpeculativeTokens ∨
    b * v.numSpeculativeTokens + v.numSpeculativeTokens ≤ k →
    bufs'.acceptIndex k = bufs.acceptIndex k
  acceptTokenNum : ∀ k, k ≠ b → bufs'.acceptTokenNum k = bufs.acceptTokenNum k

/-- The walk of block `b` is at node `i`, with the path `l`. -/
structure At (t : TreeInput) (v : VerifyInput) (T : List Int → Int) (context : List Int) (b : Nat)
    (bufs : VerifyBuffers) (i : Nat) (l : List Nat) (st : VerifyState) : Prop where
  path : t.RootPath b i l
  agrees : Agrees T context (tokens t v.candidates b l)
  cur : st.curIndex = i
  last : st.lastAcceptedRetriveIdx = (b * t.draftTokenNum + i : Nat)
  num : st.numAcceptedTokens = l.length
  index : (List.range (l.length + 1)).map
    (fun k => st.bufs.acceptIndex (b * v.numSpeculativeTokens + k)) =
      (0 :: l).map fun c => ((b * t.draftTokenNum + c : Nat) : Int)
  /-- All but the last node of the path have been written to. -/
  predicts : ∀ c ∈ 0 :: l, c ≠ i → st.bufs.predicts (b * t.draftTokenNum + c) =
    v.targetPredict (b * t.draftTokenNum + c)
  others : OnlyBlock t v b bufs st.bufs

/-- A child of the node where the walk is goes on as the target does. -/
theorem At.accept (hr : Reads t v T context b) {c : Nat}
    (h : At t v T context b bufs i l st) (hc : c ∈ t.childrenAfter b i 0)
    (htoken : v.candidates (b * t.draftTokenNum + c) =
      v.targetPredict st.lastAcceptedRetriveIdx.toNat)
    (hdepth : l.length + 1 < v.numSpeculativeTokens) :
    At t v T context b bufs c (l ++ [c]) (v.accept b st c) := by
  obtain ⟨hpos, hlt, hpar⟩ := mem_childrenAfter.mp hc
  have hi := h.path.lt
  have hlast : st.lastAcceptedRetriveIdx.toNat = b * t.draftTokenNum + i := by
    rw [h.last, Int.toNat_natCast]
  rw [hlast, hr.target i l h.path] at htoken
  refine ⟨.child h.path hpos hlt hpar, ?_, rfl, ?_, ?_, ?_, fun d hd hdc => ?_, ?_⟩
  · rw [tokens_concat, agrees_concat]
    exact ⟨h.agrees, htoken⟩
  · show v.retriveIndex (b * v.numDraftTokens + ((c : Nat) : Int).toNat) = _
    rw [hr.numDraftTokens, Int.toNat_natCast]
    exact hr.index c hlt
  · show st.numAcceptedTokens + 1 = _
    rw [h.num, length_append, length_singleton]
  -- `accept_index` gets one entry more, and the earlier ones stay.
  · rw [length_append, length_singleton, range_succ, map_append,
      ← cons_append, map_append, ← h.index]
    congr 1
    · refine map_congr_left fun k hk => ?_
      rw [mem_range] at hk
      show update st.bufs.acceptIndex _ _ _ = _
      rw [update_of_ne (by rw [h.num]; omega)]
    · rw [map_singleton, map_singleton, singleton_inj]
      show update st.bufs.acceptIndex _ _ _ = _
      rw [h.num, update_self, hr.numDraftTokens, Int.toNat_natCast]
      exact hr.index c hlt
  -- The prediction of a node is written when the walk leaves it.
  · show update st.bufs.predicts _ _ _ = _
    rw [hlast]
    by_cases hdi : d = i
    · rw [hdi, update_self]
    · rw [update_of_ne (by omega)]
      refine h.predicts d ?_ hdi
      simp only [mem_cons, mem_append, not_mem_nil, or_false] at hd ⊢
      tauto
  · refine ⟨fun k hk => ?_, fun k hk => ?_, h.others.acceptTokenNum⟩
    · show update st.bufs.predicts _ _ _ = _
      rw [hlast, update_of_ne (by omega)]
      exact h.others.predicts k hk
    · show update st.bufs.acceptIndex _ _ _ = _
      rw [h.num, update_of_ne (by omega)]
      exact h.others.acceptIndex k hk

/-- The walk goes on until no child agrees, or there is none. -/
theorem acceptLoop_spec (hv : t.Valid bs v.numSpeculativeTokens) (hb : b < bs)
    (hr : Reads t v T context b) (hfuel : t.draftTokenNum ≤ fuel) (rounds : Nat)
    (h : At t v T context b bufs i l st)
    (hrounds : l.length + 1 + rounds = v.numSpeculativeTokens) :
    ∃ i' l' st', v.acceptLoop b fuel rounds st = some st' ∧ At t v T context b bufs i' l' st' ∧
      Stuck t v.candidates T context b i' l' := by
  induction rounds generalizing i l st with
  | zero =>
    -- The path is as long as any in the tree, so its last node has no child.
    refine ⟨i, l, st, rfl, h, fun c hc => ?_⟩
    obtain ⟨hpos, hlt, hpar⟩ := mem_childrenAfter.mp hc
    have := hv.length_lt hb (.child h.path hpos hlt hpar)
    rw [length_append, length_singleton] at this
    omega
  | succ rounds ih =>
    have hn := hr.numDraftTokens
    have hlinked := hr.next i h.path.lt
    rw [← hn] at hlinked
    have hshort : (t.childrenAfter b i 0).length < fuel := by
      have hle := length_filter_le (fun j => decide (t.IsParent b i j))
        (List.range' (0 + 1) (t.draftTokenNum - 1 - 0))
      rw [length_range'] at hle
      have hpos := t.draftTokenNum_pos
      rw [childrenAfter]
      omega
    have hcur : st.curIndex.toNat = i := by rw [h.cur, Int.toNat_natCast]
    rcases scan_spec st.lastAcceptedRetriveIdx hlinked hshort with
      ⟨hscan, hnone⟩ | ⟨c, hc, hscan, htoken⟩
    · refine ⟨i, l, st, ?_, h, fun c hc => ?_⟩
      · simp only [VerifyInput.acceptLoop, hcur, hscan, bind, Option.bind, if_true]
        rfl
      · have := hnone c hc
        rwa [hn, h.last, Int.toNat_natCast, hr.target i l h.path] at this
    rw [hn] at htoken
    have hnext := h.accept hr hc htoken (by omega)
    obtain ⟨i', l', st', hst', hat, hstuck⟩ := ih hnext (by
      rw [length_append, length_singleton]
      omega)
    refine ⟨i', l', st', ?_, hat, hstuck⟩
    simp only [VerifyInput.acceptLoop, hcur, hscan, bind, Option.bind,
      if_neg (show (c : Int) ≠ -1 by omega)]
    exact hst'

/-- What the verification of a request writes: the longest path that agrees with the
    target, and what the target says along it. -/
structure Verified (t : TreeInput) (v : VerifyInput) (T : List Int → Int) (context : List Int)
    (b : Nat) (l : List Nat) (bufs : VerifyBuffers) : Prop where
  path : ∃ i, t.RootPath b i l
  agrees : Agrees T context (tokens t v.candidates b l)
  longest : ∀ i' l', t.RootPath b i' l' → Agrees T context (tokens t v.candidates b l') → l' <+: l
  acceptTokenNum : bufs.acceptTokenNum b = l.length
  acceptIndex : (List.range (l.length + 1)).map
    (fun k => bufs.acceptIndex (b * v.numSpeculativeTokens + k)) =
      (0 :: l).map fun c => ((b * t.draftTokenNum + c : Nat) : Int)
  predicts : (0 :: l).map (fun c => bufs.predicts (b * t.draftTokenNum + c)) =
    greedy T context (l.length + 1)

variable (hv : t.Valid bs v.numSpeculativeTokens)
include hv

/-- One block verifies its request, and writes nothing of the others. -/
theorem block_spec (hb : b < bs)
    (hr : Reads t v T context b) (hdistinct : DistinctSiblings t v.candidates b)
    (hfuel : t.draftTokenNum ≤ fuel) (bufs : VerifyBuffers) :
    ∃ bufs' l, v.block fuel bufs b = some bufs' ∧ Verified t v T context b l bufs' ∧
      OnlyBlock t v b bufs bufs' := by
  have hspec := hv.length_lt hb (.root : t.RootPath b 0 [])
  have hpos := t.draftTokenNum_pos
  have hroot : v.retriveIndex (b * v.numDraftTokens) = (b * t.draftTokenNum + 0 : Nat) := by
    rw [hr.numDraftTokens]
    exact hr.index 0 hpos
  have hstart : At t v T context b bufs 0 []
      { bufs := { bufs with
          acceptIndex := update bufs.acceptIndex (b * v.numSpeculativeTokens)
            (v.retriveIndex (b * v.numDraftTokens)) }
        lastAcceptedRetriveIdx := v.retriveIndex (b * v.numDraftTokens)
        numAcceptedTokens := 0
        curIndex := 0 } := by
    refine ⟨.root, rfl, rfl, hroot, rfl, ?_, fun c hc hne => ?_,
      ⟨fun k _ => rfl, fun k hk => ?_, fun k _ => rfl⟩⟩
    · show [update bufs.acceptIndex _ _ (b * v.numSpeculativeTokens + 0)] = [_]
      rw [Nat.add_zero, update_self, hroot]
    · exact absurd (mem_singleton.mp hc) hne
    · exact update_of_ne (by omega) _ _
  -- From the root, the walk ends at a node none of whose children agrees.
  obtain ⟨i, l, st, hst, hat, hstuck⟩ := acceptLoop_spec hv hb hr hfuel
    (v.numSpeculativeTokens - 1) hstart (by rw [length_nil]; omega)
  have hlast : st.lastAcceptedRetriveIdx.toNat = b * t.draftTokenNum + i := by
    rw [hat.last, Int.toNat_natCast]
  have hi := hat.path.lt
  have hblock : v.block fuel bufs b = some { st.bufs with
      acceptTokenNum := update st.bufs.acceptTokenNum b st.numAcceptedTokens
      predicts := update st.bufs.predicts st.lastAcceptedRetriveIdx.toNat
        (v.targetPredict st.lastAcceptedRetriveIdx.toNat) } := by
    simp only [VerifyInput.block, hst, bind, Option.bind]
    rfl
  refine ⟨_, l, hblock,
    ⟨⟨i, hat.path⟩, hat.agrees, fun i' l' => isPrefix_of_stuck hdistinct hat.path hat.agrees hstuck,
      ?_, hat.index, ?_⟩, ⟨fun k hk => ?_, hat.others.acceptIndex, fun k hk => ?_⟩⟩
  · show update st.bufs.acceptTokenNum _ _ _ = _
    rw [update_self, hat.num]
  · rw [← map_targetPredict hr.target hat.path hat.agrees]
    refine map_congr_left fun c hc => ?_
    show update st.bufs.predicts _ _ _ = _
    rw [hlast]
    by_cases hci : c = i
    · rw [hci, update_self]
    · rw [update_of_ne (by omega)]
      exact hat.predicts c hc hci
  · show update st.bufs.predicts _ _ _ = _
    rw [hlast, update_of_ne (by omega)]
    exact hat.others.predicts k hk
  · show update st.bufs.acceptTokenNum _ _ _ = _
    rw [update_of_ne hk]
    exact hat.others.acceptTokenNum k hk

/-- Another block does not touch what the verification of a request has written. -/
theorem Verified.others {b' : Nat} (hb' : b' < bs) {bufs' : VerifyBuffers} (hne : b' ≠ b)
    (honly : OnlyBlock t v b bufs bufs') (h : Verified t v T context b' l bufs) :
    Verified t v T context b' l bufs' := by
  obtain ⟨i, hpath⟩ := h.path
  have hlen := hv.length_lt hb' hpath
  have hpredicts := block_disjoint (n := t.draftTokenNum) hne
  have hindex := block_disjoint (n := v.numSpeculativeTokens) hne
  refine ⟨⟨i, hpath⟩, h.agrees, h.longest, ?_, ?_, ?_⟩
  · rw [honly.acceptTokenNum b' hne]
    exact h.acceptTokenNum
  · rw [← h.acceptIndex]
    refine map_congr_left fun k hk => honly.acceptIndex _ ?_
    rw [mem_range] at hk
    omega
  · rw [← h.predicts]
    refine map_congr_left fun c hc => honly.predicts _ ?_
    have hlt : c < t.draftTokenNum := by
      rcases mem_cons.mp hc with rfl | hc
      · exact t.draftTokenNum_pos
      · exact (hpath.mem_lt c hc).2
    omega

/-- In every order, the blocks of a batch come to an end, each with the longest path
    that agrees. -/
theorem verify_spec {context : Nat → List Int} (hr : ∀ b < bs, Reads t v T (context b) b)
    (hdistinct : ∀ b < bs, DistinctSiblings t v.candidates b)
    (hfuel : t.draftTokenNum ≤ fuel) {order : List Nat} (horder : order.Perm (List.range bs))
    (bufs : VerifyBuffers) : ∃ bufs', v.launch fuel order bufs = some bufs' ∧
      ∀ b < bs, ∃ l, Verified t v T (context b) b l bufs' := by
  obtain ⟨bufs', hbufs', hpost, -⟩ := Grid.foldlM_spec (v.block fuel) (fun b _ => b < bs)
    (fun b bufs => b < bs ∧ ∃ l, Verified t v T (context b) b l bufs) (by
      intro b bufs hb
      obtain ⟨bufs', l, hblock, hverified, honly⟩ :=
        block_spec hv hb (hr b hb) (hdistinct b hb) hfuel bufs
      refine ⟨bufs', hblock, ⟨hb, l, hverified⟩, fun b' hne => ⟨id, ?_⟩⟩
      rintro ⟨hb', l', hverified'⟩
      exact ⟨hb', l', hverified'.others hv hb' hne honly⟩)
    (horder.nodup_iff.mpr nodup_range)
    (fun b hb => mem_range.mp (horder.mem_iff.mp hb))
  refine ⟨bufs', hbufs', fun b hb => ?_⟩
  exact (hpost b (horder.mem_iff.mpr (mem_range.mpr hb))).2

end Walk

/-- What `VerifyTreeGreedy` is called with: the tables that the tree kernel has
    written. -/
def verifyInput (t : TreeInput) (numSpec : Nat) (candidates : Nat → Int) (built : Buffers)
    (targetPredict : Nat → Int) : VerifyInput :=
  { numSpeculativeTokens := numSpec
    numDraftTokens := t.draftTokenNum
    candidates := candidates
    retriveIndex := built.retriveIndex
    retriveNextToken := built.retriveNextToken
    retriveNextSibling := built.retriveNextSibling
    targetPredict := targetPredict }

/-- The tree kernel comes to an end in every order of its threads, with the positions
    and the mask of the draft trees. If the target predicts at each node what comes
    after the path to it, the verification finds the longest path that agrees with the
    target, and its predictions are what plain greedy decoding produces. -/
theorem greedy_lossless {bs numSpec : Nat} {t : TreeInput} (hv : t.Valid bs numSpec)
    {mode : TreeMaskMode} (hfits : t.Fits mode bs numSpec) {candidates : Nat → Int}
    (hdistinct : ∀ b < bs, DistinctSiblings t candidates b) {fuel : Nat} (hfuel : numSpec ≤ fuel)
    {order : List (Nat × Nat)} (horder : order.Perm (t.threads bs)) {bufs : Buffers}
    (hinit : ∀ b < bs, t.Unlinked b bufs) (T : List Int → Int) (context : Nat → List Int) :
    ∃ built, t.launch mode fuel order bufs = some built ∧ (∀ b < bs, ∀ i l, t.RootPath b i l →
        built.positions (b * t.draftTokenNum + i) = t.verifiedSeqLen b + l.length ∧
        ∀ c < t.draftTokenNum, (built.treeMask (t.rowIdx mode b i + c) = true ↔ c = 0 ∨ c ∈ l)) ∧
      ∀ targetPredict : Nat → Int,
        (∀ b < bs, ∀ i l, t.RootPath b i l → targetPredict (b * t.draftTokenNum + i) =
          T (context b ++ tokens t candidates b l)) →
        ∀ blocks : List Nat, blocks.Perm (List.range bs) → ∀ fuel', t.draftTokenNum ≤ fuel' →
        ∀ out, ∃ out',
          (verifyInput t numSpec candidates built targetPredict).launch fuel' blocks out =
            some out' ∧
          ∀ b < bs, ∃ l, Verified t (verifyInput t numSpec candidates built targetPredict) T
            (context b) b l out' := by
  obtain ⟨built, hbuilt, hall⟩ := launch_spec hv hfits hfuel horder hinit
  refine ⟨built, hbuilt, fun b hb i l hl => ?_, ?_⟩
  · have hi := hall b hb i hl.lt
    exact ⟨hi.position l hl, hi.mask l hl⟩
  · intro targetPredict htarget blocks hblocks fuel' hfuel' out
    refine verify_spec hv (fun b hb => ?_) hdistinct hfuel' hblocks out
    have hlinked := (hall b hb 0 t.draftTokenNum_pos).linked rfl
    exact ⟨rfl, hlinked.next, hlinked.index, htarget b hb⟩

/-- Two drafts for the next token, and one after the first of them. -/
def twoBranches : TreeInput :=
  { topk := 2
    depth := 2
    draftTokenNum := 4
    parentList := fun k => (k : Int) - 1
    selectedIndex := id
    verifiedSeqLen := fun _ => 5
    topk_pos := Nat.two_pos
    draftTokenNum_pos := by decide }

/-- The paths of its nodes. -/
def twoBranchesPath : Nat → List Nat
  | 0 => []
  | 1 => [1]
  | 2 => [2]
  | _ => [1, 3]

theorem twoBranches_rootPath : ∀ i < 4, twoBranches.RootPath 0 i (twoBranchesPath i) := by
  have hone : twoBranches.RootPath 0 1 ([] ++ [1]) :=
    .child .root (by decide) (by decide) (by decide)
  have htwo : twoBranches.RootPath 0 2 ([] ++ [2]) :=
    .child .root (by decide) (by decide) (by decide)
  intro i hi
  match i, hi with
  | 0, _ => exact .root
  | 1, _ => exact hone
  | 2, _ => exact htwo
  | 3, _ => exact .child hone (by decide) (by decide) (by decide)

theorem twoBranches_valid : twoBranches.Valid 1 3 := by
  refine ⟨fun b hb i j hij _ => ?_, fun b hb i hi => ?_⟩
  · exact Nat.add_lt_add_left hij _
  · obtain rfl : b = 0 := by omega
    refine ⟨twoBranchesPath i, twoBranches_rootPath i hi, ?_⟩
    match i, hi with
    | 0, _ | 1, _ | 2, _ | 3, _ => decide

/-- The token of each node. -/
def twoBranchesTokens : Nat → Int
  | 0 => 0
  | 1 => 1
  | _ => 2

theorem twoBranches_distinct : DistinctSiblings twoBranches twoBranchesTokens 0 := by
  have hall : ∀ p i j : Fin 4, 0 < i.val ∧ 0 < j.val ∧ twoBranches.IsParent 0 p i ∧
      twoBranches.IsParent 0 p j ∧ twoBranchesTokens i = twoBranchesTokens j → i.val = j := by
    decide +kernel
  intro p i hi j hj htoken
  obtain ⟨hipos, hi, hpi⟩ := mem_childrenAfter.mp hi
  obtain ⟨hjpos, hj, hpj⟩ := mem_childrenAfter.mp hj
  rw [Nat.zero_mul, Nat.zero_add, Nat.zero_add] at htoken
  exact hall ⟨p, hpi.lt⟩ ⟨i, hi⟩ ⟨j, hj⟩ ⟨hipos, hjpos, hpi, hpj, htoken⟩

/-- The target counts. The drafts are 1 or 2, and then 2: two of them are accepted, and
    the target adds 3. -/
theorem greedy_lossless_twoBranches :
    ∃ built out', twoBranches.launch .fullMask 3 (twoBranches.threads 1)
        ⟨fun _ => true, fun _ => 0, fun _ => -1, fun _ => -1, fun _ => -1⟩ = some built ∧
      (verifyInput twoBranches 3 twoBranchesTokens built
        (fun i => (twoBranchesPath i).length + 1)).launch 4 [0]
          ⟨fun _ => 0, fun _ => -1, fun _ => 0⟩ = some out' ∧
      out'.acceptTokenNum 0 = 2 ∧ [0, 1, 3].map out'.predicts = [1, 2, 3] := by
  obtain ⟨built, hbuilt, -, hverify⟩ := greedy_lossless twoBranches_valid
    (show twoBranches.Fits .fullMask 1 3 from ⟨by decide, fun _ _ => (by decide : 5 + 3 ≤ 2 ^ 31)⟩)
    (fun b hb => Nat.lt_one_iff.mp hb ▸ twoBranches_distinct)
    (Nat.le_refl 3) (List.Perm.refl _)
    (show ∀ b < 1, twoBranches.Unlinked b
      ⟨fun _ => true, fun _ => 0, fun _ => -1, fun _ => -1, fun _ => -1⟩ from
      fun b _ i _ => ⟨rfl, rfl⟩)
    (fun u => (u.length : Int)) (fun _ => [0])
  obtain ⟨out', hout', hverified⟩ := hverify (fun i => (twoBranchesPath i).length + 1)
    (by
      intro b hb i l hl
      obtain rfl : b = 0 := by omega
      rw [twoBranches_valid.rootPath_unique hb hl (twoBranches_rootPath i hl.lt)]
      simp [tokens])
    [0] (List.Perm.refl _) 4 (Nat.le_refl 4) ⟨fun _ => 0, fun _ => -1, fun _ => 0⟩
  obtain ⟨l, hl⟩ := hverified 0 Nat.one_pos
  obtain ⟨i, hpath⟩ := hl.path
  have hlen := twoBranches_valid.length_lt Nat.one_pos hpath
  obtain ⟨u, rfl⟩ := hl.longest 3 [1, 3] (twoBranches_rootPath 3 (by decide)) rfl
  obtain rfl : u = [] := by
    rw [length_append, length_cons, length_singleton] at hlen
    exact length_eq_zero_iff.mp (by omega)
  refine ⟨built, out', hbuilt, hout', hl.acceptTokenNum, ?_⟩
  have := hl.predicts
  simpa [twoBranches, greedy] using this

/-- A draft behind a request of `2 ^ 30` tokens. -/
def behindLong : TreeInput :=
  { topk := 1
    depth := 1
    draftTokenNum := 2
    parentList := fun _ => -1
    selectedIndex := fun _ => 0
    verifiedSeqLen := fun b => if b = 0 then 2 ^ 30 else 0
    topk_pos := Nat.one_pos
    draftTokenNum_pos := Nat.two_pos }

/-- The rows of the second request are from entry `2 ^ 31 + 4` on. Their indices are cut to
    negative ones, and the row of node 0 still has node 1 in it. -/
theorem mask_cut_behindLong :
    behindLong.Valid 2 2 ∧ (∀ candidates, ∀ b < 2, DistinctSiblings behindLong candidates b) ∧
      behindLong.RootPath 1 0 [] ∧
      (behindLong.launch .fullMask 2 (behindLong.threads 2)
        ⟨fun _ => true, fun _ => 0, fun _ => -1, fun _ => -1, fun _ => -1⟩).map
          (fun built => built.treeMask (behindLong.rowIdx .fullMask 1 0 + 1)) = some true := by
  refine ⟨⟨fun b _ i j hij hj => ?_, fun b _ i hi => ?_⟩, fun candidates b _ p i hi j hj _ => ?_,
    .root, by decide +kernel⟩
  · exact absurd (show j < 1 from hj) (by omega)
  · rcases (show i = 0 ∨ i = 1 by have : i < 2 := hi; omega) with rfl | rfl
    · exact ⟨[], .root, Nat.two_pos⟩
    · have hroot : behindLong.IsParent b 0 1 := by
        simp [IsParent, selected, behindLong]
      exact ⟨[1], .child .root Nat.one_pos hi hroot, Nat.one_lt_two⟩
  · have hi' : i < 2 := (mem_childrenAfter.mp hi).2.1
    have hj' : j < 2 := (mem_childrenAfter.mp hj).2.1
    have := (mem_childrenAfter.mp hi).1
    have := (mem_childrenAfter.mp hj).1
    omega

end SglangInc.Eagle
