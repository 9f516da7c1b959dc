import SglangInc.Core.Grammar
import Mathlib.Data.List.Perm.Basic

/-!
# Masks of a Draft Tree

`traverse_tree` goes through a draft tree with one grammar object. It accepts the token
of a node on the way down and takes it back on the way up, so below a node the object
has read the path to it, and at the end it is as it was before (`draft_masks_exact`).

Whether a token is accepted is read in the row of the parent, which was written when
the parent was visited. A row is written once, so it is still there when the last
sibling reads it. The induction is over the links of the tree, first child and next
sibling, and it carries three facts: the object comes back unchanged, the rows of the
nodes below are the ones they should be, and all other rows are untouched.
-/

namespace SglangInc.Grammar

open List Bitmask DraftTree BaseGrammarObject

theorem testBit_eq (word : BitVec 32) (token : Nat) :
    testBit word token = word.getLsbD (token % 32) := by
  have hlt : token % 32 < 32 := Nat.mod_lt _ (by decide)
  have hpow : BitVec.twoPow 64 (token % 32) ≠ 0#64 := by
    rw [Ne, ← BitVec.toNat_inj, BitVec.toNat_twoPow_of_lt (by omega)]
    exact Nat.ne_of_gt (Nat.two_pow_pos _)
  rw [testBit, ← BitVec.twoPow, BitVec.and_twoPow, BitVec.getLsbD_signExtend,
    decide_eq_true (by omega), if_pos hlt, Bool.true_and]
  cases word.getLsbD (token % 32) with
  | true => exact bne_iff_ne.mpr hpow
  | false => exact bne_self_eq_false _

/-- A bit of a row is whether its token is allowed. -/
theorem testBit_maskRow (allowed : Nat → Bool) (token : Nat) :
    testBit (maskRow allowed (token / 32)) token = allowed token := by
  have hlt : token % 32 < 32 := Nat.mod_lt _ (by decide)
  rw [testBit_eq, maskRow, BitVec.getLsbD_setWidth, BitVec.getLsbD_ofBoolListLE,
    decide_eq_true hlt, Bool.true_and, getD_eq_getElem?_getD, getElem?_map,
    getElem?_range hlt, Option.map_some, Option.getD_some, Nat.div_add_mod]

/-- A node, what is behind its link to a first child, and behind its link to a next
    sibling. -/
inductive Links where
  | nil
  | node (i : Nat) (child sibling : Links)

namespace Links

/-- All nodes behind a link. -/
def nodes : Links → List Nat
  | nil => []
  | node i child sibling => i :: (child.nodes ++ sibling.nodes)

/-- Each node with the tokens of the path to it. -/
def paths (draftTokens : Nat → Nat) : Links → List (Nat × List Nat)
  | nil => []
  | node i child sibling =>
    (i, [draftTokens i]) :: ((child.paths draftTokens).map (fun e => (e.1, draftTokens i :: e.2)) ++
        sibling.paths draftTokens)

/-- The part of the paths that go through a node. -/
def through (draftTokens : Nat → Nat) (i : Nat) (child : Links) : List (Nat × List Nat) :=
  (i, [draftTokens i]) :: (child.paths draftTokens).map fun e => (e.1, draftTokens i :: e.2)

theorem map_fst_paths (draftTokens : Nat → Nat) (l : Links) :
    (l.paths draftTokens).map (·.1) = l.nodes := by
  induction l with
  | nil => rfl
  | node i child sibling ihc ihs =>
    rw [paths, nodes, map_cons, map_append, map_map, ihs]
    exact congrArg (fun ns => i :: (ns ++ sibling.nodes)) ihc

theorem map_fst_through (draftTokens : Nat → Nat) (i : Nat) (child : Links) :
    (through draftTokens i child).map (·.1) = i :: child.nodes := by
  rw [through, map_cons, map_map]
  exact congrArg (i :: ·) (map_fst_paths draftTokens child)

end Links

/-- The links are those of the tensors, from an entry on. -/
inductive Stored (t : DraftTree) : Int → Links → Prop
  | nil : Stored t (-1) .nil
  | node {i : Nat} {child sibling : Links} : Stored t (t.retrieveNextToken i) child →
      Stored t (t.retrieveNextSibling i) sibling → Stored t i (.node i child sibling)

/-- The tensors of a request are a tree with node 0 as its root. -/
structure IsTree (t : DraftTree) (numDraftTokens : Nat) (below : Links) : Prop where
  stored : Stored t (t.retrieveNextToken 0) below
  root : t.retrieveNextSibling 0 = -1
  nodup : (0 :: below.nodes).Nodup
  lt : ∀ i ∈ (0 :: below.nodes), i < numDraftTokens

/-- The path is accepted after `base`, token by token, and nowhere on it the grammar has
    terminated. -/
def Live (ctx : CompiledGrammar) : List Nat → List Nat → Prop
  | base, [] => ctx.terminated base = false
  | base, token :: path =>
    ctx.terminated base = false ∧ ctx.allowed base token = true ∧ Live ctx (base ++ [token]) path

theorem Live.base {ctx : CompiledGrammar} {base path : List Nat} (h : Live ctx base path) :
    ctx.terminated base = false := by
  cases path with
  | nil => exact h
  | cons token path => exact h.1

/-- The rows after a traversal that started behind `base`. -/
structure Masked (ctx : CompiledGrammar) (base : List Nat) (paths : List (Nat × List Nat))
    (mask mask' : Bitmask) : Prop where
  numRows : mask'.numRows = mask.numRows
  numWords : mask'.numWords = mask.numWords
  live : ∀ e ∈ paths, Live ctx base e.2 → mask'.row e.1 = maskRow (ctx.allowed (base ++ e.2))
  others : ∀ r, (∀ e ∈ paths, e.1 = r → ¬ Live ctx base e.2) → mask'.row r = mask.row r

namespace Masked

variable {ctx : CompiledGrammar} {base : List Nat} {paths paths' : List (Nat × List Nat)}
  {mask mask' mask'' : Bitmask}

theorem refl (ctx : CompiledGrammar) (base : List Nat) (mask : Bitmask)
    (h : ∀ e ∈ paths, ¬ Live ctx base e.2) : Masked ctx base paths mask mask :=
  ⟨rfl, rfl, fun e he hlive => absurd hlive (h e he), fun _ _ => rfl⟩

/-- A token that is not live has nothing live below it. -/
theorem refl_through {draftTokens : Nat → Nat} {i : Nat} (child : Links)
    (h : ¬ Live ctx base [draftTokens i]) :
    Masked ctx base (Links.through draftTokens i child) mask mask :=
  refl _ _ _ <| forall_mem_cons.mpr ⟨h, forall_mem_map.mpr fun _ _ hlive =>
    h ⟨hlive.1, hlive.2.1, hlive.2.2.base⟩⟩

/-- Rows that do not belong to the paths are untouched. -/
theorem row_of_not_mem (h : Masked ctx base paths mask mask') {r : Nat}
    (hr : r ∉ paths.map (·.1)) : mask'.row r = mask.row r :=
  h.others r fun _ he heq => absurd (heq ▸ mem_map_of_mem he) hr

/-- One traversal after the other, with different nodes. -/
theorem append (h : Masked ctx base paths mask mask') (h' : Masked ctx base paths' mask' mask'')
    (hdisjoint : ∀ e ∈ paths, e.1 ∉ paths'.map (·.1)) :
    Masked ctx base (paths ++ paths') mask mask'' where
  numRows := h'.numRows.trans h.numRows
  numWords := h'.numWords.trans h.numWords
  live := by
    intro e he hlive
    rcases mem_append.mp he with he | he
    · rw [h'.row_of_not_mem (hdisjoint e he)]
      exact h.live e he hlive
    · exact h'.live e he hlive
  others := by
    intro r hr
    rw [h'.others r fun e he => hr e (mem_append_right _ he),
      h.others r fun e he => hr e (mem_append_left _ he)]

/-- A traversal below a node whose token is accepted. -/
theorem below {token : Nat} (hbase : ctx.terminated base = false)
    (htoken : ctx.allowed base token = true) (h : Masked ctx (base ++ [token]) paths mask mask') :
    Masked ctx base (paths.map fun e => (e.1, token :: e.2)) mask mask' where
  numRows := h.numRows
  numWords := h.numWords
  live := forall_mem_map.mpr fun e he hlive => by
    have hrow := h.live e he hlive.2.2
    rwa [append_assoc] at hrow
  others := by
    intro r hr
    refine h.others r fun e he heq hlive => ?_
    exact hr _ (mem_map_of_mem he) heq ⟨hbase, htoken, hlive⟩

/-- The row of one node is written. -/
theorem fill {i : Nat} (hterm : ctx.terminated base = false) :
    Masked ctx base [(i, [])] mask (mask.fill i (ctx.allowed base)) where
  numRows := rfl
  numWords := rfl
  live := forall_mem_singleton.mpr fun _ => by
    rw [List.append_nil]
    exact Function.update_self i _ mask.row
  others := by
    intro r hr
    have hne : r ≠ i := fun heq => hr (i, []) (mem_singleton_self _) heq.symm hterm
    exact Function.update_of_ne hne _ mask.row

end Masked

section Traversal

variable {g : XGrammarGrammar} {t : DraftTree} {mask : Bitmask} {child below l : Links}

/-- The object after one more token. -/
def accept (g : XGrammarGrammar) (token : Nat) : XGrammarGrammar :=
  { g with matcher := g.matcher ++ [token], acceptedTokens := g.acceptedTokens ++ [token] }

theorem acceptToken_eq {token : Nat} (hterm : g.ctx.terminated g.matcher = false)
    (htoken : g.ctx.allowed g.matcher token = true) :
    acceptToken g token = .ok (accept g token) := by
  show g.acceptToken token = _
  rw [XGrammarGrammar.acceptToken, XGrammarGrammar.isTerminated, hterm, htoken]
  rfl

/-- A token that was accepted last is taken back. -/
theorem rollback_accept (token : Nat) : rollback (accept g token) 1 = .ok g := by
  show (accept g token).rollback 1 = _
  rw [XGrammarGrammar.rollback, if_pos (by simp [accept])]
  simp [accept, XGrammarGrammar.dropEnd]

theorem fillVocabMask_eq (hterm : g.ctx.terminated g.matcher = false) (mask : Bitmask)
    (idx : Nat) : fillVocabMask g mask idx =
      .ok (mask.fill idx (g.ctx.allowed g.matcher)) := by
  show g.fillVocabMask mask idx = _
  rw [XGrammarGrammar.fillVocabMask, XGrammarGrammar.isTerminated, hterm]
  rfl

/-- What the traversal of some links does, from the object and the row it needs. -/
def Traverses (t : DraftTree) (depth : Nat) (first : Int) (l : Links) : Prop :=
  ∀ (g : XGrammarGrammar) (parentPos : Nat) (mask : Bitmask), g.ctx.terminated g.matcher = false →
    mask.row parentPos = maskRow (g.ctx.allowed g.matcher) →
    parentPos ∉ l.nodes → (∀ i ∈ l.nodes, t.draftTokens i / 32 < mask.numWords) → first ≠ -1 →
    ∃ mask', t.dfs depth first.toNat parentPos g mask = .ok (g, mask') ∧
      Masked g.ctx g.matcher (l.paths t.draftTokens) mask mask'

theorem Stored.eq_nil (h : Stored t (-1) l) : l = .nil := by
  generalize hfirst : (-1 : Int) = first at h
  cases h with
  | nil => rfl
  | node => omega

/-- The row of a node, and what is below it. -/
theorem fillRow_spec {depth i : Nat} (hterm : g.ctx.terminated g.matcher = false)
    (hstored : Stored t (t.retrieveNextToken i) child) (hnodup : (i :: child.nodes).Nodup)
    (hwords : ∀ j ∈ child.nodes, t.draftTokens j / 32 < mask.numWords)
    (ih : Traverses t depth (t.retrieveNextToken i) child) :
    ∃ mask', t.fillRow (t.dfs depth (t.retrieveNextToken i).toNat i) i g mask = .ok (g, mask') ∧
      Masked g.ctx g.matcher ((i, []) :: child.paths t.draftTokens) mask mask' := by
  rw [nodup_cons] at hnodup
  have hfill : Masked g.ctx g.matcher [(i, [])] mask (mask.fill i (g.ctx.allowed g.matcher)) :=
    Masked.fill hterm
  have hnot : ∀ e ∈ [(i, ([] : List Nat))], e.1 ∉ (child.paths t.draftTokens).map (·.1) := by
    rw [Links.map_fst_paths]
    exact forall_mem_singleton.mpr hnodup.1
  have hgo : isTerminated g = false := hterm
  rw [fillRow, hgo, Bool.not_false, if_pos rfl, fillVocabMask_eq hterm]
  simp only
  by_cases hnext : t.retrieveNextToken i = -1
  · rw [if_neg (not_not_intro hnext)]
    rw [hnext] at hstored
    rw [hstored.eq_nil]
    exact ⟨_, rfl, hfill⟩
  · rw [if_pos hnext]
    rcases ih g i (mask.fill i (g.ctx.allowed g.matcher)) hterm
      (Function.update_self i _ mask.row) hnodup.1 hwords hnext with ⟨mask', hdfs, hmasked⟩
    exact ⟨mask', hdfs, hfill.append hmasked hnot⟩

/-- A node other than the root that is accepted. -/
theorem visit_spec {depth i : Nat} (hi : i ≠ 0) (hterm : g.ctx.terminated g.matcher = false)
    (htoken : g.ctx.allowed g.matcher (t.draftTokens i) = true)
    (hstored : Stored t (t.retrieveNextToken i) child) (hnodup : (i :: child.nodes).Nodup)
    (hwords : ∀ j ∈ child.nodes, t.draftTokens j / 32 < mask.numWords)
    (ih : Traverses t depth (t.retrieveNextToken i) child) :
    ∃ mask', t.visit (t.dfs depth (t.retrieveNextToken i).toNat i) i g mask = .ok (g, mask') ∧
      Masked g.ctx g.matcher (Links.through t.draftTokens i child) mask mask' := by
  rw [visit, if_pos hi, acceptToken_eq hterm htoken]
  simp only [bind, Except.bind]
  cases hend : g.ctx.terminated (g.matcher ++ [t.draftTokens i]) with
  | true =>
    -- The token ends the grammar, and no path through it is live.
    have hstop : isTerminated (accept g (t.draftTokens i)) = true := hend
    rw [fillRow, hstop, Bool.not_true, if_neg Bool.false_ne_true]
    simp only [rollback_accept]
    exact ⟨mask, rfl, .refl_through child fun hlive =>
      Bool.noConfusion (hend.symm.trans hlive.2.2)⟩
  | false =>
    rcases fillRow_spec (g := accept g (t.draftTokens i)) hend hstored hnodup hwords ih
      with ⟨mask', hchild, hmasked⟩
    rw [hchild]
    simp only [rollback_accept]
    exact ⟨mask', rfl, Masked.below hterm htoken hmasked⟩

/-- All nodes behind a link. -/
theorem dfs_spec {first : Int} (hstored : Stored t first l) (hnodup : (0 :: l.nodes).Nodup)
    {depth : Nat} (hdepth : l.nodes.length ≤ depth) : Traverses t depth first l := by
  induction hstored generalizing depth with
  | nil => exact fun _ _ _ _ _ _ _ hfirst => absurd rfl hfirst
  | @node i child sibling hchild hsibling ihc ihs =>
    intro g parentPos mask hterm hrow hparent hwords _
    rw [Links.nodes, length_cons, length_append] at hdepth
    cases depth with
    | zero => omega
    | succ depth =>
    rw [Links.nodes, nodup_cons, nodup_cons, nodup_append] at hnodup
    rcases hnodup with ⟨hroot, hi, hnc, hns, hdisjoint⟩
    rw [Links.nodes, mem_cons, not_or, mem_append, not_or] at hparent
    simp only [mem_cons, mem_append, not_or] at hroot hi
    simp only [Links.nodes, mem_cons, mem_append] at hwords
    have ihc := @ihc (nodup_cons.mpr ⟨hroot.2.1, hnc⟩) depth (by omega)
    have ihs := @ihs (nodup_cons.mpr ⟨hroot.2.2, hns⟩) depth (by omega)
    have hi0 : i ≠ 0 := fun h => hroot.1 h.symm
    have hne : ∀ e ∈ Links.through t.draftTokens i child,
        e.1 ∉ (sibling.paths t.draftTokens).map (·.1) := by
      intro e he
      have hin := mem_map_of_mem (f := Prod.fst) he
      rw [Links.map_fst_through] at hin
      rw [Links.map_fst_paths]
      rcases mem_cons.mp hin with heq | hin
      · exact heq ▸ hi.2
      · exact fun hmem => hdisjoint e.1 hin e.1 hmem rfl
    -- The row of the parent says whether the token is allowed.
    have haccepted : t.accepted mask i parentPos =
        .ok (g.ctx.allowed g.matcher (t.draftTokens i)) := by
      rw [accepted, if_neg hi0, Bitmask.read, if_pos (hwords i (.inl rfl)),
        if_neg (by omega), Int.toNat_natCast, hrow]
      exact congrArg Except.ok (testBit_maskRow _ _)
    have hfirst : ∃ mask1, t.visitIf (g.ctx.allowed g.matcher (t.draftTokens i))
        (t.dfs depth (t.retrieveNextToken i).toNat i) i g mask = .ok (g, mask1) ∧
        Masked g.ctx g.matcher (Links.through t.draftTokens i child) mask mask1 := by
      rw [visitIf]
      split_ifs with htoken
      · exact visit_spec hi0 hterm htoken hchild (nodup_cons.mpr ⟨hi.1, hnc⟩)
          (fun j hj => hwords j (.inr (.inl hj))) ihc
      · exact ⟨mask, rfl, .refl_through child fun hlive => htoken hlive.2.1⟩
    rcases hfirst with ⟨mask1, hvisit, hmasked1⟩
    rw [Int.toNat_natCast, DraftTree.dfs, haccepted]
    simp only [bind, Except.bind]
    rw [hvisit]
    simp only
    by_cases hnext : t.retrieveNextSibling i = -1
    · rw [if_neg (not_not_intro hnext)]
      rw [hnext] at hsibling
      refine ⟨mask1, rfl, ?_⟩
      rwa [hsibling.eq_nil, Links.paths, Links.paths, List.append_nil]
    rw [if_pos hnext]
    -- The row of the parent is not one of the nodes.
    have hrow1 : mask1.row parentPos = maskRow (g.ctx.allowed g.matcher) := by
      rw [hmasked1.row_of_not_mem, hrow]
      rw [Links.map_fst_through, mem_cons, not_or]
      exact ⟨hparent.1, hparent.2.1⟩
    rcases ihs g parentPos mask1 hterm hrow1 hparent.2.2 (fun j hj => by
      rw [hmasked1.numWords]
      exact hwords j (.inr (.inr hj))) hnext with ⟨mask', hdfs, hmasked'⟩
    exact ⟨mask', hdfs, hmasked1.append hmasked' hne⟩

/-- The root, and all the nodes below it. -/
def rootPaths (t : DraftTree) (below : Links) : List (Nat × List Nat) :=
  (0, []) :: below.paths t.draftTokens

theorem IsTree.length_le {n : Nat} (h : IsTree t n below) : (0 :: below.nodes).length ≤ n := by
  have hsub := subperm_of_subset h.nodup fun i hi => mem_range.mpr (h.lt i hi)
  have hle := hsub.length_le
  rwa [length_range] at hle

/-- The masks of one tree. -/
theorem traverseTree_spec {n depth : Nat} (h : IsTree t n below)
    (hwords : ∀ i ∈ below.nodes, t.draftTokens i / 32 < mask.numWords) (hdepth : n ≤ depth) :
    ∃ mask', traverseTree depth t g mask = .ok (g, mask') ∧
      Masked g.ctx g.matcher (rootPaths t below) mask mask' := by
  have hlen := Nat.le_trans h.length_le hdepth
  rw [length_cons] at hlen
  cases depth with
  | zero => omega
  | succ depth =>
  have hvisit : ∃ mask', t.fillRow (t.dfs depth (t.retrieveNextToken 0).toNat (0 : Nat)) 0 g mask =
      .ok (g, mask') ∧ Masked g.ctx g.matcher (rootPaths t below) mask mask' := by
    cases hterm : g.ctx.terminated g.matcher with
    | true =>
      have hstop : isTerminated g = true := hterm
      rw [fillRow, hstop, Bool.not_true, if_neg Bool.false_ne_true]
      exact ⟨mask, rfl, Masked.refl _ _ _ fun e _ hlive =>
        Bool.noConfusion (hterm.symm.trans hlive.base)⟩
    | false =>
      exact fillRow_spec hterm h.stored h.nodup hwords
        (dfs_spec h.stored h.nodup (Nat.le_of_succ_le_succ hlen))
  rcases hvisit with ⟨mask', hfill, hmasked⟩
  refine ⟨mask', ?_, hmasked⟩
  rw [traverseTree, DraftTree.dfs, accepted, if_pos rfl]
  simp only [bind, Except.bind]
  rw [visitIf, if_pos rfl, visit, if_neg (not_not_intro rfl), hfill]
  simp [h.root]

end Traversal

section Batches

variable {n depth vocabSize batchSize : Nat} {trees : Nat → DraftTree} {below : Nat → Links}

/-- The masks of a batch from request `i` on. Rows of requests without a grammar, and of
    other requests, are untouched. -/
structure BatchMasked (n : Nat) (trees : Nat → DraftTree) (below : Nat → Links) (i : Nat)
    (reqs : List (Option XGrammarGrammar)) (mask mask' : Bitmask) : Prop where
  numRows : mask'.numRows = mask.numRows
  numWords : mask'.numWords = mask.numWords
  rows : ∀ k g, reqs[k]? = some (some g) →
    Masked g.ctx g.matcher (rootPaths (trees (i + k)) (below (i + k)))
      (mask.slice ((i + k) * n) n) (mask'.slice ((i + k) * n) n)
  others : ∀ r, (∀ k g, reqs[k]? = some (some g) → r < (i + k) * n ∨ (i + k) * n + n ≤ r) →
    mask'.row r = mask.row r

theorem Bitmask.slice_congr {mask mask' : Bitmask} {start : Nat}
    (hwords : mask'.numWords = mask.numWords)
    (h : ∀ r < n, mask'.row (start + r) = mask.row (start + r)) :
    mask'.slice start n = mask.slice start n := by
  rw [slice, slice, hwords]
  congr 1
  funext r
  split_ifs with hr
  · exact h r hr
  · rfl

/-- A slice that has been written is read back. -/
theorem Bitmask.slice_assign (mask : Bitmask) {part : Bitmask} (start : Nat)
    (hrows : part.numRows = n) (hwords : part.numWords = mask.numWords)
    (hcut : ∀ r, n ≤ r → part.row r = fun _ => 0#32) :
    (mask.assign start part).slice start n = part := by
  obtain ⟨numRows, numWords, row⟩ := part
  simp only at hrows hwords hcut
  subst hrows hwords
  rw [slice, assign]
  congr 1
  funext r
  split_ifs with hr
  · simp only
    rw [if_pos (by omega), Nat.add_sub_cancel_left]
  · rw [hcut r (Nat.le_of_not_lt hr)]

theorem Bitmask.row_assign {mask part : Bitmask} {start r : Nat}
    (hr : r < start ∨ start + part.numRows ≤ r) : (mask.assign start part).row r = mask.row r := by
  exact if_neg (by omega)

variable {reqs : List (Option XGrammarGrammar)} {i : Nat}

theorem BatchMasked.skip {mask mask' : Bitmask}
    (h : BatchMasked n trees below (i + 1) reqs mask mask') :
    BatchMasked n trees below i (none :: reqs) mask mask' where
  numRows := h.numRows
  numWords := h.numWords
  rows := by
    intro k g hk
    cases k with
    | zero => cases hk
    | succ k =>
      rw [show i + (k + 1) = i + 1 + k by omega]
      exact h.rows k g hk
  others := by
    intro r hr
    refine h.others r fun k g hk => ?_
    have := hr (k + 1) g (by rw [getElem?_cons_succ]; exact hk)
    rwa [show i + (k + 1) = i + 1 + k by omega] at this

/-- The rows of a request, and then those of the ones behind it. -/
theorem BatchMasked.cons {g : XGrammarGrammar} {mask part mask' : Bitmask}
    (htree : IsTree (trees i) n (below i))
    (hfirst : Masked g.ctx g.matcher (rootPaths (trees i) (below i)) (mask.slice (i * n) n) part)
    (h : BatchMasked n trees below (i + 1) reqs (mask.assign (i * n) part) mask') :
    BatchMasked n trees below i (some g :: reqs) mask mask' := by
  have hrows : part.numRows = n := hfirst.numRows
  -- The requests behind this one have later rows.
  have hlater : ∀ k, i * n + n ≤ (i + 1 + k) * n := by
    intro k
    rw [Nat.add_mul, Nat.add_mul, Nat.one_mul]
    omega
  have hcut : ∀ r, n ≤ r → part.row r = fun _ => 0#32 := by
    intro r hr
    rw [hfirst.row_of_not_mem (fun hmem => ?_)]
    · exact if_neg (by omega)
    · rw [rootPaths, map_cons, Links.map_fst_paths] at hmem
      have := htree.lt r hmem
      omega
  have hkept : mask'.slice (i * n) n = part := by
    rw [← Bitmask.slice_assign mask (i * n) hrows hfirst.numWords hcut]
    refine slice_congr h.numWords fun r hr => h.others _ fun k g _ => .inl ?_
    have := hlater k
    omega
  refine ⟨h.numRows, h.numWords, fun k g' hk => ?_, fun r hr => ?_⟩
  · cases k with
    | zero =>
      rw [getElem?_cons_zero, Option.some.injEq, Option.some.injEq] at hk
      rwa [← hk, Nat.add_zero, hkept]
    | succ k =>
      have hslice : (mask.assign (i * n) part).slice ((i + 1 + k) * n) n =
          mask.slice ((i + 1 + k) * n) n := by
        refine slice_congr rfl fun r _ => row_assign (.inr ?_)
        have := hlater k
        omega
      have hrest := h.rows k g' hk
      rw [hslice] at hrest
      rwa [show i + (k + 1) = i + 1 + k by omega]
  · rw [h.others r fun k g' hk => ?_, row_assign]
    · have := hr 0 g (by rw [getElem?_cons_zero])
      rwa [Nat.add_zero, show i * n + n = i * n + part.numRows by rw [hrows]] at this
    · have := hr (k + 1) g' (by rw [getElem?_cons_succ]; exact hk)
      rwa [show i + (k + 1) = i + 1 + k by omega] at this

/-- The mask that the loop has, or is going to allocate. -/
def BatchMask.mask (out : BatchMask XGrammarGrammar) (vocabSize numRows : Nat) : Bitmask :=
  out.allocateTokenBitmask.getD (allocate numRows vocabSize)

theorem div_lt_words {token : Nat} (h : token < vocabSize) :
    token / 32 < (vocabSize + 31) / 32 := by
  omega

/-- The loop over the requests writes the rows of each that has a grammar. -/
theorem maskRequests_spec (htree : ∀ i < batchSize, IsTree (trees i) n (below i))
    (htokens : ∀ i < batchSize, ∀ j ∈ (below i).nodes, (trees i).draftTokens j < vocabSize)
    (hdepth : n ≤ depth) (reqs : List (Option XGrammarGrammar)) (hi : i + reqs.length = batchSize)
    (out : BatchMask XGrammarGrammar)
    (hwords : (out.mask vocabSize (batchSize * n)).numWords = (vocabSize + 31) / 32) :
    ∃ out', maskRequests depth vocabSize batchSize n trees i reqs out = .ok out' ∧
      out'.grammars = out.grammars ++ reqs ∧ out'.allocateTokenBitmask.isSome =
        (out.allocateTokenBitmask.isSome || reqs.any Option.isSome) ∧
      BatchMasked n trees below i reqs (out.mask vocabSize (batchSize * n))
        (out'.mask vocabSize (batchSize * n)) := by
  induction reqs generalizing i out with
  | nil =>
    refine ⟨out, rfl, (List.append_nil _).symm, ?_, rfl, rfl, fun k g hk => ?_, fun _ _ => rfl⟩
    · rw [any_nil, Bool.or_false]
    · cases hk
  | cons req reqs ih =>
    rw [length_cons] at hi
    cases req with
    | none =>
      -- A request without a grammar leaves its rows as they are.
      rcases ih (i := i + 1) (by omega) { out with grammars := out.grammars ++ [none] } hwords
        with ⟨out', hrun, hgrammars, hsome, hmasked⟩
      refine ⟨out', hrun, ?_, ?_, hmasked.skip⟩
      · rw [hgrammars, append_assoc, singleton_append]
      · rw [hsome, any_cons, Option.isSome_none, Bool.false_or]
    | some g =>
      have hlt : i < batchSize := by omega
      have hfit : ∀ j ∈ (below i).nodes, (trees i).draftTokens j / 32 <
          ((out.mask vocabSize (batchSize * n)).slice (i * n) n).numWords := by
        intro j hj
        show _ < (out.mask vocabSize (batchSize * n)).numWords
        rw [hwords]
        exact div_lt_words (htokens i hlt j hj)
      rcases traverseTree_spec (g := g) (htree i hlt) hfit hdepth with ⟨part, htraverse, hfirst⟩
      rcases ih (i := i + 1) (by omega) ⟨out.grammars ++ [some g],
        some ((out.mask vocabSize (batchSize * n)).assign (i * n) part), some g⟩ hwords
        with ⟨out', hrun, hgrammars, hsome, hmasked⟩
      refine ⟨out', ?_, ?_, ?_, BatchMasked.cons (htree i hlt) hfirst hmasked⟩
      · have hmask : out.allocateTokenBitmask.getD (allocateVocabMask g
            vocabSize (batchSize * n)) = out.mask vocabSize (batchSize * n) := rfl
        rw [maskRequests]
        simp only [hmask, htraverse]
        exact hrun
      · rw [hgrammars, append_assoc, singleton_append]
      · rw [hsome, any_cons, Option.isSome_some, Option.isSome_some, Bool.true_or]
        exact (Bool.or_true _).symm

/-- A traversal gives the grammar back as it was. The rows of the nodes whose paths are
    accepted without terminating the grammar are the masks after these paths, and all
    other rows are untouched; and so it is for each request of a batch in its own rows,
    in a mask that allowed everything. -/
theorem draft_masks_exact (vocabSize n : Nat) :
    (∀ (t : DraftTree) (below : Links) (g : XGrammarGrammar) (mask : Bitmask) (depth : Nat),
      IsTree t n below → (∀ i ∈ below.nodes, t.draftTokens i < vocabSize) →
      mask.numWords = (vocabSize + 31) / 32 → n ≤ depth →
      ∃ mask', traverseTree depth t g mask = .ok (g, mask') ∧
        Masked g.ctx g.matcher (rootPaths t below) mask mask') ∧
    ∀ (trees : Nat → DraftTree) (below : Nat → Links) (reqs : List (Option XGrammarGrammar))
      (depth : Nat), (∀ i < reqs.length, IsTree (trees i) n (below i)) →
      (∀ i < reqs.length, ∀ j ∈ (below i).nodes, (trees i).draftTokens j < vocabSize) → n ≤ depth →
      ∃ out, generateTokenBitmask depth vocabSize n trees reqs = .ok out ∧ out.grammars = reqs ∧
        out.allocateTokenBitmask.isSome = reqs.any Option.isSome ∧
        BatchMasked n trees below 0 reqs (allocate (reqs.length * n) vocabSize)
          (out.mask vocabSize (reqs.length * n)) := by
  constructor
  · intro t below g mask depth htree htokens hwords hdepth
    refine traverseTree_spec htree (fun i hi => ?_) hdepth
    rw [hwords]
    exact div_lt_words (htokens i hi)
  · intro trees below reqs depth htree htokens hdepth
    rcases maskRequests_spec htree htokens hdepth reqs (i := 0) (Nat.zero_add _) ⟨[], none, none⟩
      rfl with ⟨out, hrun, hgrammars, hsome, hmasked⟩
    exact ⟨out, hrun, hgrammars, hsome, hmasked⟩

/-- A root with two children, of which the first has a child of its own. -/
def twoChildren : DraftTree where
  retrieveNextToken := fun i => if i = 0 then 1 else if i = 1 then 3 else -1
  retrieveNextSibling := fun i => if i = 1 then 2 else -1
  draftTokens := fun i => if i = 1 then 40 else if i = 2 then 7 else 63

/-- Its links. -/
def twoChildrenLinks : Links := .node 1 (.node 3 .nil .nil) (.node 2 .nil .nil)

/-- Tokens from 32 on, two of them. -/
def twoTokens : XGrammarGrammar :=
  ⟨[], ⟨fun _ token => decide (32 ≤ token), fun read => decide (read.length = 2)⟩, [], none⟩

theorem twoChildren_isTree : IsTree twoChildren 4 twoChildrenLinks where
  stored := .node (.node .nil .nil) (.node .nil .nil)
  root := rfl
  nodup := by decide
  lt := by decide

theorem draft_masks_exact_twoChildren :
    (∃ mask', traverseTree 4 twoChildren twoTokens (allocate 4 64) =
        .ok (twoTokens, mask') ∧ Masked twoTokens.ctx [] (rootPaths twoChildren twoChildrenLinks)
        (allocate 4 64) mask') ∧
    ∃ out, generateTokenBitmask 4 64 4 (fun _ => twoChildren) [none, some twoTokens] = .ok out ∧
      out.grammars = [none, some twoTokens] ∧ out.allocateTokenBitmask.isSome = true ∧
      BatchMasked 4 (fun _ => twoChildren) (fun _ => twoChildrenLinks) 0 [none, some twoTokens]
        (allocate 8 64) (out.mask 64 8) :=
  ⟨(draft_masks_exact 64 4).1 twoChildren twoChildrenLinks twoTokens (allocate 4 64) 4
      twoChildren_isTree (by decide) rfl (Nat.le_refl 4),
    (draft_masks_exact 64 4).2 (fun _ => twoChildren) (fun _ => twoChildrenLinks)
      [none, some twoTokens] 4 (fun _ _ => twoChildren_isTree)
      (fun _ _ j hj => (by decide : ∀ j ∈ twoChildrenLinks.nodes, twoChildren.draftTokens j < 64)
        j hj) (Nat.le_refl 4)⟩

end Batches

end SglangInc.Grammar
