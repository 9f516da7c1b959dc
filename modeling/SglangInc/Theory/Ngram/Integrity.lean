import SglangInc.Core.Ngram
import SglangInc.Lib.Checked
import SglangInc.Lib.Lookup
import SglangInc.Lib.Runs

/-!
# The Pool and the Lists of the N-Gram Trie

Every node is free, the root, or in `global_lru_`, and the nodes in `global_lru_` are
the ones that hang below the root (`trie_integrity`).

Nothing in the source looks for a leaf to take back. That the last node of
`global_lru_` is one follows from the order of that list (`ParentsFirst`): a branch
that is inserted is moved to its front from the deepest node up, and so a node is
always behind its parent. New nodes are put at the end first, behind their parents
as well.

The other facts say that the three containers of a node hold the same children, and
that those are the nodes that have it as their parent.
-/

namespace SglangInc.NgramTrie

open List Function Lookup Ngram

/-- The nodes of the trie. -/
inductive Reachable (s : Ngram) : Nat → Prop
  | root : Reachable s s.root
  | child {p c : Nat} {t : Int} : Reachable s p → (t, c) ∈ (s.nodes p).child → Reachable s c

/-- The containers of a node hold the same children. -/
structure Same (node : TrieNode) : Prop where
  keys : (node.child.map Prod.fst).Nodup
  lru : node.lru.Perm (node.child.map Prod.snd)
  sorted : node.sortedChildren.Perm (node.child.map Prod.snd)

/-- The nodes are free or in the trie, and the trie is well linked. -/
structure Inv (s : Ngram) : Prop where
  pool : s.nodePool.length = s.capacity
  free_le : s.freeNodeCount ≤ s.capacity
  partition : (s.nodePool.take s.freeNodeCount ++ s.root :: s.globalLru).Perm
    (List.range s.capacity)
  child : ∀ p ∈ s.root :: s.globalLru, ∀ t c, (t, c) ∈ (s.nodes p).child ↔
    c ∈ s.globalLru ∧ (s.nodes c).parent = some p ∧ (s.nodes c).token = t
  same : ∀ p, Same (s.nodes p)
  order : ∀ p ∈ s.root :: s.globalLru, (s.nodes p).sortedChildren.Pairwise (CompareByFreq s.nodes)
  first : ParentsFirst (fun n => (s.nodes n).parent) (· = s.root) s.globalLru

section Sorted

variable {nodes nodes' : Nat → TrieNode} {a b c n : Nat} {l : List Nat}

theorem not_compareByFreq_self : ¬CompareByFreq nodes a a := by
  rintro (h | ⟨-, h | ⟨-, h⟩⟩)
  · exact Int32.lt_irrefl h
  all_goals exact lt_irrefl _ h

theorem compareByFreq_total (h : a ≠ b) : CompareByFreq nodes a b ∨ CompareByFreq nodes b a := by
  simp only [CompareByFreq, Int32.lt_iff_toInt_lt, ← Int32.toInt_inj]
  omega

theorem CompareByFreq.trans (hab : CompareByFreq nodes a b) (hbc : CompareByFreq nodes b c) :
    CompareByFreq nodes a c := by
  simp only [CompareByFreq, Int32.lt_iff_toInt_lt, ← Int32.toInt_inj] at hab hbc ⊢
  omega

theorem compareByFreq_congr (ha : (nodes' a).freq = (nodes a).freq ∧
      (nodes' a).token = (nodes a).token)
    (hb : (nodes' b).freq = (nodes b).freq ∧ (nodes' b).token = (nodes b).token) :
    CompareByFreq nodes' a b ↔ CompareByFreq nodes a b := by
  simp [CompareByFreq, ha.1, ha.2, hb.1, hb.2]

theorem pairwise_congr (h : l.Pairwise (CompareByFreq nodes))
    (hsame : ∀ x ∈ l, (nodes' x).freq = (nodes x).freq ∧ (nodes' x).token = (nodes x).token) :
    l.Pairwise (CompareByFreq nodes') :=
  h.imp_of_mem fun ha hb hab => (compareByFreq_congr (hsame _ ha) (hsame _ hb)).mpr hab

/-- An element is equivalent to itself only. -/
theorem eraseSorted_eq (h : l.Nodup) : eraseSorted nodes n l = l.erase n := by
  rw [h.erase_eq_filter]
  refine filter_congr fun x _ => Bool.eq_iff_iff.mpr ?_
  rw [decide_eq_true_eq, bne_iff_ne]
  refine ⟨?_, compareByFreq_total⟩
  rintro h rfl
  exact h.elim not_compareByFreq_self not_compareByFreq_self

theorem insertSorted_congr
    (h : ∀ x, (nodes' x).freq = (nodes x).freq ∧ (nodes' x).token = (nodes x).token) :
    insertSorted nodes' n l = insertSorted nodes n l := by
  have hrel : CompareByFreq nodes' = CompareByFreq nodes :=
    funext₂ fun a b => propext (compareByFreq_congr (h a) (h b))
  unfold insertSorted
  congr!

theorem perm_insertSorted : (insertSorted nodes n l).Perm (n :: l) :=
  perm_orderedInsert _ n l

theorem pairwise_insertSorted (h : l.Pairwise (CompareByFreq nodes)) (hn : n ∉ l) :
    (insertSorted nodes n l).Pairwise (CompareByFreq nodes) := by
  induction l with
  | nil => exact pairwise_singleton _ n
  | cons x l ih =>
    rw [mem_cons, not_or] at hn
    rw [pairwise_cons] at h
    rw [insertSorted, orderedInsert_cons]
    split_ifs with hx
    · exact pairwise_cons.mpr ⟨forall_mem_cons.mpr ⟨hx, fun y hy => hx.trans (h.1 y hy)⟩,
        pairwise_cons.mpr h⟩
    · refine pairwise_cons.mpr ⟨fun y hy => ?_, ih h.2 hn.2⟩
      rcases mem_cons.mp (perm_insertSorted.mem_iff.mp hy) with rfl | hy
      · exact (compareByFreq_total hn.1).resolve_left hx
      · exact h.1 y hy

end Sorted

section Dictionary

variable {child : List (Int × Nat)} {t : Int} {c : Nat}

/-- An entry of a dictionary is its only one with that key. -/
theorem perm_filter_key (hkeys : (child.map Prod.fst).Nodup) (h : (t, c) ∈ child) :
    child.Perm ((t, c) :: child.filter (·.1 ≠ t)) := by
  have hfilter : child.filter (·.1 ≠ t) = child.erase (t, c) := by
    rw [hkeys.of_map.erase_eq_filter]
    refine filter_congr fun e he => Bool.eq_iff_iff.mpr ?_
    rw [decide_eq_true_eq, bne_iff_ne]
    exact not_congr ⟨fun heq => inj_on_of_nodup_map hkeys he h heq, congrArg Prod.fst⟩
  exact hfilter ▸ perm_cons_erase h

end Dictionary

section Live

variable {s : Ngram} {p n : Nat} {t : Int}

variable (h : Inv s)
include h

theorem Inv.nodup : (s.nodePool.take s.freeNodeCount ++ s.root :: s.globalLru).Nodup :=
  h.partition.nodup_iff.mpr nodup_range

theorem Inv.nodup_live : (s.root :: s.globalLru).Nodup :=
  (nodup_append.mp h.nodup).2.1

theorem Inv.nodup_lru : s.globalLru.Nodup :=
  h.nodup_live.of_cons

theorem Inv.length : s.freeNodeCount + 1 + s.globalLru.length = s.capacity := by
  have hlen := h.partition.length_eq
  rw [length_append, length_take, length_cons, length_range, h.pool,
    Nat.min_eq_left h.free_le] at hlen
  omega

variable (hp : p ∈ s.root :: s.globalLru)

include hp

/-- The children of a node of the trie, by their parent. -/
theorem Inv.mem_values :
    n ∈ (s.nodes p).child.map Prod.snd ↔ n ∈ s.globalLru ∧ (s.nodes n).parent = some p := by
  constructor
  · intro hn
    obtain ⟨⟨t, c⟩, he, rfl⟩ := mem_map.mp hn
    obtain ⟨hlive, hpar, -⟩ := (h.child p hp t c).mp he
    exact ⟨hlive, hpar⟩
  · rintro ⟨hlive, hpar⟩
    exact mem_map.mpr ⟨_, (h.child p hp _ n).mpr ⟨hlive, hpar, rfl⟩, rfl⟩

theorem Inv.nodup_values :
    ((s.nodes p).child.map Prod.snd).Nodup := by
  refine List.Nodup.map_on ?_ (h.same p).keys.of_map
  rintro ⟨t, c⟩ he ⟨t', c'⟩ he' rfl
  have ht := ((h.child p hp t c).mp he).2.2
  have ht' := ((h.child p hp t' c).mp he').2.2
  rw [← ht, ← ht']

theorem Inv.mem_sorted :
    n ∈ (s.nodes p).sortedChildren ↔ n ∈ s.globalLru ∧ (s.nodes n).parent = some p :=
  (h.same p).sorted.mem_iff.trans (h.mem_values hp)

omit hp

theorem Inv.ne_root (hn : n ∈ s.globalLru) : n ≠ s.root := by
  rintro rfl
  exact (nodup_cons.mp h.nodup_live).1 hn

/-- A node is not its own parent. -/
theorem Inv.parent_ne (hn : n ∈ s.globalLru) (hpar : (s.nodes n).parent = some p) : p ≠ n := by
  rintro rfl
  obtain ⟨pre, post, hl⟩ := append_of_mem hn
  obtain ⟨q, hq, hin⟩ := h.first pre p post hl
  cases hpar.symm.trans hq
  have hpre := hin.resolve_left (h.ne_root hn)
  have hnodup := h.nodup_lru
  rw [hl] at hnodup
  exact disjoint_of_nodup_append hnodup hpre mem_cons_self

theorem Inv.parent_live (hn : n ∈ s.globalLru) :
    ∃ p ∈ s.root :: s.globalLru, (s.nodes n).parent = some p := by
  obtain ⟨p, hp, hin⟩ := h.first.parent hn
  exact ⟨p, mem_cons.mpr hin, hp⟩

theorem Inv.live_of_reachable (hn : Reachable s n) : n ∈ s.root :: s.globalLru := by
  induction hn with
  | root => exact mem_cons_self
  | child _ hc ih => exact mem_cons_of_mem _ ((h.child _ ih _ _).mp hc).1

/-- The nodes of the trie are those of `global_lru_`, and the root. -/
theorem Inv.reachable_iff (n : Nat) : Reachable s n ∧ n ≠ s.root ↔ n ∈ s.globalLru := by
  constructor
  · exact fun ⟨hr, hne⟩ => (mem_cons.mp (h.live_of_reachable hr)).resolve_left hne
  · intro hn
    refine ⟨?_, h.ne_root hn⟩
    refine h.first.induction (P := Reachable s) (fun n hn p hp hr => ?_) n hn
    have hreach : Reachable s p := hr.elim (fun heq => heq ▸ .root) id
    obtain ⟨q, hq, hpar⟩ := h.parent_live hn
    cases hp.symm.trans hpar
    exact hreach.child ((h.child p hq _ n).mpr ⟨hn, hp, rfl⟩)

end Live

/-- What an insertion leaves as it was. -/
structure Fixed (s s' : Ngram) : Prop where
  root : s'.root = s.root
  capacity : s'.capacity = s.capacity
  param : s'.param = s.param

theorem Fixed.trans {s1 s2 s3 : Ngram} (h : Fixed s1 s2) (h' : Fixed s2 s3) : Fixed s1 s3 :=
  ⟨h'.root.trans h.root, h'.capacity.trans h.capacity, h'.param.trans h.param⟩

section Release

variable {s : Ngram} {l : List Nat} {last : Nat}

/-- The last node of `global_lru_` is a leaf. -/
theorem Inv.child_last (h : Inv s) (hl : s.globalLru = l ++ [last]) :
    (s.nodes last).child = [] := by
  have hlast : last ∈ s.globalLru := by simp [hl]
  refine eq_nil_iff_forall_not_mem.mpr fun ⟨t, c⟩ he => ?_
  obtain ⟨hc, hpar, -⟩ := (h.child last (mem_cons_of_mem _ hlast) t c).mp he
  have hfirst := h.first
  have hnodup := h.nodup_lru
  rw [hl] at hfirst hnodup hc
  exact hfirst.ne_of_last hnodup (h.ne_root hlast) hc hpar

/-- A child is erased from the three containers. -/
theorem Same.erase {node : TrieNode} (h : Same node) {t : Int} {c : Nat}
    (hc : (t, c) ∈ node.child) (hnodup : (node.child.map Prod.snd).Nodup) (nodes : Nat → TrieNode) :
    Same { node with
      lru := node.lru.erase c
      sortedChildren := eraseSorted nodes c node.sortedChildren
      child := node.child.filter (·.1 ≠ t) } := by
  have hvalues := (perm_filter_key h.keys hc).map Prod.snd
  have herase : ∀ l : List Nat, l.Perm (node.child.map Prod.snd) →
      (l.erase c).Perm ((node.child.filter (·.1 ≠ t)).map Prod.snd) := by
    intro l hl
    have := (hl.trans hvalues).erase c
    rwa [map_cons, erase_cons_head] at this
  refine ⟨h.keys.sublist (filter_sublist.map _), herase _ h.lru, ?_⟩
  rw [eraseSorted_eq (h.sorted.nodup_iff.mpr hnodup)]
  exact herase _ h.sorted

/-- The last node of `global_lru_` is taken back. -/
theorem release_spec (h : Inv s) (hl : s.globalLru = l ++ [last]) :
    ∃ s', s.release = .ok s' ∧ Inv s' ∧ s'.globalLru = l ∧
      s'.freeNodeCount = s.freeNodeCount + 1 ∧ Fixed s s' := by
  have hlast : last ∈ s.globalLru := by simp [hl]
  have hnodup := h.nodup_lru
  have hnot : last ∉ l := by
    rw [hl] at hnodup
    exact fun hin => disjoint_of_nodup_append hnodup hin (mem_singleton_self _)
  obtain ⟨p, hp, hpar⟩ := h.parent_live hlast
  have hne := h.parent_ne hlast hpar
  -- What the parent is afterwards.
  set nodes' := update s.nodes p { s.nodes p with
    lru := (s.nodes p).lru.erase last
    sortedChildren := eraseSorted s.nodes last (s.nodes p).sortedChildren
    child := (s.nodes p).child.filter (·.1 ≠ (s.nodes last).token) } with hnodes
  have hentry : ((s.nodes last).token, last) ∈ (s.nodes p).child :=
    (h.child p hp _ last).mpr ⟨hlast, hpar, rfl⟩
  have hsame : ∀ n, (nodes' n).parent = (s.nodes n).parent ∧ (nodes' n).token = (s.nodes n).token ∧
      (nodes' n).freq = (s.nodes n).freq :=
    (forall_update_iff s.nodes fun n x => x.parent = (s.nodes n).parent ∧
      x.token = (s.nodes n).token ∧ x.freq = (s.nodes n).freq).mpr
      ⟨⟨rfl, rfl, rfl⟩, fun _ _ => ⟨rfl, rfl, rfl⟩⟩
  have hlive : ∀ q ∈ s.root :: l, q ∈ s.root :: s.globalLru := fun q hq => by
    rw [hl]
    exact (mem_append_left _ hq : q ∈ (s.root :: l) ++ [last])
  refine ⟨⟨nodes', s.capacity, s.nodePool.set s.freeNodeCount last, s.freeNodeCount + 1, l, s.root,
    s.param⟩, ?_, ?_, rfl, rfl, rfl, rfl, rfl⟩
  · simp [release, hl, h.child_last hl, hpar, Ngram.update, hnodes]
  · have hlen := h.length
    refine ⟨?_, ?_, ?_, ?_, ?_, ?_, ?_⟩
    · rw [length_set, h.pool]
    · show s.freeNodeCount + 1 ≤ s.capacity
      omega
    · rw [take_add_one, getElem?_set_self (by rw [h.pool]; omega),
        take_set_of_le le_rfl, append_assoc]
      refine List.Perm.trans ?_ h.partition
      rw [hl, ← cons_append]
      exact perm_append_comm.append_left _
    · intro q hq t c
      show (t, c) ∈ (nodes' q).child ↔ c ∈ l ∧ (nodes' c).parent = some q ∧ (nodes' c).token = t
      have hold := h.child q (hlive q hq) t c
      -- The entry of the last node goes, and no other.
      have hentries : (t, c) ∈ (nodes' q).child ↔ (t, c) ∈ (s.nodes q).child ∧ c ≠ last := by
        rw [hnodes, update_apply]
        split_ifs with hqp
        · subst hqp
          simp only [mem_filter, decide_eq_true_eq]
          refine and_congr_right fun hc => not_congr ⟨?_, ?_⟩
          · rintro rfl
            exact congrArg Prod.snd (inj_on_of_nodup_map (h.same q).keys hc hentry rfl)
          · rintro rfl
            exact (hold.mp hc).2.2.symm
        · refine (and_iff_left_of_imp fun hc heq => hqp ?_).symm
          exact Option.some.inj ((hold.mp hc).2.1.symm.trans (heq ▸ hpar))
      have hother : c ∈ l → c ≠ last := fun hc heq => hnot (heq ▸ hc)
      rw [hentries, hold, (hsame c).1, (hsame c).2.1, hl, mem_append, mem_singleton]
      tauto
    · exact (forall_update_iff s.nodes fun _ => Same).mpr
        ⟨(h.same p).erase hentry (h.nodup_values hp) s.nodes, fun q _ => h.same q⟩
    · intro q hq
      show (nodes' q).sortedChildren.Pairwise (CompareByFreq nodes')
      refine pairwise_congr ?_ fun x _ => ⟨(hsame x).2.2, (hsame x).2.1⟩
      rw [hnodes, update_apply]
      split_ifs
      · exact (h.order p hp).filter _
      · exact h.order q (hlive q hq)
    · have hfirst := h.first
      rw [hl] at hfirst
      exact hfirst.of_append.congr fun n _ => (hsame n).1

/-- `squeeze` takes back as many nodes as it is asked for. -/
theorem releaseMany_spec (count : Nat) {s : Ngram} (h : Inv s)
    (hcount : count ≤ s.globalLru.length) :
    ∃ s', releaseMany count s = .ok s' ∧ Inv s' ∧ s'.freeNodeCount = s.freeNodeCount + count ∧
      Fixed s s' := by
  induction count generalizing s with
  | zero => exact ⟨s, rfl, h, rfl, rfl, rfl, rfl⟩
  | succ count ih =>
    rcases eq_nil_or_concat s.globalLru with hnil | ⟨l, last, hl⟩
    · rw [hnil] at hcount
      exact absurd hcount (Nat.not_succ_le_zero count)
    rw [concat_eq_append] at hl
    obtain ⟨s1, hs1, hinv1, hl1, hfree1, hfixed1⟩ := release_spec h hl
    obtain ⟨s2, hs2, hinv2, hfree2, hfixed2⟩ := ih hinv1 (by
      rw [hl, length_append, length_singleton] at hcount
      rw [hl1]
      omega)
    refine ⟨s2, ?_, hinv2, by omega, hfixed1.trans hfixed2⟩
    rwa [releaseMany, hs1]

end Release

section Visit

variable {s : Ngram} {cursor node k : Nat} {token : Int}

theorem getNode_eq (hfree : s.freeNodeCount = k + 1) (hnode : s.nodePool[k]? = some node) :
    s.getNode = .ok (node, { s.update node fun _ => {} with freeNodeCount := k }) := by
  simp [getNode, hfree, hnode]

/-- What a visit leaves as it was. -/
structure Visited (s : Ngram) (cursor node : Nat) (s' : Ngram) : Prop extends Fixed s s' where
  inv : Inv s'
  live : node ∈ s'.globalLru
  parent : (s'.nodes node).parent = some cursor
  old : ∀ n ∈ s.globalLru, n ∈ s'.globalLru ∧ (s'.nodes n).parent = (s.nodes n).parent
  free : s.freeNodeCount ≤ s'.freeNodeCount + 1

/-- A node changes, but not its `freq` and its `token`. -/
theorem update_freq_token {nodes : Nat → TrieNode} {node' : TrieNode}
    (hfreq : node'.freq = (nodes cursor).freq) (htoken : node'.token = (nodes cursor).token)
    (x : Nat) : (update nodes cursor node' x).freq = (nodes x).freq ∧
      (update nodes cursor node' x).token = (nodes x).token :=
  (forall_update_iff nodes fun x y => y.freq = (nodes x).freq ∧ y.token = (nodes x).token).mpr
    ⟨⟨hfreq, htoken⟩, fun _ _ => ⟨rfl, rfl⟩⟩ x

/-- What holds of `cursor`, of `node` and of the nodes that do not change. -/
theorem forall_changed {nodes nodes' : Nat → TrieNode}
    (hother : ∀ n, n ≠ cursor → n ≠ node → nodes' n = nodes n) {P : Nat → TrieNode → Prop}
    (hat : P cursor (nodes' cursor)) (hnew : P node (nodes' node)) (h : ∀ n, P n (nodes n))
    (n : Nat) : P n (nodes' n) := by
  by_cases hc : n = cursor
  · exact hc ▸ hat
  by_cases hn : n = node
  · exact hn ▸ hnew
  · exact (hother n hc hn).symm ▸ h n

section Visits

variable (h : Inv s) (hcursor : cursor ∈ s.root :: s.globalLru)
include h hcursor

/-- A free node becomes a child of `cursor`. -/
theorem Inv.addChild (hkey : token ∉ (s.nodes cursor).child.map Prod.fst)
    (htake : s.nodePool.take s.freeNodeCount = s.nodePool.take k ++ [node]) (hk : k ≤ s.capacity)
    (nodes' : Nat → TrieNode) (hat : nodes' cursor = { s.nodes cursor with
      child := (token, node) :: (s.nodes cursor).child
      lru := node :: (s.nodes cursor).lru
      sortedChildren := insertSorted nodes' node (s.nodes cursor).sortedChildren })
    (hnew : nodes' node = { token := token, parent := some cursor, freq := 1 })
    (hother : ∀ n, n ≠ cursor → n ≠ node → nodes' n = s.nodes n) :
    Inv { s with nodes := nodes', freeNodeCount := k, globalLru := s.globalLru ++ [node] } ∧
      ∀ n ∈ s.globalLru, (nodes' n).parent = (s.nodes n).parent := by
  have hpart := h.partition
  rw [htake] at hpart
  have hfresh : node ∉ s.root :: s.globalLru := fun hin =>
    disjoint_of_nodup_append (hpart.nodup_iff.mpr nodup_range) (by simp) hin
  have hne : cursor ≠ node := fun heq => hfresh (heq ▸ hcursor)
  have hsame : ∀ n ∈ s.root :: s.globalLru, (nodes' n).parent = (s.nodes n).parent ∧
      (nodes' n).token = (s.nodes n).token ∧ (nodes' n).freq = (s.nodes n).freq := by
    intro n hn
    by_cases hc : n = cursor
    · subst hc
      rw [hat]
      exact ⟨rfl, rfl, rfl⟩
    · rw [hother n hc fun heq => hfresh (heq ▸ hn)]
      exact ⟨rfl, rfl, rfl⟩
  have hlive : ∀ p ∈ s.root :: (s.globalLru ++ [node]), p ≠ node → p ∈ s.root :: s.globalLru := by
    intro p hp hpn
    simp only [mem_cons, mem_append, not_mem_nil, or_false] at hp ⊢
    tauto
  refine ⟨⟨h.pool, hk, ?_, ?_, ?_, ?_, ?_⟩, fun n hn => (hsame n (mem_cons_of_mem _ hn)).1⟩
  · refine List.Perm.trans ?_ hpart
    rw [← cons_append, append_assoc]
    exact perm_append_comm.append_left _
  · intro p hp t c
    show (t, c) ∈ (nodes' p).child ↔
      c ∈ s.globalLru ++ [node] ∧ (nodes' c).parent = some p ∧ (nodes' c).token = t
    -- The new node, and what was there before.
    have hin : (c ∈ s.globalLru ++ [node] ∧ (nodes' c).parent = some p ∧ (nodes' c).token = t) ↔
        (c ∈ s.globalLru ∧ (s.nodes c).parent = some p ∧ (s.nodes c).token = t) ∨
          c = node ∧ cursor = p ∧ token = t := by
      rw [mem_append, mem_singleton, or_and_right]
      refine or_congr (and_congr_right fun hc => ?_) (and_congr_right fun hc => ?_)
      · have hc' := hsame c (mem_cons_of_mem _ hc)
        rw [hc'.1, hc'.2.1]
      · rw [hc, hnew, Option.some.injEq]
    rw [hin]
    by_cases hpn : p = node
    · -- Nothing hangs below the new node.
      subst hpn
      rw [hnew]
      refine iff_of_false not_mem_nil ?_
      rintro (⟨hc, hpar, -⟩ | ⟨-, heq, -⟩)
      · obtain ⟨q, hq, hcq⟩ := h.parent_live hc
        cases hpar.symm.trans hcq
        exact hfresh hq
      · exact hne heq
    rw [← h.child p (hlive p hp hpn) t c]
    by_cases hpc : p = cursor
    · subst hpc
      rw [hat, mem_cons, Prod.mk.injEq, or_comm, and_comm, eq_comm (a := t)]
      simp
    · rw [hother p hpc hpn]
      exact (or_iff_left fun hor => hpc hor.2.1.symm).symm
  · refine forall_changed hother (P := fun _ => Same) ?_ ?_ h.same
    · have hs := h.same cursor
      rw [hat]
      exact ⟨nodup_cons.mpr ⟨hkey, hs.keys⟩, hs.lru.cons node,
        perm_insertSorted.trans (hs.sorted.cons node)⟩
    · rw [hnew]
      exact ⟨nodup_nil, List.Perm.nil, List.Perm.nil⟩
  · intro p hp
    show (nodes' p).sortedChildren.Pairwise (CompareByFreq nodes')
    by_cases hpn : p = node
    · subst hpn
      rw [hnew]
      exact List.Pairwise.nil
    have hp' := hlive p hp hpn
    have hkept : (s.nodes p).sortedChildren.Pairwise (CompareByFreq nodes') := by
      refine pairwise_congr (h.order p hp') fun x hx => ?_
      have hx' := hsame x (mem_cons_of_mem _ ((h.mem_sorted hp').mp hx).1)
      exact ⟨hx'.2.2, hx'.2.1⟩
    by_cases hpc : p = cursor
    · subst hpc
      rw [hat]
      refine pairwise_insertSorted hkept fun hin => hfresh ?_
      exact mem_cons_of_mem _ ((h.mem_sorted hp').mp hin).1
    · rwa [hother p hpc hpn]
  · refine (h.first.congr fun n hn => (hsame n (mem_cons_of_mem _ hn)).1).concat
      (p := cursor) ?_ (mem_cons.mp hcursor)
    rw [hnew]

/-- A new node below `cursor`. -/
theorem visit_new (hlookup : (s.nodes cursor).child.lookup token = none)
    (hfree : 0 < s.freeNodeCount) :
    ∃ node s', s.visit cursor token = .ok (node, s') ∧ Visited s cursor node s' := by
  obtain ⟨k, hk⟩ := Nat.exists_eq_succ_of_ne_zero hfree.ne'
  have hle := h.free_le
  have hlt : k < s.nodePool.length := by
    rw [h.pool]
    omega
  obtain ⟨node, hnode⟩ : ∃ node, s.nodePool[k]? = some node := ⟨_, getElem?_eq_getElem hlt⟩
  have htake : s.nodePool.take s.freeNodeCount = s.nodePool.take k ++ [node] := by
    rw [hk, Nat.succ_eq_add_one, take_add_one, hnode]
    rfl
  have hne : cursor ≠ node := by
    rintro rfl
    have hnodup := h.nodup
    rw [htake] at hnodup
    exact disjoint_of_nodup_append hnodup (by simp) hcursor
  set grown := { s.nodes cursor with
    child := (token, node) :: (s.nodes cursor).child
    lru := node :: (s.nodes cursor).lru }
  set nodes1 := update (update s.nodes cursor grown) node
    { token := token, parent := some cursor, freq := 1 } with hnodes1
  set nodes' := update nodes1 cursor { grown with
    sortedChildren := insertSorted nodes1 node (s.nodes cursor).sortedChildren } with hnodes'
  have hat1 : nodes1 cursor = grown := by
    rw [hnodes1, update_of_ne hne, update_self]
  have hvisit : s.visit cursor token = .ok (node, ⟨nodes', s.capacity, s.nodePool, k,
      s.globalLru ++ [node], s.root, s.param⟩) := by
    simp only [visit, hlookup, getNode_eq hk hnode, bind, Except.bind, Ngram.update,
      update_of_ne hne, update_of_ne hne.symm, update_self]
    have hcomm : update (update (update s.nodes node {}) cursor grown) node
        { token := token, parent := some cursor, freq := 1 } = nodes1 := by
      -- What the node was before does not matter.
      rw [update_comm hne.symm, update_idem]
    rw [hcomm]
    rfl
  have hnew : nodes' node = { token := token, parent := some cursor, freq := 1 } := by
    rw [hnodes', update_of_ne hne.symm, hnodes1, update_self]
  obtain ⟨hinv, hold⟩ := h.addChild hcursor (not_mem_keys_of_lookup hlookup) htake (by omega)
    nodes' (by
      rw [insertSorted_congr (update_freq_token (by rw [hat1]) (by rw [hat1]))]
      exact update_self _ _ _) hnew (fun n hn hn' => by
      rw [hnodes', update_of_ne hn, hnodes1, update_of_ne hn', update_of_ne hn])
  refine ⟨node, _, hvisit, ⟨rfl, rfl, rfl⟩, hinv, by simp, ?_,
    fun n hn => ⟨mem_append_left _ hn, hold n hn⟩, ?_⟩
  · show (nodes' node).parent = some cursor
    rw [hnew]
  · show s.freeNodeCount ≤ k + 1
    omega

/-- A child of `cursor` is moved to the front, and counted once more. -/
theorem Inv.touchChild (hnode : node ∈ s.globalLru) (hpar : (s.nodes node).parent = some cursor)
    (nodes' : Nat → TrieNode) {freq : Int32} (hat : nodes' cursor = { s.nodes cursor with
      sortedChildren := insertSorted nodes' node ((s.nodes cursor).sortedChildren.erase node)
      lru := moveFront node (s.nodes cursor).lru })
    (hnew : nodes' node = { s.nodes node with freq := freq })
    (hother : ∀ n, n ≠ cursor → n ≠ node → nodes' n = s.nodes n) :
    Inv { s with nodes := nodes' } ∧ ∀ n, (nodes' n).parent = (s.nodes n).parent := by
  have hnodup : (s.nodes cursor).sortedChildren.Nodup :=
    (h.same cursor).sorted.nodup_iff.mpr (h.nodup_values hcursor)
  have hsame : ∀ n, (nodes' n).parent = (s.nodes n).parent ∧
      (nodes' n).token = (s.nodes n).token ∧ (nodes' n).child = (s.nodes n).child ∧
      (n ≠ node → (nodes' n).freq = (s.nodes n).freq) ∧
      (n ≠ cursor → (nodes' n).sortedChildren = (s.nodes n).sortedChildren) := by
    refine forall_changed hother (P := fun n x => x.parent = (s.nodes n).parent ∧
      x.token = (s.nodes n).token ∧ x.child = (s.nodes n).child ∧
      (n ≠ node → x.freq = (s.nodes n).freq) ∧
      (n ≠ cursor → x.sortedChildren = (s.nodes n).sortedChildren)) ?_ ?_
      fun n => ⟨rfl, rfl, rfl, fun _ => rfl, fun _ => rfl⟩
    · rw [hat]
      exact ⟨rfl, rfl, rfl, fun _ => rfl, fun hne => absurd rfl hne⟩
    · rw [hnew]
      exact ⟨rfl, rfl, rfl, fun hne => absurd rfl hne, fun _ => rfl⟩
  refine ⟨⟨h.pool, h.free_le, h.partition, ?_, ?_, ?_, h.first.congr fun n _ => (hsame n).1⟩,
    fun n => (hsame n).1⟩
  · intro p hp t c
    rw [(hsame p).2.2.1, (hsame c).1, (hsame c).2.1]
    exact h.child p hp t c
  · refine forall_changed hother (P := fun _ => Same) ?_ ?_ h.same
    · have hs := h.same cursor
      rw [hat]
      refine ⟨hs.keys, ?_, ?_⟩
      · exact (moveFront_perm ((hs.lru.mem_iff.trans (h.mem_values hcursor)).mpr
          ⟨hnode, hpar⟩)).trans hs.lru
      · refine perm_insertSorted.trans (List.Perm.trans ?_ hs.sorted)
        exact (perm_cons_erase ((h.mem_sorted hcursor).mpr ⟨hnode, hpar⟩)).symm
    · have hs := h.same node
      rw [hnew]
      exact ⟨hs.keys, hs.lru, hs.sorted⟩
  · intro p hp
    show (nodes' p).sortedChildren.Pairwise (CompareByFreq nodes')
    -- Only the order below `cursor` depends on what the node has.
    have hkept : ∀ l : List Nat, l.Sublist (s.nodes p).sortedChildren → node ∉ l →
        l.Pairwise (CompareByFreq nodes') := by
      intro l hl hnot
      refine pairwise_congr ((h.order p hp).sublist hl) fun x hx => ?_
      exact ⟨(hsame x).2.2.2.1 fun heq => hnot (heq ▸ hx), (hsame x).2.1⟩
    by_cases hpc : p = cursor
    · subst hpc
      rw [hat]
      exact pairwise_insertSorted (hkept _ erase_sublist hnodup.not_mem_erase) hnodup.not_mem_erase
    rw [(hsame p).2.2.2.2 hpc]
    refine hkept _ (List.Sublist.refl _) fun hin' => hpc ?_
    exact Option.some.inj (((h.mem_sorted hp).mp hin').2.symm.trans hpar)

/-- A child of `cursor` that is there already. -/
theorem visit_old (hlookup : (s.nodes cursor).child.lookup token = some node) :
    ∃ s', s.visit cursor token = .ok (node, s') ∧ Visited s cursor node s' := by
  obtain ⟨hnode, hpar, -⟩ := (h.child cursor hcursor token node).mp (mem_of_lookup hlookup)
  have hne := h.parent_ne hnode hpar
  have herase : eraseSorted s.nodes node (s.nodes cursor).sortedChildren =
      (s.nodes cursor).sortedChildren.erase node :=
    eraseSorted_eq ((h.same cursor).sorted.nodup_iff.mpr (h.nodup_values hcursor))
  set erased := (s.nodes cursor).sortedChildren.erase node
  set nodes1 := update (update s.nodes cursor
    { s.nodes cursor with sortedChildren := erased }) node
    { s.nodes node with freq := (s.nodes node).freq + 1 } with hnodes1
  set nodes' := update nodes1 cursor { s.nodes cursor with
    sortedChildren := insertSorted nodes1 node erased
    lru := moveFront node (s.nodes cursor).lru } with hnodes'
  have hat1 : nodes1 cursor = { s.nodes cursor with sortedChildren := erased } := by
    rw [hnodes1, update_of_ne hne, update_self]
  have hvisit : s.visit cursor token = .ok (node, { s with nodes := nodes' }) := by
    simp only [visit, hlookup, Ngram.update, update_of_ne hne, update_of_ne hne.symm,
      update_self, herase]
    rfl
  obtain ⟨hinv, hold⟩ := h.touchChild hcursor hnode hpar nodes' (by
      rw [insertSorted_congr (update_freq_token (by rw [hat1]) (by rw [hat1]))]
      exact update_self _ _ _) (by
      rw [hnodes', update_of_ne hne.symm, hnodes1, update_self])
    (fun n hn hn' => by
      rw [hnodes', update_of_ne hn, hnodes1, update_of_ne hn', update_of_ne hn])
  exact ⟨_, hvisit, ⟨rfl, rfl, rfl⟩, hinv, hnode, (hold node).trans hpar,
    fun n hn => ⟨hn, hold n⟩, Nat.le_succ _⟩

/-- One token of a branch finds its node or makes one. -/
theorem visit_spec (token : Int) (hfree : 0 < s.freeNodeCount) :
    ∃ node s', s.visit cursor token = .ok (node, s') ∧ Visited s cursor node s' := by
  cases hlookup : (s.nodes cursor).child.lookup token with
  | none => exact visit_new h hcursor hlookup hfree
  | some node => exact ⟨node, visit_old h hcursor hlookup⟩

end Visits

/-- The nodes of a branch, each the parent of the next. -/
theorem visitPath_spec (branch : List Int) {s : Ngram} {cursor : Nat} (h : Inv s)
    (hcursor : cursor ∈ s.root :: s.globalLru) (hfree : branch.length ≤ s.freeNodeCount) :
    ∃ path s', s.visitPath cursor branch = .ok (path, s') ∧ Inv s' ∧
      List.IsChain (fun p n => (s'.nodes n).parent = some p) (cursor :: path) ∧
      (∀ n ∈ path, n ∈ s'.globalLru) ∧
      (∀ n ∈ s.globalLru, n ∈ s'.globalLru ∧ (s'.nodes n).parent = (s.nodes n).parent) ∧
      Fixed s s' := by
  induction branch generalizing s cursor with
  | nil =>
    exact ⟨[], s, rfl, h, isChain_singleton cursor, forall_mem_nil _,
      fun n hn => ⟨hn, rfl⟩, rfl, rfl, rfl⟩
  | cons token rest ih =>
    rw [length_cons] at hfree
    obtain ⟨node, s1, hs1, hv⟩ := visit_spec h hcursor token (by omega)
    have hfree1 := hv.free
    obtain ⟨path, s2, hs2, hinv2, hchain, hpath, hold, hfixed⟩ :=
      ih hv.inv (mem_cons_of_mem _ hv.live) (by omega)
    refine ⟨node :: path, s2, ?_, hinv2, ?_, ?_, ?_, hv.toFixed.trans hfixed⟩
    · simp only [visitPath, hs1, hs2, bind, Except.bind]
      rfl
    · refine isChain_cons_cons.mpr ⟨?_, hchain⟩
      exact (hold node hv.live).2.trans hv.parent
    · exact forall_mem_cons.mpr ⟨(hold _ hv.live).1, hpath⟩
    · intro n hn
      obtain ⟨hn1, hpar1⟩ := hv.old n hn
      obtain ⟨hn2, hpar2⟩ := hold n hn1
      exact ⟨hn2, hpar2.trans hpar1⟩

end Visit

section Insert

variable {s : Ngram}

/-- `global_lru_` is reordered, with parents first. -/
theorem Inv.reorder (h : Inv s) {l : List Nat} (hperm : l.Perm s.globalLru)
    (hfirst : ParentsFirst (fun n => (s.nodes n).parent) (· = s.root) l) :
    Inv { s with globalLru := l } := by
  have hmem : ∀ n, n ∈ s.root :: l → n ∈ s.root :: s.globalLru := fun n =>
    (hperm.cons s.root).mem_iff.mp
  refine ⟨h.pool, h.free_le, ((hperm.cons _).append_left _).trans h.partition, fun p hp t c => ?_,
    h.same, fun p hp => h.order p (hmem p hp), hfirst⟩
  rw [hperm.mem_iff]
  exact h.child p (hmem p hp) t c

/-- Enough nodes can be taken back for a branch. -/
theorem reserve_spec (h : Inv s) {count : Nat} (hcount : count < s.capacity) :
    ∃ s', s.reserve count = .ok s' ∧ Inv s' ∧ count ≤ s'.freeNodeCount ∧ Fixed s s' := by
  have hlen := h.length
  rw [reserve]
  split_ifs with hgt
  · rw [squeeze, if_neg (by rw [h.pool, not_not]; omega)]
    obtain ⟨s1, hs1, hinv1, hfree1, hrest⟩ := releaseMany_spec (count - s.freeNodeCount) h
      (by omega)
    exact ⟨s1, hs1, hinv1, by omega, hrest⟩
  · exact ⟨s, rfl, h, by omega, rfl, rfl, rfl⟩

/-- One branch is inserted, with the nodes it needs released before. -/
theorem insertBranch_spec (h : Inv s) (hcap : s.param.branchLength < s.capacity)
    (data : List Int) (i : Nat) :
    ∃ s', insertBranch data s i = .ok s' ∧ Inv s' ∧ Fixed s s' := by
  set branch := (data.drop i).take s.param.branchLength with hbranch
  have hle : branch.length ≤ s.param.branchLength := by
    rw [hbranch, length_take]
    exact Nat.min_le_left _ _
  obtain ⟨s1, hs1, hinv1, hfree1, hfixed1⟩ := reserve_spec h (hle.trans_lt hcap)
  obtain ⟨path, s2, hs2, hinv2, hchain, hpath, -, hfixed2⟩ :=
    visitPath_spec branch hinv1 mem_cons_self hfree1
  have hfixed := hfixed1.trans hfixed2
  refine ⟨{ s2 with globalLru := path.foldr moveFront s2.globalLru }, ?_, ?_,
    ⟨hfixed.root, hfixed.capacity, hfixed.param⟩⟩
  · simp only [insertBranch, ← hbranch, hs1, hs2, bind, Except.bind]
    rfl
  · refine hinv2.reorder (foldr_moveFront_perm hpath) ?_
    rw [← hfixed2.root] at hchain
    exact (hinv2.first.moveFront_path hinv2.nodup_lru hchain hpath).mono fun p hp => hp.elim id id

theorem insert_spec (h : Inv s) (hcap : s.param.branchLength < s.capacity) (data : List Int) :
    ∃ s', s.insert data = .ok s' ∧ Inv s' ∧ Fixed s s' := by
  rw [Ngram.insert]
  induction List.range (data.length - s.param.minMatchWindowSize) generalizing s with
  | nil => exact ⟨s, rfl, h, rfl, rfl, rfl⟩
  | cons i is ih =>
    obtain ⟨s1, hs1, hinv1, hfixed1⟩ := insertBranch_spec h hcap data i
    obtain ⟨s2, hs2, hinv2, hfixed2⟩ := ih hinv1 (by rwa [hfixed1.capacity, hfixed1.param])
    refine ⟨s2, ?_, hinv2, hfixed1.trans hfixed2⟩
    rwa [foldlM_cons, hs1]

/-- The pool is full, up to the root. What the other nodes hold from before does not
    matter, but their containers agree. -/
theorem fillPool_spec (s : Ngram) (hsame : ∀ p, Same (s.nodes p)) (hcap : 0 < s.capacity) :
    ∃ s', s.fillPool = .ok s' ∧ Inv s' ∧ s'.capacity = s.capacity ∧ s'.param = s.param := by
  obtain ⟨k, hk⟩ := Nat.exists_eq_succ_of_ne_zero hcap.ne'
  -- The root is the last node of the pool.
  have hpool : (List.range s.capacity)[k]? = some k := getElem?_range (by omega)
  have htake : (List.range s.capacity).take k ++ [k] = List.range s.capacity := by
    rw [hk, Nat.succ_eq_add_one, range_succ, take_left']
    exact length_range
  refine ⟨⟨update s.nodes k {}, s.capacity, List.range s.capacity, k, [], k, s.param⟩, ?_,
    ⟨?_, ?_, ?_, ?_, ?_, ?_, ?_⟩, rfl, rfl⟩
  · rw [fillPool, getNode_eq (show ({ s with
        globalLru := []
        nodePool := List.range s.capacity
        freeNodeCount := s.capacity } : Ngram).freeNodeCount = k + 1 from hk) hpool]
    rfl
  · exact length_range
  · show k ≤ s.capacity
    omega
  · rw [htake]
  · intro p hp t c
    obtain rfl := mem_singleton.mp hp
    show (t, c) ∈ (update s.nodes p {} p).child ↔ _
    rw [update_self]
    exact iff_of_false not_mem_nil fun hc => nomatch hc.1
  · exact (forall_update_iff s.nodes fun _ => Same).mpr
      ⟨⟨nodup_nil, List.Perm.nil, List.Perm.nil⟩, fun p _ => hsame p⟩
  · intro p hp
    obtain rfl := mem_singleton.mp hp
    show (update s.nodes p {} p).sortedChildren.Pairwise _
    rw [update_self]
    exact List.Pairwise.nil
  · exact ParentsFirst.nil

end Insert

section Runs

/-- The pool, the list and the containers fit together. -/
structure Integrity (s : Ngram) : Prop where
  partition : (s.nodePool.take s.freeNodeCount ++ s.root :: s.globalLru).Perm
    (List.range s.capacity)
  lru : s.globalLru.Nodup ∧ ∀ n, n ∈ s.globalLru ↔ Reachable s n ∧ n ≠ s.root
  /-- A node is behind its parent. -/
  behind : ∀ p t c, Reachable s p → (t, c) ∈ (s.nodes p).child → ∀ pre post,
    s.globalLru = pre ++ c :: post → p = s.root ∨ p ∈ pre
  /-- The node that `squeeze` takes next is a leaf. -/
  leaf : ∀ l last, s.globalLru = l ++ [last] → (s.nodes last).child = []
  same : ∀ n, (s.nodes n).lru.Perm ((s.nodes n).child.map Prod.snd) ∧
    (s.nodes n).sortedChildren.Perm ((s.nodes n).child.map Prod.snd)
  children : ∀ n, Reachable s n → ((s.nodes n).child.map Prod.snd).Nodup
  freq : ∀ n, Reachable s n →
    (s.nodes n).sortedChildren.Pairwise fun a b => (s.nodes b).freq ≤ (s.nodes a).freq

variable {s : Ngram}

/-- The trie is in order under the invariant. -/
theorem Inv.integrity (h : Inv s) : Integrity s := by
  refine ⟨h.partition, ⟨h.nodup_lru, fun n => (h.reachable_iff n).symm⟩,
    fun p t c hp hc pre post hl => ?_, fun l last => h.child_last,
    fun n => ⟨(h.same n).lru, (h.same n).sorted⟩,
    fun n hn => h.nodup_values (h.live_of_reachable hn), fun n hn => ?_⟩
  · obtain ⟨q, hq, hin⟩ := h.first pre c post hl
    have hpar := ((h.child p (h.live_of_reachable hp) t c).mp hc).2.1
    cases hpar.symm.trans hq
    exact hin
  · refine (h.order n (h.live_of_reachable hn)).imp ?_
    rintro a b (hlt | ⟨heq, -⟩)
    · exact Int32.le_of_lt hlt
    · exact Int32.le_of_eq heq

theorem inv_new {capacity : Nat} {param : Param} (h : Ngram.new capacity param = .ok s)
    (hcap : 0 < capacity) : Inv s ∧ s.capacity = capacity ∧ s.param = param := by
  obtain ⟨s', hs', h⟩ := Checked.bind_eq_ok.mp h
  obtain ⟨-, -, h⟩ := Checked.bind_eq_ok.mp h
  cases h
  obtain ⟨s1, hs1, hinv, hcap1, hparam1⟩ := fillPool_spec
    ⟨fun _ => {}, capacity, [], 0, [], 0, param⟩
    (fun _ => ⟨nodup_nil, List.Perm.nil, List.Perm.nil⟩) hcap
  cases hs'.symm.trans hs1
  exact ⟨hinv, hcap1, hparam1⟩

theorem exec_spec (h : Inv s) (hcap : s.param.branchLength < s.capacity) (op : Op) :
    ∃ s', s.exec op = .ok s' ∧ Inv s' ∧ s'.capacity = s.capacity ∧ s'.param = s.param := by
  cases op with
  | insert data =>
    obtain ⟨s', hs', hinv, hfixed⟩ := insert_spec h hcap data
    exact ⟨s', hs', hinv, hfixed.capacity, hfixed.param⟩
  | reset => exact fillPool_spec s h.same (Nat.zero_lt_of_lt hcap)

/-- After every sequence of insertions and resets the trie is in order, and no
    operation throws. -/
theorem trie_integrity {capacity : Nat} {param : Param} {s₀ : Ngram}
    (hnew : Ngram.new capacity param = .ok s₀) (hcap : param.branchLength < capacity)
    {tr : List (Ngram × Op × Ngram)} (hr : Run Step s₀ tr s) :
    Integrity s ∧ ∀ op, ∃ s', s.exec op = .ok s' := by
  have h : Inv s ∧ s.param.branchLength < s.capacity := by
    refine hr.inv (P := fun s => Inv s ∧ s.param.branchLength < s.capacity) ?_ ?_
    · obtain ⟨hinv, hcap₀, hparam₀⟩ := inv_new hnew (Nat.zero_lt_of_lt hcap)
      exact ⟨hinv, by rwa [hcap₀, hparam₀]⟩
    · rintro t op u ⟨hinv, hlt⟩ hu
      obtain ⟨u', hu', hinv', hcap', hparam'⟩ := exec_spec hinv hlt op
      cases hu.symm.trans hu'
      exact ⟨hinv', by rwa [hcap', hparam']⟩
  refine ⟨h.1.integrity, fun op => ?_⟩
  obtain ⟨s', hs', -⟩ := exec_spec h.1 h.2 op
  exact ⟨s', hs'⟩

/-- Five nodes: the third branch needs two of them back. -/
theorem trie_integrity_squeezed : ∃ s₀ s, Ngram.new 5 ⟨1, 1, 1, 1, 2, 1, [], []⟩ = .ok s₀ ∧
      Run Step s₀ [(s₀, .insert [7, 8, 9, 7], s)] s ∧ s.globalLru.length = 4 ∧ Integrity s := by
  obtain ⟨s₀, s, hnew, hs, hlen⟩ : ∃ s₀ s, Ngram.new 5 ⟨1, 1, 1, 1, 2, 1, [], []⟩ = .ok s₀ ∧
      Step s₀ (.insert [7, 8, 9, 7]) s ∧ s.globalLru.length = 4 := ⟨_, _, rfl, rfl, rfl⟩
  have hr : Run Step s₀ [(s₀, .insert [7, 8, 9, 7], s)] s := .snoc _ .nil hs
  exact ⟨s₀, s, hnew, hr, hlen, (trie_integrity hnew (by decide) hr).1⟩

end Runs

end SglangInc.NgramTrie
