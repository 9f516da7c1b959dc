import SglangInc.Theory.Radix.KeyMatch

/-!
# The Walk down the Tree

The loops of `_match_prefix_helper` and `_insert_helper` go down the tree in
the same way and differ in what they do at the end.

`Walk` is the way down: the nodes passed, the number of tokens matched, and
how it ended. A walk ends because the next page has no entry, because a node's
key matches in part, or because the key is used up. Every key has a walk
(`exists_walk`), since a node found under a dictionary key shares a page with
the key that was looked up. What the loops do is then read off the walk: a
match splits the node it ends inside, and an insertion does the same and adds
a leaf for the rest of the key. Both are edits of one dictionary, so
everything later is proved about `SplitAt` and `AddLeaf`, and nothing about
the loops.

## Theorems

* `matchLoop_of_descent`, `insertLoop_of_descent`: The loops follow the walk.
-/

namespace SglangInc.Radix

open List Forest

/-- A node is not empty, has a value for each token, and is stored under its
    own dictionary key. -/
structure NodeOk (pageSize : Nat) (k : ChildKey) (n : TreeNode) : Prop where
  nonempty : n.key.tokenIds ≠ []
  value_length : n.value.length = n.key.length
  slot : getChildKey pageSize n.key = .ok k

/-- All nodes are well formed, and no dictionary has a key twice. -/
structure TreeOk (pageSize : Nat) (f : Children) : Prop where
  nodes : f.All (fun k n _ => NodeOk pageSize k n)
  distinct : f.Distinct

variable {n : TreeNode} {j pageSize : Nat} {s : Children}

theorem TreeOk.lookup {f : Children} (h : TreeOk pageSize f) {k : ChildKey}
    (hl : f.lookup k = some (n, s)) : NodeOk pageSize k n ∧ TreeOk pageSize s := by
  rcases all_lookup h.nodes hl with ⟨hn, hs⟩
  exact ⟨hn, hs, distinct_lookup h.distinct hl⟩

/-- How a walk ends. -/
inductive Stop where
  | missing
  | inside (child : TreeNode) (grandchildren : Children) (splitLen : Nat)
  | exact

/-- The part of the last node's key that is matched. -/
def Stop.part : Stop → List TokenId
  | .missing => []
  | .inside child _ splitLen => child.key.tokenIds.take splitLen
  | .exact => []

/-- The walk of a key: the nodes passed whole, the tokens matched, and the
    end. -/
inductive Walk (pageSize : Nat) : Children → RadixKey → List TreeNode → Nat → Stop → Prop
  | missing {f key k} : getChildKey pageSize key = .ok k → f.lookup k = none →
      Walk pageSize f key [] 0 .missing
  | inside {f key k n s j} : getChildKey pageSize key = .ok k → f.lookup k = some (n, s) →
      keyMatchFn pageSize n.key key = .ok j →
      Matches pageSize n.key.tokenIds key.tokenIds j → 0 < j → j < n.key.length →
      Walk pageSize f key [] j (.inside n s j)
  | exact {f key k n s j} : getChildKey pageSize key = .ok k → f.lookup k = some (n, s) →
      keyMatchFn pageSize n.key key = .ok j →
      Matches pageSize n.key.tokenIds key.tokenIds j → n.key.length ≤ j → key.length ≤ j →
      Walk pageSize f key [n] j .exact
  | down {f key k n s j path m stop} : getChildKey pageSize key = .ok k →
      f.lookup k = some (n, s) → keyMatchFn pageSize n.key key = .ok j →
      Matches pageSize n.key.tokenIds key.tokenIds j → n.key.length ≤ j → 0 < j →
      j < key.length → Walk pageSize s (key.drop j) path m stop →
      Walk pageSize f key (n :: path) (j + m) stop

theorem length_drop (key : RadixKey) (j : Nat) : (key.drop j).length = key.length - j :=
  List.length_drop

theorem tokenIds_ne_nil {key : RadixKey} (h : 0 < key.length) : key.tokenIds ≠ [] :=
  length_pos_iff.mp h

/-- Every key has a walk. The induction is on the length of the key: a node
    that is passed takes at least one page off it. -/
theorem exists_walk (hps : 0 < pageSize) (key : RadixKey) (hkey : 0 < key.length) (f : Children)
    (hf : TreeOk pageSize f) : ∃ path m stop, Walk pageSize f key path m stop := by
  induction hn : key.length using Nat.strongRecOn generalizing key f with
  | _ len ih =>
    subst hn
    rcases getChildKey_ok pageSize _ (tokenIds_ne_nil hkey) with ⟨k, hk⟩
    cases hl : f.lookup k with
    | none => exact ⟨_, _, _, .missing hk hl⟩
    | some found =>
      obtain ⟨n, s⟩ := found
      rcases hf.lookup hl with ⟨hn, hs⟩
      rcases getChildKey_inj hn.slot hk with ⟨hextra, hpage⟩
      rcases keyMatchFn_spec pageSize hps n.key key hextra with ⟨j, hj, hm⟩
      have hpos := hm.pos hn.nonempty (tokenIds_ne_nil hkey) hpage
      by_cases hin : j < n.key.length
      · exact ⟨_, _, _, .inside hk hl hj hm hpos hin⟩
      · by_cases hend : key.length ≤ j
        · exact ⟨_, _, _, .exact hk hl hj hm (by omega) hend⟩
        · have hlen := length_drop key j
          rcases ih _ (by omega) (key.drop j) (by omega) s hs rfl with ⟨path, m, stop, hw⟩
          exact ⟨_, _, _, .down hk hl hj hm (by omega) hpos (by omega) hw⟩

/-- A node that is passed is matched as a whole and no further. -/
theorem Matches.tokens_eq {a b : List TokenId} (h : Matches pageSize a b j) (ha : a.length ≤ j) :
    a = b.take j := by
  rw [← h.take_eq, take_of_length_le ha]

theorem Matches.length_eq {a b : List TokenId} (h : Matches pageSize a b j) (ha : a.length ≤ j)
    (hb : j < b.length) : a.length = j := by
  have := congrArg List.length (h.tokens_eq ha)
  rw [length_take] at this
  omega

variable {pageSize : Nat} {f : Children} {key : RadixKey} {path : List TreeNode} {m : Nat}
  {stop : Stop}

/-- The nodes passed, with the part of the last one, spell the matched part
    of the key. -/
theorem Walk.tokens_eq (h : Walk pageSize f key path m stop) :
    path.flatMap (·.key.tokenIds) ++ stop.part = key.tokenIds.take m := by
  induction h with
  | missing => rfl
  | inside _ _ _ hm => exact hm.take_eq
  | exact _ _ _ hm hn =>
    simp only [flatMap_cons, flatMap_nil, List.append_nil, Stop.part]
    exact hm.tokens_eq hn
  | down _ _ _ hm hn _ _ _ ih =>
    rw [flatMap_cons, append_assoc, ih, take_add, ← hm.tokens_eq hn]
    rfl

/-- Everything passed carries the extra key of the key. -/
theorem Walk.extraKey_eq (hf : TreeOk pageSize f) (h : Walk pageSize f key path m stop) :
    ∀ n ∈ path, n.key.extraKey = key.extraKey := by
  induction h with
  | missing | inside => exact forall_mem_nil _
  | exact hk hl =>
    exact forall_mem_singleton.mpr (getChildKey_inj (hf.lookup hl).1.slot hk).1
  | down hk hl _ _ _ _ _ _ ih =>
    exact forall_mem_cons.mpr ⟨(getChildKey_inj (hf.lookup hl).1.slot hk).1, ih (hf.lookup hl).2⟩

/-- The node `n` of a dictionary is split after `j` tokens, at the end of a
    page; the upper part is a new node. -/
inductive SplitAt (pageSize : Nat) (n : TreeNode) (s : Children) (j newId : Nat) :
    Children → Children → Prop
  | intro {f k below} : f.lookup k = some (n, s) → 0 < j → j < n.key.length → pageSize ∣ j →
      getChildKey pageSize (n.key.drop j) = .ok below →
      SplitAt pageSize n s j newId f (f.set k (n.upper j newId) (.cons below (n.lower j) s .nil))

/-- A leaf is added under a key the dictionary does not have. -/
inductive AddLeaf (pageSize : Nat) (leaf : TreeNode) : Children → Children → Prop
  | intro {f k} : f.lookup k = none → getChildKey pageSize leaf.key = .ok k →
      AddLeaf pageSize leaf f (f.set k leaf .nil)

theorem splitNode_ok {k : ChildKey} (hn : NodeOk pageSize k n) (s : Children)
    (hj : j < n.key.length) (newId : Nat) :
    ∃ below, getChildKey pageSize (n.key.drop j) = .ok below ∧ splitNode pageSize n s j newId =
        .ok (k, n.upper j newId, .cons below (n.lower j) s .nil) := by
  have hlen : 0 < (n.key.drop j).length := by
    rw [length_drop]
    omega
  rcases getChildKey_ok pageSize _ (tokenIds_ne_nil hlen) with ⟨below, hbelow⟩
  refine ⟨below, hbelow, ?_⟩
  simp only [splitNode, hbelow, hn.slot]
  rfl

/-- The walk as the loops take it: with a round for each node that is passed, and the
    dictionary key of what is left of the key. -/
inductive Descent (pageSize : Nat) :
    Nat → Children → ChildKey → RadixKey → List TreeNode → Nat → Stop → Prop
  | missing {rounds f k key} : getChildKey pageSize key = .ok k → 0 < key.length →
      f.lookup k = none → Descent pageSize (rounds + 1) f k key [] 0 .missing
  | inside {rounds f k key n s j} : NodeOk pageSize k n → f.lookup k = some (n, s) →
      keyMatchFn pageSize n.key key = .ok j → Matches pageSize n.key.tokenIds key.tokenIds j →
      0 < j → j < n.key.length → key.length ≤ rounds + 1 →
      Descent pageSize (rounds + 1) f k key [] j (.inside n s j)
  | exact {rounds f k key n s j} : f.lookup k = some (n, s) →
      keyMatchFn pageSize n.key key = .ok j → ¬j < n.key.length → (key.drop j).length = 0 →
      key.length ≤ j → Descent pageSize (rounds + 1) f k key [n] j .exact
  | down {rounds f k key n s j k' path m stop} : NodeOk pageSize k n →
      f.lookup k = some (n, s) → keyMatchFn pageSize n.key key = .ok j → ¬j < n.key.length →
      j < key.length → ¬(key.drop j).length = 0 → getChildKey pageSize (key.drop j) = .ok k' →
      Descent pageSize rounds s k' (key.drop j) path m stop →
      Descent pageSize (rounds + 1) f k key (n :: path) (j + m) stop

/-- The walk as the loops take it. -/
theorem Walk.descent (hf : TreeOk pageSize f) (h : Walk pageSize f key path m stop) {rounds : Nat}
    (hr : key.length ≤ rounds) (hkey : 0 < key.length) {k : ChildKey}
    (hk : getChildKey pageSize key = .ok k) : Descent pageSize rounds f k key path m stop := by
  induction h generalizing rounds k
  all_goals obtain ⟨rounds, rfl⟩ := Nat.exists_eq_succ_of_ne_zero (by omega : rounds ≠ 0)
  case missing hk' hl =>
    cases hk'.symm.trans hk
    exact .missing hk hkey hl
  case inside hk' hl hj hm hpos hin =>
    cases hk'.symm.trans hk
    exact .inside (hf.lookup hl).1 hl hj hm hpos hin hr
  case exact hk' hl hj _ hn hend =>
    cases hk'.symm.trans hk
    exact .exact hl hj hn.not_gt (by rw [length_drop]; omega) hend
  case down f key k0 n s j path m stop hk' hl hj _ hn hpos hlt _ ih =>
    cases hk'.symm.trans hk
    have hlen := length_drop key j
    rcases getChildKey_ok pageSize _ (tokenIds_ne_nil (by omega : 0 < (key.drop j).length))
      with ⟨k', hk'⟩
    rcases hf.lookup hl with ⟨hok, hs⟩
    exact .down hok hl hj hn.not_gt hlt (by omega) hk' (ih hs (by omega) (by omega) hk')

/-- The last node of a walk, when the walk started at `node`. -/
def lastNode (node : Nat) (path : List TreeNode) : Nat :=
  (path.getLast?.map (·.id)).getD node

theorem lastNode_cons (node : Nat) (n : TreeNode) (path : List TreeNode) :
    lastNode node (n :: path) = lastNode n.id path := by
  cases path with
  | nil => rfl
  | cons n' rest => simp [lastNode, getLast?_eq_getLast_of_ne_nil (cons_ne_nil n' rest)]

/-- What a match leaves behind. -/
def MatchEnd (pageSize node counter : Nat) (f : Children) (path : List TreeNode) (r : Matched) :
    Stop → Prop
  | .inside n s j => r.values = path.map (·.value) ++ [n.value.take j] ∧ r.node = counter ∧
      r.counter = counter + 1 ∧ Edit (SplitAt pageSize n s j counter) path f r.children
  | _ => r.values = path.map (·.value) ∧ r.node = lastNode node path ∧
      r.counter = counter ∧ r.children = f

variable {rounds : Nat} {k : ChildKey}

/-- The loop of `match_prefix` goes down as the walk does, and splits the node it
    ends in. -/
theorem matchLoop_of_descent (h : Descent pageSize rounds f k key path m stop)
    (node counter : Nat) : ∃ r, matchLoop pageSize rounds node f k key counter = .ok r ∧
      MatchEnd pageSize node counter f path r stop := by
  induction h generalizing node with
  | missing _ _ hl =>
    simp only [matchLoop, hl]
    exact ⟨_, rfl, rfl, rfl, rfl, rfl⟩
  | @inside _ _ _ _ _ s _ hn hl hj hm hpos hin =>
    rcases splitNode_ok hn s hin counter with ⟨below, hbelow, hsplit⟩
    simp only [matchLoop, hl, hj, bind, Except.bind, if_pos hin, hsplit]
    exact ⟨_, rfl, rfl, rfl, rfl, .here (.intro hl hpos hin hm.aligned hbelow)⟩
  | exact hl hj hn hend =>
    simp only [matchLoop, hl, hj, bind, Except.bind, if_neg hn, if_pos hend]
    exact ⟨_, rfl, rfl, rfl, rfl, rfl⟩
  | @down _ _ _ _ n _ _ _ _ _ stop _ hl hj hn _ hlen hk _ ih =>
    rcases ih n.id with ⟨r, hr, hend⟩
    simp only [matchLoop, hl, hj, bind, Except.bind, if_neg hn, if_neg hlen, hk, hr]
    refine ⟨_, rfl, ?_⟩
    cases stop with
    | inside n' s' j' =>
      rcases hend with ⟨hv, hnode, hc, he⟩
      exact ⟨by rw [hv]; rfl, hnode, hc, .down hl he⟩
    | missing | exact =>
      rcases hend with ⟨hv, hnode, hc, he⟩
      refine ⟨by rw [hv]; rfl, by rw [lastNode_cons]; exact hnode, hc, ?_⟩
      simp only [he]
      exact set_lookup hl

/-- The leaf that holds what a walk left of the key and the value. -/
structure LeafFor (id : Nat) (key : RadixKey) (value : List Nat) (m : Nat) (leaf : TreeNode) :
    Prop where
  id : leaf.id = id
  tokens : leaf.key.tokenIds = key.tokenIds.drop m
  extraKey : leaf.key.extraKey = key.extraKey
  value : leaf.value = value.drop m
  lockRef : leaf.lockRef = 0

theorem LeafFor.of_drop {id : Nat} {value : List Nat} {leaf : TreeNode}
    (h : LeafFor id (key.drop j) (value.drop j) m leaf) : LeafFor id key value (j + m) leaf :=
  ⟨h.id, by rw [h.tokens, RadixKey.drop, drop_drop], h.extraKey,
    by rw [h.value, drop_drop], h.lockRef⟩

/-- What an insertion leaves behind. -/
def InsertEnd (pageSize counter : Nat) (f : Children) (key : RadixKey) (value : List Nat)
    (path : List TreeNode) (m : Nat) (r : Inserted) : Stop → Prop
  | .exact => r.children = f ∧ r.counter = counter ∧ r.grown = 0 ∧ key.length ≤ m
  | .missing => ∃ leaf, LeafFor counter key value m leaf ∧
      Edit (AddLeaf pageSize leaf) path f r.children ∧ r.counter = counter + 1 ∧
      r.grown = key.length - m ∧ m < key.length
  | .inside n s j => ∃ f', Edit (SplitAt pageSize n s j counter) path f f' ∧
      ((key.length ≤ m ∧ r.children = f' ∧ r.counter = counter + 1 ∧ r.grown = 0) ∨
        ∃ leaf, LeafFor (counter + 1) key value m leaf ∧
          Edit (AddLeaf pageSize leaf) (path ++ [n.upper j counter]) f' r.children ∧
          r.counter = counter + 2 ∧ r.grown = key.length - m ∧ m < key.length)

/-- After a split the loop looks the rest of the key up once more, and finds
    nothing: the next pages differ. -/
theorem exists_below (hm : Matches pageSize n.key.tokenIds key.tokenIds j) (hpos : 0 < j)
    (hn : j < n.key.length) (hr : key.length ≤ rounds + 1) (hend : (key.drop j).length ≠ 0)
    {below : ChildKey} (hbelow : getChildKey pageSize (n.key.drop j) = .ok below) :
    ∃ rounds' k, rounds = rounds' + 1 ∧ getChildKey pageSize (key.drop j) = .ok k ∧
      (Forest.cons below (n.lower j) s .nil).lookup k = none := by
  have hlen := length_drop key j
  rcases getChildKey_ok pageSize (key.drop j) (tokenIds_ne_nil (by omega)) with ⟨k, hk⟩
  have hne : below ≠ k := by
    rintro rfl
    rcases hm.stop with h | h | h
    · exact absurd hn h.not_gt
    · exact absurd (show j < key.length by omega) h.not_gt
    · exact h (getChildKey_inj hbelow hk).2
  exact ⟨rounds - 1, k, by omega, hk, by simp [Forest.lookup, if_neg hne]⟩

/-- The loop of `insert` goes down as the walk does, and edits the tree at its end. -/
theorem insertLoop_of_descent (h : Descent pageSize rounds f k key path m stop)
    (value : List Nat) (counter : Nat) :
    ∃ r, insertLoop pageSize rounds f k key value counter = .ok r ∧ r.prefixLen = m ∧
      InsertEnd pageSize counter f key value path m r stop := by
  induction h generalizing value with
  | missing hk hkey hl =>
    simp only [insertLoop, hl]
    exact ⟨_, rfl, rfl, _, ⟨rfl, rfl, rfl, rfl, rfl⟩, .here (.intro hl hk), rfl, rfl, hkey⟩
  | @inside rounds f k key n s j hn hl hj hm hpos hin hr =>
    rcases splitNode_ok hn s hin counter with ⟨below, hbelow, hsplit⟩
    have hlen := length_drop key j
    by_cases hend : (key.drop j).length = 0
    · simp only [insertLoop, hl, hj, bind, Except.bind, if_pos hin, hsplit, pure, Except.pure,
        if_pos hend]
      exact ⟨_, rfl, rfl, _, .here (.intro hl hpos hin hm.aligned hbelow),
        .inl ⟨by omega, rfl, rfl, rfl⟩⟩
    obtain ⟨rounds, k'', rfl, hk'', hnone⟩ := exists_below (s := s) hm hpos hin hr hend hbelow
    simp only [insertLoop, hl, hj, bind, Except.bind, if_pos hin, hsplit, pure, Except.pure,
      if_neg hend, hk'', hnone]
    refine ⟨_, rfl, rfl, _, .here (.intro hl hpos hin hm.aligned hbelow), .inr
      ⟨⟨counter + 1, key.drop j, value.drop j, 0⟩, ⟨rfl, rfl, rfl, rfl, rfl⟩, ?_, rfl, hlen,
        by omega⟩⟩
    -- The leaf goes below the node that the split has just made.
    have hnew := Edit.down (lookup_set_self k (n.upper j counter)
      (.cons below (n.lower j) s .nil) f) (.here (@AddLeaf.intro _
        ⟨counter + 1, key.drop j, value.drop j, 0⟩ _ _ hnone hk''))
    rwa [Forest.set_set] at hnew
  | exact hl hj hn hlen hend =>
    simp only [insertLoop, hl, hj, bind, Except.bind, if_neg hn, pure, Except.pure, if_pos hlen]
    exact ⟨_, rfl, rfl, set_lookup hl, rfl, rfl, hend⟩
  | @down rounds f k key n s j k' path m stop _ hl hj hn hlt hlen hk _ ih =>
    have hdrop := length_drop key j
    rcases ih (value.drop j) with ⟨r, hr, hpre, hend⟩
    simp only [insertLoop, hl, hj, bind, Except.bind, if_neg hn, pure, Except.pure, if_neg hlen,
      hk, hr]
    refine ⟨_, rfl, by rw [hpre], ?_⟩
    cases stop with
    | exact =>
      rcases hend with ⟨he, hc, hg, hle⟩
      refine ⟨?_, hc, hg, by omega⟩
      simp only [he]
      exact set_lookup hl
    | missing =>
      rcases hend with ⟨leaf, hleaf, he, hc, hg, hlt'⟩
      exact ⟨leaf, hleaf.of_drop, .down hl he, hc, by simp only [hg]; omega, by omega⟩
    | inside n' s' j' =>
      rcases hend with ⟨f', he, hend⟩
      refine ⟨_, .down hl he, ?_⟩
      rcases hend with ⟨hle, hc, hcount, hg⟩ | ⟨leaf, hleaf, he', hc, hg, hlt'⟩
      · exact .inl ⟨by omega, by simp only [hc], hcount, hg⟩
      · refine .inr ⟨leaf, hleaf.of_drop, ?_, hc, by simp only [hg]; omega, by omega⟩
        have hnew := Edit.down (lookup_set_self k n f' f) he'
        rwa [Forest.set_set] at hnew

end SglangInc.Radix
