import SglangInc.Lib.ForestAddress
import SglangInc.Lib.ForestReach
import SglangInc.Theory.Radix.Refinement

/-!
# Paths that Are Held

A request holds on to a node of the tree while the tree changes around it.
What it relies on is not the nodes above its node, which splits replace, but
what they spell: their tokens and indices, put together, and their extra key.

`Along` says what the path to a node spells. A split, a new leaf and a change
of locks leave it alone, and an erased leaf does too unless it is the node
itself. The map of the tree has the spelled tokens bound to the spelled indices
(`find_along`), so a later walk of a key that starts with these tokens gets at
least as far and sees the same indices.

## Theorems

* `along_split`, `along_add`, `along_erase`, `along_alter`: The edits.
-/

namespace SglangInc.Radix

open List Forest PrefixMap

/-- The nodes down to a node; none for the root. -/
def pathTo (f : Children) (node : Nat) : List TreeNode :=
  match f.locate (·.id == node) with
  | none => []
  | some (above, x, _) => above ++ [x]

/-- The path to a node spells these tokens and indices, under this extra
    key. -/
structure Along (f : Children) (node : Nat) (e : Option String) (tokens : List TokenId)
    (indices : List Nat) : Prop where
  present : node = rootNode ∨ 0 < count (·.id == node) f
  extraKey : ∀ n ∈ pathTo f node, n.key.extraKey = e
  tokens : (pathTo f node).flatMap (·.key.tokenIds) = tokens
  indices : (pathTo f node).flatMap (·.value) = indices

/-- Two paths spell the same. -/
structure Same (path path' : List TreeNode) : Prop where
  extraKey : ∀ n ∈ path', ∃ n' ∈ path, n.key.extraKey = n'.key.extraKey
  tokens : path'.flatMap (·.key.tokenIds) = path.flatMap (·.key.tokenIds)
  indices : path'.flatMap (·.value) = path.flatMap (·.value)

theorem Same.refl (path : List TreeNode) : Same path path :=
  ⟨fun n hn => ⟨n, hn, rfl⟩, rfl, rfl⟩

theorem Same.cons {path path' : List TreeNode} (h : Same path path') (n : TreeNode) :
    Same (n :: path) (n :: path') := by
  refine ⟨fun y hy => ?_, ?_, ?_⟩
  · rcases mem_cons.mp hy with rfl | hy
    · exact ⟨y, mem_cons_self, rfl⟩
    · rcases h.extraKey y hy with ⟨n', hn', heq⟩
      exact ⟨n', mem_cons_of_mem _ hn', heq⟩
  · rw [flatMap_cons, flatMap_cons, h.tokens]
  · rw [flatMap_cons, flatMap_cons, h.indices]

variable {pageSize counter node : Nat} {f f' : Children} {path : List TreeNode}
  {e : Option String} {tokens : List TokenId} {indices : List Nat}

theorem pathTo_of_locate {above : List TreeNode} {x : TreeNode} {t : Children}
    (h : f.locate (·.id == node) = some (above, x, t)) : pathTo f node = above ++ [x] := by
  rw [pathTo, h]

theorem has_of_mem_pathTo {n : TreeNode} (hn : n ∈ pathTo f node) :
    ∃ s, Has n s f ∧ (n.id = node ∨ 0 < count (·.id == node) s) := by
  unfold pathTo at hn
  cases hl : f.locate (·.id == node) with
  | none =>
    rw [hl] at hn
    cases hn
  | some found =>
    rw [hl] at hn
    rcases has_of_mem_path hl n hn with ⟨s, hs, hor⟩
    exact ⟨s, hs, hor.imp_left eq_of_beq⟩

theorem pathTo_of_count (h : count (·.id == node) f ≤ 0) : pathTo f node = [] := by
  rw [pathTo, locate_eq_none_of_count h]

theorem Along.of_same {path' : List TreeNode} (h : Along f node e tokens indices)
    (hpresent : node = rootNode ∨ 0 < count (·.id == node) f')
    (hpath : pathTo f' node = path') (hsame : Same (pathTo f node) path') :
    Along f' node e tokens indices := by
  refine ⟨hpresent, fun n hn => ?_, ?_, ?_⟩
  · rw [hpath] at hn
    rcases hsame.extraKey n hn with ⟨n', hn', heq⟩
    exact heq.trans (h.extraKey n' hn')
  · rw [hpath, hsame.tokens, h.tokens]
  · rw [hpath, hsame.indices, h.indices]

theorem Ids.root_absent (hi : Ids counter f) : count (·.id == rootNode) f ≤ 0 :=
  Int.le_of_eq (count_eq_zero (all_mono (fun _ _ _ hn => hn.1.ne') hi.range))

/-- A path is kept when the edited dictionary keeps the chain to its node. -/
theorem Along.of_edit {R : Children → Children → Prop} {counter' : Nat}
    (h : Along f node e tokens indices) (he : Edit R path f f') (hd : f.Distinct)
    (hi : Ids counter' f') (hR : ∀ g g', R g g' → ∀ a x, x.id = node → Reach g a x →
      ∃ a' x', Reach g' a' x' ∧ x'.id = x.id ∧ Same (a ++ [x]) (a' ++ [x'])) :
    Along f' node e tokens indices := by
  cases hl : f.locate (·.id == node) with
  | none =>
    have hzero := count_le_zero_of_locate hl
    have hnode : node = rootNode := h.present.resolve_right (by omega)
    refine h.of_same (.inl hnode) (pathTo_of_count (hnode ▸ hi.root_absent)) ?_
    rw [pathTo, hl]
    exact Same.refl _
  | some found =>
    obtain ⟨above, x, t⟩ := found
    have hx : x.id = node := by simpa using (has_of_locate hl).2
    rcases he.reach (Q := fun a z a' z' => z'.id = z.id ∧ Same (a ++ [z]) (a' ++ [z']))
      (fun a z => ⟨rfl, Same.refl _⟩) (fun y a z a' z' hq => ⟨hq.1, hq.2.cons y⟩)
      (fun g g' hr a => hR g g' hr a x hx) (reach_of_locate hd hl)
      with ⟨above', x', hr, hid, hsame⟩
    have hx' : (x'.id == node) = true := by
      rw [hid, hx]
      exact beq_self_eq_true node
    rcases locate_of_reach (·.id == node) hr hx' (hi.unique node) with ⟨t', hl'⟩
    rw [← pathTo_of_locate hl] at hsame
    exact h.of_same (.inr (one_le_count_of_reach hr hx')) (pathTo_of_locate hl') hsame

/-- A split leaves what every path spells. -/
theorem along_split {n : TreeNode} {s : Children} {j : Nat}
    (he : Edit (SplitAt pageSize n s j counter) path f f') (hd : f.Distinct)
    (hi : Ids counter f) (hpos : rootNode < counter) (h : Along f node e tokens indices) :
    Along f' node e tokens indices := by
  refine h.of_edit he hd (ids_split he hi hpos) ?_
  -- The upper part comes before the lower part, which is the old node.
  rintro g _ ⟨hl, hj, hlt, hal, hbelow⟩ a x - hr
  rename_i k below
  have hself := lookup_set_self k (n.upper j counter) (.cons below (n.lower j) s .nil) g
  have hlower : (Forest.cons below (n.lower j) s .nil).lookup below = some (n.lower j, s) := by
    simp [Forest.lookup]
  have hparts : ∀ rest : List TreeNode,
      Same (n :: rest) (n.upper j counter :: n.lower j :: rest) := by
    intro rest
    refine ⟨fun y hy => ?_, ?_, ?_⟩
    · rcases mem_cons.mp hy with rfl | hy
      · exact ⟨n, mem_cons_self, rfl⟩
      · rcases mem_cons.mp hy with rfl | hy
        · exact ⟨n, mem_cons_self, rfl⟩
        · exact ⟨y, mem_cons_of_mem _ hy, rfl⟩
    · simp only [flatMap_cons, ← append_assoc]
      exact congrArg (· ++ _) (take_append_drop j n.key.tokenIds)
    · simp only [flatMap_cons, ← append_assoc]
      exact congrArg (· ++ _) (take_append_drop j n.value)
  cases hr with
  | @here _ k' _ t hl' =>
    by_cases hk : k' = k
    · subst hk
      cases hl.symm.trans hl'
      exact ⟨_, _, .down hself (.here hlower), rfl, hparts []⟩
    · exact ⟨_, _, .here ((lookup_set_of_ne hk _ _ g).trans hl'), rfl, Same.refl _⟩
  | @down _ s' k' y _ a hl' hr =>
    by_cases hk : k' = k
    · subst hk
      cases hl.symm.trans hl'
      exact ⟨_, _, .down hself (.down hlower hr), rfl, hparts _⟩
    · exact ⟨_, _, .down ((lookup_set_of_ne hk _ _ g).trans hl') hr, rfl, Same.refl _⟩

theorem along_add {leaf : TreeNode} (he : Edit (AddLeaf pageSize leaf) path f f')
    (hd : f.Distinct) (hi : Ids counter f) (hleaf : leaf.id = counter)
    (hpos : rootNode < counter) (h : Along f node e tokens indices) :
    Along f' node e tokens indices := by
  refine h.of_edit he hd (ids_add he hi hleaf hpos) ?_
  rintro g _ ⟨hl, hk⟩ a x - hr
  rename_i k
  have hkeep : ∀ {k' y s}, g.lookup k' = some (y, s) →
      (g.set k leaf .nil).lookup k' = some (y, s) := by
    intro k' y s hl'
    rw [lookup_set_of_ne _ leaf .nil g, hl']
    rintro rfl
    cases hl.symm.trans hl'
  cases hr with
  | here hl' => exact ⟨_, _, .here (hkeep hl'), rfl, Same.refl _⟩
  | down hl' hr => exact ⟨_, _, .down (hkeep hl') hr, rfl, Same.refl _⟩

/-- An eviction leaves the paths to other nodes. -/
theorem along_erase {x : TreeNode} (he : EraseLeaf x f f') (hd : f.Distinct)
    (hi : Ids counter f) (hne : x.id ≠ node) (h : Along f node e tokens indices) :
    Along f' node e tokens indices := by
  rcases he.erases with ⟨_, herase⟩
  refine h.of_edit (herase.edit hd) hd (ids_erase he hi) ?_
  rintro g _ ⟨k, hl, rfl⟩ a y hy hr
  -- The leaf is not the node, and nothing is below the leaf.
  cases hr with
  | @here _ k' _ t hl' =>
    have hk : k' ≠ k := by
      rintro rfl
      cases hl.symm.trans hl'
      exact hne hy
    exact ⟨_, _, .here ((lookup_erase_of_ne hk g).trans hl'), rfl, Same.refl _⟩
  | @down _ s k' n _ a hl' hr =>
    have hk : k' ≠ k := by
      rintro rfl
      cases hl.symm.trans hl'
      cases hr with
      | here hn | down hn => cases hn
    exact ⟨_, _, .down ((lookup_erase_of_ne hk g).trans hl') hr, rfl, Same.refl _⟩

/-- Locks are not spelled. -/
theorem along_alter (i : Nat) (step : Int) (h : Along f node e tokens indices) :
    Along (f.alterPath (·.id == i) (TreeNode.moveLock step)) node e tokens indices := by
  have hmap := locate_alterPath (·.id == i) (·.id == node) (h := TreeNode.moveLock step)
    (g := fun n => (n.key, n.value)) (fun _ => rfl) (fun _ => rfl) f
  set f' := f.alterPath (·.id == i) (TreeNode.moveLock step)
  have hpath : (pathTo f' node).map (fun n => (n.key, n.value)) =
      (pathTo f node).map (fun n => (n.key, n.value)) := by
    unfold pathTo
    cases h1 : f'.locate (·.id == node) <;> cases h2 : f.locate (·.id == node) <;>
      simp_all
  have hcount : count (·.id == node) f' = count (·.id == node) f :=
    sum_alterPath_eq _ (g := TreeNode.moveLock step) (fun _ => rfl) f
  refine h.of_same (by rw [hcount]; exact h.present) rfl ⟨fun n hn => ?_, ?_, ?_⟩
  · have hmem : (n.key, n.value) ∈ (pathTo f node).map (fun n => (n.key, n.value)) :=
      hpath ▸ mem_map_of_mem hn
    rcases mem_map.mp hmem with ⟨n', hn', heq⟩
    exact ⟨n', hn', by rw [(Prod.mk.inj heq).1]⟩
  · have := congrArg (List.flatMap fun w : RadixKey × List Nat => w.1.tokenIds) hpath
    rwa [flatMap_map, flatMap_map] at this
  · have := congrArg (List.flatMap fun w : RadixKey × List Nat => w.2) hpath
    rwa [flatMap_map, flatMap_map] at this

/-- The map has what is spelled on the way to a node. -/
theorem find_of_reach {above : List TreeNode} {x : TreeNode} (hf : TreeOk pageSize f)
    (ha : Aligned pageSize f) (hr : Reach f above x)
    (he : ∀ n ∈ above ++ [x], n.key.extraKey = e) {p : List TokenId} (hp : Whole pageSize p)
    (hpt : p <+: (above ++ [x]).flatMap (·.key.tokenIds)) :
    find pageSize e f p = some (page pageSize ((above ++ [x]).flatMap (·.value)) p.length) := by
  induction hr generalizing p with
  | @here f k x t hl =>
    rw [nil_append, flatMap_singleton] at hpt ⊢
    rw [find_of_lookup (childKey_of_shared (hf.lookup hl).1.slot
      (he x (mem_singleton_self x)) hp.le hpt (prefix_refl p)) hl, if_pos hpt]
  | @down f s k y x above hl hr ih =>
    rcases hf.lookup hl with ⟨hy, hs⟩
    rcases all_lookup ha hl with ⟨hdvd, has⟩
    have hey := he y mem_cons_self
    rw [cons_append, flatMap_cons] at hpt ⊢
    have hlen : y.value.length = y.key.tokenIds.length := hy.value_length
    by_cases hin : p <+: y.key.tokenIds
    · rw [find_of_lookup (childKey_of_shared hy.slot hey hp.le hin (prefix_refl p)) hl,
        if_pos hin, page_append_left (by rw [hlen]; exact hin.length_le)]
    rcases (prefix_append_iff.mp hpt).resolve_left hin with ⟨hyp, hrest⟩
    have hlt : y.key.length < p.length := length_lt_of_prefix hyp hin
    have hpage := Nat.le_of_dvd (Nat.sub_pos_of_lt hlt) (Nat.dvd_sub hp.2 hdvd)
    have hbelow := ih hs has (forall_mem_cons.mp he).2 (hp.drop hdvd hlt) hrest
    rw [find_below hy hdvd hl hey hyp hlt, show y.key.length = y.key.tokenIds.length from rfl,
      hbelow, page_append_right _ _ (by rw [hlen]; simp only [RadixKey.length] at *; omega),
      List.length_drop, hlen]

/-- The prefixes of the tokens along a path are bound to its indices. -/
theorem find_along (h : Along f node e tokens indices) (hf : TreeOk pageSize f)
    (ha : Aligned pageSize f) {p : List TokenId} (hp : Whole pageSize p) (hpt : p <+: tokens) :
    find pageSize e f p = some (page pageSize indices p.length) := by
  obtain ⟨-, he, rfl, rfl⟩ := h
  unfold pathTo at he hpt ⊢
  cases hl : f.locate (·.id == node) with
  | none =>
    simp only [hl, flatMap_nil, prefix_nil] at hpt
    exact absurd hpt hp.1
  | some found =>
    obtain ⟨above, x, t⟩ := found
    simp only [hl] at he hpt ⊢
    exact find_of_reach hf ha (reach_of_locate hf.distinct hl) he hp hpt

section Operations

variable {c c' : Cache} {held : List Nat}

variable (h : Along c.children node e tokens indices) {key : RadixKey}
include h

/-- Every path survives a match. -/
theorem Along.matchPrefix (hacc : Accounted c held) {result : MatchResult}
    (heq : c.matchPrefix key = .ok (result, c')) : Along c'.children node e tokens indices := by
  have hcounted := hacc.counted
  have hcases := Checked.of_returns (matchPrefix_cases c hacc.pageSize_pos hcounted.tree key) heq
  rcases hcases with ⟨_, _, rfl⟩ | ⟨_, _, path, m, stop, r, _, hend, _, rfl⟩
  · exact h
  · cases stop with
    | missing | exact => exact hend.2.2.2.symm ▸ h
    | inside n s j =>
      exact along_split hend.2.2.2 hcounted.tree.distinct hcounted.ids hcounted.counter_pos h

/-- Every path survives an insertion. -/
theorem Along.insert (hacc : Accounted c held) {value : List Nat} {n : Nat}
    (heq : c.insert key value = .ok (n, c')) : Along c'.children node e tokens indices := by
  have hcounted := hacc.counted
  have hpos := hcounted.counter_pos
  have hcases := Checked.of_returns (insert_cases c hacc.pageSize_pos hcounted.tree key value) heq
  rcases hcases with ⟨_, _, rfl⟩ | ⟨_, _, path, stop, r, _, hend, rfl⟩
  · exact h
  cases stop with
  | exact => exact hend.1.symm ▸ h
  | missing =>
    rcases hend with ⟨leaf, hleaf, hadd, _⟩
    exact along_add hadd hcounted.tree.distinct hcounted.ids hleaf.id hpos h
  | inside n s j =>
    rcases hend with ⟨f1, hsplit, hrest⟩
    have hsplit' := along_split hsplit hcounted.tree.distinct hcounted.ids hpos h
    rcases hrest with ⟨_, hc, _⟩ | ⟨leaf, hleaf, hadd, _⟩
    · exact hc.symm ▸ hsplit'
    · exact along_add hadd (treeOk_split hsplit hcounted.tree).distinct
        (ids_split hsplit hcounted.ids hpos) hleaf.id (Nat.succ_pos _) hsplit'

/-- A path to a locked node survives an eviction. -/
theorem Along.evict (hacc : Accounted c held)
    (hheld : node ∈ held) {order : List TreeNode → Nat} {numTokens : Nat}
    {removed : List TreeNode} (heq : c.evict order numTokens = (removed, c')) :
    Along c'.children node e tokens indices := by
  rcases evict_cases c hacc.counted.ids order numTokens with ⟨removed', children, heq', he⟩
  rw [heq'] at heq
  cases heq
  have hcounted := hacc.counted
  clear heq' hacc
  generalize c.children = f at *
  generalize c.evictableSize = evictable at *
  induction he generalizing evictable with
  | nil => exact h
  | cons hx _ ih =>
    refine ih (along_erase hx hcounted.tree.distinct hcounted.ids ?_ h) _ (hcounted.erase hx)
    -- The leaf is not locked.
    rintro rfl
    rcases hx.locate with ⟨_, hloc⟩
    have hle := hcounted.le_lockRef (has_of_locate hloc).1 _ (.inl rfl)
    have hpos := count_pos_iff.mpr hheld
    have hzero := hx.unlocked
    omega

theorem Along.moveLockRef (edge step : Int)
    (i : Nat) : Along (c.moveLockRef edge step i).2.children node e tokens indices := by
  unfold Cache.moveLockRef
  split_ifs
  · exact h
  · cases c.children.locate (·.id == i) with
    | none => exact h
    | some found => exact along_alter i step h

end Operations

section Matches

variable {key : RadixKey} {m : Nat} {stop : Stop} {above : List TreeNode} {x : TreeNode}

/-- The nodes of a walk are a chain from the top. -/
theorem Walk.reach (h : Walk pageSize f key path m stop) (hpath : path = above ++ [x]) :
    Reach f above x := by
  induction h generalizing above with
  | missing | inside => exact absurd hpath.symm (by simp)
  | exact _ hl =>
    cases above with
    | nil =>
      rw [nil_append, List.cons.injEq] at hpath
      exact hpath.1 ▸ .here hl
    | cons y rest => exact absurd hpath (by simp)
  | @down f key k n s j path m stop _ hl _ _ _ _ _ _ ih =>
    cases above with
    | nil =>
      rw [nil_append, List.cons.injEq] at hpath
      exact hpath.1 ▸ .here hl
    | cons y rest =>
      rw [cons_append, List.cons.injEq] at hpath
      exact hpath.1 ▸ .down hl (ih hpath.2)

/-- A path with these nodes spells what they spell. -/
theorem along_of_reach (hi : ∀ i, count (·.id == i) f ≤ 1) (hr : Reach f above x)
    (he : ∀ n ∈ above ++ [x], n.key.extraKey = e) :
    Along f x.id e ((above ++ [x]).flatMap (·.key.tokenIds))
      ((above ++ [x]).flatMap (·.value)) := by
  have hx : (x.id == x.id) = true := beq_self_eq_true _
  rcases locate_of_reach (·.id == x.id) hr hx (hi x.id) with ⟨t, hl⟩
  refine ⟨.inr (one_le_count_of_reach hr hx), ?_, ?_, ?_⟩
  · rwa [pathTo_of_locate hl]
  all_goals rw [pathTo_of_locate hl]

theorem along_root (hi : Ids counter f) : Along f rootNode e [] [] := by
  have hnil := pathTo_of_count hi.root_absent
  exact ⟨.inl rfl, by simp [hnil], by rw [hnil]; rfl, by rw [hnil]; rfl⟩

/-- The last node of a walk that ends at a node. -/
theorem along_lastNode (hi : Ids counter f)
    (hf : TreeOk pageSize f) (hw : Walk pageSize f key path m stop) :
    Along f (lastNode rootNode path) key.extraKey (path.flatMap (·.key.tokenIds))
      (path.flatMap (·.value)) := by
  rcases eq_nil_or_concat path with rfl | ⟨above, x, rfl⟩
  · exact along_root hi
  rw [concat_eq_append] at hw ⊢
  have hlast : lastNode rootNode (above ++ [x]) = x.id := by
    rw [lastNode, getLast?_append_of_ne_nil _ (cons_ne_nil _ _),
      getLast?_singleton, Option.map_some, Option.getD_some]
  rw [hlast]
  exact along_of_reach hi.unique (hw.reach rfl) (hw.extraKey_eq hf)

/-- The node that a match returns has the matched tokens and the returned
    indices along its path. -/
theorem along_matchEnd {r : Matched}
    (hi : Ids counter f) (hpos : rootNode < counter) (hf : TreeOk pageSize f)
    (hw : Walk pageSize f key path m stop)
    (hend : MatchEnd pageSize rootNode counter f path r stop) :
    Along r.children r.node key.extraKey (key.tokenIds.take m) r.values.flatten := by
  rw [hend.values_flatten, ← hw.tokens_eq]
  cases stop with
  | missing | exact =>
    rcases hend with ⟨_, hnode, _, hchildren⟩
    rw [hnode, hchildren, Stop.part, Stop.value, List.append_nil, List.append_nil]
    exact along_lastNode hi hf hw
  | inside n s j =>
    rcases hend with ⟨_, hnode, _, hsplit⟩
    have hr : Reach r.children path (n.upper j counter) := by
      refine hsplit.reach_end ?_
      rintro g _ ⟨_, _, _, _, _⟩
      exact ⟨_, _, lookup_set_self _ _ _ _⟩
    have hspell := along_of_reach (ids_split hsplit hi hpos).unique hr (forall_mem_append.mpr
      ⟨hw.extraKey_eq hf, forall_mem_singleton.mpr (hw.extraKey_stop (n := n) hf rfl)⟩)
    rw [hnode]
    simp only [flatMap_append, flatMap_singleton] at hspell
    exact hspell

/-- The path to the node that a match returns. -/
theorem along_matchPrefix {c c' : Cache} {held : List Nat} (hacc : Accounted c held)
    (ha : Aligned c.pageSize c.children) {result : MatchResult}
    (heq : c.matchPrefix key = .ok (result, c')) :
    Along c'.children result.lastDeviceNode (c.lookupKey key).extraKey
      ((c.lookupKey key).tokenIds.take result.deviceIndices.length) result.deviceIndices ∧
    Aligned c.pageSize c'.children := by
  have hcounted := hacc.counted
  have hcases := Checked.of_returns (matchPrefix_cases c hacc.pageSize_pos hcounted.tree key) heq
  rcases hcases with ⟨_, rfl, rfl⟩ | ⟨_, _, path, m, stop, r, hw, hend, rfl, rfl⟩
  · exact ⟨along_root hcounted.ids, ha⟩
  refine ⟨?_, ?_⟩
  · have hspell := along_matchEnd hcounted.ids hcounted.counter_pos hcounted.tree hw hend
    have hlen : r.values.flatten.length = ((c.lookupKey key).tokenIds.take m).length := by
      rw [hend.values_flatten, hw.value_length hcounted.tree, hw.tokens_eq]
    rwa [hlen, length_take, ← take_eq_take_min]
  · cases stop with
    | missing | exact => exact hend.2.2.2.symm ▸ ha
    | inside n s j => exact aligned_split hend.2.2.2 ha

end Matches

end SglangInc.Radix
