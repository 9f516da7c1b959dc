import SglangInc.Theory.Radix.Paths
import SglangInc.Theory.Serving.Allocation

/-!
# What the Cache Does with Pages

The operations of the cache, as far as a request and the allocator see them.

Where all values of the tree are whole pages, a split divides the pages of a
node, an insertion adds the pages of the value behind the prefix that was
there, and an eviction takes out the pages of its leaves. Matches and locks
move nothing. The pages of the tree are counted by their first slots, so all
of this is sums over nodes.

`Kept` is what every operation leaves alone, and `TreePages` is what the steps
of a request rely on.

## Theorems

* `insert_effect`, `matchPrefix_effect`, `evict_effect`, `lock_effect`: The
  operations.
-/

namespace SglangInc.Serving

open List Radix Kv Slots Forest PrefixMap

/-- How often a page occurs in the values of the tree. -/
def treeHeads (pageSize page : Nat) (f : Children) : Int :=
  sum (fun n => (heads pageSize page n.value : Int)) f

/-- All keys are whole pages, and all values are slots of whole pages. -/
structure TreePages (pageSize : Nat) (f : Children) : Prop where
  aligned : Aligned pageSize f
  paged : f.All (fun _ n _ => Paged pageSize n.value)

/-- The parameters of the cache. -/
structure Kept (c c' : Cache) : Prop where
  pageSize : c'.pageSize = c.pageSize
  isEagle : c'.isEagle = c.isEagle
  disable : c'.disable = c.disable
  disableFinishedInsert : c'.disableFinishedInsert = c.disableFinishedInsert

theorem Kept.refl (c : Cache) : Kept c c := ⟨rfl, rfl, rfl, rfl⟩

theorem Kept.trans {c1 c2 c3 : Cache} (h : Kept c1 c2) (h' : Kept c2 c3) : Kept c1 c3 :=
  ⟨h'.pageSize.trans h.pageSize, h'.isEagle.trans h.isEagle, h'.disable.trans h.disable,
    h'.disableFinishedInsert.trans h.disableFinishedInsert⟩

variable {pageSize page : Nat} {f f' : Children} {path : List TreeNode}

theorem treePages_split {n : TreeNode} {s : Children} {j newId : Nat} (hps : 0 < pageSize)
    (h : Edit (SplitAt pageSize n s j newId) path f f') (hf : TreePages pageSize f) :
    TreePages pageSize f' := by
  rcases has_of_split h with ⟨_, _, _, hal⟩
  exact ⟨aligned_split h hf.aligned,
    all_split h (fun hn => ⟨hn.take hps j, hn.drop hps hal⟩) hf.paged⟩

theorem treeHeads_split {n : TreeNode} {s : Children} {j newId : Nat}
    (h : Edit (SplitAt pageSize n s j newId) path f f') :
    treeHeads pageSize page f' = treeHeads pageSize page f := by
  have hcut : heads pageSize page n.value =
      heads pageSize page (n.upper j newId).value + heads pageSize page (n.lower j).value := by
    rw [← heads_append]
    exact congrArg _ (take_append_drop j n.value).symm
  rw [treeHeads, sum_split h, hcut, treeHeads]
  push_cast
  omega

theorem treePages_add {leaf : TreeNode} (h : Edit (AddLeaf pageSize leaf) path f f')
    (hkey : pageSize ∣ leaf.key.length) (hvalue : Paged pageSize leaf.value)
    (hf : TreePages pageSize f) : TreePages pageSize f' :=
  ⟨aligned_add h hkey hf.aligned, all_add h hvalue hf.paged⟩

theorem treeHeads_add {leaf : TreeNode} (h : Edit (AddLeaf pageSize leaf) path f f') :
    treeHeads pageSize page f' = treeHeads pageSize page f + heads pageSize page leaf.value := by
  rw [treeHeads, sum_add_leaf h, treeHeads]

theorem treePages_erase {x : TreeNode} (h : EraseLeaf x f f') (hf : TreePages pageSize f) :
    TreePages pageSize f' := by
  refine ⟨aligned_erase h hf.aligned, ?_⟩
  rw [h.eq]
  exact all_eraseNode _ hf.paged (fun _ _ _ hP => hP)

theorem treeHeads_erase (pageSize page : Nat) {x : TreeNode} (h : EraseLeaf x f f') :
    treeHeads pageSize page f' =
      treeHeads pageSize page f - heads pageSize page x.value := by
  rw [treeHeads, sum_eraseLeaf h, treeHeads]

theorem treeHeads_nonneg (pageSize page : Nat) (f : Children) : 0 ≤ treeHeads pageSize page f :=
  sum_nonneg (fun _ => Int.natCast_nonneg _) f

section Operations

variable {c c' : Cache} {held : List Nat}

/-- A lock leaves the pages. -/
theorem lock_effect (edge step : Int) (i : Nat) (h : TreePages c.pageSize c.children)
    (heq : (c.moveLockRef edge step i).2 = c') : Kept c c' ∧ TreePages c'.pageSize c'.children ∧
    ∀ page, treeHeads c'.pageSize page c'.children = treeHeads c.pageSize page c.children := by
  unfold Cache.moveLockRef at heq
  split_ifs at heq
  · exact heq ▸ ⟨Kept.refl c, h, fun _ => rfl⟩
  cases hl : c.children.locate (·.id == i) with
  | none =>
    rw [hl] at heq
    exact heq ▸ ⟨Kept.refl c, h, fun _ => rfl⟩
  | some found =>
    rw [hl] at heq
    subst heq
    refine ⟨⟨rfl, rfl, rfl, rfl⟩, ⟨?_, ?_⟩, fun page => ?_⟩
    · exact all_alterPath _ (fun _ _ _ _ hP => hP) h.aligned
    · exact all_alterPath _ (fun _ _ _ _ hP => hP) h.paged
    · exact sum_alterPath_eq _ (g := TreeNode.moveLock step) (fun _ => rfl) _

variable {result : MatchResult} {key : RadixKey} {value : List Nat} {removed : List TreeNode}

/-- A match leaves the pages, whatever it splits. -/
theorem matchPrefix_effect (hacc : Accounted c held) (h : TreePages c.pageSize c.children)
    (heq : c.matchPrefix key = .ok (result, c')) : Kept c c' ∧ TreePages c'.pageSize c'.children ∧
    ∀ page, treeHeads c'.pageSize page c'.children = treeHeads c.pageSize page c.children := by
  have hcases := Checked.of_returns
    (matchPrefix_cases c hacc.pageSize_pos hacc.counted.tree key) heq
  rcases hcases with ⟨_, _, rfl⟩ | ⟨_, _, path, m, stop, r, _, hend, _, rfl⟩
  · exact ⟨Kept.refl _, h, fun _ => rfl⟩
  refine ⟨⟨rfl, rfl, rfl, rfl⟩, ?_⟩
  cases stop with
  | missing | exact =>
    have hsame : r.children = c.children := hend.2.2.2
    rw [hsame]
    exact ⟨h, fun _ => rfl⟩
  | inside n s j =>
    exact ⟨treePages_split hacc.pageSize_pos hend.2.2.2 h, fun _ => treeHeads_split hend.2.2.2⟩

/-- A key that is in the form the cache works with: bigrams for EAGLE, and
    whole pages. -/
structure ReadyKey (c : Cache) (key : RadixKey) : Prop where
  isBigram : key.isBigram = c.isEagle
  aligned : c.pageSize ∣ key.length

theorem ReadyKey.convert (h : ReadyKey c key) : c.maybeBigramConvert key = key := by
  unfold Cache.maybeBigramConvert
  rw [h.isBigram]
  cases c.isEagle <;> rfl

theorem ReadyKey.insertValue (h : ReadyKey c key) (value : List Nat) :
    c.insertValue key value = value := by
  unfold Cache.insertValue
  rw [h.isBigram]
  cases c.isEagle <;> rfl

theorem ReadyKey.lookupKey (h : ReadyKey c key) : (c.lookupKey key).extraKey = key.extraKey ∧
      (c.lookupKey key).tokenIds = key.tokenIds := by
  have heq := c.lookupKey_eq key
  rwa [h.convert, Nat.div_mul_cancel h.aligned, RadixKey.length, take_length] at heq

/-- The leaf of an insertion is whole pages. -/
theorem leafFor_paged {n id : Nat} {leaf : TreeNode}
    (hps : 0 < pageSize) (hleaf : LeafFor id key value n leaf) (hkey : pageSize ∣ key.length)
    (hpaged : Paged pageSize value) (hn : pageSize ∣ n) :
    pageSize ∣ leaf.key.length ∧ Paged pageSize leaf.value := by
  refine ⟨?_, hleaf.value ▸ hpaged.drop hps hn⟩
  rw [RadixKey.length, hleaf.tokens, List.length_drop]
  exact Nat.dvd_sub hkey hn

/-- The pages of the tree after an insertion. -/
theorem treePages_insertEnd {counter : Nat} {n : Nat}
    {stop : Stop} {r : Inserted} (hps : 0 < pageSize) (hf : TreePages pageSize f)
    (hend : InsertEnd pageSize counter f key value path n r stop)
    (hkey : pageSize ∣ key.length) (hv : value.length = key.length)
    (hpaged : Paged pageSize value) (hn : pageSize ∣ n) :
    TreePages pageSize r.children ∧ ∀ page, treeHeads pageSize page r.children =
      treeHeads pageSize page f + heads pageSize page (value.drop n) := by
  -- Where the whole key was there, nothing of the value is left.
  have hall : key.length ≤ n → ∀ page, (heads pageSize page (value.drop n) : Int) = 0 := by
    intro hge page
    rw [drop_eq_nil_of_le (by omega)]
    rfl
  cases stop with
  | exact =>
    rcases hend with ⟨hc, _, _, hge⟩
    rw [hc]
    exact ⟨hf, fun page => by rw [hall hge, Int.add_zero]⟩
  | missing =>
    rcases hend with ⟨leaf, hfor, hadd, _⟩
    rcases leafFor_paged hps hfor hkey hpaged hn with ⟨hdvd, hleaf⟩
    exact ⟨treePages_add hadd hdvd hleaf hf, fun page => by
      rw [treeHeads_add hadd, hfor.value]⟩
  | inside node s j =>
    rcases hend with ⟨f1, hsplit, ⟨hge, hc, _⟩ | ⟨leaf, hfor, hadd, _⟩⟩
    · rw [hc]
      exact ⟨treePages_split hps hsplit hf, fun page => by
        rw [treeHeads_split hsplit, hall hge, Int.add_zero]⟩
    · rcases leafFor_paged hps hfor hkey hpaged hn with ⟨hdvd, hleaf⟩
      exact ⟨treePages_add hadd hdvd hleaf (treePages_split hps hsplit hf), fun page => by
        rw [treeHeads_add hadd, treeHeads_split hsplit, hfor.value]⟩

/-- An insertion adds to the tree the pages behind the prefix that was there,
    and binds every prefix of its key. -/
theorem insert_effect (hacc : Accounted c held) (h : TreePages c.pageSize c.children)
    (henabled : c.disable = false) (hkey : ReadyKey c key)
    (hv : value.length = key.length) (hpaged : Paged c.pageSize value) {n : Nat}
    (heq : c.insert key value = .ok (n, c')) :
    Kept c c' ∧ TreePages c'.pageSize c'.children ∧ n ≤ key.length ∧ c.pageSize ∣ n ∧
    (∀ page, treeHeads c'.pageSize page c'.children =
      treeHeads c.pageSize page c.children + heads c.pageSize page (value.drop n)) ∧
    (∀ p, Whole c'.pageSize p → p <+: key.tokenIds →
      (find c'.pageSize key.extraKey c'.children p).isSome) ∧
    ∀ p, Whole c.pageSize p → p <+: key.tokenIds →
      ((find c.pageSize key.extraKey c.children p).isSome ↔ p.length ≤ n) := by
  have hps := hacc.pageSize_pos
  have htree := hacc.counted.tree
  have hcases := Checked.of_returns (insert_cases c hps htree key value) heq
  rw [hkey.convert, hkey.insertValue] at hcases
  rcases hcases with ⟨hnone, rfl, rfl⟩ | ⟨_, _, path, stop, r, hw, hend, rfl⟩
  · -- The key is empty.
    have hempty : key.length = 0 := hnone.resolve_left (by simp [henabled])
    have hno : ∀ p, Whole c'.pageSize p → ¬ p <+: key.tokenIds := by
      intro p hp hpk
      rw [eq_nil_of_length_eq_zero hempty, prefix_nil] at hpk
      exact hp.1 hpk
    rw [eq_nil_of_length_eq_zero (hv.trans hempty)]
    exact ⟨Kept.refl _, h, Nat.zero_le _, Nat.dvd_zero _, fun _ => by simp [heads],
      fun p hp hpk => absurd hpk (hno p hp), fun p hp hpk => absurd hpk (hno p hp)⟩
  rcases hw.aligned h.aligned hkey.aligned with ⟨hn, hle⟩
  rcases treePages_insertEnd hps h hend hkey.aligned hv hpaged hn with ⟨hpages, hheads⟩
  refine ⟨⟨rfl, rfl, rfl, rfl⟩, hpages, hle, hn, hheads, fun p hp hpk => ?_, fun p hp hpk => ?_⟩
  · simp [find_insertEnd hw hend htree h.aligned hkey.aligned hv _ hp, PrefixMap.bind, hp, hpk]
  · rw [find_of_walk hw htree h.aligned hkey.aligned hp hpk]
    split_ifs with hc
    all_goals simp [hc]

theorem lookupKey_aligned (c : Cache) (key : RadixKey) : c.pageSize ∣ (c.lookupKey key).length := by
  rw [RadixKey.length, (c.lookupKey_eq key).2, RadixKey.length,
    length_take_of_le (Nat.div_mul_le_self _ _)]
  exact Nat.dvd_mul_left _ _

/-- A match of a key whose prefixes are all bound finds all its whole pages. -/
theorem matchPrefix_bound (hacc : Accounted c held) (h : TreePages c.pageSize c.children)
    (henabled : c.disable = false)
    (hbound : ∀ p, Whole c.pageSize p → p <+: (c.lookupKey key).tokenIds →
      (find c.pageSize (c.lookupKey key).extraKey c.children p).isSome)
    (heq : c.matchPrefix key = .ok (result, c')) :
    result.deviceIndices.length = (c.lookupKey key).length := by
  have htree := hacc.counted.tree
  have hcases := Checked.of_returns (matchPrefix_cases c hacc.pageSize_pos htree key) heq
  rcases hcases with ⟨hnone, rfl, rfl⟩ | ⟨_, hpos, path, m, stop, r, hw, hend, rfl, rfl⟩
  · have hempty := hnone.resolve_left (by simp [henabled])
    rw [hempty]
    rfl
  have hdvd := lookupKey_aligned c key
  rcases hw.aligned h.aligned hdvd with ⟨_, hle⟩
  have hwhole : Whole c.pageSize (c.lookupKey key).tokenIds := ⟨tokenIds_ne_nil hpos, hdvd⟩
  have hsome := hbound _ hwhole (prefix_refl _)
  rw [find_of_walk hw htree h.aligned hdvd hwhole (prefix_refl _)] at hsome
  have hge : (c.lookupKey key).length ≤ m := by
    split_ifs at hsome with hle
    · exact hle
    · cases hsome
  have hvalues := hw.value_length htree
  rw [hw.tokens_eq, length_take_of_le hle] at hvalues
  rw [hend.values_flatten, hvalues]
  omega

/-- A match right after an insertion finds the whole key. -/
theorem matchPrefix_inserted (hacc : Accounted c held) (h : TreePages c.pageSize c.children)
    (henabled : c.disable = false) (hkey : ReadyKey c key)
    (hbound : ∀ p, Whole c.pageSize p → p <+: key.tokenIds →
      (find c.pageSize key.extraKey c.children p).isSome)
    (heq : c.matchPrefix key = .ok (result, c')) : result.deviceIndices.length = key.length := by
  rcases hkey.lookupKey with ⟨hextra, htokens⟩
  have hlen : (c.lookupKey key).length = key.length := congrArg List.length htokens
  rw [← hlen]
  refine matchPrefix_bound hacc h henabled ?_ heq
  rwa [hextra, htokens]

theorem freeLeaves_keeps (a : Allocator) (removed : List TreeNode) :
    Keeps a (freeLeaves a removed) := by
  induction removed generalizing a with
  | nil => exact ⟨rfl, rfl, id⟩
  | cons x removed ih => exact (free_keeps a x.value).trans (ih _)

/-- The pages of the leaves move from the tree to the allocator. -/
theorem evicts_pages (he : Evicts f removed f') {a : Allocator}
    (hps : 0 < a.pageSize) (hf : TreePages a.pageSize f)
    (hone : ∀ page, pagesIn a page + treeHeads a.pageSize page f ≤ 1) :
    TreePages a.pageSize f' ∧ ∀ page,
      pagesIn (freeLeaves a removed) page + treeHeads a.pageSize page f' =
        pagesIn a page + treeHeads a.pageSize page f := by
  induction he generalizing a with
  | nil => exact ⟨hf, fun _ => rfl⟩
  | @cons f f1 f' x removed hx _ ih =>
    have hkeep := (free_keeps a x.value).pageSize
    rcases hx.locate with ⟨_, hloc⟩
    rcases has_of_all hf.paged (has_of_locate hloc).1 with ⟨_, hpaged⟩
    -- The value is freed once, because the page is nowhere else.
    have hmove : ∀ page, (pagesIn (a.free x.value) page : Int) +
        treeHeads a.pageSize page f1 = pagesIn a page + treeHeads a.pageSize page f := by
      intro page
      have herase := treeHeads_erase a.pageSize page hx
      have hnonneg := treeHeads_nonneg a.pageSize page f1
      have hle := hone page
      rw [pagesIn_free a hps hpaged (by omega), herase]
      push_cast
      omega
    have hrest := ih (a := a.free x.value) (hkeep.symm ▸ hps)
      (hkeep.symm ▸ treePages_erase hx hf) (fun page => by
        rw [hkeep, hmove page]
        exact hone page)
    rw [hkeep] at hrest
    exact ⟨hrest.1, fun page => (hrest.2 page).trans (hmove page)⟩

/-- The pages of an eviction go from the tree to the allocator. -/
theorem evict_effect (hacc : Accounted c held) (h : TreePages c.pageSize c.children)
    {a : Allocator} (hps : a.pageSize = c.pageSize)
    (hone : ∀ page, pagesIn a page + treeHeads c.pageSize page c.children ≤ 1)
    {order : List TreeNode → Nat} {numTokens : Nat}
    (heq : c.evict order numTokens = (removed, c')) :
    Kept c c' ∧ TreePages c'.pageSize c'.children ∧ ∀ page,
      pagesIn (freeLeaves a removed) page + treeHeads c'.pageSize page c'.children =
        pagesIn a page + treeHeads c.pageSize page c.children := by
  rcases evict_cases c hacc.counted.ids order numTokens with ⟨removed', children, heq', he⟩
  cases heq'.symm.trans heq
  have hpages := evicts_pages he (hps.symm ▸ hacc.pageSize_pos) (hps.symm ▸ h)
    (by rw [hps]; exact hone)
  rw [hps] at hpages
  exact ⟨⟨rfl, rfl, rfl, rfl⟩, hpages⟩

end Operations

end SglangInc.Serving
