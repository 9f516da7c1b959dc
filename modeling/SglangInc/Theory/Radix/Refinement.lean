import SglangInc.Theory.Radix.Contents
import SglangInc.Theory.Radix.Accounting

/-!
# The Cache Refines a Prefix Map

The cache next to the prefix map it stands for, over any sequence of
operations (`refines_prefixMap`).

The map is changed by rules of its own that mention no tree: an insertion
binds the prefixes of its key that are not bound, an eviction unbinds the
prefixes that end in the leaves it took out, and a match changes nothing. The
invariant is that the tree's own map (`find`) is this map. What the operations
return is then what the map says, because the walk of a key is described by
the tree's map.

Keys are whole pages for an insertion and arbitrary for a match. The value of
an insertion has one index for each token.
-/

namespace SglangInc.Radix

open List Forest PrefixMap Option

section Insertion

variable {pageSize : Nat} {f f' : Children} {path : List TreeNode} {key : RadixKey} {m : Nat}
  {stop : Stop}

theorem Walk.extraKey_stop (hf : TreeOk pageSize f) {n : TreeNode} {s : Children} {j : Nat}
    (h : Walk pageSize f key path m stop) (hstop : stop = .inside n s j) :
    n.key.extraKey = key.extraKey := by
  induction h with
  | missing | exact => cases hstop
  | inside hk hl =>
    rw [Stop.inside.injEq] at hstop
    rw [← hstop.1]
    exact (getChildKey_inj (hf.lookup hl).1.slot hk).1
  | down _ hl _ _ _ _ _ _ ih => exact ih (hf.lookup hl).2 hstop

variable {value : List Nat} {p : List TokenId} {counter : Nat} {r : Inserted}

/-- A leaf for the rest of a key binds the prefixes of the key past the
    matched ones, to the pages of the inserted value. -/
theorem find_leafFor {id : Nat} {leaf : TreeNode}
    (h : Edit (AddLeaf pageSize leaf) path f f') (hleaf : LeafFor id key value m leaf)
    (hf : TreeOk pageSize f) (ha : Aligned pageSize f) (hv : value.length = key.length)
    (hm : pageSize ∣ m) (hle : m ≤ key.length)
    (hpath : path.flatMap (·.key.tokenIds) = key.tokenIds.take m)
    (hextra : ∀ n ∈ path, n.key.extraKey = key.extraKey)
    (hbound : ∀ p, Whole pageSize p → p <+: key.tokenIds → p.length ≤ m →
      (find pageSize key.extraKey f p).isSome)
    (e : Option String) (hp : Whole pageSize p) :
    find pageSize e f' p =
      PrefixMap.bind pageSize (find pageSize · f) key.extraKey key.tokenIds value e p := by
  have hlen : (path.flatMap (·.key.tokenIds)).length = m := by
    rw [hpath]
    exact length_take_of_le hle
  have hend : EndsIn path leaf e p ↔ e = key.extraKey ∧ p <+: key.tokenIds ∧ m < p.length := by
    have hspells : path.flatMap (·.key.tokenIds) ++ leaf.key.tokenIds = key.tokenIds := by
      rw [hpath, hleaf.tokens, take_append_drop]
    constructor
    · intro hin
      exact ⟨hin.extraKey.symm.trans hleaf.extraKey, hspells ▸ hin.spells, hlen ▸ hin.past.lt⟩
    · rintro ⟨rfl, hpk, hlt⟩
      refine ⟨⟨hextra, ?_, hlen.symm ▸ hlt⟩, hleaf.extraKey, hspells.symm ▸ hpk⟩
      refine prefix_of_prefix_length_le ?_ hpk (by omega)
      rw [hpath]
      exact take_prefix _ _
  rcases find_add (e := e) h hf ha hp with ⟨hin, hout⟩
  by_cases hnew : EndsIn path leaf e p
  · rcases hin hnew with ⟨hnone, hsome⟩
    rcases hend.mp hnew with ⟨he, hpk, hlt⟩
    have hcut : (value.take m).length = m := length_take_of_le (by omega)
    have hpage := Nat.le_of_dvd (Nat.sub_pos_of_lt hlt) (Nat.dvd_sub hp.2 hm)
    have hval := page_append_right (value.take m) (value.drop m)
      (show (value.take m).length + pageSize ≤ p.length by omega)
    rw [take_append_drop, hcut] at hval
    simp only [PrefixMap.bind, hnone, hsome, hleaf.value, hlen, hval, Option.none_or]
    rw [if_pos ⟨he, hp, hpk⟩]
  -- A prefix of the key that is not new was bound before.
  refine (hout hnew).trans (bind_eq (M := (find pageSize · f)) ?_).symm
  rintro rfl hpk
  exact hbound p hp hpk (not_lt.mp fun hlt => hnew (hend.mpr ⟨rfl, hpk, hlt⟩))

/-- The tree's map after an insertion. -/
theorem find_insertEnd (hw : Walk pageSize f key path m stop)
    (hend : InsertEnd pageSize counter f key value path m r stop) (hf : TreeOk pageSize f)
    (ha : Aligned pageSize f) (hkey : pageSize ∣ key.length) (hv : value.length = key.length)
    (e : Option String) (hp : Whole pageSize p) :
    find pageSize e r.children p =
      PrefixMap.bind pageSize (find pageSize · f) key.extraKey key.tokenIds value e p := by
  rcases hw.aligned ha hkey with ⟨hm, hle⟩
  have hbound : ∀ p, Whole pageSize p → p <+: key.tokenIds → p.length ≤ m →
      (find pageSize key.extraKey f p).isSome := by
    intro p hp hpk hpm
    rw [find_of_walk hw hf ha hkey hp hpk, if_pos hpm, isSome_some]
  -- Where the whole key was matched, all its prefixes were bound before.
  have hsame : key.length ≤ m → find pageSize e f p =
      PrefixMap.bind pageSize (find pageSize · f) key.extraKey key.tokenIds value e p := by
    intro hall
    refine (bind_eq (M := (find pageSize · f)) ?_).symm
    rintro rfl hpk
    exact hbound p hp hpk (hpk.length_le.trans hall)
  have htokens := hw.tokens_eq
  cases stop with
  | exact =>
    rcases hend with ⟨hc, _, _, hall⟩
    rw [hc]
    exact hsame hall
  | missing =>
    rcases hend with ⟨leaf, hleaf, hadd, _, _, _⟩
    rw [Stop.part, List.append_nil] at htokens
    exact find_leafFor hadd hleaf hf ha hv hm hle htokens (hw.extraKey_eq hf) hbound e hp
  | inside n s j =>
    rcases hend with ⟨f1, hsplit, ⟨hall, hc, _, _⟩ | ⟨leaf, hleaf, hadd, _, _, _⟩⟩
    · rw [hc, find_split hsplit hf ha hp]
      exact hsame hall
    simp only [PrefixMap.bind, ← find_split hsplit hf ha hp]
    refine find_leafFor hadd hleaf (treeOk_split hsplit hf) (aligned_split hsplit ha) hv hm hle
      ?_ ?_ (fun p hp hpk hpm => ?_) e hp
    · rw [← htokens, flatMap_append, flatMap_singleton]
      rfl
    · exact forall_mem_append.mpr ⟨hw.extraKey_eq hf,
        forall_mem_singleton.mpr (hw.extraKey_stop (n := n) hf rfl)⟩
    · rw [find_split hsplit hf ha hp]
      exact hbound p hp hpk hpm

/-- An insertion of whole pages keeps the keys of the tree whole pages. -/
theorem aligned_insertEnd (hend : InsertEnd pageSize counter f key value path m r stop)
    (ha : Aligned pageSize f) (hkey : pageSize ∣ key.length) (hm : pageSize ∣ m) :
    Aligned pageSize r.children := by
  have hleaf : ∀ {leaf id}, LeafFor id key value m leaf → pageSize ∣ leaf.key.length := by
    intro leaf id hleaf
    rw [RadixKey.length, hleaf.tokens, List.length_drop]
    exact Nat.dvd_sub hkey hm
  cases stop with
  | exact => exact hend.1.symm ▸ ha
  | missing =>
    rcases hend with ⟨leaf, hfor, hadd, _, _, _⟩
    exact aligned_add hadd (hleaf hfor) ha
  | inside n s j =>
    rcases hend with ⟨f1, hsplit, ⟨_, hc, _, _⟩ | ⟨leaf, hfor, hadd, _, _, _⟩⟩
    · exact hc.symm ▸ aligned_split hsplit ha
    · exact aligned_add hadd (hleaf hfor) (aligned_split hsplit ha)

end Insertion

section Answers

variable {pageSize : Nat} {f : Children} {path : List TreeNode} {key : RadixKey} {m : Nat}
  {stop : Stop}

theorem MatchEnd.values_flatten {node counter : Nat} {r : Matched}
    (h : MatchEnd pageSize node counter f path r stop) :
    r.values.flatten = path.flatMap (·.value) ++ stop.value := by
  cases stop with
  | missing | exact => rw [h.1, Stop.value, List.append_nil, List.flatMap]
  | inside n s j => rw [h.1, flatten_append, Stop.value, List.flatMap, flatten_singleton]

/-- A map that agrees with the tree's gives the length and the indices of a
    walk, for every key that has the walk's key as its whole pages. -/
theorem longest_of_walk {M : PrefixMap (Option String) TokenId Nat} {tokens : List TokenId}
    (hM : ∀ e p, Whole pageSize p → M e p = find pageSize e f p) (hps : 0 < pageSize)
    (hw : Walk pageSize f key path m stop) (hf : TreeOk pageSize f) (ha : Aligned pageSize f)
    (hkey : key.tokenIds = tokens.take (tokens.length / pageSize * pageSize)) :
    m = m / pageSize * pageSize ∧ Longest pageSize M key.extraKey tokens (m / pageSize) ∧
      along pageSize M key.extraKey tokens (m / pageSize) =
        path.flatMap (·.value) ++ stop.value := by
  have hcut := Nat.div_mul_le_self tokens.length pageSize
  have hlen : key.length = tokens.length / pageSize * pageSize := by
    rw [RadixKey.length, hkey]
    exact length_take_of_le hcut
  have hdvd : pageSize ∣ key.length := hlen ▸ Nat.dvd_mul_left _ _
  rcases hw.aligned ha hdvd with ⟨hm, hle⟩
  have hpages := Nat.div_mul_cancel hm
  -- The map at the prefix of `i` pages.
  have hat : ∀ i, 0 < i → i * pageSize ≤ tokens.length → M key.extraKey
      (tokens.take (i * pageSize)) = if i ≤ m / pageSize then
        some (page pageSize (path.flatMap (·.value) ++ stop.value) (i * pageSize)) else none := by
    intro i hi hit
    have hwhole := whole_take hps hi hit
    have hpk : tokens.take (i * pageSize) <+: key.tokenIds := by
      rw [hkey]
      refine take_prefix_take_left ?_
      exact Nat.mul_le_mul_right _ ((Nat.le_div_iff_mul_le hps).mpr hit)
    rw [hM _ _ hwhole, find_of_walk hw hf ha hdvd hwhole hpk, length_take_of_le hit]
    exact if_congr (Nat.le_div_iff_mul_le hps).symm rfl rfl
  refine ⟨hpages.symm, ⟨by omega, fun i hi hit => ?_⟩, along_eq (fun i hi => ?_) ?_⟩
  · rw [hat i hi hit]
    split_ifs with hc
    · simp [hc]
    · simp [hc]
  · have hit : (i + 1) * pageSize ≤ m := by
      rw [← hpages]
      exact Nat.mul_le_mul_right _ hi
    rw [hat (i + 1) (Nat.succ_pos i) (by omega), if_pos (Nat.succ_le_of_lt hi)]
  · rw [hw.value_length hf, hw.tokens_eq, hpages]
    exact length_take_of_le hle

end Answers

section Runs

/-- A cache, and the map it should stand for. -/
structure Shadowed where
  cache : Cache
  map : PrefixMap (Option String) TokenId Nat

/-- The calls that change the map. -/
inductive MapOp where
  | insert (key : RadixKey) (value : List Nat)
  | matchPrefix (key : RadixKey)
  | evict (order : List TreeNode → Nat) (numTokens : Nat)

/-- An operation on the cache, and what it means for the map. -/
def MapStep (s : Shadowed) (op : MapOp) (s' : Shadowed) : Prop :=
  match op with
  | .insert key value => s.cache.pageSize ∣ key.length ∧ value.length = key.length ∧
      ∃ n c, s.cache.insert key value = .ok (n, c) ∧
        s' = ⟨c, s.map.bind s.cache.pageSize key.extraKey key.tokenIds value⟩
  | .matchPrefix key => ∃ result c, s.cache.matchPrefix key = .ok (result, c) ∧ s' = ⟨c, s.map⟩
  | .evict order numTokens => ∃ removed c, s.cache.evict order numTokens = (removed, c) ∧
      s' = ⟨c, s.map.unbind (Gone s.cache.children removed)⟩

/-- The cache is in order, takes keys as they are, and its tree's map is the
    map. -/
structure Represents (pageSize : Nat) (s : Shadowed) : Prop where
  accounted : Accounted s.cache []
  pageSize_eq : s.cache.pageSize = pageSize
  plain : s.cache.isEagle = false
  enabled : s.cache.disable = false
  aligned : Aligned pageSize s.cache.children
  map_eq : ∀ e p, Whole pageSize p → s.map e p = find pageSize e s.cache.children p

variable {pageSize : Nat} {c c' : Cache} {M : PrefixMap (Option String) TokenId Nat}
  {s s' : Shadowed}

theorem Cache.convert_of_plain (h : c.isEagle = false) (key : RadixKey) :
    c.maybeBigramConvert key = key := by
  simp [Cache.maybeBigramConvert, h]

theorem Cache.insertValue_of_plain (h : c.isEagle = false) (key : RadixKey) (value : List Nat) :
    c.insertValue key value = value := by
  simp [Cache.insertValue, h]

/-- A match goes down with the whole pages of its key. -/
theorem Cache.lookupKey_of_plain (h : c.isEagle = false) (key : RadixKey) :
    (c.lookupKey key).extraKey = key.extraKey ∧ (c.lookupKey key).tokenIds =
      key.tokenIds.take (key.tokenIds.length / c.pageSize * c.pageSize) := by
  have heq := c.lookupKey_eq key
  rwa [c.convert_of_plain h] at heq

variable (h : Represents pageSize s)

include h

/-- A match reads the longest bound prefix off the map. -/
theorem represents_matchPrefix (key : RadixKey)
    {result : MatchResult} (heq : s.cache.matchPrefix key = .ok (result, c')) :
    Represents pageSize ⟨c', s.map⟩ ∧ ∃ n, Longest pageSize s.map key.extraKey key.tokenIds n ∧
      result.deviceIndices = along pageSize s.map key.extraKey key.tokenIds n := by
  have hacc := h.accounted.matchPrefix heq
  have hps := h.accounted.pageSize_pos
  have htree := h.accounted.counted.tree
  rcases s.cache.lookupKey_of_plain h.plain key with ⟨hextra, htokens⟩
  have hcases := Checked.of_returns (matchPrefix_cases s.cache hps htree key) heq
  obtain ⟨-, hpage, hplain, henabled, hal, hmap⟩ := h
  subst hpage
  rcases hcases with ⟨hnone, rfl, rfl⟩ | ⟨_, _, path, m, stop, r, hw, hend, rfl, rfl⟩
  · -- The key has no whole page.
    have hshort : key.tokenIds.length / s.cache.pageSize * s.cache.pageSize = 0 := by
      have hlen := hnone.resolve_left (by simp [henabled])
      rwa [RadixKey.length, htokens, length_take_of_le (Nat.div_mul_le_self _ _)] at hlen
    refine ⟨⟨hacc, rfl, hplain, henabled, hal, hmap⟩, 0, ⟨by omega, fun i hi hit => ?_⟩, rfl⟩
    have hle := (Nat.le_div_iff_mul_le hps).mpr hit
    have hpos := Nat.mul_pos (hi.trans_le hle) hps
    omega
  rcases longest_of_walk hmap hps hw htree hal htokens with ⟨_, hlong, halong⟩
  rw [hextra] at hlong halong
  refine ⟨?_, _, hlong, hend.values_flatten.trans halong.symm⟩
  cases stop with
  | missing | exact =>
    have hsame : r.children = s.cache.children := hend.2.2.2
    exact ⟨hacc, rfl, hplain, henabled, hsame.symm ▸ hal, fun e p hp => by
      rw [hmap e p hp, hsame]⟩
  | inside n t j =>
    have hsplit := hend.2.2.2
    exact ⟨hacc, rfl, hplain, henabled, aligned_split hsplit hal, fun e p hp => by
      rw [hmap e p hp]
      exact (find_split hsplit htree hal hp).symm⟩

/-- An insertion binds the prefixes of the key that were not bound. -/
theorem represents_insert {key : RadixKey} {value : List Nat}
    (hkey : pageSize ∣ key.length) (hv : value.length = key.length) {n : Nat}
    (heq : s.cache.insert key value = .ok (n, c')) :
    Represents pageSize ⟨c', s.map.bind pageSize key.extraKey key.tokenIds value⟩ ∧
      n = n / pageSize * pageSize ∧
      Longest pageSize s.map key.extraKey key.tokenIds (n / pageSize) := by
  have hacc := h.accounted.insert hv heq
  have hps := h.accounted.pageSize_pos
  have htree := h.accounted.counted.tree
  have hcases := Checked.of_returns (insert_cases s.cache hps htree key value) heq
  rw [s.cache.convert_of_plain h.plain, s.cache.insertValue_of_plain h.plain] at hcases
  obtain ⟨-, hpage, hplain, henabled, hal, hmap⟩ := h
  subst hpage
  rcases hcases with ⟨hnone, rfl, rfl⟩ | ⟨_, _, path, stop, r, hw, hend, rfl⟩
  · -- The key is empty and has no prefix to bind.
    have hempty : key.tokenIds = [] :=
      eq_nil_of_length_eq_zero (hnone.resolve_left (by simp [henabled]))
    refine ⟨⟨hacc, rfl, hplain, henabled, hal, fun e p hp => ?_⟩, by simp, ?_⟩
    · refine (bind_eq fun _ hpk => ?_).trans (hmap e p hp)
      rw [hempty, prefix_nil] at hpk
      exact absurd hpk hp.1
    · refine ⟨by simp, fun i hi hit => ?_⟩
      rw [hempty, length_nil] at hit
      have := Nat.mul_pos hi hps
      omega
  have hself : key.tokenIds = key.tokenIds.take
      (key.tokenIds.length / s.cache.pageSize * s.cache.pageSize) := by
    rw [Nat.div_mul_cancel (show _ ∣ key.tokenIds.length from hkey), take_length]
  rcases longest_of_walk hmap hps hw htree hal hself with ⟨hn, hlong, _⟩
  refine ⟨⟨hacc, rfl, hplain, henabled,
    aligned_insertEnd hend hal hkey (hw.aligned hal hkey).1, fun e p hp => ?_⟩, hn, hlong⟩
  rw [find_insertEnd hw hend htree hal hkey hv e hp]
  simp only [PrefixMap.bind, hmap e p hp]

/-- An eviction unbinds what ended in the nodes that go. -/
theorem represents_evict (order : List TreeNode → Nat)
    (numTokens : Nat) {removed : List TreeNode}
    (heq : s.cache.evict order numTokens = (removed, c')) :
    Represents pageSize ⟨c', s.map.unbind (Gone s.cache.children removed)⟩ := by
  have hacc := h.accounted.evict order numTokens
  have hids := h.accounted.counted.ids
  rcases evict_cases s.cache hids order numTokens with ⟨removed', children, heq', he⟩
  cases heq'.symm.trans heq
  rw [heq] at hacc
  obtain ⟨haccounted, hpage, hplain, henabled, hal, hmap⟩ := h
  refine ⟨hacc, hpage, hplain, henabled, ?_, fun e p hp => ?_⟩
  · exact aligned_evicts he hal
  · subst hpage
    have hevicts := find_evicts (e := e) he hids haccounted.counted.tree hal hp
    simp only [PrefixMap.unbind]
    split_ifs with hgone
    · exact (hevicts.1 hgone).symm
    · rw [hmap e p hp, hevicts.2 hgone]

omit h

theorem represents_init (hps : 0 < pageSize) (disableFinishedInsert : Bool) :
    Represents pageSize ⟨Cache.init pageSize false false disableFinishedInsert, PrefixMap.empty⟩ :=
  ⟨accounted_init pageSize hps false false disableFinishedInsert, rfl, rfl, rfl, trivial,
    fun _ _ _ => rfl⟩

/-- Every operation keeps the two together. -/
theorem represents_step {op : MapOp} (h : Represents pageSize s) (hs : MapStep s op s') :
    Represents pageSize s' := by
  cases op with
  | insert key value =>
    rcases hs with ⟨hkey, hv, n, c, heq, rfl⟩
    rw [h.pageSize_eq] at hkey ⊢
    exact (represents_insert h hkey hv heq).1
  | matchPrefix key =>
    rcases hs with ⟨result, c, heq, rfl⟩
    exact (represents_matchPrefix h key heq).1
  | evict order numTokens =>
    rcases hs with ⟨removed, c, heq, rfl⟩
    exact represents_evict h order numTokens heq

/-- Every index that is bound in a namespace was given to an insertion there. -/
theorem bound_of_insert {s0 : Shadowed} {tr : List (Shadowed × MapOp × Shadowed)}
    (h : Run MapStep s0 tr s) (h0 : s0.map = PrefixMap.empty) {e : Option String}
    {p : List TokenId} {indices : List Nat} (hbound : s.map e p = some indices) :
    ∀ i ∈ indices, ∃ t ∈ tr, ∃ key value, t.2.1 = .insert key value ∧ key.extraKey = e ∧
      i ∈ value := by
  induction h generalizing indices with
  | nil =>
    rw [h0] at hbound
    cases hbound
  | @snoc tr t u op _ hs ih =>
    intro i hi
    -- What was bound before the step comes from an earlier insertion.
    have hbefore : ∀ {indices}, t.map e p = some indices → i ∈ indices →
        ∃ t' ∈ tr ++ [(t, op, u)], ∃ key value, t'.2.1 = .insert key value ∧
          key.extraKey = e ∧ i ∈ value := by
      intro indices hb hmem
      rcases ih hb i hmem with ⟨t', ht', hrest⟩
      exact ⟨t', mem_append_left _ ht', hrest⟩
    cases op with
    | insert key value =>
      rcases hs with ⟨_, _, n, c, _, rfl⟩
      simp only [PrefixMap.bind, Option.or_eq_some_iff] at hbound
      rcases hbound with hb | ⟨_, hb⟩
      · exact hbefore hb hi
      · split_ifs at hb with hc
        cases hb
        exact ⟨_, mem_append_right _ (mem_singleton_self _), key, value, rfl,
          hc.1.symm, mem_of_mem_take (mem_of_mem_drop hi)⟩
    | matchPrefix key =>
      rcases hs with ⟨result, c, _, rfl⟩
      exact hbefore hbound hi
    | evict order numTokens =>
      rcases hs with ⟨removed, c, _, rfl⟩
      simp only [PrefixMap.unbind] at hbound
      split_ifs at hbound
      exact hbefore hbound hi

/-- In every state that any sequence of operations reaches, the tree holds
    the map. A match returns the indices along the longest bound prefix of its
    key, all of them inserted under its extra key, and an insertion returns
    the length of the longest prefix that was bound. -/
theorem refines_prefixMap (pageSize : Nat) (hps : 0 < pageSize) (disableFinishedInsert : Bool)
    (tr : List (Shadowed × MapOp × Shadowed)) (s : Shadowed)
    (hrun : Run MapStep ⟨Cache.init pageSize false false disableFinishedInsert,
      PrefixMap.empty⟩ tr s) :
    (∀ e p, Whole pageSize p → find pageSize e s.cache.children p = s.map e p) ∧
    (∀ key, ∃ result c n, s.cache.matchPrefix key = .ok (result, c) ∧
      Longest pageSize s.map key.extraKey key.tokenIds n ∧
      result.deviceIndices = along pageSize s.map key.extraKey key.tokenIds n ∧
      (∀ e p, Whole pageSize p → find pageSize e c.children p = s.map e p) ∧
      ∀ i ∈ result.deviceIndices, ∃ t ∈ tr, ∃ key' value, t.2.1 = .insert key' value ∧
        key'.extraKey = key.extraKey ∧ i ∈ value) ∧
    (∀ key value, pageSize ∣ key.length → value.length = key.length →
      ∃ n c, s.cache.insert key value = .ok (n * pageSize, c) ∧
        Longest pageSize s.map key.extraKey key.tokenIds n) := by
  have h : Represents pageSize s := hrun.inv (represents_init hps disableFinishedInsert)
    (fun _ _ _ => represents_step)
  have hps' := h.accounted.pageSize_pos
  have htree := h.accounted.counted.tree
  refine ⟨fun e p hp => (h.map_eq e p hp).symm, fun key => ?_, fun key value hkey hv => ?_⟩
  · rcases matchPrefix_cases s.cache hps' htree key with ⟨result, c, heq, _⟩
    rcases represents_matchPrefix h key heq with ⟨h', n, hlong, halong⟩
    refine ⟨result, c, n, heq, hlong, halong, fun e p hp => (h'.map_eq e p hp).symm, ?_⟩
    -- An index that is returned is bound, and only an insertion binds.
    intro i hi
    rw [halong] at hi
    rcases mem_flatMap.mp hi with ⟨k, _, hk⟩
    cases hb : s.map key.extraKey (key.tokenIds.take ((k + 1) * pageSize)) with
    | none =>
      rw [hb] at hk
      cases hk
    | some indices =>
      rw [hb] at hk
      exact bound_of_insert hrun rfl hb i hk
  · rcases insert_cases s.cache hps' htree key value with ⟨n, c, heq, _⟩
    rcases represents_insert h hkey hv heq with ⟨_, hn, hlong⟩
    exact ⟨n / pageSize, c, hn ▸ heq, hlong⟩

/-- The cache after one insertion of two pages. -/
def twoPages : Cache :=
  { Cache.init 2 false false false with
    children := .cons (.plain (.tuple [.int 1, .int 2]))
      ⟨1, ⟨[.int 1, .int 2, .int 3, .int 4], none, false⟩, [20, 21, 30, 31], 0⟩ .nil .nil
    evictableSize := 4
    counter := 2 }

/-- The same cache after its node has been split. -/
def splitPages : Cache :=
  { twoPages with
    children := .cons (.plain (.tuple [.int 1, .int 2]))
      ⟨2, ⟨[.int 1, .int 2], none, false⟩, [20, 21], 0⟩
      (.cons (.plain (.tuple [.int 3, .int 4]))
        ⟨1, ⟨[.int 3, .int 4], none, false⟩, [30, 31], 0⟩ .nil .nil) .nil
    counter := 3 }

/-- Two pages are inserted, and a match of the first one with one token more
    splits their node. -/
theorem refines_prefixMap_split : ∃ tr s,
    Run MapStep ⟨Cache.init 2 false false false, PrefixMap.empty⟩ tr s ∧
    s.cache.children.locate (·.id == 2) ≠ none ∧
    (∀ e p, Whole 2 p → find 2 e s.cache.children p = s.map e p) ∧
    (∀ key, ∃ result c n, s.cache.matchPrefix key = .ok (result, c) ∧
      Longest 2 s.map key.extraKey key.tokenIds n ∧
      result.deviceIndices = along 2 s.map key.extraKey key.tokenIds n ∧
      (∀ e p, Whole 2 p → find 2 e c.children p = s.map e p) ∧
      ∀ i ∈ result.deviceIndices, ∃ t ∈ tr, ∃ key' value, t.2.1 = .insert key' value ∧
        key'.extraKey = key.extraKey ∧ i ∈ value) ∧
    (∀ key value, 2 ∣ key.length → value.length = key.length →
      ∃ n c, s.cache.insert key value = .ok (n * 2, c) ∧
        Longest 2 s.map key.extraKey key.tokenIds n) := by
  have insert : MapStep ⟨Cache.init 2 false false false, PrefixMap.empty⟩
      (.insert ⟨[.int 1, .int 2, .int 3, .int 4], none, false⟩ [20, 21, 30, 31])
      ⟨twoPages, _⟩ := ⟨by decide, rfl, _, _, rfl, rfl⟩
  have hmatch : twoPages.matchPrefix ⟨[.int 1, .int 2, .int 3], none, false⟩ =
      .ok (⟨[20, 21], 2, 2⟩, splitPages) := by
    rfl
  have split : ∀ M, MapStep ⟨twoPages, M⟩
      (.matchPrefix ⟨[.int 1, .int 2, .int 3], none, false⟩) ⟨splitPages, M⟩ :=
    fun M => ⟨_, _, hmatch, rfl⟩
  have hrun := (Run.nil.snoc _ insert).snoc _ (split _)
  exact ⟨_, _, hrun, by decide, refines_prefixMap 2 (by decide) false _ _ hrun⟩

end Runs

end SglangInc.Radix
