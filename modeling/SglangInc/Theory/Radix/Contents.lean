import SglangInc.Lib.PrefixMap
import SglangInc.Theory.Radix.Edits

/-!
# The Prefix Map of a Tree

The tree as a partial map from page-aligned prefixes to the indices of their
last page, where all keys of the tree are whole pages.

`find` reads the map off the tree without a walk: a prefix goes down under its
own dictionary key, and its indices are in the first node that it ends in. The
walk of a key is then described by the map alone (`find_of_walk`): prefixes up
to the matched length are bound, to the pages of the indices along the walk,
and longer ones are not.

An edit of one dictionary is seen only by the prefixes that go past all the
nodes above it (`find_frame`). So what a split, a new leaf and an erased leaf
do to the map is a question about one dictionary. A split changes nothing, and
a leaf binds and unbinds the prefixes that end inside it (`EndsIn`).
-/

namespace SglangInc.Radix

open List Forest PrefixMap

/-- All keys of the tree are whole pages. -/
def Aligned (pageSize : Nat) (f : Children) : Prop :=
  f.All (fun _ n _ => pageSize ∣ n.key.length)

/-- The indices of the last page of a prefix. -/
def find (pageSize : Nat) (e : Option String) : Children → List TokenId → Option (List Nat)
  | .nil, _ => none
  | .cons k n s rest, p =>
    if getChildKey pageSize ⟨p, e, false⟩ = .ok k then
      if p <+: n.key.tokenIds then some (page pageSize n.value p.length)
      else if n.key.tokenIds <+: p then find pageSize e s (p.drop n.key.length)
      else none
    else find pageSize e rest p

variable {pageSize : Nat} {f f' : Children} {path : List TreeNode} {e : Option String}
  {p : List TokenId}

section Lookup

/-- Changes along a path that keep keys and values. -/
theorem find_alterPath (hit : TreeNode → Bool) {g : TreeNode → TreeNode}
    (hkey : ∀ n, (g n).key = n.key) (hvalue : ∀ n, (g n).value = n.value) (f : Children)
    (p : List TokenId) : find pageSize e (f.alterPath hit g) p = find pageSize e f p := by
  induction f generalizing p with
  | nil => rfl
  | cons k n s rest ihs ihr =>
    simp only [alterPath]
    split_ifs
    · simp [find, hkey, hvalue]
    · simp [find, hkey, hvalue, ihs]
    · simp [find, ihr]

variable {k : ChildKey} {u : List TokenId}

section

variable (hk : getChildKey pageSize ⟨p, e, false⟩ = .ok k)
include hk

theorem find_of_lookup {n : TreeNode} {s : Children} (hl : f.lookup k = some (n, s)) :
    find pageSize e f p = if p <+: n.key.tokenIds then some (page pageSize n.value p.length)
      else if n.key.tokenIds <+: p then find pageSize e s (p.drop n.key.length) else none := by
  induction hl using Forest.lookup_induction with
  | here rest => rw [find, hk, if_pos rfl]
  | later hkk _ ih => rw [find, hk, if_neg (fun h => hkk (Except.ok.inj h).symm), ih]

theorem find_of_lookup_none (hl : f.lookup k = none) : find pageSize e f p = none := by
  induction f with
  | nil => rfl
  | cons k' n' s' rest _ ihr =>
    simp only [Forest.lookup] at hl
    split_ifs at hl with hkk
    rw [find, hk, if_neg (fun h => hkk (Except.ok.inj h).symm)]
    exact ihr hl

/-- The map at a prefix depends on one entry of the dictionary. -/
theorem find_congr
    (hl : f'.lookup k = f.lookup k) : find pageSize e f' p = find pageSize e f p := by
  cases h : f.lookup k with
  | none => rw [find_of_lookup_none hk h, find_of_lookup_none hk (hl.trans h)]
  | some found => rw [find_of_lookup hk h, find_of_lookup hk (hl.trans h)]

end

theorem length_lt_of_prefix (hu : u <+: p) (hp : ¬ p <+: u) : u.length < p.length :=
  Nat.lt_of_le_of_ne hu.length_le fun heq => hp (hu.eq_of_length heq ▸ prefix_refl _)

/-- A prefix that shares a page with a node's key is looked up under it. -/
theorem childKey_of_shared {key : RadixKey} (hk : getChildKey pageSize key = .ok k)
    (he : key.extraKey = e) (hle : pageSize ≤ u.length) (hkey : u <+: key.tokenIds) (hp : u <+: p) :
    getChildKey pageSize ⟨p, e, false⟩ = .ok k := by
  rw [← hk]
  refine getChildKey_congr he.symm ?_
  rcases hkey with ⟨v, hv⟩
  rcases hp with ⟨w, rfl⟩
  rw [← hv, take_append_of_le_length hle, take_append_of_le_length hle]

end Lookup

/-- The part of the last node's value that is matched. -/
def Stop.value : Stop → List Nat
  | .missing => []
  | .inside child _ splitLen => child.value.take splitLen
  | .exact => []

/-- A prefix of the key that goes past a place where the key leaves a node
    leaves the node as well. -/
theorem Matches.not_prefix {a b : List TokenId} {j : Nat} (h : Matches pageSize a b j)
    (ha : j < a.length) (hal : pageSize ∣ a.length) (hp : Whole pageSize p) (hpb : p <+: b)
    (hj : j < p.length) : ¬ p <+: a ∧ ¬ a <+: p := by
  have hjp := Nat.le_of_dvd (Nat.sub_pos_of_lt hj) (Nat.dvd_sub hp.2 h.aligned)
  have hja := Nat.le_of_dvd (Nat.sub_pos_of_lt ha) (Nat.dvd_sub hal h.aligned)
  have hb := hpb.length_le
  -- Both lists would agree on the page after the match.
  have hpage : ∀ {u : List TokenId}, j + pageSize ≤ u.length → u <+: a → u <+: b → False := by
    rintro u hu ⟨v, rfl⟩ ⟨w, rfl⟩
    rcases h.stop with hs | hs | hs
    · omega
    · omega
    · refine hs ?_
      rw [drop_append_of_le_length (by omega), drop_append_of_le_length (by omega),
        take_append_of_le_length (by rw [List.length_drop]; omega),
        take_append_of_le_length (by rw [List.length_drop]; omega)]
  exact ⟨fun hpa => hpage (by omega) hpa hpb,
    fun hap => hpage (by omega) (prefix_refl a) (hap.trans hpb)⟩

/-- The prefixes of a key are bound up to the matched length, to the pages of
    the indices along the walk. -/
theorem find_of_walk {key : RadixKey} {m : Nat} {stop : Stop}
    (h : Walk pageSize f key path m stop) (hf : TreeOk pageSize f) (ha : Aligned pageSize f)
    (hkey : pageSize ∣ key.length) (hp : Whole pageSize p) (hpk : p <+: key.tokenIds) :
    find pageSize key.extraKey f p =
      if p.length ≤ m then some (page pageSize (path.flatMap (·.value) ++ stop.value) p.length)
      else none := by
  induction h generalizing p with
  | missing hk hl =>
    rw [if_neg (length_pos_iff.mpr hp.1).not_ge]
    exact find_of_lookup_none (childKey_of_shared hk rfl hp.le hpk (prefix_refl p)) hl
  | @inside f key k n s j hk hl _ hm hpos hin =>
    rw [find_of_lookup (childKey_of_shared hk rfl hp.le hpk (prefix_refl p)) hl]
    by_cases hle : p.length ≤ j
    · have hpn : p <+: n.key.tokenIds := by
        rw [prefix_iff_eq_take.mp hpk, ← Nat.min_eq_left hle, ← take_take, ← hm.take_eq]
        rw [take_take]
        exact take_prefix _ _
      rw [if_pos hpn, if_pos hle, flatMap_nil, nil_append, Stop.value, page_take hle]
    · rcases hm.not_prefix hin (all_lookup ha hl).1 hp hpk (not_le.mp hle) with ⟨h1, h2⟩
      rw [if_neg h1, if_neg h2, if_neg hle]
  | @exact f key k n s j hk hl _ hm hn hend =>
    rw [find_of_lookup (childKey_of_shared hk rfl hp.le hpk (prefix_refl p)) hl]
    -- The node's key is the key.
    have heq : n.key.tokenIds = key.tokenIds := by
      rw [hm.tokens_eq hn, take_of_length_le hend]
    rw [heq, if_pos hpk, if_pos (hpk.length_le.trans hend), flatMap_singleton,
      Stop.value, List.append_nil]
  | @down f key k n s j path m stop hk hl _ hm hn hpos hlt hw ih =>
    rw [find_of_lookup (childKey_of_shared hk rfl hp.le hpk (prefix_refl p)) hl]
    have hlen : n.key.tokenIds.length = j := hm.length_eq hn hlt
    have hnk : n.key.tokenIds <+: key.tokenIds := by
      rw [hm.tokens_eq hn]
      exact take_prefix _ _
    have hval : n.value.length = j := (hf.lookup hl).1.value_length.trans hlen
    rw [flatMap_cons, append_assoc]
    by_cases hle : p.length ≤ j
    · rw [if_pos (prefix_of_prefix_length_le hpk hnk (by omega)), if_pos (by omega),
        page_append_left (by omega)]
    have hnp := prefix_of_prefix_length_le hnk hpk (by omega)
    have hpage := Nat.le_of_dvd (by omega) (Nat.dvd_sub hp.2 hm.aligned)
    have hwhole := hp.drop (u := n.key.tokenIds) (all_lookup ha hl).1 (by omega)
    rw [hlen] at hwhole
    have hrest : p.drop j <+: (key.drop j).tokenIds := by
      rcases hpk with ⟨w, hw⟩
      exact ⟨w, by rw [← drop_append_of_le_length (by omega), hw]; rfl⟩
    have hdvd : pageSize ∣ (key.drop j).length := by
      rw [length_drop]
      exact Nat.dvd_sub hkey hm.aligned
    have hbelow := ih (hf.lookup hl).2 (all_lookup ha hl).2 hdvd hwhole hrest
    rw [show (key.drop j).extraKey = key.extraKey from rfl] at hbelow
    rw [if_neg (fun h => hle (hlen ▸ h.length_le)), if_pos hnp, show n.key.length = j from hlen,
      hbelow, page_append_right n.value _ (by omega), List.length_drop, hval]
    refine if_congr ?_ rfl rfl
    omega

/-- The prefix goes down the path and past its end. -/
structure Past (path : List TreeNode) (e : Option String) (p : List TokenId) : Prop where
  extraKey : ∀ n ∈ path, n.key.extraKey = e
  spells : path.flatMap (·.key.tokenIds) <+: p
  lt : (path.flatMap (·.key.tokenIds)).length < p.length

theorem past_cons_iff {n : TreeNode} : Past (n :: path) e p ↔
    n.key.extraKey = e ∧ n.key.tokenIds <+: p ∧ Past path e (p.drop n.key.length) := by
  have hlen : (path.flatMap (·.key.tokenIds)).length < (p.drop n.key.length).length ↔
      ((n :: path).flatMap (·.key.tokenIds)).length < p.length := by
    rw [List.length_drop, flatMap_cons, length_append,
      show n.key.tokenIds.length = n.key.length from rfl]
    omega
  constructor
  · rintro ⟨he, hs, hlt⟩
    rw [flatMap_cons, append_prefix_iff] at hs
    exact ⟨he n mem_cons_self, hs.1, (forall_mem_cons.mp he).2, hs.2, hlen.mpr hlt⟩
  · rintro ⟨he, hn, hpast⟩
    refine ⟨forall_mem_cons.mpr ⟨he, hpast.extraKey⟩, ?_, hlen.mp hpast.lt⟩
    rw [flatMap_cons, append_prefix_iff]
    exact ⟨hn, hpast.spells⟩

/-- A prefix that starts with a node's key and goes past it is found below
    the node. -/
theorem find_below {k : ChildKey} {n : TreeNode} {s : Children}
    (hf : NodeOk pageSize k n) (ha : pageSize ∣ n.key.length) (hl : f.lookup k = some (n, s))
    (he : n.key.extraKey = e) (hn : n.key.tokenIds <+: p) (hlt : n.key.length < p.length) :
    find pageSize e f p = find pageSize e s (p.drop n.key.length) := by
  have hle : pageSize ≤ n.key.tokenIds.length := Whole.le ⟨hf.nonempty, ha⟩
  rw [find_of_lookup (childKey_of_shared hf.slot he hle (prefix_refl _) hn) hl,
    if_neg (fun h => absurd h.length_le hlt.not_ge), if_pos hn]

/-- An edit below a path is seen by the prefixes that go past the path, and
    by no others. -/
theorem find_frame {R : Children → Children → Prop} (h : Edit R path f f')
    (hf : TreeOk pageSize f) (ha : Aligned pageSize f) :
    ∃ g g', R g g' ∧ TreeOk pageSize g ∧ Aligned pageSize g ∧ ∀ e p, Whole pageSize p →
        (Past path e p → Whole pageSize (p.drop (path.flatMap (·.key.tokenIds)).length) ∧
          find pageSize e f p = find pageSize e g (p.drop (path.flatMap (·.key.tokenIds)).length) ∧
          find pageSize e f' p =
            find pageSize e g' (p.drop (path.flatMap (·.key.tokenIds)).length)) ∧
        (¬ Past path e p → find pageSize e f' p = find pageSize e f p) := by
  induction h with
  | @here f f' hr => exact ⟨f, f', hr, hf, ha, fun e p hp => ⟨fun _ => ⟨hp, rfl, rfl⟩,
      fun hnot => absurd ⟨fun _ h => absurd h not_mem_nil, nil_prefix,
        length_pos_iff.mpr hp.1⟩ hnot⟩⟩
  | @down path f k n s s' hl he ih =>
    rcases hf.lookup hl with ⟨hn, hs⟩
    rcases all_lookup ha hl with ⟨hdvd, has⟩
    rcases ih hs has with ⟨g, g', hr, hg, hag, hbelow⟩
    have hself := lookup_set_self k n s' f
    refine ⟨g, g', hr, hg, hag, fun e p hp => ⟨fun hpast => ?_, fun hnot => ?_⟩⟩
    · rcases past_cons_iff.mp hpast with ⟨hen, hnp, hpast'⟩
      have hlt : n.key.length < p.length := by
        have := hpast'.lt
        rw [List.length_drop] at this
        omega
      have hdrop : p.drop ((n :: path).flatMap (·.key.tokenIds)).length =
          (p.drop n.key.length).drop (path.flatMap (·.key.tokenIds)).length := by
        rw [drop_drop, flatMap_cons, length_append]
        rfl
      rw [hdrop, find_below hn hdvd hl hen hnp hlt, find_below hn hdvd hself hen hnp hlt]
      exact (hbelow e _ (hp.drop hdvd hlt)).1 hpast'
    · rcases getChildKey_ok pageSize ⟨p, e, false⟩ hp.1 with ⟨k', hk'⟩
      by_cases hkk : k' = k
      · subst hkk
        rw [find_of_lookup hk' hl, find_of_lookup hk' hself]
        split_ifs with hpn hnp
        · rfl
        · -- The prefix goes past this node but not past the whole path.
          have hlt : n.key.length < p.length := length_lt_of_prefix hnp hpn
          refine (hbelow e _ (hp.drop hdvd hlt)).2 fun hpast => hnot ?_
          exact past_cons_iff.mpr ⟨(getChildKey_inj hn.slot hk').1, hnp, hpast⟩
        · rfl
      · exact find_congr hk' (lookup_set_of_ne hkk n s' f)

section Edits

variable {n : TreeNode} {s : Children}

/-- A prefix, seen from a node whose key it starts with in part. -/
theorem find_lower {j : Nat} {below : ChildKey} (ha : pageSize ∣ n.key.length)
    (hlt : j < n.key.length) (hal : pageSize ∣ j)
    (hbelow : getChildKey pageSize (n.key.drop j) = .ok below) (he : n.key.extraKey = e)
    {q : List TokenId} (hq : Whole pageSize q) :
    find pageSize e (.cons below (n.lower j) s .nil) q =
      if q <+: n.key.tokenIds.drop j then some (page pageSize (n.value.drop j) q.length)
      else if n.key.tokenIds.drop j <+: q then find pageSize e s (q.drop (n.key.length - j))
      else none := by
  have hle : pageSize ≤ (n.key.tokenIds.drop j).length := by
    rw [List.length_drop]
    exact Nat.le_of_dvd (Nat.sub_pos_of_lt hlt) (Nat.dvd_sub ha hal)
  rcases getChildKey_ok pageSize ⟨q, e, false⟩ hq.1 with ⟨k', hk'⟩
  by_cases hkk : below = k'
  · subst hkk
    rw [find_of_lookup hk' (n := n.lower j) (s := s) (by simp [Forest.lookup])]
    simp [TreeNode.lower, RadixKey.drop, RadixKey.length]
  rw [find_of_lookup_none hk' (by simp [Forest.lookup, if_neg hkk])]
  -- Another first page, so neither is a prefix of the other.
  rw [if_neg, if_neg]
  · intro hp
    have := childKey_of_shared (p := q) hbelow he hle (prefix_refl _) hp
    exact hkk (Except.ok.inj (this.symm.trans hk'))
  · intro hp
    have := childKey_of_shared (p := q) hbelow he hq.le hp (prefix_refl _)
    exact hkk (Except.ok.inj (this.symm.trans hk'))

/-- A split does not change the map. -/
theorem find_split {j newId : Nat} (h : Edit (SplitAt pageSize n s j newId) path f f')
    (hf : TreeOk pageSize f) (ha : Aligned pageSize f) (hp : Whole pageSize p) :
    find pageSize e f' p = find pageSize e f p := by
  rcases find_frame h hf ha with ⟨g, g', hsplit, hg, hag, hframe⟩
  by_cases hpast : Past path e p
  · rcases (hframe e p hp).1 hpast with ⟨hq, hbefore, hafter⟩
    rw [hbefore, hafter]
    generalize p.drop (path.flatMap (·.key.tokenIds)).length = q at hq
    obtain ⟨hl, hj, hlt, hal, hbelow⟩ := hsplit
    rename_i k below
    rcases getChildKey_ok pageSize ⟨q, e, false⟩ hq.1 with ⟨k', hk'⟩
    by_cases hkk : k' = k
    · subst hkk
      have hn := (hg.lookup hl).1
      have he : n.key.extraKey = e := (getChildKey_inj hn.slot hk').1
      set u := n.key.tokenIds.take j
      set v := n.key.tokenIds.drop j
      have hjlen : u.length = j := length_take_of_le hlt.le
      have hvlen : (n.value.take j).length = j :=
        length_take_of_le (by rw [hn.value_length]; omega)
      rw [find_of_lookup hk' hl, find_of_lookup hk' (lookup_set_self _ _ _ _),
        show (n.upper j newId).key.tokenIds = u from rfl,
        show (n.upper j newId).key.length = j from hjlen,
        show (n.upper j newId).value = n.value.take j from rfl]
      -- Prefixes of the whole key in terms of the two parts.
      have hin : q <+: n.key.tokenIds ↔ q <+: u ∨ (u <+: q ∧ q.drop j <+: v) := by
        have := prefix_append_iff (p := q) (u := u) (v := v)
        rwa [take_append_drop, hjlen] at this
      have hout : n.key.tokenIds <+: q ↔ u <+: q ∧ v <+: q.drop j := by
        have := append_prefix_iff (p := q) (u := u) (v := v)
        rwa [take_append_drop, hjlen] at this
      by_cases hup : q <+: u
      · rw [if_pos hup, if_pos (hin.mpr (.inl hup)), page_take (hjlen ▸ hup.length_le)]
      rw [if_neg hup]
      by_cases hlow : u <+: q
      · have hqlt := hjlen ▸ length_lt_of_prefix hlow hup
        have hpage := Nat.le_of_dvd (Nat.sub_pos_of_lt hqlt) (Nat.dvd_sub hq.2 hal)
        have hdrop : Whole pageSize (q.drop j) := by
          have := hq.drop (u := u) (hjlen.symm ▸ hal) (hjlen.symm ▸ hqlt)
          rwa [hjlen] at this
        have hval : page pageSize n.value q.length =
            page pageSize (n.value.drop j) (q.length - j) := by
          have hsplit := page_append_right (n.value.take j) (n.value.drop j)
            (show (n.value.take j).length + pageSize ≤ q.length by omega)
          rwa [take_append_drop, hvlen] at hsplit
        rw [if_pos hlow, find_lower (all_lookup hag hl).1 hlt hal hbelow he hdrop,
          List.length_drop, drop_drop, Nat.add_sub_cancel' hlt.le, hval]
        simp [hin, hout, hup, hlow, v]
      · rw [if_neg hlow, if_neg (by rw [hin]; tauto), if_neg (by rw [hout]; tauto)]
    · exact find_congr hk' (lookup_set_of_ne hkk _ _ _)
  · exact (hframe e p hp).2 hpast

/-- The prefix goes past the nodes above and ends in the last one. -/
structure EndsIn (above : List TreeNode) (n : TreeNode) (e : Option String)
    (p : List TokenId) : Prop where
  past : Past above e p
  extraKey : n.key.extraKey = e
  spells : p <+: above.flatMap (·.key.tokenIds) ++ n.key.tokenIds

/-- Below the nodes above, it is a prefix of the last node's key. -/
theorem Past.endsIn_iff (h : Past path e p) : EndsIn path n e p ↔
    n.key.extraKey = e ∧ p.drop (path.flatMap (·.key.tokenIds)).length <+: n.key.tokenIds := by
  have hspells : p <+: path.flatMap (·.key.tokenIds) ++ n.key.tokenIds ↔
      p.drop (path.flatMap (·.key.tokenIds)).length <+: n.key.tokenIds := by
    rw [prefix_append_iff]
    constructor
    · rintro (hp | hp)
      · exact absurd hp.length_le h.lt.not_ge
      · exact hp.2
    · exact fun hp => .inr ⟨h.spells, hp⟩
  exact ⟨fun he => ⟨he.extraKey, hspells.mp he.spells⟩, fun he => ⟨h, he.1, hspells.mpr he.2⟩⟩

/-- A leaf that one dictionary has and the other has not binds the prefixes
    of its key, and they agree on the others. -/
theorem find_leaf {k : ChildKey} (hn : getChildKey pageSize n.key = .ok k)
    (hnone : f.lookup k = none) (hl : f'.lookup k = some (n, .nil))
    (hother : ∀ k', k' ≠ k → f'.lookup k' = f.lookup k') (hp : Whole pageSize p) :
    (n.key.extraKey = e ∧ p <+: n.key.tokenIds → find pageSize e f p = none ∧
      find pageSize e f' p = some (page pageSize n.value p.length)) ∧
    (¬ (n.key.extraKey = e ∧ p <+: n.key.tokenIds) →
      find pageSize e f' p = find pageSize e f p) := by
  constructor
  · rintro ⟨he, hpn⟩
    have hk := childKey_of_shared hn he hp.le hpn (prefix_refl p)
    rw [find_of_lookup hk hl, if_pos hpn]
    exact ⟨find_of_lookup_none hk hnone, rfl⟩
  · intro hnot
    rcases getChildKey_ok pageSize ⟨p, e, false⟩ hp.1 with ⟨k', hk'⟩
    by_cases hkk : k' = k
    · subst hkk
      rw [find_of_lookup hk' hl, find_of_lookup_none hk' hnone,
        if_neg (fun hpn => hnot ⟨(getChildKey_inj hn hk').1, hpn⟩)]
      split_ifs <;> rfl
    · exact find_congr hk' (hother k' hkk)

/-- A new leaf binds the prefixes that end in it, which were not bound. -/
theorem find_add {leaf : TreeNode} (h : Edit (AddLeaf pageSize leaf) path f f')
    (hf : TreeOk pageSize f) (ha : Aligned pageSize f) (hp : Whole pageSize p) :
    (EndsIn path leaf e p → find pageSize e f p = none ∧ find pageSize e f' p =
      some (page pageSize leaf.value (p.length - (path.flatMap (·.key.tokenIds)).length))) ∧
    (¬ EndsIn path leaf e p → find pageSize e f' p = find pageSize e f p) := by
  rcases find_frame h hf ha with ⟨g, g', ⟨hl, hk⟩, hg, hag, hframe⟩
  rename_i k
  by_cases hpast : Past path e p
  · rcases (hframe e p hp).1 hpast with ⟨hq, hbefore, hafter⟩
    rw [hpast.endsIn_iff, hbefore, hafter, ← List.length_drop]
    exact find_leaf hk hl (lookup_set_self k leaf .nil g)
      (fun _ hne => lookup_set_of_ne hne _ _ _) hq
  · exact ⟨fun hin => absurd hin.past hpast, fun _ => (hframe e p hp).2 hpast⟩

/-- Without a leaf the prefixes that ended in it are not bound. -/
theorem find_erase {x : TreeNode} {above : List TreeNode} (h : EraseLeaf x f f')
    (hloc : f.locate (·.id == x.id) = some (above, x, .nil)) (hf : TreeOk pageSize f)
    (ha : Aligned pageSize f) (hp : Whole pageSize p) :
    (EndsIn above x e p → find pageSize e f' p = none) ∧
    (¬ EndsIn above x e p → find pageSize e f' p = find pageSize e f p) := by
  have hedit := (erases_of_locate hloc).edit hf.distinct
  rw [← h.eq] at hedit
  rcases find_frame hedit hf ha with ⟨g, _, ⟨k, hl, rfl⟩, hg, hag, hframe⟩
  by_cases hpast : Past above e p
  · rcases (hframe e p hp).1 hpast with ⟨hq, hbefore, hafter⟩
    have hleaf := find_leaf (hg.lookup hl).1.slot (lookup_erase_self k hg.distinct) hl
      (fun _ hne => (lookup_erase_of_ne hne _).symm) (e := e) hq
    rw [hpast.endsIn_iff, hbefore, hafter]
    exact ⟨fun hin => (hleaf.1 hin).1, fun hout => (hleaf.2 hout).symm⟩
  · exact ⟨fun hin => absurd hin.past hpast, fun _ => (hframe e p hp).2 hpast⟩

end Edits

theorem aligned_split {n : TreeNode} {s : Children} {j newId : Nat}
    (h : Edit (SplitAt pageSize n s j newId) path f f') (ha : Aligned pageSize f) :
    Aligned pageSize f' := by
  rcases has_of_split h with ⟨_, _, hlt, hal⟩
  have hup : (n.upper j newId).key.length = j := length_take_of_le hlt.le
  have hlow : (n.lower j).key.length = n.key.length - j := length_drop n.key j
  exact all_split h (fun hn => ⟨hup.symm ▸ hal, hlow.symm ▸ Nat.dvd_sub hn hal⟩) ha

theorem aligned_add {leaf : TreeNode} (h : Edit (AddLeaf pageSize leaf) path f f')
    (hleaf : pageSize ∣ leaf.key.length) (ha : Aligned pageSize f) : Aligned pageSize f' :=
  all_add h hleaf ha

theorem aligned_erase {x : TreeNode} (h : EraseLeaf x f f') (ha : Aligned pageSize f) :
    Aligned pageSize f' := by
  rw [h.eq]
  exact all_eraseNode _ ha (fun _ _ _ hP => hP)

/-- In a tree of whole pages, the walk of a key of whole pages matches whole
    pages of it. -/
theorem Walk.aligned {key : RadixKey} {m : Nat} {stop : Stop}
    (h : Walk pageSize f key path m stop) (ha : Aligned pageSize f)
    (hkey : pageSize ∣ key.length) : pageSize ∣ m ∧ m ≤ key.length := by
  induction h with
  | missing => exact ⟨Nat.dvd_zero _, Nat.zero_le _⟩
  | inside _ hl _ hm => exact ⟨hm.aligned, (hm.le_of_dvd (all_lookup ha hl).1 hkey).2⟩
  | exact _ hl _ hm => exact ⟨hm.aligned, (hm.le_of_dvd (all_lookup ha hl).1 hkey).2⟩
  | @down _ key _ _ _ j _ m _ _ hl _ hm _ _ hlt _ ih =>
    rw [length_drop] at ih
    rcases ih (all_lookup ha hl).2 (Nat.dvd_sub hkey hm.aligned) with ⟨hdvd, hle⟩
    exact ⟨Nat.dvd_add hm.aligned hdvd, by omega⟩

theorem Walk.value_length {key : RadixKey} {m : Nat} {stop : Stop}
    (h : Walk pageSize f key path m stop) (hf : TreeOk pageSize f) :
    (path.flatMap (·.value) ++ stop.value).length =
      (path.flatMap (·.key.tokenIds) ++ stop.part).length := by
  induction h with
  | missing => rfl
  | inside _ hl =>
    simp [Stop.value, Stop.part, (hf.lookup hl).1.value_length, RadixKey.length]
  | exact _ hl =>
    simp only [flatMap_singleton, Stop.value, Stop.part, List.append_nil]
    exact (hf.lookup hl).1.value_length
  | down _ hl _ _ _ _ _ _ ih =>
    have hbelow := ih (hf.lookup hl).2
    have hhere := (hf.lookup hl).1.value_length
    simp only [flatMap_cons, length_append, RadixKey.length] at hbelow hhere ⊢
    omega

section Eviction

/-- The prefixes that end in one of the leaves of an eviction. -/
def Gone (f : Children) (removed : List TreeNode) (e : Option String) (p : List TokenId) : Prop :=
  ∃ x ∈ removed, ∃ above t, f.locate (·.id == x.id) = some (above, x, t) ∧ EndsIn above x e p

variable {removed above : List TreeNode} {counter : Nat} {x y : TreeNode}

/-- A leaf that is taken out leaves the other nodes below the same nodes. -/
theorem EraseLeaf.locate_iff (h : EraseLeaf x f f') (hne : x.id ≠ y.id) :
    (∃ t, f'.locate (·.id == y.id) = some (above, y, t)) ↔
      ∃ t, f.locate (·.id == y.id) = some (above, y, t) := by
  rcases h.erases with ⟨_, herase⟩
  have heq : (f'.locate (·.id == y.id)).map _ = _ :=
    herase.locate_eq (beq_eq_false_iff_ne.mpr hne)
  have hmap : ∀ g : Children, (∃ t, g.locate (·.id == y.id) = some (above, y, t)) ↔
      (g.locate (·.id == y.id)).map (fun r => (r.1, r.2.1)) = some (above, y) := by
    intro g
    simp [Option.map_eq_some_iff]
  rw [hmap, hmap, heq]

/-- What is found after a leaf has gone was found before. -/
theorem EraseLeaf.locate_of (h : EraseLeaf x f f') (hi : Ids counter f) {t : Children}
    (hy : f'.locate (·.id == y.id) = some (above, y, t)) :
    x.id ≠ y.id ∧ ∃ t', f.locate (·.id == y.id) = some (above, y, t') := by
  have hne : x.id ≠ y.id := by
    intro heq
    have := count_erase h x.id
    have := hi.unique x.id
    rw [← heq, locate_eq_none_of_count (by omega)] at hy
    cases hy
  exact ⟨hne, (h.locate_iff hne).mp ⟨t, hy⟩⟩

/-- The leaves of an eviction are unlocked nodes of the tree it starts from. -/
theorem Evicts.locate (h : Evicts f removed f') (hi : Ids counter f) :
    ∀ y ∈ removed, y.lockRef = 0 ∧ ∃ above t, f.locate (·.id == y.id) = some (above, y, t) := by
  induction h with
  | nil => exact forall_mem_nil _
  | cons he _ ih =>
    rcases he.locate with ⟨above, hl⟩
    refine forall_mem_cons.mpr ⟨⟨he.unlocked, above, _, hl⟩, fun y hy => ?_⟩
    rcases ih (ids_erase he hi) y hy with ⟨hlock, above, t, hl⟩
    exact ⟨hlock, above, (he.locate_of hi hl).2⟩

/-- The prefixes of the later leaves are the same before and after the first
    leaf has gone. -/
theorem EraseLeaf.gone_iff {f'' : Children} (h : EraseLeaf x f f')
    (hrest : Evicts f' removed f'') (hi : Ids counter f) :
    Gone f' removed e p ↔ Gone f removed e p := by
  constructor
  · rintro ⟨y, hy, above, t, hl, hend⟩
    rcases h.locate_of hi hl with ⟨-, t', hl'⟩
    exact ⟨y, hy, above, t', hl', hend⟩
  · rintro ⟨y, hy, above, t, hl, hend⟩
    rcases hrest.locate (ids_erase h hi) y hy with ⟨-, above', t', hl'⟩
    rcases h.locate_of hi hl' with ⟨-, t'', hl''⟩
    cases hl.symm.trans hl''
    exact ⟨y, hy, _, t', hl', hend⟩

/-- An eviction unbinds the prefixes that end in its leaves. -/
theorem find_evicts (h : Evicts f removed f') (hi : Ids counter f) (hf : TreeOk pageSize f)
    (ha : Aligned pageSize f) (hp : Whole pageSize p) :
    (Gone f removed e p → find pageSize e f' p = none) ∧
    (¬ Gone f removed e p → find pageSize e f' p = find pageSize e f p) := by
  induction h with
  | nil => exact ⟨fun ⟨_, hx, _⟩ => absurd hx not_mem_nil, fun _ => rfl⟩
  | @cons f f1 f' x removed he hrest ih =>
    rcases he.locate with ⟨above, hloc⟩
    have hfirst := find_erase (e := e) he hloc hf ha hp
    have hlater := ih (ids_erase he hi) (treeOk_erase he hf) (aligned_erase he ha)
    rw [he.gone_iff hrest hi] at hlater
    have hgone : Gone f (x :: removed) e p ↔ EndsIn above x e p ∨ Gone f removed e p := by
      constructor
      · rintro ⟨y, hy, above', t, hl, hend⟩
        rcases mem_cons.mp hy with rfl | hy
        · cases hloc.symm.trans hl
          exact .inl hend
        · exact .inr ⟨y, hy, above', t, hl, hend⟩
      · rintro (hend | ⟨y, hy, hgone⟩)
        · exact ⟨x, mem_cons_self, above, _, hloc, hend⟩
        · exact ⟨y, mem_cons_of_mem _ hy, hgone⟩
    rw [hgone]
    by_cases hg : Gone f removed e p
    · exact ⟨fun _ => hlater.1 hg, fun hnot => absurd (.inr hg) hnot⟩
    · rw [hlater.2 hg]
      exact ⟨fun hor => hfirst.1 (hor.resolve_right hg),
        fun hnot => hfirst.2 fun hend => hnot (.inl hend)⟩

theorem aligned_evicts (h : Evicts f removed f') (ha : Aligned pageSize f) :
    Aligned pageSize f' := by
  induction h with
  | nil => exact ha
  | cons he _ ih => exact ih (aligned_erase he ha)

end Eviction

end SglangInc.Radix
