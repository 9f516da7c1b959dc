import SglangInc.Core.TokenizerCache
import SglangInc.Lib.Leftmost
import Mathlib.Algebra.Order.BigOperators.Group.List
import Mathlib.Algebra.Order.Ring.Nat

/-!
# When the Tokenizer Cache Is Transparent

The wrapped tokenizer splits its input at the special tokens, leftmost and longest, and
encodes the pieces between them on their own.

What the caches hold is always right: the entry of a text, or of the beginning of one, is
what the tokenizer returns for it (`Holds`). It is wrong to use the entry of a beginning
when this does not end between two pieces of the text at hand. The boundaries are the
ends of the matches of each special token alone, and where special tokens overlap or hold
one another such an end can be inside a match of the scan. With the special tokens `ab`
and `abc` the text `abx` leaves the tokens of `ab`, and `abcd` is then encoded as `ab`
and `cd`.

When every boundary of every text is between two pieces (`Aligned`) the wrapper returns
what the tokenizer does.
-/

namespace SglangInc.TokenCache

open List Function ByteText Leftmost Option CachedTokenizer

/-- The tokens of the pieces: `special` of a special token, and `encode` of the text
    between two of them. -/
def splitEncode (specialTokens : List (List Char)) (special : List Char → Nat)
    (encode : List Char → List Nat) (text : List Char) : List Nat :=
  (split specialTokens text).flatMap fun
    | .marker t => [special t]
    | .text p => encode p

/-- The tokenizer that splits its input at its special tokens. -/
def splitTokenizer (specialTokens : SpecialTokens) (special : List Char → Nat)
    (encode : List Char → List Nat) : Tokenizer :=
  ⟨splitEncode specialTokens.strings special encode, specialTokens⟩

theorem splitEncode_append {specialTokens : List (List Char)} {special : List Char → Nat}
    {encode : List Char → List Nat} {p rest : List Char} (h : Cut specialTokens p rest) :
    splitEncode specialTokens special encode (p ++ rest) =
      splitEncode specialTokens special encode p ++
        splitEncode specialTokens special encode rest := by
  rw [splitEncode, split_append h, flatMap_append]
  rfl

/-- Every boundary of the text is between two pieces of it. -/
def Aligned (specialTokens : List (List Char)) (text : List Char) : Prop :=
  ∀ boundaries, findSpecialTokenBoundaries text specialTokens = some boundaries →
    ∀ p rest, text = p ++ rest → byteLen p ∈ boundaries → Cut specialTokens p rest

section Boundaries

variable {text token : List Char} {specialTokens : List (List Char)}

/-- The positions are cuts of the text with something behind them. -/
def Inside (input : List Char) (boundaries : List Nat) : Prop :=
  ∀ b ∈ boundaries, ∃ p rest, input = p ++ rest ∧ byteLen p = b ∧ rest ≠ []

/-- The ends of the matches of one token, behind `q`. -/
theorem boundariesOf_inside (hne : token ≠ []) (rounds : Nat) (q r : List Char)
    (htext : text = q ++ r) (hrounds : byteLen r < rounds) :
    ∃ bs, boundariesOf text token rounds (byteLen q) = some bs ∧ Inside text bs := by
  induction rounds generalizing q r with
  | zero => exact absurd hrounds (Nat.not_lt_zero _)
  | succ rounds ih =>
    have hslice : sliceFrom text (byteLen q) = some r := by
      rw [htext]
      exact sliceFrom_append q r
    rw [boundariesOf, hslice]
    cases hfind : find token r with
    | none =>
      refine ⟨[], by simp [hfind], forall_mem_nil _⟩
    | some pos =>
      -- The search goes on behind the token, with less text left.
      rcases find_spec hfind with ⟨a, rest, rfl, rfl, -⟩
      have hpos := byteLen_pos hne
      have hb : byteLen q + byteLen a + byteLen token = byteLen (q ++ (a ++ token)) := by
        simp only [byteLen_append]
        omega
      have htext' : text = q ++ (a ++ token) ++ rest := by
        rw [htext, append_assoc q]
      rcases ih (q ++ (a ++ token)) rest htext'
        (by simp only [byteLen_append] at hrounds; omega) with ⟨more, hmore, hall⟩
      refine ⟨_, by
        simp only [bind_eq_bind, bind_some, hfind, hb, hmore]
        rfl, ?_⟩
      intro b hmem
      split_ifs at hmem with hlt
      · rcases mem_cons.mp hmem with rfl | hmem
        · refine ⟨q ++ (a ++ token), rest, htext', rfl, ?_⟩
          rintro rfl
          rw [htext', List.append_nil] at hlt
          exact lt_irrefl _ hlt
        · exact hall b hmem
      · exact hall b hmem

theorem mem_of_mem_dedupAdjacent {l : List Nat} {b : Nat} (h : b ∈ dedupAdjacent l) : b ∈ l := by
  induction l using dedupAdjacent.induct with
  | case1 | case2 => exact h
  | case3 c rest ih =>
    rw [dedupAdjacent, if_pos rfl] at h
    exact mem_cons_of_mem _ (ih h)
  | case4 c d rest hne ih =>
    rw [dedupAdjacent, if_neg hne] at h
    rcases mem_cons.mp h with rfl | h
    · exact mem_cons_self
    · exact mem_cons_of_mem _ (ih h)

/-- The boundaries of all special tokens. -/
theorem findSpecialTokenBoundaries_inside (text : List Char) (hne : ∀ t ∈ specialTokens, t ≠ []) :
    ∃ bs, findSpecialTokenBoundaries text specialTokens = some bs ∧ Inside text bs := by
  have hall : ∃ bs, allBoundaries text specialTokens = some bs ∧ Inside text bs := by
    induction specialTokens with
    | nil => exact ⟨[], rfl, forall_mem_nil _⟩
    | cons t tokens ih =>
      rcases boundariesOf_inside (hne t mem_cons_self) (byteLen text + 1) [] text
        (nil_append text).symm (Nat.lt_succ_self _) with ⟨one, hone, hone'⟩
      rcases ih (forall_mem_cons.mp hne).2 with ⟨more, hmore, hmore'⟩
      rw [byteLen_nil] at hone
      exact ⟨one ++ more, by rw [allBoundaries, hone, hmore]; rfl,
        forall_mem_append.mpr ⟨hone', hmore'⟩⟩
  rcases hall with ⟨bs, hbs, hin⟩
  refine ⟨_, by rw [findSpecialTokenBoundaries, hbs]; rfl, fun b hb => hin b ?_⟩
  exact (perm_insertionSort _ bs).mem_iff.mp (mem_of_mem_dedupAdjacent hb)

/-- The boundaries of a text can be looked at one after the other. -/
theorem aligned_of_take {boundaries : List Nat}
    (hbs : findSpecialTokenBoundaries text specialTokens = some boundaries)
    (h : ∀ n ≤ text.length, byteLen (text.take n) ∈ boundaries →
      Cut specialTokens (text.take n) (text.drop n)) : Aligned specialTokens text := by
  intro bs hbs' p rest htext hmem
  cases hbs.symm.trans hbs'
  subst htext
  have hcut := h p.length (by simp) (by rwa [take_left])
  rwa [take_left, drop_left] at hcut

end Boundaries

section Maps

variable {κ ν : Type} {m : DashMap κ ν} {k : κ} {v : ν} {e : κ × ν}

variable [DecidableEq κ]

theorem mem_of_get (h : DashMap.get m k = some v) : (k, v) ∈ m := by
  rcases map_eq_some_iff.mp h with ⟨e, hfind, rfl⟩
  have hkey : e.1 = k := by simpa using find?_some hfind
  rw [← hkey]
  exact mem_of_find?_eq_some hfind

theorem mem_of_mem_remove (h : e ∈ DashMap.remove m k) : e ∈ m := (mem_filter.mp h).1

theorem mem_insert (h : e ∈ DashMap.insert m k v) : e = (k, v) ∨ e ∈ m :=
  (mem_cons.mp h).imp_right mem_of_mem_remove

theorem get_isSome (h : e ∈ m) : ∃ v, DashMap.get m e.1 = some v := by
  have hsome : (m.find? (fun e' => e'.1 = e.1)).isSome = true :=
    find?_isSome.mpr ⟨e, h, by simp⟩
  rcases isSome_iff_exists.mp hsome with ⟨e', he'⟩
  exact ⟨e'.2, by rw [DashMap.get, he']; rfl⟩

theorem length_remove_lt (h : e ∈ m) : (DashMap.remove m e.1).length < m.length := by
  refine length_filter_lt_length_iff_exists.mpr ⟨e, h, by simp⟩

end Maps

section Evict

open L1Cache

variable {H : Type} {c c' : L1Cache H} {s : Sample H}

/-- Every entry of the first cache is one of the second. -/
def Sub (c' c : L1Cache H) : Prop := ∀ i, ∀ e ∈ c'.shards i, e ∈ c.shards i

theorem oldest_mem {l : List (Sample H)} (h : oldest l = some s) : s ∈ l := by
  induction l generalizing s with
  | nil => exact absurd h (by simp [oldest])
  | cons s0 rest ih =>
    rw [oldest] at h
    split at h
    case h_1 => exact mem_cons.mpr (.inl (Option.some_inj.mp h).symm)
    case h_2 s1 hrest =>
      split_ifs at h
      · exact mem_cons_of_mem _ (ih (hrest.trans h))
      · exact mem_cons.mpr (.inl (Option.some_inj.mp h).symm)

/-- A sample is an entry of its shard. -/
theorem mem_samples {pick : Nat → Nat} {iteration : Nat} (h : s ∈ samples pick c iteration) :
    s.shardIdx < numShards ∧ ∃ e ∈ c.shards s.shardIdx, e.1 = s.hash := by
  rcases mem_filterMap.mp h with ⟨i, -, hmap⟩
  rcases map_eq_some_iff.mp hmap with ⟨e, hfirst, rfl⟩
  exact ⟨Nat.mod_lt _ (by decide), e, mem_of_getElem? hfirst, rfl⟩

/-- A smaller shard makes a smaller cache. -/
theorem len_update_lt {i : Nat} (hi : i < numShards) {m : DashMap H CachedPrefix}
    (hlt : m.length < (c.shards i).length) (memory : Nat) :
    L1Cache.len { c with shards := update c.shards i m, currentMemory := memory } < c.len := by
  have hle : ∀ j ∈ List.range numShards,
      (update c.shards i m j).length ≤ (c.shards j).length := by
    intro j _
    rw [update_apply]
    split_ifs with hj
    · exact hj ▸ hlt.le
    · exact le_rfl
  refine sum_lt_sum _ _ hle ⟨i, mem_range.mpr hi, ?_⟩
  simp only [update_self]
  exact hlt

variable [DecidableEq H]

/-- Eviction ends, and only removes entries. -/
theorem evictLoop_sub (pick : Nat → Nat) (spaceNeeded : Nat) (rounds freed iteration : Nat)
    (c : L1Cache H) (hrounds : c.len < rounds) :
    ∃ c', evictLoop pick spaceNeeded rounds freed iteration c = some c' ∧ Sub c' c := by
  induction rounds generalizing freed iteration c with
  | zero => exact absurd hrounds (Nat.not_lt_zero _)
  | succ rounds ih =>
    rw [evictLoop]
    split_ifs with hfreed
    · cases hold : oldest (samples pick c iteration) with
      | none => exact ⟨c, rfl, fun _ _ he => he⟩
      | some s =>
        rcases mem_samples (oldest_mem hold) with ⟨hidx, e, he, hkey⟩
        rcases get_isSome he with ⟨removed, hget⟩
        rw [hkey] at hget
        have hlen := length_remove_lt he
        rw [hkey] at hlen
        have hlt := len_update_lt hidx hlen (c.currentMemory - removed.sizeBytes)
        rcases ih (freed + removed.sizeBytes) (iteration + 1) { c with
            shards := update c.shards s.shardIdx (DashMap.remove (c.shards s.shardIdx) s.hash)
            currentMemory := c.currentMemory - removed.sizeBytes } (by omega) with
          ⟨c', hc', hsub⟩
        refine ⟨c', by simp only [hget]; exact hc', fun i e' he' => ?_⟩
        have hmem := hsub i e' he'
        simp only [update_apply] at hmem
        split_ifs at hmem with hi
        · exact hi ▸ mem_of_mem_remove hmem
        · exact hmem
    · exact ⟨c, rfl, fun _ _ he => he⟩

theorem makeRoom_sub (pick : Nat → Nat) (c : L1Cache H) (totalSizeNeeded : Nat) :
    ∃ c', c.makeRoom pick totalSizeNeeded = some c' ∧ Sub c' c := by
  rw [makeRoom]
  split_ifs with h
  · exact evictLoop_sub pick totalSizeNeeded (c.len + 1) 0 0 c (Nat.lt_succ_self _)
  · exact ⟨c, rfl, fun _ _ he => he⟩

end Evict

section Prefixes

open L1Cache

variable {H : Type} {hasher : Hasher H} {encode : List Char → List Nat}
variable {c c' : L1Cache H} {input : List Char}

/-- Every entry is that of a text, and holds its tokens. -/
def L1Holds (hasher : Hasher H) (encode : List Char → List Nat) (c : L1Cache H) : Prop :=
  ∀ i, ∀ e ∈ c.shards i, ∃ p, hasher.hash p = e.1 ∧ e.2.tokens = encode p

theorem L1Holds.sub (h : L1Holds hasher encode c) (hsub : Sub c' c) :
    L1Holds hasher encode c' := fun i e he => h i e (hsub i e he)

variable [DecidableEq H] {boundaries : List Nat}

/-- An entry that is written to a shard. -/
theorem L1Holds.update (h : L1Holds hasher encode c) {p : List Char} {entry : CachedPrefix}
    (htokens : entry.tokens = encode p) (i : Nat) (memory counter : Nat) :
    L1Holds hasher encode { c with
        shards := update c.shards i (DashMap.insert (c.shards i) (hasher.hash p) entry)
        currentMemory := memory
        accessCounter := counter } := by
  intro j e he
  simp only [update_apply] at he
  split_ifs at he
  · rcases mem_insert he with rfl | he
    · exact ⟨p, rfl, htokens⟩
    · exact h i e he
  · exact h j e he

/-- A beginning that is found has its own tokens. -/
theorem searchBackwards_spec (hinj : Injective hasher.hash) (h : L1Holds hasher encode c)
    (hin : Inside input boundaries) :
    ∃ c' found, searchBackwards hasher c input boundaries = some (c', found) ∧
      L1Holds hasher encode c' ∧ ∀ tokens b, found = some (tokens, b) → b ∈ boundaries ∧
        ∃ p rest, input = p ++ rest ∧ byteLen p = b ∧ rest ≠ [] ∧ tokens = encode p := by
  induction boundaries with
  | nil => exact ⟨c, none, rfl, h, nofun⟩
  | cons b boundaries ih =>
    rcases hin b mem_cons_self with ⟨p, rest, rfl, rfl, hrest⟩
    rw [searchBackwards, sliceTo_append]
    simp only [bind_eq_bind, bind_some]
    cases hget : DashMap.get (c.shards (shardIdx hasher (hasher.hash p))) (hasher.hash p) with
    | none =>
      rcases ih (forall_mem_cons.mp hin).2 with
        ⟨c', found, heq, hc', hfound⟩
      refine ⟨c', found, heq, hc', fun tokens b' hf => ?_⟩
      rcases hfound tokens b' hf with ⟨hmem, hp⟩
      exact ⟨mem_cons_of_mem _ hmem, hp⟩
    | some entry =>
      rcases h _ _ (mem_of_get hget) with ⟨p', hhash, htokens⟩
      obtain rfl : p' = p := hinj hhash
      have htokens' : ({ entry with lastAccessed := c.accessCounter } : CachedPrefix).tokens =
            encode p' := htokens
      refine ⟨_, _, rfl, h.update htokens' _ _ _, fun tokens b' hf => ?_⟩
      rcases hf with ⟨rfl, rfl⟩
      exact ⟨mem_cons_self, p', rest, rfl, rfl, hrest, htokens⟩

/-- The tokens of the beginnings are put into the cache. -/
theorem insertAtBoundaries_spec (pick : Nat → Nat) (h : L1Holds hasher encode c)
    {specialTokens : List (List Char)}
    (hbs : findSpecialTokenBoundaries input specialTokens = some boundaries)
    (hin : Inside input boundaries) :
    ∃ c', c.insertAtBoundaries hasher pick input encode specialTokens = some c' ∧
      L1Holds hasher encode c' := by
  have hentries : ∃ entries, boundaries.mapM (entryAt hasher encode input) = some entries ∧
      ∀ e ∈ entries, ∃ p, e.1 = hasher.hash p ∧ e.2.1 = encode p := by
    clear hbs
    induction boundaries with
    | nil => exact ⟨[], rfl, forall_mem_nil _⟩
    | cons b boundaries ih =>
      rcases ih (forall_mem_cons.mp hin).2 with ⟨entries, heq, hall⟩
      rcases hin b mem_cons_self with ⟨p, rest, rfl, rfl, -⟩
      refine ⟨_, by
        simp only [mapM_cons, entryAt, sliceTo_append, bind_eq_bind,
          bind_some, heq, Option.pure_def]
        rfl, ?_⟩
      exact forall_mem_cons.mpr ⟨⟨p, rfl, rfl⟩, hall⟩
  rcases hentries with ⟨entries, hmap, hall⟩
  rw [insertAtBoundaries, hbs]
  simp only [bind_eq_bind, bind_some, hmap]
  split_ifs
  · exact ⟨c, rfl, h⟩
  -- Making room only drops entries.
  rcases makeRoom_sub pick c (entries.map fun e => e.2.2).sum with ⟨c', hroom, hsub⟩
  refine ⟨_, by rw [hroom]; rfl, ?_⟩
  refine foldlRecOn entries (put hasher) (h.sub hsub) fun c hc e he => ?_
  rcases e with ⟨hash, tokens, size⟩
  rcases hall _ he with ⟨p, hhash, htokens⟩
  subst hhash
  exact hc.update htokens _ _ _

end Prefixes

section Calls

variable {H : Type} {hasher : Hasher H} {t : CachedTokenizer H}

/-- The caches hold what the tokenizer returns, and the special tokens are its own. -/
structure Holds (hasher : Hasher H) (inner : Tokenizer) (t : CachedTokenizer H) : Prop where
  inner_eq : t.inner = inner
  special_eq : t.specialTokenStrings = extractSpecialTokenStrings inner
  l0 : ∀ l0, t.l0 = some l0 → ∀ e ∈ l0.map, e.2 = inner.encode e.1
  l1 : ∀ l1, t.l1 = some l1 → L1Holds hasher inner.encode l1

variable {inner : Tokenizer}

theorem holds_new (hasher : Hasher H) (inner : Tokenizer) (config : CacheConfig) :
    Holds hasher inner (CachedTokenizer.new inner config) where
  inner_eq := rfl
  special_eq := rfl
  l0 l0 h e he := by
    cases (ite_none_right_eq_some.mp h).2
    cases he
  l1 l1 h i e he := by
    cases (ite_none_right_eq_some.mp h).2
    cases he

theorem Holds.clearCache (h : Holds hasher inner t) : Holds hasher inner t.clearCache := by
  refine { h with l0 := fun l0 hl0 e he => ?_, l1 := fun l1 hl1 i e he => ?_ }
  · rcases map_eq_some_iff.mp hl0 with ⟨l0', -, rfl⟩
    cases he
  · rcases map_eq_some_iff.mp hl1 with ⟨l1', -, rfl⟩
    cases he

/-- A text and its tokens are put into the cache of texts. -/
theorem Holds.remember (h : Holds hasher inner t) (order : Order) (input : List Char) :
    Holds hasher inner (t.remember order input (inner.encode input)) := by
  refine { h with l0 := fun l0 hl0 e he => ?_ }
  rcases map_eq_some_iff.mp hl0 with ⟨l0', hl0', rfl⟩
  rcases mem_insert he with rfl | he
  · rfl
  refine h.l0 l0' hl0' e ?_
  split_ifs at he with hfull
  · cases hfirst : DashMap.first l0'.map order.l0 with
    | none =>
      rwa [hfirst] at he
    | some entry =>
      rw [hfirst] at he
      exact mem_of_mem_remove he
  · exact he

theorem Holds.setL1 (h : Holds hasher inner t) {l1 : L1Cache H}
    (hl1 : L1Holds hasher inner.encode l1) : Holds hasher inner { t with l1 := some l1 } :=
  { h with l1 := fun _ heq => some.inj heq ▸ hl1 }

/-- A text is tokenized in two parts at each of its boundaries. -/
def CutsAt (inner : Tokenizer) (input : List Char) : Prop :=
  ∀ bs, findSpecialTokenBoundaries input (extractSpecialTokenStrings inner) = some bs →
    ∀ p rest, input = p ++ rest → byteLen p ∈ bs →
      inner.encode (p ++ rest) = inner.encode p ++ inner.encode rest

variable [DecidableEq H] (h : Holds hasher inner t)
  (hne : t.l1.isSome = true → ∀ s ∈ extractSpecialTokenStrings inner, s ≠ [])
include h hne

/-- Full tokenization. -/
theorem Holds.encodeFull (order : Order) (input : List Char) :
    ∃ t', t.encodeFull hasher order input = some (t', inner.encode input) ∧
      Holds hasher inner t' ∧ (t'.l1.isSome = t.l1.isSome) := by
  have hrem := h.remember order input
  rw [CachedTokenizer.encodeFull, h.inner_eq]
  cases hl1 : t.l1 with
  | none =>
    refine ⟨_, ?_, hrem, by rw [← hl1]; rfl⟩
    simp [CachedTokenizer.remember, hl1]
  | some l1 =>
    rcases findSpecialTokenBoundaries_inside input (hne (by rw [hl1]; rfl)) with ⟨bs, hbs, hin⟩
    rcases insertAtBoundaries_spec order.l1 (h.l1 l1 hl1) hbs hin with ⟨l1', hins, hl1'⟩
    refine ⟨_, ?_, hrem.setL1 hl1', rfl⟩
    simp [CachedTokenizer.remember, hl1, h.inner_eq, h.special_eq, hins]

/-- One call of `encode` returns what the tokenizer does, if the boundaries of the text
    are between its pieces. -/
theorem encode_exact (hinj : Injective hasher.hash) (order : Order) (input : List Char)
    (hcut : t.l1.isSome = true → CutsAt inner input) :
    ∃ t', t.encode hasher order input = some (t', inner.encode input) ∧
      Holds hasher inner t' ∧ (t'.l1.isSome = t.l1.isSome) := by
  rw [encode]
  cases hget : t.l0.bind fun l0 => l0.get input with
  | some cached =>
    rcases bind_eq_some_iff.mp hget with ⟨l0, hl0, hcached⟩
    have heq := h.l0 l0 hl0 _ (mem_of_get hcached)
    simp only at heq
    exact ⟨t, by rw [heq], h, rfl⟩
  | none =>
    obtain hl1 | ⟨l1, hl1⟩ := Option.eq_none_or_eq_some t.l1
    · have hmatch : t.prefixMatch hasher input = some (t, none) := by
        rw [prefixMatch, hl1]
      rw [encodeMiss, hmatch]
      exact h.encodeFull hne order input
    · have hsome : t.l1.isSome = true := by rw [hl1]; rfl
      rcases findSpecialTokenBoundaries_inside input (hne hsome) with ⟨bs, hbs, hin⟩
      rcases searchBackwards_spec hinj (h.l1 l1 hl1)
        (fun b hb => hin b (mem_reverse.mp hb) : Inside input bs.reverse) with
        ⟨l1', found, hsearch, hl1', hfound⟩
      have hmatch : t.prefixMatch hasher input = some ({ t with l1 := some l1' }, found) := by
        rw [prefixMatch, hl1]
        simp [L1Cache.longestPrefixMatch, h.special_eq, hbs, hsearch]
      have hholds := h.setL1 hl1'
      rw [encodeMiss, hmatch, hsome]
      cases found with
      | none => exact hholds.encodeFull (fun _ => hne hsome) order input
      | some entry =>
        rcases entry with ⟨tokens, b⟩
        rcases hfound tokens b rfl with ⟨hmem, p, rest, rfl, rfl, hrest, rfl⟩
        -- The beginning is cut off between two pieces, and its entry is its own.
        have hsplit := hcut hsome bs hbs p rest rfl (mem_reverse.mp hmem)
        refine ⟨_, ?_, hholds.remember order (p ++ rest), rfl⟩
        simp [sliceFrom_append, hrest, h.inner_eq, hsplit]

/-- What a call is to return. -/
def expected (inner : Tokenizer) : Call → Option (List Nat)
  | .encode input _ => some (inner.encode input)
  | .clear => none

/-- Any number of calls: what they return, and what the caches hold then. -/
theorem calls_exact (hinj : Injective hasher.hash) (cs : List Call) (hcut :
      t.l1.isSome = true → ∀ input order, .encode input order ∈ cs → CutsAt inner input) :
    ∃ t', t.calls hasher cs = some (t', cs.map (expected inner)) ∧ Holds hasher inner t' := by
  induction cs generalizing t with
  | nil => exact ⟨t, rfl, h⟩
  | cons c cs ih =>
    have ih := fun t1 (h1 : Holds hasher inner t1) (hl1 : t1.l1.isSome = t.l1.isSome) =>
      ih h1 (fun hs => hne (hl1 ▸ hs)) fun hs i o hmem =>
        hcut (hl1 ▸ hs) i o (mem_cons_of_mem _ hmem)
    cases c with
    | encode input order =>
      rcases encode_exact h hne hinj order input
        (fun hs => hcut hs input order mem_cons_self) with ⟨t1, hcall, h1, hl1⟩
      rcases ih t1 h1 hl1 with ⟨t', hcalls, h'⟩
      refine ⟨t', ?_, h'⟩
      simp only [calls, CachedTokenizer.call, hcall, hcalls, bind_eq_bind, bind_some]
      rfl
    | clear =>
      rcases ih _ h.clearCache isSome_map with ⟨t', hcalls, h'⟩
      refine ⟨t', ?_, h'⟩
      simp only [calls, CachedTokenizer.call, hcalls, bind_eq_bind, bind_some]
      rfl

omit h hne

/-- The special tokens `ab` and `abc`: the text `abx` leaves the tokens of `ab`, and
    `abcd` is then not split at `abc`. -/
theorem contained_special_token_splits_wrong :
    let inner := splitTokenizer
      ⟨some ['a', 'b'], some ['a', 'b', 'c'], none, none, none, none, none, []⟩
      (fun t => t.length) (fun p => [10 + p.length])
    let hasher : Hasher (List Char) := ⟨id, fun _ => 0⟩
    ((CachedTokenizer.new inner ⟨true, 10, true, 1000⟩).calls hasher
        [.encode ['a', 'b', 'x'] ⟨0, fun _ => 0⟩, .encode ['a', 'b', 'c', 'd'] ⟨0, fun _ => 0⟩]).map
        (·.2) = some [some [2, 11], some [2, 12]] ∧
      inner.encode ['a', 'b', 'c', 'd'] = [3, 11] := by
  decide

/-- Every call returns what the tokenizer does, if the second cache is off, or if no
    special token is empty and every boundary of every text is between two pieces of the
    text. -/
theorem cached_encode_exact (hasher : Hasher H) (hinj : Injective hasher.hash)
    (specialTokens : SpecialTokens) (special : List Char → Nat) (encode : List Char → List Nat)
    (config : CacheConfig) (cs : List Call)
    (hcond : config.enableL1 = true → (∀ s ∈ specialTokens.strings, s ≠ []) ∧
      ∀ input order, .encode input order ∈ cs → Aligned specialTokens.strings input) :
    ∃ t', (CachedTokenizer.new (splitTokenizer specialTokens special encode) config).calls
        hasher cs = some (t', cs.map (expected (splitTokenizer specialTokens special encode))) := by
  have hl1 : ∀ {inner : Tokenizer}, (CachedTokenizer.new (H := H) inner config).l1.isSome = true →
      config.enableL1 = true := by
    intro inner h
    by_contra hoff
    simp [CachedTokenizer.new, hoff] at h
  have hholds := holds_new hasher (splitTokenizer specialTokens special encode) config
  rcases calls_exact hholds (fun h => (hcond (hl1 h)).1) hinj cs
    (fun h input order hmem bs hbs p rest htext hb =>
      splitEncode_append ((hcond (hl1 h)).2 input order hmem bs hbs p rest htext hb)) with
    ⟨t', hcalls, -⟩
  exact ⟨t', hcalls⟩

/-- Special tokens that do not overlap, and a beginning that is used again. -/
theorem cached_encode_exact_chat : ∃ t', (CachedTokenizer.new
        (splitTokenizer ⟨some ['<', '>'], some ['|'], none, none, none, none, none, []⟩
          (fun t => t.length) (fun p => [10 + p.length])) ⟨true, 1, true, 0⟩).calls
        (⟨id, fun _ => 0⟩ : Hasher (List Char))
        [.encode ['<', '>', 'a', '|', 'b'] ⟨0, fun _ => 0⟩, .clear,
          .encode ['<', '>', 'a', '|', 'c', 'd'] ⟨0, fun _ => 0⟩,
          .encode ['<', '>', 'a', '|', 'b'] ⟨0, fun _ => 0⟩] =
      some (t', [some [2, 11, 1, 11], none, some [2, 11, 1, 12], some [2, 11, 1, 11]]) := by
  refine cached_encode_exact _ injective_id _ _ _ _ _ (fun _ => ⟨by decide, ?_⟩)
  intro input order hmem
  simp only [mem_cons, Call.encode.injEq, reduceCtorEq, not_mem_nil, or_false, false_or] at hmem
  rcases hmem with ⟨rfl, -⟩ | ⟨rfl, -⟩ | ⟨rfl, -⟩
  all_goals exact aligned_of_take rfl (by decide)

end Calls

end SglangInc.TokenCache
