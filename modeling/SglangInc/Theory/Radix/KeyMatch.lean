import SglangInc.Core.RadixCache

/-!
# Matching Keys Page by Page

What the two matching functions compute, and what the dictionary keys say
about the keys they stand for.

For every page size the match length `k` is described by the same facts
(`Matches`). The keys agree on their first `k` tokens, `k` is a multiple of
the page size, the page after it differs or there is none, and `k` exceeds a
key only when the two keys are equal, which happens with a partial last page
and by less than a page.
Keys under one dictionary entry share their first page and their extra key,
so the check of the extra keys never fails and `k` is positive.
-/

namespace SglangInc.Radix

open List

/-- The match length of two token lists, page by page. -/
structure Matches (pageSize : Nat) (a b : List TokenId) (k : Nat) : Prop where
  take_eq : a.take k = b.take k
  aligned : pageSize ∣ k
  past : a.length < k ∨ b.length < k → a = b
  lt : k < a.length + pageSize ∧ k < b.length + pageSize
  stop : a.length ≤ k ∨ b.length ≤ k ∨ (a.drop k).take pageSize ≠ (b.drop k).take pageSize

/-- The common prefix, page by page, from a place where the two still agree. -/
theorem matchPages_spec (pageSize : Nat) (hps : 0 < pageSize) (a b : List TokenId)
    (rounds i : Nat) (htake : a.take i = b.take i) (hal : pageSize ∣ i)
    (hover : a.length < i ∨ b.length < i → a = b)
    (hlt : i < a.length + pageSize ∧ i < b.length + pageSize)
    (hr : min a.length b.length ≤ i + rounds) :
    Matches pageSize a b (matchPages pageSize (min a.length b.length) a b i rounds) := by
  induction rounds generalizing i with
  | zero => exact ⟨htake, hal, hover, hlt, by simp only [matchPages]; omega⟩
  | succ rounds ih =>
    simp only [matchPages]
    split_ifs with hi hne
    · exact ⟨htake, hal, hover, hlt, .inr (.inr hne)⟩
    · have hpage : (a.drop i).take pageSize = (b.drop i).take pageSize := by simpa using hne
      have hnext : a.take (i + pageSize) = b.take (i + pageSize) := by
        rw [take_add, take_add, htake, hpage]
      refine ih (i + pageSize) hnext (Nat.dvd_add hal (Nat.dvd_refl _)) ?_ (by omega) (by omega)
      -- The page was a partial one, so it was the last one of both.
      intro hshort
      have hlen := congrArg List.length hpage
      rw [length_take, length_take, List.length_drop, List.length_drop] at hlen
      rwa [take_of_length_le (by omega), take_of_length_le (by omega)] at hnext
    · exact ⟨htake, hal, hover, hlt, by omega⟩

/-- The common prefix, token by token. -/
theorem matchTokens_spec (a b : List TokenId) : Matches 1 a b (matchTokens a b) ∧
    matchTokens a b ≤ a.length ∧ matchTokens a b ≤ b.length := by
  fun_induction matchTokens a b with
  | case1 k0 rest0 k1 rest1 hne =>
    refine ⟨⟨rfl, Nat.one_dvd _, by simp, by simp, .inr (.inr ?_)⟩, by simp, by simp⟩
    simpa using hne
  | case2 k0 rest0 k1 rest1 heq ih =>
    have heq : k0 = k1 := by simpa using heq
    subst heq
    obtain ⟨ih, h0, h1⟩ := ih
    refine ⟨⟨?_, Nat.one_dvd _, ?_, ?_, ?_⟩, ?_, ?_⟩
    · simp [ih.take_eq]
    · intro h
      rw [ih.past (by simpa using h)]
    · simpa using ih.lt
    · simpa using ih.stop
    · simpa using h0
    · simpa using h1
  | case3 a b hne =>
    refine ⟨⟨by simp, Nat.one_dvd _, by simp, by simp, ?_⟩, by simp, by simp⟩
    cases a with
    | nil => exact .inl le_rfl
    | cons k0 rest0 =>
      cases b with
      | nil => exact .inr (.inl le_rfl)
      | cons k1 rest1 => exact (hne k0 rest0 k1 rest1 rfl rfl).elim

/-- On keys with one extra key, the matching function of any page size returns
    the match length. -/
theorem keyMatchFn_spec (pageSize : Nat) (hps : 0 < pageSize) (key0 key1 : RadixKey)
    (hextra : key0.extraKey = key1.extraKey) : ∃ k, keyMatchFn pageSize key0 key1 = .ok k ∧
      Matches pageSize key0.tokenIds key1.tokenIds k := by
  have hcheck : checkExtraKey key0 key1 = .ok () := by
    simp [checkExtraKey, hextra]
  unfold keyMatchFn
  split_ifs with h1
  · subst h1
    exact ⟨_, by rw [keyMatchPageSize1, hcheck]; rfl, (matchTokens_spec _ _).1⟩
  · refine ⟨_, by rw [keyMatchPaged, hcheck]; rfl, ?_⟩
    exact matchPages_spec pageSize hps _ _ _ 0 rfl (Nat.dvd_zero _) (by simp) (by omega)
      (by simp [RadixKey.length])

/-- A multiple of the page size past another one is a whole page past it. -/
theorem le_of_dvd_of_lt_add {p a b : Nat} (ha : p ∣ a) (hb : p ∣ b) (h : a < b + p) : a ≤ b := by
  rcases ha with ⟨x, rfl⟩
  rcases hb with ⟨y, rfl⟩
  exact Nat.mul_le_mul_left p (Nat.le_of_lt_succ (Nat.lt_of_mul_lt_mul_left h))

/-- Keys with equal, non-empty first pages match somewhere. -/
theorem Matches.pos {pageSize : Nat} {a b : List TokenId} {k : Nat}
    (h : Matches pageSize a b k) (ha : a ≠ []) (hb : b ≠ [])
    (hpage : a.take pageSize = b.take pageSize) : 0 < k := by
  rcases Nat.eq_zero_or_pos k with rfl | hk
  · have ha := length_pos_iff.mpr ha
    have hb := length_pos_iff.mpr hb
    rcases h.stop with h | h | h
    · omega
    · omega
    · exact absurd hpage h
  · exact hk

/-- Keys of whole pages match on no more than there is of them. -/
theorem Matches.le_of_dvd {pageSize : Nat} {a b : List TokenId} {k : Nat}
    (h : Matches pageSize a b k) (ha : pageSize ∣ a.length) (hb : pageSize ∣ b.length) :
    k ≤ a.length ∧ k ≤ b.length :=
  ⟨le_of_dvd_of_lt_add h.aligned ha h.lt.1, le_of_dvd_of_lt_add h.aligned hb h.lt.2⟩

section ChildKey

variable {pageSize : Nat} {key : RadixKey} {k : ChildKey}

theorem ChildKey.of_inj (extra0 extra1 : Option String) (plain0 plain1 : PlainKey) :
    ChildKey.of extra0 plain0 = ChildKey.of extra1 plain1 ↔ extra0 = extra1 ∧ plain0 = plain1 := by
  cases extra0 <;> cases extra1 <;> simp [ChildKey.of]

theorem getChildKey_eq_ok_iff : getChildKey pageSize key = .ok k ↔
      ∃ plain, plainKey pageSize key.tokenIds = .ok plain ∧ ChildKey.of key.extraKey plain = k := by
  unfold getChildKey
  cases h : plainKey pageSize key.tokenIds with
  | error e => simp [bind, Except.bind]
  | ok plain => simp [bind, Except.bind, pure, Except.pure]

/-- The plain key stands for the first page. -/
theorem take_eq_of_plainKey {ids0 ids1 : List TokenId} {plain : PlainKey}
    (h0 : plainKey pageSize ids0 = .ok plain) (h1 : plainKey pageSize ids1 = .ok plain) :
    ids0.take pageSize = ids1.take pageSize := by
  unfold plainKey at h0 h1
  split_ifs at h0 h1 with hps
  · subst hps
    cases ids0 with
    | nil => cases h0
    | cons id0 rest0 =>
      cases ids1 with
      | nil => cases h1
      | cons id1 rest1 =>
        simp only [Except.ok.injEq] at h0 h1
        rw [← h1, PlainKey.token.injEq] at h0
        simp [h0]
  · rw [Except.ok.injEq] at h0 h1
    rwa [← h1, PlainKey.tuple.injEq] at h0

theorem plainKey_congr {ids0 ids1 : List TokenId} (h : ids0.take pageSize = ids1.take pageSize) :
    plainKey pageSize ids0 = plainKey pageSize ids1 := by
  unfold plainKey
  split_ifs with hps
  · subst hps
    cases ids0 <;> cases ids1 <;> simp_all
  · rw [h]

theorem getChildKey_ok (pageSize : Nat) (key : RadixKey) (h : key.tokenIds ≠ []) :
    ∃ k, getChildKey pageSize key = .ok k := by
  suffices hp : ∃ plain, plainKey pageSize key.tokenIds = .ok plain by
    rcases hp with ⟨plain, hp⟩
    exact ⟨_, getChildKey_eq_ok_iff.mpr ⟨plain, hp, rfl⟩⟩
  unfold plainKey
  split_ifs
  · cases hids : key.tokenIds with
    | nil => exact absurd hids h
    | cons id rest => exact ⟨_, rfl⟩
  · exact ⟨_, rfl⟩

/-- Keys under one dictionary key have the same extra key and first page. -/
theorem getChildKey_inj {key0 key1 : RadixKey} (h0 : getChildKey pageSize key0 = .ok k)
    (h1 : getChildKey pageSize key1 = .ok k) :
    key0.extraKey = key1.extraKey ∧ key0.tokenIds.take pageSize = key1.tokenIds.take pageSize := by
  rcases getChildKey_eq_ok_iff.mp h0 with ⟨plain0, hp0, hk0⟩
  rcases getChildKey_eq_ok_iff.mp h1 with ⟨plain1, hp1, hk1⟩
  rcases (ChildKey.of_inj _ _ _ _).mp (hk0.trans hk1.symm) with ⟨hextra, rfl⟩
  exact ⟨hextra, take_eq_of_plainKey hp0 hp1⟩

/-- The dictionary key depends on the extra key and the first page only. -/
theorem getChildKey_congr {key0 key1 : RadixKey} (hextra : key0.extraKey = key1.extraKey)
    (hpage : key0.tokenIds.take pageSize = key1.tokenIds.take pageSize) :
    getChildKey pageSize key0 = getChildKey pageSize key1 := by
  unfold getChildKey
  rw [hextra, plainKey_congr hpage]

end ChildKey

end SglangInc.Radix
