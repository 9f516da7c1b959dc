import SglangInc.Core.Ngram

/-!
# The Windows of a Match

A batch may have a smallest window of its own. `match` asks for it and then goes down
to the one for all batches, so a shorter window that is in the trie is returned too
(`match_windows_iff`).
-/

namespace SglangInc.NgramTrie

open List Ngram Option

/-- The tokens of a path down from a node. -/
def Spells (s : Ngram) : Nat → List Int → Nat → Prop
  | p, [], n => p = n
  | p, t :: rest, n => ∃ c, (s.nodes p).child.lookup t = some c ∧ Spells s c rest n

/-- The windows that the batch admits and that are in the trie, the longest first. -/
structure Matches (s : Ngram) (tokens : List Int) (batchSize : Nat) (result : List (Nat × Nat)) :
    Prop where
  order : result.Pairwise fun a b => b.2 < a.2
  mem : ∀ node w, (node, w) ∈ result ↔ (s.param.getMinMatchWindowSize batchSize ≤ w ∧
      w ≤ min tokens.length s.param.maxMatchWindowSize) ∧
    Spells s s.root (tokens.drop (tokens.length - w)) node

variable {s : Ngram} {tokens : List Int}

theorem walk_eq_some_iff {p n : Nat} : s.walk p tokens = some n ↔ Spells s p tokens n := by
  induction tokens generalizing p with
  | nil => exact Option.some_inj
  | cons t rest ih => simp [walk, bind, bind_eq_some_iff, Spells, ← ih]

/-- A conversion that does not give a negative number does not give a larger one. -/
theorem firstWindow_le (s : Ngram) (tokens : List Int) :
    (s.firstWindow tokens).toNatClampNeg ≤ min tokens.length s.param.maxMatchWindowSize := by
  generalize hn : min tokens.length s.param.maxMatchWindowSize = n
  have hmod : (n : Int) % Int32.size ≤ n := Int.ofNat_le.mpr (Nat.mod_le n Int32.size)
  rw [firstWindow, hn, Int32.toNatClampNeg, Int32.toInt_ofNat', Int.bmod]
  split_ifs <;> omega

/-- No entry of the table is below the window size for all batches. -/
theorem Param.le_getMinMatchWindowSize {param : Param} (h : param.check = .ok ()) (b : Nat) :
    param.minMatchWindowSize ≤ param.getMinMatchWindowSize b := by
  unfold Param.check at h
  simp only [bind, Except.bind] at h
  split_ifs at h with _ _ _ _ _ _ _ _ htable
  rw [getMinMatchWindowSize]
  cases hb : param.batchMinMatchWindowSize[b]?.join with
  | none => exact le_rfl
  | some config =>
    have hmem := mem_of_getElem? (Option.join_eq_some_iff.mp hb)
    exact (htable config (mem_filterMap.mpr ⟨_, hmem, rfl⟩)).1

/-- The result has the windows from the first one down to the smallest one. -/
theorem matchNodes_eq (hfirst : 0 ≤ s.firstWindow tokens) (batchSize : Nat) :
    ∃ result, s.matchNodes tokens batchSize = .ok result ∧
      result.Pairwise (fun a b => b.2 < a.2) ∧ ∀ node w, (node, w) ∈ result ↔
        (s.param.minMatchWindowSize ≤ w ∧ w ≤ (s.firstWindow tokens).toNatClampNeg) ∧
        Spells s s.root (tokens.drop (tokens.length - w)) node := by
  refine ⟨_, if_neg (Int32.not_lt.mpr hfirst), ?_, fun node w => ?_⟩
  · refine List.Pairwise.filterMap _ ?_ (pairwise_reverse.mpr (pairwise_lt_range' 1))
    intro w w' hlt a ha a' ha'
    obtain ⟨n, -, rfl⟩ := map_eq_some_iff.mp ha
    obtain ⟨n', -, rfl⟩ := map_eq_some_iff.mp ha'
    exact hlt
  · simp only [mem_filterMap, mem_reverse, mem_range'_1, map_eq_some_iff, Prod.mk.injEq,
      walk_eq_some_iff]
    constructor
    · rintro ⟨w, hw, node, hspell, rfl, rfl⟩
      exact ⟨by omega, hspell⟩
    · rintro ⟨hw, hspell⟩
      exact ⟨w, by omega, node, hspell, rfl, rfl⟩

/-- `match` honours the window size of the batch if and only if, of the windows in the
    trie, the loop reaches exactly the ones that the batch admits. -/
theorem match_windows_iff (hparam : s.param.check = .ok ()) (tokens : List Int)
    (batchSize : Nat) :
    (∃ result, s.matchNodes tokens batchSize = .ok result ∧ Matches s tokens batchSize result) ↔
    0 ≤ s.firstWindow tokens ∧ ∀ w node, s.param.minMatchWindowSize ≤ w →
      w ≤ min tokens.length s.param.maxMatchWindowSize →
      Spells s s.root (tokens.drop (tokens.length - w)) node →
      (w ≤ (s.firstWindow tokens).toNatClampNeg ↔ s.param.getMinMatchWindowSize batchSize ≤ w) := by
  have hle := Param.le_getMinMatchWindowSize hparam batchSize
  have hfirst := firstWindow_le s tokens
  by_cases hneg : s.firstWindow tokens < 0
  · refine iff_of_false ?_ fun h => absurd h.1 (Int32.not_le.mpr hneg)
    rintro ⟨result, hresult, -⟩
    rw [matchNodes, if_pos hneg] at hresult
    cases hresult
  obtain ⟨result, hresult, horder, hmem⟩ := matchNodes_eq (Int32.not_lt.mp hneg) batchSize
  constructor
  · rintro ⟨result', hresult', h⟩
    obtain rfl := Except.ok.inj (hresult.symm.trans hresult')
    refine ⟨Int32.not_lt.mp hneg, fun w node hlow hhigh hspell => ?_⟩
    have hw := (hmem node w).symm.trans (h.mem node w)
    rw [and_iff_left hspell, and_iff_left hspell] at hw
    omega
  · rintro ⟨-, h⟩
    refine ⟨result, hresult, horder, fun node w => (hmem node w).trans ?_⟩
    refine and_congr_left fun hspell => ?_
    have hw := fun hlow hhigh => h w node hlow hhigh hspell
    omega

/-- Batches of one have windows of two tokens, and other batches of one. -/
theorem exists_table : ∃ s₀ s, Ngram.new 8 ⟨1, 1, 1, 2, 3, 1, [none, some 2], []⟩ = .ok s₀ ∧
    Step s₀ (.insert [7, 8, 9]) s ∧ s.param = ⟨1, 1, 1, 2, 3, 1, [none, some 2], []⟩ ∧
    s.matchNodes [5, 8] 1 = .ok [(3, 1)] ∧ (s.nodes s.root).child.lookup 9 = none :=
  ⟨_, _, rfl, rfl, rfl, rfl, rfl⟩

/-- A batch of one, and tokens of which the trie has no shorter window. -/
theorem match_windows_one : ∃ s₀ s param, Ngram.new 8 param = .ok s₀ ∧
    Step s₀ (.insert [7, 8, 9]) s ∧ param.getMinMatchWindowSize 1 = 2 ∧
    ∃ result, s.matchNodes [8, 9] 1 = .ok result ∧ Matches s [8, 9] 1 result := by
  obtain ⟨s₀, s, hnew, hs, hparam, -, hchild⟩ := exists_table
  refine ⟨s₀, s, _, hnew, hs, rfl, (match_windows_iff (by rw [hparam]; rfl) _ _).mpr ?_⟩
  rw [firstWindow, hparam]
  refine ⟨by decide, fun w node hlow hhigh hspells => ?_⟩
  obtain rfl | rfl : w = 1 ∨ w = 2 := by
    simp only [length_cons, length_nil] at hlow hhigh
    omega
  · obtain ⟨c, hlookup, -⟩ := hspells
    cases hchild.symm.trans hlookup
  · exact iff_of_true hhigh le_rfl

/-- For a batch of one, the window of one token is returned. -/
theorem match_below_window : ∃ s₀ s param, Ngram.new 8 param = .ok s₀ ∧
    Step s₀ (.insert [7, 8, 9]) s ∧ param.getMinMatchWindowSize 1 = 2 ∧
    s.matchNodes [5, 8] 1 = .ok [(3, 1)] ∧ ¬Matches s [5, 8] 1 [(3, 1)] := by
  obtain ⟨s₀, s, hnew, hs, hparam, hmatch, -⟩ := exists_table
  refine ⟨s₀, s, _, hnew, hs, rfl, hmatch, fun h => ?_⟩
  have hlow := ((h.mem 3 1).mp (mem_singleton_self _)).1.1
  rw [hparam] at hlow
  exact absurd hlow (by decide)

end SglangInc.NgramTrie
