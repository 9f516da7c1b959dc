import SglangInc.Core.StopRegex
import Mathlib.Data.List.Basic

/-!
# Where a Match Can Be Seen

How much of a text decides whether a bounded regex matches at a position.

A match is no longer than `_max_length_from_subpattern` says (`ends_bound`).
What decides it is therefore near its start, unless the regex looks back: `^`,
`\A`, `\b` and `\B` ask what is in front. Where a text has the first characters
of another, it has the same matches far enough in front of the place where they
part (`Moved.ends`): beyond the match itself this takes two more characters, for
the test `$`, which looks at the next character and at whether the text ends
behind it. Both texts can start with them, or one has more text in front.

## Theorems

* `SubPattern.ends_bound`, `Moved.ends`.
-/

namespace SglangInc.Regex

open List

mutual

/-- Every repeat has a bound. -/
def Token.Bounded : Token → Prop
  | .subpattern inner => inner.Bounded
  | .branch branches => branches.Bounded
  | .maxRepeat _ max inner => max.isSome ∧ inner.Bounded
  | .minRepeat _ max inner => max.isSome ∧ inner.Bounded
  | _ => True

/-- The same for a pattern. -/
def SubPattern.Bounded : SubPattern → Prop
  | .nil => True
  | .cons token rest => token.Bounded ∧ rest.Bounded

/-- The same for the branches of an alternative. -/
def Branches.Bounded : Branches → Prop
  | .one branch => branch.Bounded
  | .cons branch rest => branch.Bounded ∧ rest.Bounded

end

/-- The test does not ask what is in front of its position. -/
def AtCode.LooksAhead : AtCode → Prop
  | .endOfText => True
  | .endString => True
  | _ => False

mutual

/-- No test asks what is in front of its position. -/
def Token.LooksAhead : Token → Prop
  | .subpattern inner => inner.LooksAhead
  | .branch branches => branches.LooksAhead
  | .maxRepeat _ _ inner => inner.LooksAhead
  | .minRepeat _ _ inner => inner.LooksAhead
  | .atCode code => code.LooksAhead
  | _ => True

/-- The same for a pattern. -/
def SubPattern.LooksAhead : SubPattern → Prop
  | .nil => True
  | .cons token rest => token.LooksAhead ∧ rest.LooksAhead

/-- The same for the branches of an alternative. -/
def Branches.LooksAhead : Branches → Prop
  | .one branch => branch.LooksAhead
  | .cons branch rest => branch.LooksAhead ∧ rest.LooksAhead

end

/-- A function from starts to ends that goes ahead by at most `w`. -/
def Within (ends : Nat → List Nat) (w : Nat) : Prop :=
  ∀ i, ∀ j ∈ ends i, i ≤ j ∧ j ≤ i + w

section Repeats

variable {f g : Nat → List Nat} {w : Nat}

theorem atMost_bound (hf : Within f w) (n : Nat) (starts : List Nat) :
    ∀ j ∈ atMost f n starts, ∃ s ∈ starts, s ≤ j ∧ j ≤ s + n * w := by
  induction n generalizing starts with
  | zero => exact fun j hj => ⟨j, hj, le_rfl, Nat.le_add_right _ _⟩
  | succ n ih =>
    intro j hj
    rcases mem_append.mp hj with hj | hj
    · exact ⟨j, hj, le_rfl, Nat.le_add_right _ _⟩
    obtain ⟨k, hk, hkj, hjk⟩ := ih _ j hj
    obtain ⟨s, hs, hks⟩ := mem_flatMap.mp hk
    obtain ⟨hsk, hkw⟩ := hf s k hks
    refine ⟨s, hs, by omega, ?_⟩
    rw [Nat.succ_mul]
    omega

theorem exactly_bound (hf : Within f w) (n : Nat) (starts : List Nat) :
    ∀ j ∈ exactly f n starts, ∃ s ∈ starts, s ≤ j ∧ j ≤ s + n * w := by
  have hsub : exactly f n starts ⊆ atMost f n starts := by
    induction n generalizing starts with
    | zero => exact List.Subset.refl _
    | succ n ih => exact subset_append_of_subset_right _ (ih _)
  exact fun j hj => atMost_bound hf n starts j (hsub hj)

variable {max : Option Nat} {c a : Nat}

theorem repeated_bound (hf : Within f w) (min : Nat) (hmax : max.isSome = true)
    (length : Nat) : Within (repeated f min max length) (repeatLength max w) := by
  obtain ⟨max, rfl⟩ := Option.isSome_iff_exists.mp hmax
  intro i j hj
  simp only [repeated] at hj
  split at hj
  · next hle =>
      obtain ⟨k, hk, hkj, hjk⟩ := atMost_bound hf _ _ j hj
      obtain ⟨s, hs, hsk, hks⟩ := exactly_bound hf _ _ k hk
      rw [mem_singleton.mp hs] at hsk hks
      have hsplit : max * w = min * w + (max - min) * w := by
        rw [← Nat.add_mul, Nat.add_sub_cancel' hle]
      simp only [repeatLength]
      omega
  · cases hj

/-- Functions that agree up to `c`, but for a shift by `a`, have the same repeats. -/
theorem repeats_move (hf : Within f w) (hfg : ∀ i, i + w ≤ c → g (a + i) = (f i).map (a + ·))
    (n : Nat) (starts : List Nat) (hs : ∀ s ∈ starts, s + n * w ≤ c) :
    exactly g n (starts.map (a + ·)) = (exactly f n starts).map (a + ·) ∧
      atMost g n (starts.map (a + ·)) = (atMost f n starts).map (a + ·) := by
  induction n generalizing starts with
  | zero => exact ⟨rfl, rfl⟩
  | succ n ih =>
    simp only [Nat.succ_mul] at hs
    have hstarts : (starts.map (a + ·)).flatMap g = (starts.flatMap f).map (a + ·) := by
      rw [flatMap_map, map_flatMap]
      refine flatMap_congr fun s hmem => hfg s ?_
      have := hs s hmem
      omega
    have hnext : ∀ j ∈ starts.flatMap f, j + n * w ≤ c := by
      intro j hj
      obtain ⟨s, hmem, hsj⟩ := mem_flatMap.mp hj
      have := hs s hmem
      have := (hf s j hsj).2
      omega
    rw [exactly, exactly, atMost, atMost, hstarts, (ih _ hnext).1, (ih _ hnext).2, map_append]
    exact ⟨rfl, rfl⟩

/-- Where the inner ends move along, so do those of a repeat. -/
theorem repeated_move (hf : Within f w) (hfg : ∀ i, i + w ≤ c → g (a + i) = (f i).map (a + ·))
    (min : Nat) (hmax : max.isSome = true) (m n : Nat) {i : Nat}
    (hi : i + repeatLength max w ≤ c) :
    repeated g min max m (a + i) = (repeated f min max n i).map (a + ·) := by
  obtain ⟨max, rfl⟩ := Option.isSome_iff_exists.mp hmax
  simp only [repeated, repeatLength] at hi ⊢
  split
  · next hle =>
      have hsplit : max * w = min * w + (max - min) * w := by
        rw [← Nat.add_mul, Nat.add_sub_cancel' hle]
      have hstart : ∀ s ∈ [i], s + min * w ≤ c := by
        simp only [mem_singleton, forall_eq]
        omega
      rw [← map_singleton, (repeats_move hf hfg min [i] hstart).1]
      refine (repeats_move hf hfg _ _ fun k hk => ?_).2
      obtain ⟨s, hs, -, hks⟩ := exactly_bound hf _ _ k hk
      rw [mem_singleton.mp hs] at hks
      omega
  · rfl

end Repeats

section Patterns

variable {classes : CharClasses} {text text' : List Char}

theorem oneChar_bound (accepts : Char → Bool) {n : Nat} (hn : 0 < n) :
    Within (oneChar accepts text) n := by
  intro i j hj
  unfold oneChar at hj
  split at hj
  · rw [mem_singleton.mp hj]
    omega
  · cases hj

mutual

theorem Token.ends_bound (token : Token) (h : token.Bounded) :
    Within (token.ends classes text) token.maxLength := by
  cases token with
  | literal c => exact oneChar_bound _ Nat.one_pos
  | notLiteral c => exact oneChar_bound _ (Nat.two_pow_pos 30)
  | any | inSet => exact oneChar_bound _ Nat.one_pos
  | subpattern inner => exact inner.ends_bound h
  | branch branches => exact branches.ends_bound h
  | maxRepeat min max inner => exact repeated_bound (inner.ends_bound h.2) min h.1 _
  | minRepeat min max inner => exact repeated_bound (inner.ends_bound h.2) min h.1 _
  | atCode code =>
    intro i j hj
    simp only [Token.ends] at hj
    split at hj
    · rw [mem_singleton.mp hj]
      exact ⟨le_rfl, le_rfl⟩
    · cases hj

theorem SubPattern.ends_bound (pattern : SubPattern) (h : pattern.Bounded) :
    Within (pattern.ends classes text) pattern.maxLength := by
  cases pattern with
  | nil =>
    intro i j hj
    rw [mem_singleton.mp hj]
    exact ⟨le_rfl, le_rfl⟩
  | cons token rest =>
    intro i j hj
    obtain ⟨k, hk, hkj⟩ := mem_flatMap.mp hj
    obtain ⟨hik, hki⟩ := token.ends_bound h.1 i k hk
    obtain ⟨hkj, hjk⟩ := rest.ends_bound h.2 k j hkj
    simp only [SubPattern.maxLength]
    omega

theorem Branches.ends_bound (branches : Branches) (h : branches.Bounded) :
    Within (branches.ends classes text) branches.maxLength := by
  cases branches with
  | one branch => exact branch.ends_bound h
  | cons branch rest =>
    intro i j hj
    simp only [Branches.maxLength]
    rcases mem_append.mp hj with hj | hj
    · obtain ⟨hij, hji⟩ := branch.ends_bound h.1 i j hj
      exact ⟨hij, by omega⟩
    · obtain ⟨hij, hji⟩ := rest.ends_bound h.2 i j hj
      exact ⟨hij, by omega⟩

end

/-- Two texts with the same first characters. -/
structure Agree (text text' : List Char) (c : Nat) : Prop where
  get : ∀ i, i < c → text[i]? = text'[i]?
  le : c ≤ text.length
  le' : c ≤ text'.length

theorem agree_append (front keep new old : List Char) :
    Agree (front ++ (keep ++ new)) (front ++ (keep ++ old)) (front.length + keep.length) := by
  refine ⟨fun i hi => ?_, ?_, ?_⟩
  · rw [← length_append] at hi
    rw [← append_assoc, ← append_assoc, getElem?_append_left hi, getElem?_append_left hi]
  all_goals
    simp only [length_append]
    omega

variable {c a : Nat} {pattern : SubPattern}

/-- The first characters of one text are those of another from a position on. -/
structure Moved (text text' : List Char) (a c : Nat) : Prop where
  get : ∀ i < c, text'[a + i]? = text[i]?
  ending : ∀ i < c, (a + i == text'.length) = (i == text.length)

theorem Moved.oneChar (h : Moved text text' a c) {i : Nat} (hi : i < c) (accepts : Char → Bool) :
    oneChar accepts text' (a + i) = (oneChar accepts text i).map (a + ·) := by
  simp only [Regex.oneChar, h.get i hi]
  split
  · rfl
  · rfl

theorem Moved.holds (h : Moved text text' a c) {code : AtCode} (hl : code.LooksAhead) {i : Nat}
    (hi : i + 2 ≤ c) : code.holds classes text' (a + i) = code.holds classes text i := by
  have hnext := h.ending (i + 1) hi
  cases code with
  | beginning | beginningString | boundary | nonBoundary => exact hl.elim
  | endOfText =>
    rw [← Nat.add_assoc] at hnext
    simp only [AtCode.holds, h.ending i (by omega), hnext, h.get i (by omega)]
  | endString => exact h.ending i (by omega)

mutual

/-- What a token matches moves along with the text. -/
theorem Moved.tokenEnds (h : Moved text text' a c) {token : Token} (hb : token.Bounded)
    (hl : token.LooksAhead) (i : Nat) (hi : i + token.maxLength + 2 ≤ c) :
    token.ends classes text' (a + i) = (token.ends classes text i).map (a + ·) := by
  cases token with
  | literal | notLiteral | any | inSet => exact h.oneChar (by omega) _
  | subpattern inner => exact h.ends hb hl i hi
  | branch branches => exact h.branchesEnds hb hl i hi
  | maxRepeat min _ inner | minRepeat min _ inner =>
    have hinner : ∀ k, k + inner.maxLength ≤ c - 2 →
        inner.ends classes text' (a + k) = (inner.ends classes text k).map (a + ·) :=
      fun k hk => h.ends hb.2 hl k (by omega)
    simp only [Token.maxLength] at hi
    exact repeated_move (inner.ends_bound hb.2) hinner min hb.1 _ _ (by omega)
  | atCode code =>
    simp only [Token.maxLength] at hi
    simp only [Token.ends, h.holds hl (by omega)]
    split
    · rfl
    · rfl

theorem Moved.ends (h : Moved text text' a c) {pattern : SubPattern} (hb : pattern.Bounded)
    (hl : pattern.LooksAhead) (i : Nat) (hi : i + pattern.maxLength + 2 ≤ c) :
    pattern.ends classes text' (a + i) = (pattern.ends classes text i).map (a + ·) := by
  cases pattern with
  | nil => rfl
  | cons token rest =>
    simp only [SubPattern.maxLength] at hi
    rw [SubPattern.ends, SubPattern.ends, h.tokenEnds hb.1 hl.1 i (by omega), flatMap_map,
      map_flatMap]
    refine flatMap_congr fun j hj => h.ends hb.2 hl.2 j ?_
    have := (token.ends_bound hb.1 i j hj).2
    omega

theorem Moved.branchesEnds (h : Moved text text' a c) {branches : Branches}
    (hb : branches.Bounded) (hl : branches.LooksAhead) (i : Nat)
    (hi : i + branches.maxLength + 2 ≤ c) :
    branches.ends classes text' (a + i) = (branches.ends classes text i).map (a + ·) := by
  cases branches with
  | one branch => exact h.ends hb hl i hi
  | cons branch rest =>
    simp only [Branches.maxLength] at hi
    rw [Branches.ends, Branches.ends, h.ends hb.1 hl.1 i (by omega),
      h.branchesEnds hb.2 hl.2 i (by omega), map_append]

end

theorem Agree.moved (hc : Agree text text' c) : Moved text' text 0 c := by
  refine ⟨fun i hi => by rw [Nat.zero_add, hc.get i hi], fun i hi => ?_⟩
  have := hc.le
  have := hc.le'
  simp
  omega

theorem moved_append (front text : List Char) (c : Nat) :
    Moved text (front ++ text) front.length c := by
  refine ⟨fun i _ => ?_, fun i _ => ?_⟩
  · rw [getElem?_append_right (Nat.le_add_right ..), Nat.add_sub_cancel_left]
  · simp

theorem search_iff : search classes pattern text = true ↔
      ∃ i, i ≤ text.length ∧ pattern.ends classes text i ≠ [] := by
  rw [search, any_eq_true]
  refine exists_congr fun i => and_congr ?_ ?_
  · rw [mem_range, Nat.lt_succ_iff]
  · rw [Bool.not_eq_true', isEmpty_eq_false_iff]

/-- A text grows at its end, and a regex had no match before. To find one now,
    it is enough to search through a last part that has as many characters from
    before as a match can have, and one more. -/
theorem search_append {front old new : List Char} (hb : pattern.Bounded) (hl : pattern.LooksAhead)
    (hc : Agree (front ++ new) (front ++ old) (front.length + c)) (hlen : pattern.maxLength + 1 ≤ c)
    (hold : search classes pattern (front ++ old) = false) :
    search classes pattern (front ++ new) = search classes pattern new := by
  have hshift (k : Nat) : pattern.ends classes (front ++ new) (front.length + k) = [] ↔
      pattern.ends classes new k = [] := by
    rw [(moved_append front new _).ends hb hl k le_rfl, map_eq_nil_iff]
  rw [Bool.eq_iff_iff, search_iff, search_iff]
  constructor
  · rintro ⟨i, hi, hne⟩
    rcases lt_or_ge i front.length with hlt | hge
    · -- A match that starts in front was there before.
      have hends : pattern.ends classes (front ++ new) (0 + i) = _ :=
        hc.moved.ends hb hl i (by omega)
      rw [Nat.zero_add] at hends
      rw [hends, ne_eq, map_eq_nil_iff] at hne
      have hfound := search_iff.mpr ⟨i, by rw [length_append]; omega, hne⟩
      rw [hold] at hfound
      exact absurd hfound Bool.false_ne_true
    · obtain ⟨k, rfl⟩ := Nat.exists_eq_add_of_le hge
      exact ⟨k, by rw [length_append] at hi; omega, mt (hshift k).mpr hne⟩
  · rintro ⟨k, hk, hne⟩
    exact ⟨front.length + k, by rw [length_append]; omega, mt (hshift k).mp hne⟩

end Patterns

end SglangInc.Regex
