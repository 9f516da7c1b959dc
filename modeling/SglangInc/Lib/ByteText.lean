import Mathlib.Algebra.Order.Ring.Int
import Mathlib.Data.List.Infix

/-!
# Texts Addressed by Bytes

Texts whose positions are numbers of bytes of their UTF-8 form, as in Rust.

A position that is inside a character is no boundary, and a text cannot be cut there:
`splitAt` has no result. Every cut of the list of characters is a cut at the number of
bytes before it (`splitAt_append`), and there are no others (`splitAt_eq_some`), so a
statement about bytes can be read as one about characters.

## Theorems

* `splitAt_append`, `splitAt_eq_some`: Cuts at positions are cuts of the list.
* `find_spec`, `find_eq_none`: The first match, or none.
-/

namespace SglangInc.ByteText

open List

/-- The number of bytes of a text. -/
def byteLen (s : List Char) : Nat := (s.map Char.utf8Size).sum

/-- The parts before and behind a position. -/
def splitAt : List Char → Nat → Option (List Char × List Char)
  | s, 0 => some ([], s)
  | [], _ + 1 => none
  | c :: s, n + 1 =>
    if c.utf8Size ≤ n + 1 then
      (splitAt s (n + 1 - c.utf8Size)).map fun parts => (c :: parts.1, parts.2)
    else none

/-- `s.is_char_boundary(n)`. -/
def isCharBoundary (s : List Char) (n : Nat) : Bool := (splitAt s n).isSome

/-- `&s[n..]`. -/
def sliceFrom (s : List Char) (n : Nat) : Option (List Char) := (splitAt s n).map (·.2)

/-- `&s[..n]`. -/
def sliceTo (s : List Char) (n : Nat) : Option (List Char) := (splitAt s n).map (·.1)

/-- `while !s.is_char_boundary(n) && n > 0 { n -= 1; }`. -/
def floorCharBoundary (s : List Char) : Nat → Nat
  | 0 => 0
  | n + 1 => if isCharBoundary s (n + 1) then n + 1 else floorCharBoundary s n

/-- `s.find(pattern)`. -/
def find (pattern : List Char) : List Char → Option Nat
  | [] => if pattern = [] then some 0 else none
  | c :: s =>
    if pattern.isPrefixOf (c :: s) then some 0
    else (find pattern s).map (· + c.utf8Size)

variable {s a b pattern : List Char} {n : Nat}

@[simp] theorem byteLen_nil : byteLen [] = 0 := rfl

@[simp] theorem byteLen_cons (c : Char) (s : List Char) :
    byteLen (c :: s) = c.utf8Size + byteLen s := rfl

@[simp] theorem byteLen_append (a b : List Char) : byteLen (a ++ b) = byteLen a + byteLen b := by
  rw [byteLen, map_append, sum_append_nat, byteLen, byteLen]

theorem byteLen_pos (h : s ≠ []) : 0 < byteLen s := by
  cases s with
  | nil => exact absurd rfl h
  | cons c s =>
    have := c.utf8Size_pos
    rw [byteLen_cons]
    omega

theorem splitAt_zero (s : List Char) : splitAt s 0 = some ([], s) := by
  cases s <;> rfl

theorem splitAt_cons {c : Char} (hn : 0 < n) : splitAt (c :: s) n = if c.utf8Size ≤ n then
      (splitAt s (n - c.utf8Size)).map fun parts => (c :: parts.1, parts.2) else none := by
  cases n with
  | zero => exact absurd hn (lt_irrefl 0)
  | succ n => rfl

theorem splitAt_append (a b : List Char) : splitAt (a ++ b) (byteLen a) = some (a, b) := by
  induction a with
  | nil => exact splitAt_zero b
  | cons c a ih =>
    have hpos := c.utf8Size_pos
    rw [byteLen_cons, cons_append, splitAt_cons (by omega), if_pos (Nat.le_add_right _ _),
      Nat.add_sub_cancel_left, ih]
    rfl

theorem splitAt_eq_some (h : splitAt s n = some (a, b)) : s = a ++ b ∧ byteLen a = n := by
  induction s generalizing n a with
  | nil =>
    cases n with
    | zero =>
      cases h
      exact ⟨rfl, rfl⟩
    | succ n => exact absurd h (by simp [splitAt])
  | cons c s ih =>
    cases n with
    | zero =>
      rw [splitAt_zero] at h
      cases h
      exact ⟨rfl, rfl⟩
    | succ n =>
      rw [splitAt] at h
      split_ifs at h with hle
      rcases Option.map_eq_some_iff.mp h with ⟨⟨a', b'⟩, hsplit, heq⟩
      cases heq
      rcases ih hsplit with ⟨rfl, hlen⟩
      refine ⟨rfl, ?_⟩
      rw [byteLen_cons, hlen]
      omega

theorem isCharBoundary_iff : isCharBoundary s n = true ↔ ∃ a b, s = a ++ b ∧ byteLen a = n := by
  constructor
  · intro h
    rcases Option.isSome_iff_exists.mp h with ⟨⟨a, b⟩, hsplit⟩
    exact ⟨a, b, splitAt_eq_some hsplit⟩
  · rintro ⟨a, b, rfl, rfl⟩
    rw [isCharBoundary, splitAt_append]
    rfl

theorem sliceFrom_append (a b : List Char) : sliceFrom (a ++ b) (byteLen a) = some b := by
  rw [sliceFrom, splitAt_append]
  rfl

theorem sliceTo_append (a b : List Char) : sliceTo (a ++ b) (byteLen a) = some a := by
  rw [sliceTo, splitAt_append]
  rfl

/-- The last boundary up to a position. -/
theorem floorCharBoundary_spec (s : List Char) (n : Nat) :
    isCharBoundary s (floorCharBoundary s n) = true ∧ floorCharBoundary s n ≤ n ∧
    ∀ m, isCharBoundary s m = true → m ≤ n → m ≤ floorCharBoundary s n := by
  induction n with
  | zero =>
    refine ⟨?_, Nat.le_refl 0, fun m _ hm => hm⟩
    rw [floorCharBoundary, isCharBoundary, splitAt_zero]
    rfl
  | succ n ih =>
    rw [floorCharBoundary]
    split_ifs with hb
    · exact ⟨hb, le_rfl, fun m _ hm => hm⟩
    · refine ⟨ih.1, Nat.le_succ_of_le ih.2.1, fun m hm hle => ih.2.2 m hm ?_⟩
      rcases Nat.lt_or_eq_of_le hle with hlt | rfl
      · exact Nat.le_of_lt_succ hlt
      · exact absurd hm hb

/-- The first match: the text in front of it, and no match that starts earlier. -/
theorem find_spec (h : find pattern s = some n) : ∃ a b, s = a ++ pattern ++ b ∧ byteLen a = n ∧
      ∀ a' b', s = a' ++ pattern ++ b' → a.length ≤ a'.length := by
  induction s generalizing n with
  | nil =>
    rw [find] at h
    by_cases hp : pattern = []
    · subst hp
      cases h
      exact ⟨[], [], rfl, rfl, fun _ _ _ => Nat.zero_le _⟩
    · cases (if_neg hp).symm.trans h
  | cons c s ih =>
    rw [find] at h
    split_ifs at h with hp
    · cases h
      rcases isPrefixOf_iff_prefix.mp hp with ⟨b, hb⟩
      exact ⟨[], b, hb.symm, rfl, fun _ _ _ => Nat.zero_le _⟩
    rw [Option.map_eq_some_iff] at h
    rcases h with ⟨m, hfind, rfl⟩
    rcases ih hfind with ⟨a, b, rfl, rfl, hfirst⟩
    refine ⟨c :: a, b, rfl, by rw [byteLen_cons, Nat.add_comm], fun a' b' heq => ?_⟩
    cases a' with
    | nil => exact (hp <| isPrefixOf_iff_prefix.mpr ⟨b', heq.symm⟩).elim
    | cons c' a' =>
      rw [cons_append, cons_append, List.cons.injEq] at heq
      exact Nat.succ_le_succ (hfirst a' b' heq.2)

theorem find_eq_none : find pattern s = none ↔ ¬ pattern <:+: s := by
  induction s with
  | nil =>
    rw [find, infix_nil]
    by_cases hp : pattern = []
    · simp [hp]
    · simp [hp]
  | cons c s ih =>
    rw [find, infix_cons_iff, not_or, ← isPrefixOf_iff_prefix, ← ih]
    by_cases hp : pattern.isPrefixOf (c :: s) = true
    · simp [hp]
    · simp [hp]

end SglangInc.ByteText
