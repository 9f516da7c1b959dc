import Mathlib.Data.List.Basic
import Mathlib.Data.List.InsertIdx

/-!
# Lists of Segments

Half-open ranges of natural numbers, and lists of them.

A free list is correct when every address is in exactly one range, free or
taken. Stating that with sets means arguing about unions and disjointness at
every update; stating it by counting does not. `cover segs x` is the number
of ranges of the list that contain `x`, it is additive over append, and
cutting a range in two leaves it alone (`cover_cut`). A partition is then one
equation per address, and an update is correct when both sides of that
equation change by the same amount.

`Ordered` is the shape a sorted free list has, and `Separated` the shape of
one whose neighbours never touch. The second is what pins the list down:
`eq_singleton_of_separated` says a separated list that covers an initial
range is that range in one piece.
-/

namespace SglangInc.Segments

open List

/-- `x` lies in the half-open range. -/
def within (x : Nat) (seg : Nat × Nat) : Bool :=
  seg.1 ≤ x && x < seg.2

@[simp] theorem within_iff (x : Nat) (seg : Nat × Nat) :
    within x seg = true ↔ seg.1 ≤ x ∧ x < seg.2 := by
  simp [within]

/-- The number of ranges of the list that contain `x`. -/
def cover (segs : List (Nat × Nat)) (x : Nat) : Nat :=
  segs.countP (within x)

@[simp] theorem cover_nil (x : Nat) : cover [] x = 0 := rfl

theorem cover_cons (seg : Nat × Nat) (segs : List (Nat × Nat)) (x : Nat) :
    cover (seg :: segs) x = cover segs x + if seg.1 ≤ x ∧ x < seg.2 then 1 else 0 := by
  simp [cover, countP_cons]

variable (l r : List (Nat × Nat))

/-- Coverage is additive. -/
@[simp] theorem cover_append (x : Nat) :
    cover (l ++ r) x = cover l x + cover r x := by
  simp [cover]

/-- A range and its two halves contain the same numbers, the same number of
    times. -/
theorem cover_cut (a m b x : Nat) (h1 : a ≤ m) (h2 : m ≤ b) :
    cover [(a, b)] x = cover [(a, m)] x + cover [(m, b)] x := by
  simp only [cover_cons, cover_nil]
  split_ifs <;> omega

/-- An empty range contains nothing, so it can be dropped from a list. -/
theorem cover_empty (a x : Nat) : cover [(a, a)] x = 0 := by
  simp only [cover_cons, cover_nil]
  split_ifs <;> omega

variable (segs : List (Nat × Nat))

/-- A covered number lies in some range. -/
theorem cover_pos_iff (x : Nat) :
    0 < cover segs x ↔ ∃ seg ∈ segs, seg.1 ≤ x ∧ x < seg.2 := by
  simp [cover]

/-- When nothing is covered twice, a range of one list and a range of another
    lie apart. -/
theorem apart_of_cover_le_one (A B : List (Nat × Nat)) (a b : Nat × Nat)
    (h : ∀ x, cover A x + cover B x ≤ 1) (ha : a ∈ A) (hb : b ∈ B) (hane : a.1 < a.2)
    (hbne : b.1 < b.2) : a.2 ≤ b.1 ∨ b.2 ≤ a.1 := by
  by_contra hov
  push Not at hov
  -- The larger of the two left ends would be in both.
  have hx := h (max a.1 b.1)
  have hA : 0 < cover A (max a.1 b.1) := (cover_pos_iff _ _).mpr ⟨a, ha, by omega, by omega⟩
  have hB : 0 < cover B (max a.1 b.1) := (cover_pos_iff _ _).mpr ⟨b, hb, by omega, by omega⟩
  omega

/-- Non-empty ranges in increasing order, each ending before the next starts. -/
def Ordered (segs : List (Nat × Nat)) : Prop :=
  (∀ seg ∈ segs, seg.1 < seg.2) ∧ segs.Pairwise (fun a b => a.2 ≤ b.1)

/-- No two consecutive ranges touch. -/
def Separated (segs : List (Nat × Nat)) : Prop :=
  ∀ i a b, segs[i]? = some a → segs[i + 1]? = some b → a.2 < b.1

theorem ordered_append :
    Ordered (l ++ r) ↔ Ordered l ∧ Ordered r ∧ ∀ a ∈ l, ∀ b ∈ r, a.2 ≤ b.1 := by
  simp only [Ordered, pairwise_append, mem_append]
  constructor
  · rintro ⟨hne, hl, hr, hlr⟩
    exact ⟨⟨fun s hs => hne s (.inl hs), hl⟩, ⟨fun s hs => hne s (.inr hs), hr⟩, hlr⟩
  · rintro ⟨⟨hnl, hl⟩, ⟨hnr, hr⟩, hlr⟩
    exact ⟨fun s hs => hs.elim (hnl s) (hnr s), hl, hr, hlr⟩

theorem ordered_cons (a : Nat × Nat) (r : List (Nat × Nat)) :
    Ordered (a :: r) ↔ a.1 < a.2 ∧ (∀ b ∈ r, a.2 ≤ b.1) ∧ Ordered r := by
  simp only [Ordered, pairwise_cons, forall_mem_cons]
  constructor
  · rintro ⟨⟨ha, hne⟩, har, hr⟩
    exact ⟨ha, har, hne, hr⟩
  · rintro ⟨ha, har, hne, hr⟩
    exact ⟨⟨ha, hne⟩, har, hr⟩

/-- Two ranges at consecutive places of a separated list. -/
theorem separated_append_cons_cons (a b : Nat × Nat)
    (h : Separated (l ++ a :: b :: r)) : a.2 < b.1 := by
  refine h l.length a b ?_ ?_
  · simp
  · rw [getElem?_append_right (by omega), show l.length + 1 - l.length = 1 by omega]
    rfl

/-- In an ordered list, consecutive ranges not touching means no two ranges
    touch: the ones in between are not empty. -/
theorem separated_iff_pairwise (ho : Ordered segs) :
    Separated segs ↔ segs.Pairwise (fun a b => a.2 < b.1) := by
  constructor
  · intro hs
    induction segs with
    | nil => exact List.Pairwise.nil
    | cons a rest ih =>
      rcases (ordered_cons a rest).mp ho with ⟨_, _, horest⟩
      refine pairwise_cons.mpr ⟨?_, ih horest fun i x y hx hy => hs (i + 1) x y hx hy⟩
      intro b hb
      cases rest with
      | nil => cases hb
      | cons c tail =>
        have hac : a.2 < c.1 := separated_append_cons_cons [] tail a c hs
        rcases mem_cons.mp hb with rfl | hb
        · exact hac
        · rcases (ordered_cons c tail).mp horest with ⟨hcne, hafter, _⟩
          have hcb := hafter b hb
          omega
  · intro h i a b ha hb
    rcases List.getElem?_eq_some_iff.mp ha with ⟨hi, rfl⟩
    rcases List.getElem?_eq_some_iff.mp hb with ⟨hj, rfl⟩
    exact pairwise_iff_getElem.mp h i (i + 1) hi hj (by omega)

/-- A separated list that covers exactly `[0, n)` is one range. The first
    range starts at zero, and what follows it starts too late to cover its
    right end, so that end is `n`. -/
theorem eq_singleton_of_separated (n : Nat) (hn : 0 < n)
    (ho : Ordered segs) (hs : Separated segs)
    (hc : ∀ x, cover segs x = if x < n then 1 else 0) : segs = [(0, n)] := by
  cases segs with
  | nil =>
    have h0 := hc 0
    rw [if_pos hn, cover_nil] at h0
    omega
  | cons a rest =>
    rcases (ordered_cons a rest).mp ho with ⟨hane, hafter, horest⟩
    -- Everything after `a` starts strictly past its right end.
    have hlate : ∀ b ∈ rest, a.2 < b.1 :=
      (pairwise_cons.mp ((separated_iff_pairwise _ ho).mp hs)).1
    have hsome : ∀ x, x < n → (a.1 ≤ x ∧ x < a.2) ∨ a.2 < x := by
      intro x hx
      have hpos : 0 < cover (a :: rest) x := by rw [hc x, if_pos hx]; omega
      rcases (cover_pos_iff _ _).mp hpos with ⟨b, hb, hbx⟩
      rcases mem_cons.mp hb with rfl | hb
      · exact .inl hbx
      · exact .inr (by have := hlate b hb; omega)
    have hbound : ∀ b ∈ a :: rest, b.2 ≤ n := by
      intro b hb
      have hbne := ho.1 b hb
      by_contra hlt
      have hpos : 0 < cover (a :: rest) (b.2 - 1) :=
        (cover_pos_iff _ _).mpr ⟨b, hb, by omega, by omega⟩
      rw [hc, if_neg (by omega)] at hpos
      omega
    have ha1 : a.1 = 0 := by
      rcases hsome 0 hn with h | h <;> omega
    have ha2 : a.2 = n := by
      by_contra hne
      have hle := hbound a mem_cons_self
      rcases hsome a.2 (by omega) with h | h <;> omega
    have hrest : rest = [] := by
      cases rest with
      | nil => rfl
      | cons c tail =>
        exfalso
        have hac := hlate c mem_cons_self
        have hcn := hbound c (mem_cons_of_mem _ mem_cons_self)
        have hcne := ((ordered_cons c tail).mp horest).1
        omega
    rw [hrest, show a = (0, n) from Prod.ext ha1 ha2]

/-- Erasing just past a prefix. -/
theorem eraseIdx_length_append {α : Type} (l r : List α) (a : α) :
    (l ++ a :: r).eraseIdx l.length = l ++ r := by
  rw [eraseIdx_append_of_length_le (Nat.le_refl _), Nat.sub_self, eraseIdx_cons_zero]

/-- Inserting just past a prefix. -/
theorem insertIdx_length_append {α : Type} (l r : List α) (a : α) :
    (l ++ r).insertIdx l.length a = l ++ a :: r := by
  induction l with
  | nil => rfl
  | cons b l ih =>
    rw [cons_append, length_cons, insertIdx_succ_cons, ih, cons_append]

end SglangInc.Segments
