import Mathlib.Data.List.Chain
import Mathlib.Data.List.Nodup

/-!
# Lists in Which Parents Come First

Every element of such a list has a parent, which is one of the roots or stands in
front of it. Nothing is said about how many children there are or where: the
parents are a function.

Three changes keep the order. An element whose parent is in the list can be added
at the end; elements can be taken away from the end, and the last one is nobody's
parent; and the elements of a path that starts below a root can be moved to the
front, deepest first. While that last one goes on, the order is broken at one
place: the element moved last stands in front of its parent. So the induction is
about lists in which the parent of the next element to be moved counts as a root
as well.

## Theorems

* `ParentsFirst.concat`, `ParentsFirst.of_append`: Adding and taking away at the
  end.
-/

namespace SglangInc

open List

variable {α : Type} {par par' : α → Option α} {R R' : α → Prop} {l : List α} {n : α}

/-- A parent comes before its children, or is one of the roots `R`. -/
def ParentsFirst (par : α → Option α) (R : α → Prop) (l : List α) : Prop :=
  ∀ pre n post, l = pre ++ n :: post → ∃ p, par n = some p ∧ (R p ∨ p ∈ pre)

/-- One element goes to the front. -/
def moveFront [DecidableEq α] (n : α) (l : List α) : List α := n :: l.erase n

namespace ParentsFirst

theorem nil : ParentsFirst par R [] := by
  intro pre n post h
  exact absurd h (by simp)

theorem mono (h : ParentsFirst par R l) (hR : ∀ p, R p → R' p) : ParentsFirst par R' l := by
  intro pre n post hl
  obtain ⟨p, hp, hin⟩ := h pre n post hl
  exact ⟨p, hp, hin.imp_left (hR p)⟩

theorem congr (h : ParentsFirst par R l) (hpar : ∀ n ∈ l, par' n = par n) :
    ParentsFirst par' R l := by
  intro pre n post hl
  rw [hpar n (by simp [hl])]
  exact h pre n post hl

theorem of_append {l' : List α} (h : ParentsFirst par R (l ++ l')) : ParentsFirst par R l := by
  rintro pre n post rfl
  exact h pre n (post ++ l') (by rw [append_assoc, cons_append])

theorem concat (h : ParentsFirst par R l) {p : α} (hp : par n = some p) (hin : R p ∨ p ∈ l) :
    ParentsFirst par R (l ++ [n]) := by
  intro pre m post hl
  rcases eq_nil_or_concat post with rfl | ⟨post, x, rfl⟩
  · obtain ⟨rfl, hm⟩ := append_inj' hl rfl
    obtain rfl := singleton_inj.mp hm
    exact ⟨p, hp, hin⟩
  · rw [concat_eq_append, ← cons_append, ← append_assoc] at hl
    exact h pre m post (append_inj' hl rfl).1

theorem parent (h : ParentsFirst par R l) (hn : n ∈ l) : ∃ p, par n = some p ∧ (R p ∨ p ∈ l) := by
  obtain ⟨pre, post, rfl⟩ := append_of_mem hn
  obtain ⟨p, hp, hin⟩ := h pre n post rfl
  exact ⟨p, hp, hin.imp_right (mem_append_left _)⟩

/-- What holds of the children of a root, and of the children of what it holds of,
    holds of every element. -/
theorem induction {P : α → Prop} (h : ParentsFirst par R l)
    (hP : ∀ n ∈ l, ∀ p, par n = some p → R p ∨ P p → P n) : ∀ n ∈ l, P n := by
  induction l using reverseRecOn with
  | nil => exact forall_mem_nil _
  | append_singleton l m ih =>
    have hbefore := ih h.of_append fun n hn => hP n (mem_append_left _ hn)
    intro n hn
    rcases mem_append.mp hn with hl | hm
    · exact hbefore n hl
    · obtain rfl := mem_singleton.mp hm
      obtain ⟨p, hp, hin⟩ := h l n [] rfl
      exact hP n hn p hp (hin.imp_right (hbefore p))

/-- The last element is not the parent of another one. -/
theorem ne_of_last (h : ParentsFirst par R (l ++ [n])) (hnodup : (l ++ [n]).Nodup) (hn : ¬R n)
    {m : α} (hm : m ∈ l ++ [n]) : par m ≠ some n := by
  intro hpar
  obtain ⟨pre, post, hl⟩ := append_of_mem hm
  obtain ⟨p, hp, hin⟩ := h pre m post hl
  cases hpar.symm.trans hp
  have hpre := hin.resolve_left hn
  -- The last element would stand in front of `m`, so it is there twice.
  rcases eq_nil_or_concat post with rfl | ⟨post, x, rfl⟩
  · obtain ⟨rfl, -⟩ := append_inj' hl rfl
    exact disjoint_of_nodup_append hnodup hpre (mem_singleton_self n)
  · rw [concat_eq_append, ← cons_append, ← append_assoc] at hl
    obtain ⟨rfl, -⟩ := append_inj' hl rfl
    exact disjoint_of_nodup_append hnodup (mem_append_left _ hpre) (mem_singleton_self n)

end ParentsFirst

section Move

variable [DecidableEq α] {path : List α}

theorem moveFront_perm (hn : n ∈ l) : (moveFront n l).Perm l :=
  (perm_cons_erase hn).symm

theorem foldr_moveFront_perm (h : ∀ n ∈ path, n ∈ l) : (path.foldr moveFront l).Perm l := by
  induction path with
  | nil => exact List.Perm.refl l
  | cons n path ih =>
    have hrest := ih (forall_mem_cons.mp h).2
    exact (moveFront_perm (hrest.mem_iff.mpr (h n mem_cons_self))).trans hrest

/-- One element goes to the front, after its children have been allowed there. -/
theorem ParentsFirst.moveFront {q : α} (h : ParentsFirst par (fun p => R p ∨ p = n) l)
    (hnodup : l.Nodup) (hq : par n = some q) :
    ParentsFirst par (fun p => R p ∨ p = q) (moveFront n l) := by
  intro pre m post hl
  cases pre with
  | nil =>
    obtain ⟨rfl, -⟩ := List.cons.inj hl
    exact ⟨q, hq, .inl (.inr rfl)⟩
  | cons x pre =>
    obtain ⟨rfl, hrest⟩ := List.cons.inj hl
    have hbefore : ∀ pre' post', l = pre' ++ m :: post' → (∀ y ∈ pre', y = n ∨ y ∈ pre) →
        ∃ p, par m = some p ∧ ((R p ∨ p = q) ∨ p ∈ n :: pre) := by
      intro pre' post' hl' hsub
      obtain ⟨p, hp, (hR | rfl) | hin⟩ := h pre' m post' hl'
      · exact ⟨p, hp, .inl (.inl hR)⟩
      · exact ⟨p, hp, .inr mem_cons_self⟩
      · exact ⟨p, hp, .inr (mem_cons.mpr (hsub p hin))⟩
    by_cases hn : n ∈ l
    · -- `n` stood in front of `m` or behind it.
      obtain ⟨a, b, rfl⟩ := append_of_mem hn
      have hna : n ∉ a := fun hin =>
        disjoint_of_nodup_append hnodup hin mem_cons_self
      rw [erase_append_right _ hna, erase_cons_head] at hrest
      rcases append_eq_append_iff.mp hrest with ⟨c, rfl, rfl⟩ | ⟨c, rfl, hc⟩
      · refine hbefore (a ++ n :: c) post (by simp) fun y hy => ?_
        simp only [mem_append, mem_cons] at hy ⊢
        tauto
      cases c with
      | nil =>
        obtain rfl : m :: post = b := hc
        refine hbefore (pre ++ [n]) post (by simp) fun y hy => ?_
        simp only [mem_append, mem_singleton] at hy
        exact hy.symm
      | cons y c =>
        obtain ⟨rfl, rfl⟩ := List.cons.inj hc
        exact hbefore pre (c ++ n :: b) (by simp) fun y hy => .inr hy
    · rw [erase_of_not_mem hn] at hrest
      exact hbefore pre post hrest fun y hy => .inr hy

/-- A path is moved to the front. -/
theorem ParentsFirst.moveFront_path {q : α} (h : ParentsFirst par R l) (hnodup : l.Nodup)
    (hpath : List.IsChain (fun p n => par n = some p) (q :: path)) (hin : ∀ n ∈ path, n ∈ l) :
    ParentsFirst par (fun p => R p ∨ p = q) (path.foldr SglangInc.moveFront l) := by
  induction path generalizing q with
  | nil => exact h.mono fun _ => .inl
  | cons n path ih =>
    rw [isChain_cons_cons] at hpath
    have hrest := (forall_mem_cons.mp hin).2
    exact (ih hpath.2 hrest).moveFront ((foldr_moveFront_perm hrest).nodup_iff.mpr hnodup) hpath.1

end Move

end SglangInc
