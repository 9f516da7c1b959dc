import SglangInc.Core.EagleTree
import SglangInc.Lib.Links

/-!
# Draft Trees

What the tables of a request say, without the loops that read them: which node is
the parent of which, and the path from the root to a node.

A valid input has every path. It is a tree then: a node is a candidate that was
selected once, so that it has one parent and one path (`RootPath.unique`).
-/

namespace SglangInc.Eagle

open List

namespace TreeInput

variable {t : TreeInput} {bs numSpec b p q i k : Nat} {l : List Nat}

/-- The parent of node `i` is the root, or the node whose candidate its own was
    drafted for. -/
def IsParent (t : TreeInput) (b p i : Nat) : Prop :=
  if t.selected b (i - 1) / t.topk = 0 then p = 0
  else 0 < p ∧ p < t.draftTokenNum ∧
    (t.selected b (p - 1) : Int) = t.parentToken b (t.selected b (i - 1) / t.topk)

instance : Decidable (t.IsParent b p i) :=
  inferInstanceAs (Decidable (if t.selected b (i - 1) / t.topk = 0 then p = 0
    else 0 < p ∧ p < t.draftTokenNum ∧
      (t.selected b (p - 1) : Int) = t.parentToken b (t.selected b (i - 1) / t.topk)))

/-- The nodes from below the root down to node `i`. -/
inductive RootPath (t : TreeInput) (b : Nat) : Nat → List Nat → Prop
  | root : RootPath t b 0 []
  | child {p i : Nat} {l : List Nat} : RootPath t b p l → 0 < i → i < t.draftTokenNum →
      t.IsParent b p i → RootPath t b i (l ++ [i])

/-- The candidates of each request are selected in order, and with a candidate its
    parent is selected. No node is deeper than a verification can go. -/
structure Valid (t : TreeInput) (bs numSpec : Nat) : Prop where
  ascending : ∀ b < bs, ∀ i j, i < j → j < t.draftTokenNum - 1 → t.selected b i < t.selected b j
  rooted : ∀ b < bs, ∀ i < t.draftTokenNum, ∃ l, t.RootPath b i l ∧ l.length < numSpec

theorem RootPath.eq_nil (h : t.RootPath b 0 l) : l = [] := by
  cases h with
  | root => rfl
  | child _ hpos => exact absurd hpos (Nat.lt_irrefl 0)

theorem RootPath.lt (h : t.RootPath b i l) : i < t.draftTokenNum := by
  cases h with
  | root => exact t.draftTokenNum_pos
  | child _ _ hlt => exact hlt

theorem RootPath.mem_lt (h : t.RootPath b i l) : ∀ c ∈ l, 0 < c ∧ c < t.draftTokenNum := by
  induction h with
  | root => exact forall_mem_nil _
  | @child p i l _ hpos hlt _ ih =>
    exact forall_mem_append.mpr ⟨ih, forall_mem_singleton.mpr ⟨hpos, hlt⟩⟩

theorem IsParent.lt (h : t.IsParent b p i) : p < t.draftTokenNum := by
  unfold IsParent at h
  split_ifs at h with hroot
  · rw [h]
    exact t.draftTokenNum_pos
  · exact h.2.1

namespace Valid

variable (hv : t.Valid bs numSpec) (hb : b < bs)

include hv hb

theorem parent_unique (hp : t.IsParent b p i) (hq : t.IsParent b q i) : p = q := by
  unfold IsParent at hp hq
  split_ifs at hp hq with hroot
  · rw [hp, hq]
  · have hascending := hv.ascending b hb
    rcases Nat.lt_trichotomy (p - 1) (q - 1) with hlt | heq | hlt
    · have := hascending _ _ hlt (by omega)
      omega
    · omega
    · have := hascending _ _ hlt (by omega)
      omega

/-- The loop over the row stops at the candidate it looks for. -/
theorem search_eq {position : Nat} (hlt : position < t.draftTokenNum - 1) {token : Int}
    (h : (t.selected b position : Int) = token) : t.search b token = some position := by
  rw [search, find?_range_eq_some]
  refine ⟨decide_eq_true h, mem_range.mpr (by omega), fun j hj => ?_⟩
  rw [Bool.not_eq_true', decide_eq_false_iff_not]
  intro hj'
  have := hv.ascending b hb j position hj hlt
  omega

/-- The search of the kernel finds the parent. -/
theorem parentPosition_eq (hp : t.IsParent b p i) : t.parentPosition b i = p := by
  unfold IsParent at hp
  unfold parentPosition
  split_ifs at hp with hroot
  · simp only [hroot, gt_iff_lt, Nat.lt_irrefl, if_false]
    exact hp.symm
  · obtain ⟨hpos, hlt, hsel⟩ := hp
    simp only [gt_iff_lt, Nat.pos_of_ne_zero hroot, if_true,
      hv.search_eq hb (show p - 1 < t.draftTokenNum - 1 by omega) hsel]
    omega

theorem rootPath_unique {l' : List Nat} (h : t.RootPath b i l) (h' : t.RootPath b i l') :
    l = l' := by
  induction h generalizing l' with
  | root => exact h'.eq_nil.symm
  | @child p i l hpath hpos hlt hpar ih =>
    cases h' with
    | root => exact absurd hpos (Nat.lt_irrefl 0)
    | child hpath' _ _ hpar' =>
      obtain rfl := hv.parent_unique hb hpar hpar'
      rw [ih hpath']

theorem exists_parent (hpos : 0 < i) (hlt : i < t.draftTokenNum) : ∃ p, t.IsParent b p i := by
  obtain ⟨l, hl, -⟩ := hv.rooted b hb i hlt
  cases hl with
  | root => exact absurd hpos (Nat.lt_irrefl 0)
  | child _ _ _ hpar => exact ⟨_, hpar⟩

theorem length_lt (h : t.RootPath b i l) : l.length < numSpec := by
  obtain ⟨l', hl', hlen⟩ := hv.rooted b hb i h.lt
  rwa [hv.rootPath_unique hb h hl']

end Valid

/-- The children of a node that are behind node `k`, in order. -/
def childrenAfter (t : TreeInput) (b p k : Nat) : List Nat :=
  (List.range' (k + 1) (t.draftTokenNum - 1 - k)).filter (t.IsParent b p ·)

theorem mem_childrenAfter :
    i ∈ t.childrenAfter b p k ↔ k < i ∧ i < t.draftTokenNum ∧ t.IsParent b p i := by
  rw [childrenAfter, mem_filter, mem_range'_1, decide_eq_true_eq]
  refine ⟨fun ⟨hi, hp⟩ => ⟨by omega, by omega, hp⟩, fun ⟨hk, hi, hp⟩ => ⟨by omega, hp⟩⟩

theorem childrenAfter_step (hk : k + 1 < t.draftTokenNum) :
    t.childrenAfter b p k = if t.IsParent b p (k + 1) then
      (k + 1) :: t.childrenAfter b p (k + 1) else t.childrenAfter b p (k + 1) := by
  rw [childrenAfter, show t.draftTokenNum - 1 - k = t.draftTokenNum - 1 - (k + 1) + 1 by omega,
    range'_succ, filter_cons]
  simp only [decide_eq_true_eq]
  rfl

end TreeInput

end SglangInc.Eagle
