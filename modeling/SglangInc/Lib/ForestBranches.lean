import SglangInc.Lib.ForestPath
import Mathlib.Data.List.Perm.Basic
import Mathlib.Data.List.Count

/-!
# The Nodes of a Forest with the Nodes above Them

`branches` lists every node together with the nodes above it. What depends on a
node's way from the top is then a fact about the members of a list, and an edit
of the forest is a change of that list up to order.

## Theorems

* `branches_set`, `branches_set_new`: Setting an entry.
-/

namespace SglangInc.Forest

open List

variable {κ ν : Type}

/-- The nodes of a forest that is below some nodes, each with all above it. -/
def branches : List ν → Forest κ ν → List (List ν × ν)
  | _, nil => []
  | above, cons _ node children rest =>
    (above, node) :: (branches (above ++ [node]) children ++ branches above rest)

variable {above pre : List ν} {f : Forest κ ν} {b : List ν × ν}

/-- The same forest further down. -/
theorem branches_append (pre above : List ν) (f : Forest κ ν) :
    branches (pre ++ above) f = (branches above f).map fun b => (pre ++ b.1, b.2) := by
  induction f generalizing above with
  | nil => rfl
  | cons key node children rest ihc ihr =>
    simp [branches, ihc, ihr]

theorem prefix_of_mem_branches (h : b ∈ branches above f) : above <+: b.1 := by
  rw [← List.append_nil above, branches_append] at h
  rcases mem_map.mp h with ⟨c, _, rfl⟩
  exact prefix_append _ _

theorem all_of_mem_branches {P : κ → ν → Forest κ ν → Prop} (hP : All P f)
    (h : b ∈ branches above f) : ∃ k t, P k b.2 t := by
  induction f generalizing above with
  | nil => cases h
  | cons key node children rest ihc ihr =>
    rcases mem_cons.mp h with rfl | h
    · exact ⟨_, _, hP.1⟩
    · rcases mem_append.mp h with h | h
      · exact ihc hP.2.1 h
      · exact ihr hP.2.2 h

theorem countP_branches (hit : ν → Bool) (above : List ν) (f : Forest κ ν) :
    ((branches above f).countP (fun b => hit b.2) : Int) = count hit f := by
  induction f generalizing above with
  | nil => rfl
  | cons key node children rest ihc ihr =>
    rw [count_cons, branches, countP_cons, countP_append, ← ihc (above ++ [node]), ← ihr above]
    split_ifs
    all_goals
      push_cast
      omega

/-- A test that one node passes finds one branch. -/
theorem eq_of_mem_branches (hit : ν → Bool) (hc : count hit f ≤ 1) {c : List ν × ν}
    (hb : b ∈ branches above f) (hhb : hit b.2 = true) (hc' : c ∈ branches above f)
    (hhc : hit c.2 = true) : b = c := by
  rw [← countP_branches hit above, countP_eq_length_filter] at hc
  have hb' : b ∈ (branches above f).filter fun b => hit b.2 := mem_filter.mpr ⟨hb, hhb⟩
  have hc'' : c ∈ (branches above f).filter fun b => hit b.2 := mem_filter.mpr ⟨hc', hhc⟩
  match hl : (branches above f).filter fun b => hit b.2 with
  | [] =>
    rw [hl] at hb'
    cases hb'
  | [_] =>
    rw [hl] at hb' hc''
    rw [mem_singleton.mp hb', mem_singleton.mp hc'']
  | _ :: _ :: _ =>
    rw [hl, length_cons, length_cons] at hc
    omega

section Edits

variable [DecidableEq κ] {k : κ}

/-- An entry of the dictionary, and what is below it. -/
theorem mem_branches_of_lookup (above : List ν) {x : ν} {t : Forest κ ν}
    (h : lookup k f = some (x, t)) :
    (above, x) ∈ branches above f ∧ ∀ b ∈ branches (above ++ [x]) t, b ∈ branches above f := by
  induction h using lookup_induction with
  | here rest => exact ⟨mem_cons_self, fun b hb => mem_cons_of_mem _ (mem_append_left _ hb)⟩
  | later hk _ ih =>
    rcases ih with ⟨hx, hbelow⟩
    exact ⟨mem_cons_of_mem _ (mem_append_right _ hx), fun b hb =>
      mem_cons_of_mem _ (mem_append_right _ (hbelow b hb))⟩

theorem branches_set (above : List ν) {y : ν} {u : Forest κ ν} (h : lookup k f = some (y, u))
    (x : ν) (t : Forest κ ν) :
    (branches above (set f k x t) ++ (above, y) :: branches (above ++ [y]) u).Perm
      (branches above f ++ (above, x) :: branches (above ++ [x]) t) := by
  classical
  rw [perm_iff_count]
  intro b
  induction h using lookup_induction with
  | here rest =>
    simp only [set, if_true, branches, count_append, List.count_cons]
    omega
  | later hk _ ih =>
    simp only [set, if_neg hk, branches, count_append, List.count_cons] at ih ⊢
    omega

theorem branches_set_new (h : lookup k f = none) (x : ν) (t : Forest κ ν) :
    (branches above (set f k x t)).Perm
      (branches above f ++ (above, x) :: branches (above ++ [x]) t) := by
  classical
  induction f with
  | nil =>
    simp only [set, branches, List.append_nil, nil_append]
    exact List.Perm.refl _
  | cons key node children rest _ ihr =>
    simp only [lookup] at h
    simp only [set]
    rw [perm_iff_count]
    intro b
    split_ifs at h ⊢ with hk
    have hrest := perm_iff_count.mp (ihr h) b
    simp only [branches, count_append, List.count_cons] at hrest ⊢
    omega

/-- What a change of the dictionary at the end of a path adds and takes away is
    added and taken away for the forest. -/
theorem Edit.branches (above : List ν) {R : Forest κ ν → Forest κ ν → Prop} {path : List ν}
    {f' : Forest κ ν} {gone new : List (List ν × ν)} (h : Edit R path f f')
    (hR : ∀ f f', R f f' → (branches (above ++ path) f' ++ gone).Perm
      (branches (above ++ path) f ++ new)) :
    (branches above f' ++ gone).Perm (branches above f ++ new) := by
  classical
  induction h generalizing above with
  | here hr =>
    have := hR _ _ hr
    rwa [List.append_nil] at this
  | @down path f k x t t' hl _ ih =>
    have hbelow := ih (above ++ [x]) fun f f' hr => by
      rw [append_assoc, singleton_append]
      exact hR f f' hr
    have hset := branches_set above hl x t'
    rw [perm_iff_count] at hbelow hset ⊢
    intro b
    have h1 := hbelow b
    have h2 := hset b
    simp only [count_append, List.count_cons] at h1 h2 ⊢
    omega

end Edits

/-- A leaf goes, with the nodes that are above it. -/
theorem Erases.branches (above : List ν) {found : List ν} {x : ν} (h : Erases x nil found f f') :
    (branches above f).Perm ((above ++ found, x) :: branches above f') := by
  induction h generalizing above with
  | here =>
    simp only [Forest.branches, nil_append, List.append_nil]
    exact List.Perm.refl _
  | @down _ node _ _ _ _ _ ih =>
    have hbelow := ih (above ++ [node])
    rw [append_assoc, singleton_append] at hbelow
    exact ((hbelow.append_right _).cons _).trans (List.Perm.swap _ _ _)
  | past _ ih =>
    refine (((ih above).append_left _).trans perm_middle).cons _ |>.trans ?_
    exact List.Perm.swap _ _ _

end SglangInc.Forest
