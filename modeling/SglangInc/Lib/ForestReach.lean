import SglangInc.Lib.ForestPath

/-!
# Paths from the Top of a Forest

The nodes above a node, as a chain of dictionary look-ups.

`locate` finds a node by a test, and `Reach` says which nodes are passed on
the way down to it. With no key twice and one node that passes they are the
same. An edit changes the forest in one dictionary, so it is enough to say what
it does to the chains that start there (`Edit.reach`); above, a chain keeps the
nodes it passes.

## Theorems

* `reach_of_locate`, `locate_of_reach`: The two descriptions agree.
-/

namespace SglangInc.Forest

open List Option

variable {κ ν : Type} [DecidableEq κ]

/-- The nodes above `x`, from the top down. -/
inductive Reach : Forest κ ν → List ν → ν → Prop
  | here {f : Forest κ ν} {k : κ} {x : ν} {t : Forest κ ν} : lookup k f = some (x, t) → Reach f [] x
  | down {f s : Forest κ ν} {k : κ} {y x : ν} {above : List ν} : lookup k f = some (y, s) →
      Reach s above x → Reach f (y :: above) x

variable {hit : ν → Bool} {f f' : Forest κ ν} {above : List ν} {x : ν}

theorem has_of_reach (h : Reach f above x) : ∃ t, Has x t f := by
  induction h with
  | here hl => exact ⟨_, has_of_lookup hl⟩
  | down hl _ ih =>
    rcases ih with ⟨t, ht⟩
    exact ⟨t, has_trans (has_of_lookup hl) ht⟩

theorem one_le_count_of_reach (h : Reach f above x) (hx : hit x = true) : 1 ≤ count hit f := by
  rcases has_of_reach h with ⟨t, ht⟩
  exact one_le_count_of_has ht hx

theorem reach_of_locate (hd : f.Distinct) {t : Forest κ ν}
    (h : locate hit f = some (above, x, t)) : Reach f above x := by
  induction h using locate_induction with
  | here => exact .here (if_pos rfl)
  | down _ _ ih => exact .down (if_pos rfl) (ih hd.2.1)
  | past _ _ _ ih =>
    cases ih hd.2.2 with
    | here hc => exact .here (lookup_past hd.1 hc).2
    | down hc hr => exact .down (lookup_past hd.1 hc).2 hr

/-- The chain to the only node that passes is the one found. -/
theorem locate_of_reach (hit : ν → Bool) (h : Reach f above x) (hx : hit x = true)
    (hc : count hit f ≤ 1) :
    ∃ t, locate hit f = some (above, x, t) := by
  induction f generalizing above with
  | nil =>
    cases h with
    | here hl | down hl =>
      cases hl
  | cons key node children rest ihc ihr =>
    rw [count_cons] at hc
    have hc0 := count_nonneg hit children
    have hr0 := count_nonneg hit rest
    -- A node further on passes, so neither this one nor one below it does.
    have hlater : Reach rest above x →
        ∃ t, locate hit (cons key node children rest) = some (above, x, t) := by
      intro hr
      have hone := one_le_count_of_reach hr hx
      have hnode := not_hit_of_count hc (by omega)
      have hnone : locate hit children = none := locate_eq_none_of_count (by omega)
      rcases ihr hr (by omega) with ⟨t, ht⟩
      exact ⟨t, by simp only [locate, if_neg hnode, hnone, ht]⟩
    cases h with
    | @here _ k _ t hl =>
      simp only [lookup] at hl
      split_ifs at hl with hk
      · rcases hl with ⟨rfl, rfl⟩
        exact ⟨children, by simp [locate, if_pos hx]⟩
      · exact hlater (.here hl)
    | @down _ s k y _ above hl hr =>
      simp only [lookup] at hl
      split_ifs at hl with hk
      · cases hl
        have hone := one_le_count_of_reach hr hx
        have hnode := not_hit_of_count hc (by omega)
        rcases ihc hr (by omega) with ⟨t, ht⟩
        exact ⟨t, by simp [locate, if_neg hnode, ht]⟩
      · exact hlater (.down hl hr)

variable {R : Forest κ ν → Forest κ ν → Prop} {g : ν → ν} {path : List ν}

/-- Chains after an edit: what happens to those from the changed dictionary
    happens to all. -/
theorem Edit.reach {Q : List ν → ν → List ν → ν → Prop} (h : Edit R path f f')
    (hrefl : ∀ a z, Q a z a z) (hcons : ∀ y a z a' z', Q a z a' z' → Q (y :: a) z (y :: a') z')
    (hR : ∀ g g', R g g' → ∀ a, Reach g a x → ∃ a' x', Reach g' a' x' ∧ Q a x a' x')
    (hx : Reach f above x) : ∃ above' x', Reach f' above' x' ∧ Q above x above' x' := by
  induction h generalizing above with
  | here hr => exact hR _ _ hr _ hx
  | @down path f k y s s' hl _ ih =>
    have hself := lookup_set_self k y s' f
    cases hx with
    | @here _ k' _ t hl' =>
      by_cases hk : k' = k
      · subst hk
        cases hl.symm.trans hl'
        exact ⟨_, _, .here hself, hrefl _ _⟩
      · exact ⟨_, _, .here ((lookup_set_of_ne hk y s' f).trans hl'), hrefl _ _⟩
    | @down _ s0 k' y0 _ above hl' hr =>
      by_cases hk : k' = k
      · subst hk
        cases hl.symm.trans hl'
        rcases ih hr with ⟨above', x', hr', hq⟩
        exact ⟨_, _, .down hself hr', hcons _ _ _ _ _ hq⟩
      · exact ⟨_, _, .down ((lookup_set_of_ne hk y s' f).trans hl') hr, hrefl _ _⟩

/-- A node of the changed dictionary is reached through the nodes above it. -/
theorem Edit.reach_end (h : Edit R path f f')
    (hR : ∀ g g', R g g' → ∃ k t, lookup k g' = some (x, t)) : Reach f' path x := by
  induction h with
  | here hr =>
    rcases hR _ _ hr with ⟨k, t, hl⟩
    exact .here hl
  | down hl _ ih => exact .down (lookup_set_self _ _ _ _) ih

omit [DecidableEq κ] in
/-- The path that has been changed. -/
theorem locate_alterPath_self (hhit : ∀ y, hit (g y) = hit y) (f : Forest κ ν) :
    locate hit (alterPath hit g f) =
      (locate hit f).map fun r => (r.1.map g, g r.2.1, r.2.2) := by
  induction f with
  | nil => rfl
  | cons key node children rest ihc ihr =>
    simp only [alterPath, locate]
    by_cases hx : hit node = true
    · simp [hx, locate, hhit]
    cases hl : locate hit children with
    | none =>
      simp [hx, locate, hl, ihr]
    | some r =>
      simp [hx, locate, hhit, ihc, hl]

omit [DecidableEq κ] in
/-- A change that is taken back. -/
theorem alterPath_inverse {g' : ν → ν} (hhit : ∀ y, hit (g y) = hit y) (hg : ∀ y, g' (g y) = y)
    (f : Forest κ ν) : alterPath hit g' (alterPath hit g f) = f := by
  induction f with
  | nil => rfl
  | cons key node children rest ihc ihr =>
    by_cases hx : hit node = true
    · simp [hx, alterPath, hhit, hg]
    cases hl : locate hit children with
    | none =>
      simp [hx, alterPath, hl, ihr]
    | some r =>
      simp [hx, alterPath, hhit, locate_alterPath_self hhit, hl, ihc, hg]

end SglangInc.Forest
