import SglangInc.Core.DataParallel
import Mathlib.Algebra.BigOperators.Group.Finset.Basic
import Mathlib.Algebra.Order.Ring.Nat

/-!
# Levelling the Load

A round of the loop takes the workers with the least load in turn, so that each of its
requests goes to a least loaded worker (`Loads.budget_levels`), and the loads after a
round are those that the loop goes on with (`Uneven.after_round`).
-/

namespace SglangInc.DataParallel.Loads

open List

variable (s : Loads)

/-- The load of a worker after some requests. -/
def after (dispatched : List Nat) (rank : Nat) : Nat := s.numReqs rank + dispatched.count rank

/-- Each rank has the least load when its turn comes. -/
def Greedy (queue : List Nat) : Prop := ∀ earlier rank later, queue = earlier ++ rank :: later →
  rank ∈ s.ranks ∧ ∀ other ∈ s.ranks, s.after earlier rank ≤ s.after earlier other

variable {s} {rank other : Nat} {p q earlier later : List Nat}

/-- A place in two lists is in the first or behind it. -/
theorem place_cases (h : p ++ q = earlier ++ rank :: later) :
    (∃ l, p = earlier ++ rank :: l) ∨ ∃ l, earlier = p ++ l ∧ q = l ++ rank :: later := by
  rcases append_eq_append_iff.mp h with ⟨l, hl, hq⟩ | ⟨_ | ⟨_, l⟩, hp, hl⟩
  · exact .inr ⟨l, hl, hq⟩
  · exact .inr ⟨[], by rw [hp, append_nil, append_nil], hl.symm⟩
  · cases hl
    exact .inl ⟨l, hp⟩

/-- Before its next turn a rank has had no more turns than another one. -/
theorem count_repeat_le {n : Nat} {ranks : List Nat} (hnodup : ranks.Nodup) (hrank : rank ∈ ranks)
    (hother : other ∈ ranks) (h : (List.replicate n ranks).flatten = earlier ++ rank :: later) :
    earlier.count rank ≤ earlier.count other := by
  induction n generalizing earlier with
  | zero => simp at h
  | succ n ih =>
    rcases place_cases h with ⟨l, rfl⟩ | ⟨l, rfl, hl⟩
    · rw [count_eq_zero.mpr fun hmem => (nodup_middle.mp hnodup).notMem (mem_append_left _ hmem)]
      exact Nat.zero_le _
    · rw [count_append, count_append, count_eq_one_of_mem hnodup hrank,
        count_eq_one_of_mem hnodup hother]
      exact Nat.add_le_add_left (ih hl) 1

theorem mem_minRanks : rank ∈ s.minRanks ↔ rank ∈ s.ranks ∧ s.numReqs rank = s.minLoad := by
  simp [minRanks]

/-- The requests of a round are in the loads after it. -/
theorem Uneven.after_round (h : s.Uneven) (hrank : rank ∈ s.ranks) :
    s.after (s.round ++ q) rank = s.raise.after q rank := by
  have hlt := h.spec.2.2.1
  rw [after, after, round, count_append, count_flatten, map_replicate, sum_replicate_nat, raise]
  dsimp only
  split_ifs with heq
  · rw [count_eq_one_of_mem (l := s.minRanks) (s.nodup.filter _) (mem_minRanks.mpr ⟨hrank, heq⟩)]
    omega
  · rw [count_eq_zero.mpr fun hmem => heq (mem_minRanks.mp hmem).2]
    omega

/-- A round goes to the ranks with the least load. -/
theorem Uneven.greedy_round (h : s.Uneven) : s.Greedy s.round := by
  intro earlier rank later hq
  have hmin : rank ∈ s.minRanks := by
    obtain ⟨l, hl, hmem⟩ := mem_flatten.mp (hq ▸ mem_append_right earlier mem_cons_self)
    rwa [← eq_of_mem_replicate hl]
  obtain ⟨hrank, heq⟩ := mem_minRanks.mp hmin
  refine ⟨hrank, fun other hother => ?_⟩
  obtain ⟨-, -, -, hothers⟩ := h.spec
  rcases hothers _ (mem_map_of_mem hother) with heq' | hle
  · rw [after, after, heq, heq']
    exact Nat.add_le_add_left (count_repeat_le (s.nodup.filter _) hmin
      (mem_minRanks.mpr ⟨hother, heq'⟩) hq) _
  · have hround : s.after (s.round ++ []) rank = _ := h.after_round hrank
    rw [List.append_nil, hq] at hround
    simp only [after, raise, count_append, count_nil, if_pos heq] at hround ⊢
    omega

/-- The loop is greedy, and levels all loads to the largest. -/
theorem levelLoop_spec (s : Loads) : s.Greedy s.levelLoop ∧ ∀ {n}, n ∈ s.values →
    (∀ x ∈ s.values, x ≤ n) → ∀ rank ∈ s.ranks, s.after s.levelLoop rank = n := by
  induction s using levelLoop.induct with
  | case1 s h ih =>
    -- One round, and the loop from the loads that it leaves.
    obtain ⟨hgreedy, hlevel⟩ := ih
    rw [levelLoop, dif_pos h]
    constructor
    · intro earlier rank later hq
      rcases place_cases hq with ⟨l, hl⟩ | ⟨l, rfl, hl⟩
      · exact h.greedy_round earlier rank l hl
      obtain ⟨hrank, hle⟩ := hgreedy l rank later hl
      refine ⟨hrank, fun other hother => ?_⟩
      rw [h.after_round hrank, h.after_round hother]
      exact hle other hother
    · intro n hmax hle rank hrank
      obtain ⟨-, hsecond, hlt, -⟩ := h.spec
      have hle' := hle _ hsecond
      rw [h.after_round hrank]
      refine hlevel ?_ (forall_mem_map.mpr fun rank hrank => ?_) rank hrank
      · obtain ⟨top, htop, rfl⟩ := mem_map.mp hmax
        exact mem_map.mpr ⟨top, htop, if_neg (by omega)⟩
      · rw [raise]
        dsimp only
        split_ifs
        exacts [hle', hle _ (mem_map_of_mem hrank)]
  | case2 s h =>
    rw [levelLoop, dif_neg h]
    refine ⟨fun _ _ _ hq => by simp at hq, fun hmax _ rank hrank => ?_⟩
    have heven : ∀ x ∈ s.values, x = s.values.headD 0 := fun x hx =>
      by_contra fun hne => h ⟨x, hx, hne⟩
    rw [after, count_nil, Nat.add_zero, heven _ hmax, heven _ (mem_map_of_mem hrank)]

theorem updateBudget_spec (s : Loads) : s.Greedy s.updateBudget ∧
    ∀ rank ∈ s.ranks, s.after s.updateBudget rank = s.maxLoad := by
  unfold updateBudget
  split_ifs with heq
  · exact ⟨fun _ _ _ hq => by simp at hq, forall_mem_map.mp heq⟩
  refine (levelLoop_spec s).imp_right fun hlevel rank hrank => ?_
  have hrank' : s.numReqs rank ∈ s.values := mem_map_of_mem hrank
  obtain ⟨m, hm⟩ := Option.isSome_iff_exists.mp (isSome_max?_of_mem hrank')
  obtain ⟨hmax, hle⟩ := max?_eq_some_iff.mp hm
  rw [maxLoad, hm]
  exact hlevel hmax hle rank hrank

/-- The calls get the ranks of the queue in order, and none when it is empty. -/
theorem dispatches_eq (n : Nat) (queue : List Nat) :
    dispatches n queue = (List.range n).map (queue[·]?) := by
  induction n generalizing queue with
  | zero => rfl
  | succ n ih =>
    rw [dispatches, ih, range_succ_eq_map, map_cons, map_map]
    cases queue with
    | nil => rfl
    | cons rank queue => rfl

/-- The queue levels the loads, one request at a time, and `dispatch` takes its
    ranks in order. -/
theorem budget_levels (s : Loads) :
    s.updateBudget.length = (s.ranks.map (s.maxLoad - s.numReqs ·)).sum ∧
    s.Greedy s.updateBudget ∧ (∀ rank ∈ s.ranks, s.after s.updateBudget rank = s.maxLoad) ∧
    ∀ n, dispatches n s.updateBudget = (List.range n).map (s.updateBudget[·]?) := by
  obtain ⟨hgreedy, hlevel⟩ := updateBudget_spec s
  refine ⟨?_, hgreedy, hlevel, fun n => dispatches_eq n _⟩
  have hcount := Multiset.sum_count_eq_card (s := s.ranks.toFinset) (m := s.updateBudget)
    fun rank hmem => by
      obtain ⟨p, l, hq⟩ := append_of_mem (Multiset.mem_coe.mp hmem)
      exact mem_toFinset.mpr (hgreedy p rank l hq).1
  rw [Multiset.coe_card, sum_toFinset _ s.nodup] at hcount
  rw [← hcount]
  refine congrArg sum (map_congr_left fun rank hrank => ?_)
  rw [Multiset.coe_count, ← hlevel rank hrank, after, Nat.add_sub_cancel_left]

end SglangInc.DataParallel.Loads
