import SglangInc.Lib.Forest

/-!
# Nodes of a Forest

A forest is also walked from a node that is held by reference, up to the
root. The node is given by a test it passes, and what a loop over its
ancestors sees is the list of nodes above it, from the top of the forest down.

`locate` finds the node, its ancestors and the forest below it. `alterPath` is
the forest after the node and its ancestors have been changed, and `eraseNode`
the forest without the node. All three look for the node in the same order,
so that they agree on which one it is even before it is known to be the only
one.

## Theorems

* `sum_alterPath`, `Erases.sum_eq`: Sums after a change.
-/

namespace SglangInc.Forest

open List Option

variable {κ ν : Type}

section Search

variable (hit : ν → Bool)

/-- The nodes above the first node that passes, top down, the node, and the
    forest below it. -/
def locate : Forest κ ν → Option (List ν × ν × Forest κ ν)
  | nil => none
  | cons _ node children rest =>
    if hit node then some ([], node, children)
    else match locate children with
      | some (above, x, t) => some (node :: above, x, t)
      | none => locate rest

/-- The forest with the node and its ancestors changed. -/
def alterPath (g : ν → ν) : Forest κ ν → Forest κ ν
  | nil => nil
  | cons key node children rest =>
    if hit node then cons key (g node) children rest
    else if (locate hit children).isSome then cons key (g node) (alterPath g children) rest
    else cons key node children (alterPath g rest)

/-- The forest without the node. -/
def eraseNode : Forest κ ν → Forest κ ν
  | nil => nil
  | cons key node children rest =>
    if hit node then rest
    else if (locate hit children).isSome then cons key node (eraseNode children) rest
    else cons key node children (eraseNode rest)

/-- How many nodes pass. -/
def count : Forest κ ν → Int :=
  sum (fun x => if hit x then 1 else 0)

end Search

/-- The node occurs, with this forest below it. -/
def Has (x : ν) (t : Forest κ ν) : Forest κ ν → Prop
  | nil => False
  | cons _ node children rest => (node = x ∧ children = t) ∨ Has x t children ∨ Has x t rest

/-- A node goes with what is below it, and the nodes above it are given. -/
inductive Erases (x : ν) (t : Forest κ ν) : List ν → Forest κ ν → Forest κ ν → Prop
  | here {key : κ} {rest : Forest κ ν} : Erases x t [] (cons key x t rest) rest
  | down {key : κ} {node : ν} {above : List ν} {children children' rest : Forest κ ν} :
      Erases x t above children children' →
      Erases x t (node :: above) (cons key node children rest) (cons key node children' rest)
  | past {key : κ} {node : ν} {above : List ν} {children rest rest' : Forest κ ν} :
      Erases x t above rest rest' →
      Erases x t above (cons key node children rest) (cons key node children rest')

section Location

variable {hit : ν → Bool} {f t u : Forest κ ν} {x node y : ν} {above : List ν}

theorem count_nonneg (hit : ν → Bool) (f : Forest κ ν) : 0 ≤ count hit f :=
  sum_nonneg (fun x => by split_ifs <;> omega) f

theorem count_cons (hit : ν → Bool) (key : κ) (node : ν) (children rest : Forest κ ν) :
    count hit (cons key node children rest) =
      (if hit node then 1 else 0) + count hit children + count hit rest := rfl

/-- One case for each way the search goes. -/
theorem locate_induction {motive : ∀ f above, locate hit f = some (above, x, t) → Prop}
    (here : ∀ {key rest} (hx : hit x = true), motive (cons key x t rest) [] (by simp [locate, hx]))
    (down : ∀ {key node children rest above} (hn : hit node = false)
      (hl : locate hit children = some (above, x, t)), motive children above hl →
      motive (cons key node children rest) (node :: above) (by simp [locate, hn, hl]))
    (past : ∀ {key node children rest above} (hn : hit node = false)
      (hnone : locate hit children = none) (hl : locate hit rest = some (above, x, t)),
      motive rest above hl →
      motive (cons key node children rest) above (by simp [locate, hn, hnone, hl]))
    (h : locate hit f = some (above, x, t)) : motive f above h := by
  induction f generalizing above with
  | nil => cases h
  | cons key node children rest ihc ihr =>
    cases hn : hit node with
    | true =>
      cases (if_pos hn).symm.trans h
      exact here hn
    | false =>
      have hl := (if_neg (Bool.eq_false_iff.mp hn)).symm.trans h
      cases hc : locate hit children with
      | none =>
        rw [hc] at hl
        exact past hn hc hl (ihr hl)
      | some found =>
        rw [hc] at hl
        cases hl
        exact down hn hc (ihc hc)

/-- What passes in a subtree passes in the forest. -/
theorem count_subtree_le (hit : ν → Bool) (h : Has x t f) :
    (if hit x then 1 else 0) + count hit t ≤ count hit f := by
  induction f with
  | nil => exact h.elim
  | cons key node children rest ihc ihr =>
    rw [count_cons]
    have hc := count_nonneg hit children
    have hr := count_nonneg hit rest
    rcases h with ⟨rfl, rfl⟩ | h | h
    · omega
    · have := ihc h
      split_ifs at this ⊢ <;> omega
    · have := ihr h
      split_ifs at this ⊢ <;> omega

theorem one_le_count_of_has (h : Has x t f) (hx : hit x = true) : 1 ≤ count hit f := by
  have hle := count_subtree_le hit h
  have ht := count_nonneg hit t
  rw [if_pos hx] at hle
  omega

/-- The node found is in the forest and passes. -/
theorem has_of_locate (h : locate hit f = some (above, x, t)) : Has x t f ∧ hit x = true := by
  induction h using locate_induction with
  | here hx => exact ⟨.inl ⟨rfl, rfl⟩, hx⟩
  | down _ _ ih => exact ⟨.inr (.inl ih.1), ih.2⟩
  | past _ _ _ ih => exact ⟨.inr (.inr ih.1), ih.2⟩

theorem locate_eq_none_of_count (h : count hit f ≤ 0) : locate hit f = none := by
  cases hl : locate hit f with
  | none => rfl
  | some found =>
    obtain ⟨above, x, t⟩ := found
    rcases has_of_locate hl with ⟨hh, hx⟩
    have := one_le_count_of_has hh hx
    omega

theorem count_le_zero_of_locate (h : locate hit f = none) : count hit f ≤ 0 := by
  induction f with
  | nil => exact Int.le_refl _
  | cons key node children rest ihc ihr =>
    simp only [locate] at h
    split_ifs at h with hx
    cases hl : locate hit children with
    | some found =>
      rw [hl] at h
      cases h
    | none =>
      rw [hl] at h
      rw [count_cons, if_neg hx]
      have := ihc hl
      have := ihr h
      omega

/-- If a node further on passes, and only one does, the first one does not. -/
theorem not_hit_of_count {c r : Int} (hc : (if hit node then 1 else 0) + c + r ≤ 1)
    (h : 1 ≤ c + r) : ¬hit node = true := by
  intro hn
  rw [if_pos hn] at hc
  omega

/-- The only node that passes is the one found. -/
theorem locate_of_has (hit : ν → Bool) (h : Has x t f) (hx : hit x = true) (hc : count hit f ≤ 1) :
    ∃ above, locate hit f = some (above, x, t) := by
  induction f with
  | nil => exact h.elim
  | cons key node children rest ihc ihr =>
    rw [count_cons] at hc
    have hc0 := count_nonneg hit children
    have hr0 := count_nonneg hit rest
    rcases h with ⟨rfl, rfl⟩ | h | h
    · exact ⟨[], by simp [locate, if_pos hx]⟩
    · have hone := one_le_count_of_has h hx
      have hnode := not_hit_of_count hc (by omega)
      rcases ihc h (by omega) with ⟨above, hl⟩
      exact ⟨node :: above, by simp [locate, if_neg hnode, hl]⟩
    · have hone := one_le_count_of_has h hx
      have hnode := not_hit_of_count hc (by omega)
      rcases ihr h (by omega) with ⟨above, hl⟩
      have hnone : locate hit children = none := locate_eq_none_of_count (by omega)
      exact ⟨above, by simp only [locate, if_neg hnode, hnone, hl]⟩

/-- Two occurrences of nodes that pass are one. -/
theorem has_unique (hit : ν → Bool) (hx : Has x t f) (hy : Has y u f) (hhx : hit x = true)
    (hhy : hit y = true) (hc : count hit f ≤ 1) : x = y ∧ t = u := by
  rcases locate_of_has hit hx hhx hc with ⟨_, h1⟩
  rcases locate_of_has hit hy hhy hc with ⟨_, h2⟩
  cases h1.symm.trans h2
  exact ⟨rfl, rfl⟩

theorem has_of_lookup [DecidableEq κ] {k : κ} (h : lookup k f = some (x, t)) : Has x t f := by
  induction h using lookup_induction with
  | here rest => exact .inl ⟨rfl, rfl⟩
  | later hk _ ih => exact .inr (.inr ih)

theorem has_trans (hx : Has x t f) (hy : Has y u t) : Has y u f := by
  induction f with
  | nil => exact hx.elim
  | cons key node children rest ihc ihr =>
    rcases hx with ⟨_, rfl⟩ | hx | hx
    · exact .inr (.inl hy)
    · exact .inr (.inl (ihc hx))
    · exact .inr (.inr (ihr hx))

theorem all_of_has {Q : ν → Forest κ ν → Prop} (h : ∀ x t, Has x t f → Q x t) :
    All (fun _ x t => Q x t) f := by
  induction f with
  | nil => exact trivial
  | cons key node children rest ihc ihr =>
    exact ⟨h _ _ (.inl ⟨rfl, rfl⟩), ihc fun x t ht => h x t (.inr (.inl ht)),
      ihr fun x t ht => h x t (.inr (.inr ht))⟩

theorem locate_isSome_iff (hit : ν → Bool) (f : Forest κ ν) :
    (locate hit f).isSome ↔ 0 < count hit f := by
  constructor
  · intro h
    obtain ⟨⟨above, x, t⟩, hl⟩ := isSome_iff_exists.mp h
    exact one_le_count_of_has (has_of_locate hl).1 (has_of_locate hl).2
  · intro h
    refine isSome_iff_ne_none.mpr fun hnone => ?_
    exact absurd h (Int.not_lt.mpr (count_le_zero_of_locate hnone))

theorem has_of_all {P : κ → ν → Forest κ ν → Prop} (hP : All P f) (h : Has x t f) :
    ∃ k, P k x t := by
  induction f with
  | nil => exact h.elim
  | cons key node children rest ihc ihr =>
    rcases h with ⟨rfl, rfl⟩ | h | h
    · exact ⟨key, hP.1⟩
    · exact ihc hP.2.1 h
    · exact ihr hP.2.2 h

end Location

section Changes

variable {hit : ν → Bool} {f : Forest κ ν} {above : List ν} {x : ν} {t : Forest κ ν} {g : ν → ν}

/-- A sum moves by what the nodes of the path move. -/
theorem sum_alterPath (h : locate hit f = some (above, x, t)) (g : ν → ν) (w : ν → Int) :
    sum w (alterPath hit g f) = sum w f + ((above ++ [x]).map (fun y => w (g y) - w y)).sum := by
  induction h using locate_induction with
  | here hx =>
    simp only [alterPath, hx, if_true, sum, nil_append, map_cons, map_nil, sum_cons, sum_nil]
    omega
  | down hn hl ih =>
    simp only [alterPath, hn, hl, isSome_some, if_true, sum, ih, cons_append,
      map_cons, sum_cons, Bool.false_eq_true, if_false]
    omega
  | past hn hnone _ ih =>
    simp only [alterPath, hn, hnone, isSome_none, sum, ih, Bool.false_eq_true, if_false]
    omega

/-- A change that a quantity does not see leaves its sum. -/
theorem sum_alterPath_eq (hit : ν → Bool) {w : ν → Int} (hw : ∀ y, w (g y) = w y) (f : Forest κ ν) :
    sum w (alterPath hit g f) = sum w f := by
  induction f with
  | nil => rfl
  | cons key node children rest ihc ihr =>
    simp only [alterPath]
    split_ifs
    · simp [sum, hw]
    · simp [sum, hw, ihc]
    · simp [sum, ihr]

theorem keys_alterPath (hit : ν → Bool) (g : ν → ν) (f : Forest κ ν) :
    keys (alterPath hit g f) = keys f := by
  induction f with
  | nil => rfl
  | cons key node children rest _ ihr =>
    simp only [alterPath]
    split_ifs
    · rfl
    · rfl
    · simp [keys, ihr]

theorem distinct_alterPath (hit : ν → Bool) (g : ν → ν) (hd : f.Distinct) :
    (alterPath hit g f).Distinct := by
  induction f with
  | nil => exact trivial
  | cons key node children rest ihc ihr =>
    simp only [alterPath]
    split_ifs
    · exact hd
    · exact ⟨hd.1, ihc hd.2.1, hd.2.2⟩
    · exact ⟨by rw [keys_alterPath]; exact hd.1, hd.2.1, ihr hd.2.2⟩

theorem alterPath_of_count (h : count hit f ≤ 0) : alterPath hit g f = f := by
  induction f with
  | nil => rfl
  | cons key node children rest ihc ihr =>
    rw [count_cons] at h
    have hc := count_nonneg hit children
    have hr := count_nonneg hit rest
    simp only [alterPath, locate_isSome_iff]
    split_ifs at h ⊢
    · omega
    · omega
    · rw [ihr (by omega)]

/-- With one node that passes, a node is changed if it is in its subtree. -/
theorem alterPath_cons {key : κ} {node : ν} {children rest : Forest κ ν} (g : ν → ν)
    (h : count hit (cons key node children rest) ≤ 1) :
    alterPath hit g (cons key node children rest) =
      cons key (if (if hit node then 1 else 0) + count hit children = 0 then node else g node)
        (alterPath hit g children) (alterPath hit g rest) := by
  rw [count_cons] at h
  have hc := count_nonneg hit children
  have hr := count_nonneg hit rest
  simp only [alterPath, locate_isSome_iff]
  split_ifs at h ⊢
  any_goals omega
  · rw [alterPath_of_count (by omega), alterPath_of_count (by omega)]
  · rw [alterPath_of_count (by omega : count hit rest ≤ 0)]
  · rw [alterPath_of_count (by omega : count hit children ≤ 0)]

variable {P : κ → ν → Forest κ ν → Prop}

theorem all_alterPath (hit : ν → Bool) (hg : ∀ k y s s', P k y s → P k (g y) s') (hP : All P f) :
    All P (alterPath hit g f) := by
  induction f with
  | nil => exact trivial
  | cons key node children rest ihc ihr =>
    simp only [alterPath]
    split_ifs
    · exact ⟨hg _ _ _ _ hP.1, hP.2.1, hP.2.2⟩
    · exact ⟨hg _ _ _ _ hP.1, ihc hP.2.1, hP.2.2⟩
    · exact ⟨hP.1, hP.2.1, ihr hP.2.2⟩

theorem keys_eraseNode_subset (hit : ν → Bool) (f : Forest κ ν) :
    ∀ k ∈ keys (eraseNode hit f), k ∈ keys f := by
  induction f with
  | nil => exact fun _ h => h
  | cons key node children rest _ ihr =>
    simp only [eraseNode]
    split_ifs
    · exact fun _ h => mem_cons_of_mem _ h
    · exact fun _ h => h
    · intro k hk
      rcases mem_cons.mp hk with rfl | hk
      · exact mem_cons_self
      · exact mem_cons_of_mem _ (ihr k hk)

theorem distinct_eraseNode (hit : ν → Bool) (hd : f.Distinct) : (eraseNode hit f).Distinct := by
  induction f with
  | nil => exact trivial
  | cons key node children rest ihc ihr =>
    simp only [eraseNode]
    split_ifs
    · exact hd.2.2
    · exact ⟨hd.1, ihc hd.2.1, hd.2.2⟩
    · exact ⟨fun hk => hd.1 (keys_eraseNode_subset hit rest _ hk), hd.2.1, ihr hd.2.2⟩

theorem all_eraseNode (hit : ν → Bool) (hP : All P f)
    (hup : ∀ k y s, P k y s → P k y (eraseNode hit s)) : All P (eraseNode hit f) := by
  induction f with
  | nil => exact trivial
  | cons key node children rest ihc ihr =>
    simp only [eraseNode]
    split_ifs
    · exact hP.2.2
    · exact ⟨hup _ _ _ hP.1, ihc hP.2.1, hP.2.2⟩
    · exact ⟨hP.1, hP.2.1, ihr hP.2.2⟩

/-- The node right above the node found has it among its children. -/
theorem has_parent {p : ν} (h : locate hit f = some (above ++ [p], x, t)) :
    ∃ s, Has p s f ∧ s ≠ nil := by
  generalize hpath : above ++ [p] = path at h
  induction h using locate_induction generalizing above with
  | here => exact absurd hpath (append_ne_nil_of_right_ne_nil _ (cons_ne_nil _ _))
  | @down _ node children _ path _ hl ih =>
    cases above with
    | nil =>
      rw [nil_append, List.cons.injEq] at hpath
      rw [hpath.1]
      refine ⟨children, .inl ⟨rfl, rfl⟩, ?_⟩
      rintro rfl
      cases hl
    | cons a above =>
      rw [cons_append, List.cons.injEq] at hpath
      rcases ih hpath.2 with ⟨s, hs, hne⟩
      exact ⟨s, .inr (.inl hs), hne⟩
  | past _ _ _ ih =>
    rcases ih hpath with ⟨s, hs, hne⟩
    exact ⟨s, .inr (.inr hs), hne⟩

/-- Each node of the path occurs, and is the node found or has it below. -/
theorem has_of_mem_path (h : locate hit f = some (above, x, t)) :
    ∀ y ∈ above ++ [x], ∃ s, Has y s f ∧ (hit y = true ∨ 0 < count hit s) := by
  intro y hy
  induction h using locate_induction with
  | here hx =>
    rw [nil_append, mem_singleton] at hy
    exact ⟨t, .inl ⟨hy.symm, rfl⟩, .inl (hy ▸ hx)⟩
  | down _ hl ih =>
    rcases mem_cons.mp hy with rfl | hy
    · rcases has_of_locate hl with ⟨hhas, hx⟩
      exact ⟨_, .inl ⟨rfl, rfl⟩, .inr (one_le_count_of_has hhas hx)⟩
    · rcases ih hy with ⟨s, hs, hor⟩
      exact ⟨s, .inr (.inl hs), hor⟩
  | past _ _ _ ih =>
    rcases ih hy with ⟨s, hs, hor⟩
    exact ⟨s, .inr (.inr hs), hor⟩

section Erasure

variable {f' : Forest κ ν}

theorem erases_of_locate (h : locate hit f = some (above, x, t)) :
    Erases x t above f (eraseNode hit f) := by
  induction h using locate_induction with
  | here hx =>
    simp only [eraseNode, hx, if_true]
    exact .here
  | down hn hl ih =>
    simp only [eraseNode, hn, hl, isSome_some, if_true, Bool.false_eq_true, if_false]
    exact .down ih
  | past hn hnone _ ih =>
    simp only [eraseNode, hn, hnone, isSome_none, Bool.false_eq_true, if_false]
    exact .past ih

theorem Erases.sum_eq (h : Erases x t above f f') (w : ν → Int) :
    sum w f' = sum w f - (w x + sum w t) := by
  induction h with
  | here =>
    simp only [sum]
    omega
  | down _ ih | past _ ih =>
    simp only [sum, ih]
    omega

variable (h : Erases x nil above f f')

include h

/-- Leaves other than an erased leaf stay. -/
theorem Erases.has {y : ν} (hy : Has y nil f) (hne : y ≠ x) :
    Has y nil f' := by
  induction h with
  | here =>
    rcases hy with ⟨rfl, _⟩ | hy | hy
    · exact absurd rfl hne
    · exact hy.elim
    · exact hy
  | down he ih =>
    rcases hy with ⟨rfl, rfl⟩ | hy | hy
    · cases he
    · exact .inr (.inl (ih hy))
    · exact .inr (.inr hy)
  | past _ ih => exact hy.imp_right (Or.imp_right ih)

/-- Leaves after an erasure were leaves before, but for the node right above the
    erased one. -/
theorem Erases.leaf {y : ν} (hy : Has y nil f') :
    Has y nil f ∨ above.getLast? = some y := by
  induction h with
  | here => exact .inl (.inr (.inr hy))
  | down he ih =>
    rcases hy with ⟨rfl, rfl⟩ | hy | hy
    · -- The erased node was the only child.
      cases he
      exact .inr rfl
    · rcases ih hy with hold | hlast
      · exact .inl (.inr (.inl hold))
      · rw [getLast?_cons, hlast]
        exact .inr rfl
    · exact .inl (.inr (.inr hy))
  | past _ ih =>
    rcases hy with hy | hy | hy
    · exact .inl (.inl hy)
    · exact .inl (.inr (.inl hy))
    · exact (ih hy).imp_left fun hold => .inr (.inr hold)

/-- A node other than the erased one is found below the same nodes as before. -/
theorem Erases.locate_eq (hx : hit x = false) :
    (locate hit f').map (fun r => (r.1, r.2.1)) = (locate hit f).map fun r => (r.1, r.2.1) := by
  induction h with
  | here => simp [locate, hx]
  | @down _ node _ children children' _ _ ih =>
    simp only [locate]
    split_ifs
    · rfl
    cases hl : locate hit children with
    | none =>
      rw [hl, map_none, map_eq_none_iff] at ih
      rw [ih]
    | some found =>
      rw [hl] at ih
      rcases map_eq_some_iff.mp ih with ⟨found', hl', heq⟩
      rw [Prod.mk.injEq] at heq
      simp [hl', heq]
  | @past _ node _ children _ _ _ ih =>
    simp only [locate]
    split_ifs
    · rfl
    · cases locate hit children with
      | none => exact ih
      | some => rfl

omit h

/-- Where no dictionary has a key twice, the node is erased by an edit of the
    dictionary it is in. -/
theorem Erases.edit [DecidableEq κ] (h : Erases x t above f f') (hd : f.Distinct) :
    Edit (fun g g' => ∃ k, lookup k g = some (x, t) ∧ g' = erase k g) above f f' := by
  induction h with
  | @here key _ => exact .here ⟨key, by simp [lookup], by simp [erase]⟩
  | @down key node _ children _ rest _ ih =>
    have hself : lookup key (cons key node children rest) = some (node, children) := by
      simp [lookup]
    simpa only [set, if_true] using Edit.down hself (ih hd.2.1)
  | @past key node _ children rest _ _ ih =>
    cases ih hd.2.2 with
    | here he =>
      rcases he with ⟨k, hk, rfl⟩
      rcases lookup_past hd.1 hk with ⟨hne, hk'⟩
      exact .here ⟨k, hk', by simp [erase, if_neg hne]⟩
    | down hk he =>
      rcases lookup_past hd.1 hk with ⟨hne, hk'⟩
      simpa only [set, if_neg hne] using Edit.down hk' he

end Erasure

end Changes

end SglangInc.Forest
