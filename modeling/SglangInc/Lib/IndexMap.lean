import Mathlib.Data.Finset.Card

/-!
# Tables of Indices

A table from indices to indices in which zero stands for no entry, as kept in
an array that is written and read with whole lists of indices.

`Links` says that the entries of a table connect part of one set, one to one,
with all of another. Two sets that are linked this way can be freed through the
table: what is read for distinct indices is distinct, and after it is erased it
is not read again.

## Theorems

* `Links.nodup_entries`, `Links.mem_of_mem_entries`: What is read is distinct
  and in the range.
-/

namespace SglangInc.IndexMap

open List

/-- `table[indices] = values`. -/
def assign (table : Nat → Nat) (indices values : List Nat) : Nat → Nat :=
  fun i => ((indices.zip values).lookup i).getD (table i)

/-- `table[indices] = 0`. -/
def erase (table : Nat → Nat) (indices : List Nat) : Nat → Nat :=
  fun i => if i ∈ indices then 0 else table i

/-- The entries of a list of indices. -/
def entries (table : Nat → Nat) (indices : List Nat) : List Nat :=
  (indices.map table).filter (0 < ·)

variable {table : Nat → Nat} {indices values : List Nat} {i q : Nat}

theorem mem_entries : q ∈ entries table indices ↔ q ≠ 0 ∧ ∃ i ∈ indices, table i = q := by
  rw [entries, mem_filter, mem_map, decide_eq_true_eq, Nat.pos_iff_ne_zero, and_comm]

theorem assign_cons (i v j : Nat) : assign table (i :: indices) (v :: values) j =
    if j = i then v else assign table indices values j := by
  split_ifs with hj
  · rw [assign, zip_cons_cons, hj, lookup_cons_self, Option.getD_some]
  · rw [assign, assign, zip_cons_cons, lookup_cons, beq_false_of_ne hj]

/-- The entries link part of `dom`, one to one, with all of `rng`. -/
structure Links (table : Nat → Nat) (dom rng : Finset Nat) : Prop where
  mem_dom : ∀ i, table i ≠ 0 → i ∈ dom
  inj : ∀ i j, table i = table j → table i ≠ 0 → i = j
  mem_rng : ∀ q, q ∈ rng ↔ q ≠ 0 ∧ ∃ i, table i = q

namespace Links

variable {dom rng : Finset Nat}

theorem empty : Links (fun _ => 0) ∅ ∅ where
  mem_dom := fun _ h => absurd rfl h
  inj := fun _ _ _ h => absurd rfl h
  mem_rng := fun q => ⟨fun h => absurd h (Finset.notMem_empty q), fun ⟨hq, _, h⟩ =>
    absurd h.symm hq⟩

variable (h : Links table dom rng)
include h

theorem nodup_entries (hnodup : indices.Nodup) : (entries table indices).Nodup := by
  induction indices with
  | nil => exact nodup_nil
  | cons i indices ih =>
    rcases nodup_cons.mp hnodup with ⟨hi, hrest⟩
    rw [entries, map_cons, filter_cons]
    split_ifs with hpos
    · refine nodup_cons.mpr ⟨fun hmem => ?_, ih hrest⟩
      rcases mem_entries.mp hmem with ⟨hne, j, hj, heq⟩
      exact hi (h.inj i j heq.symm hne ▸ hj)
    · exact ih hrest

theorem mem_of_mem_entries (hq : q ∈ entries table indices) : q ∈ rng := by
  rcases mem_entries.mp hq with ⟨hne, i, _, heq⟩
  exact (h.mem_rng q).mpr ⟨hne, i, heq⟩

theorem erase (indices : List Nat) : Links (erase table indices) (dom \ indices.toFinset)
      (rng \ (entries table indices).toFinset) where
  mem_dom := fun i hi => by
    unfold IndexMap.erase at hi
    split_ifs at hi with hmem
    · exact absurd rfl hi
    · exact Finset.mem_sdiff.mpr ⟨h.mem_dom i hi, fun hc => hmem (mem_toFinset.mp hc)⟩
  inj := fun i j heq hi => by
    unfold IndexMap.erase at heq hi
    by_cases hmem : i ∈ indices
    · exact absurd (if_pos hmem) hi
    · rw [if_neg hmem] at heq hi
      split_ifs at heq
      · exact absurd heq hi
      · exact h.inj i j heq hi
  mem_rng := fun q => by
    rw [Finset.mem_sdiff, h.mem_rng, mem_toFinset, mem_entries]
    constructor
    · rintro ⟨⟨hq, i, rfl⟩, hnot⟩
      refine ⟨hq, i, if_neg fun hmem => hnot ⟨hq, i, hmem, rfl⟩⟩
    · rintro ⟨hq, i, heq⟩
      unfold IndexMap.erase at heq
      split_ifs at heq with hmem
      · exact absurd heq.symm hq
      · refine ⟨⟨hq, i, heq⟩, fun ⟨_, j, hj, heq'⟩ => hmem ?_⟩
        exact h.inj i j (heq.trans heq'.symm) (heq ▸ hq) ▸ hj

theorem mono {dom' : Finset Nat} (hsub : dom ⊆ dom') : Links table dom' rng :=
  ⟨fun i hi => hsub (h.mem_dom i hi), h.inj, h.mem_rng⟩

/-- One more entry. -/
theorem insert {v : Nat} (hi : i ∉ dom) (hv : v ∉ rng) (hne : v ≠ 0) :
    Links (fun j => if j = i then v else table j) (Insert.insert i dom) (Insert.insert v rng) where
  mem_dom := fun j hj => by
    split_ifs at hj with heq
    · exact heq ▸ Finset.mem_insert_self i dom
    · exact Finset.mem_insert_of_mem (h.mem_dom j hj)
  inj := fun j k heq hj => by
    split_ifs at heq hj with hji hki hki
    · exact hji.trans hki.symm
    · exact absurd ((h.mem_rng v).mpr ⟨hj, k, heq.symm⟩) hv
    · exact absurd ((h.mem_rng v).mpr ⟨heq ▸ hj, j, heq⟩) hv
    · exact h.inj j k heq hj
  mem_rng := fun q => by
    rw [Finset.mem_insert, h.mem_rng]
    constructor
    · rintro (rfl | ⟨hq, j, rfl⟩)
      · exact ⟨hne, i, if_pos rfl⟩
      · refine ⟨hq, j, if_neg ?_⟩
        rintro rfl
        exact hi (h.mem_dom j hq)
    · rintro ⟨hq, j, heq⟩
      split_ifs at heq with hji
      · exact .inl heq.symm
      · exact .inr ⟨hq, j, heq⟩

/-- New indices are linked to new values. -/
theorem assign (hlen : indices.length = values.length)
    (hindices : indices.Nodup) (hvalues : values.Nodup) (hdom : ∀ i ∈ indices, i ∉ dom)
    (hrng : ∀ v ∈ values, v ∉ rng ∧ v ≠ 0) :
    Links (assign table indices values) (dom ∪ indices.toFinset) (rng ∪ values.toFinset) := by
  induction indices generalizing values with
  | nil =>
    rw [eq_nil_of_length_eq_zero hlen.symm]
    simp only [toFinset_nil, Finset.union_empty]
    exact h
  | cons i indices ih =>
    cases values with
    | nil => exact absurd hlen (Nat.succ_ne_zero _)
    | cons v values =>
      rcases nodup_cons.mp hindices with ⟨hi, hindices⟩
      rcases nodup_cons.mp hvalues with ⟨hv, hvalues⟩
      have hrest := ih (Nat.succ.inj hlen) hindices hvalues
        (forall_mem_cons.mp hdom).2
        (forall_mem_cons.mp hrng).2
      have hinsert := hrest.insert (i := i) (v := v) (by
          rw [Finset.mem_union, mem_toFinset]
          exact not_or.mpr ⟨hdom i mem_cons_self, hi⟩)
        (by
          rw [Finset.mem_union, mem_toFinset]
          exact not_or.mpr ⟨(hrng v mem_cons_self).1, hv⟩)
        (hrng v mem_cons_self).2
      rwa [toFinset_cons, toFinset_cons, Finset.union_insert, Finset.union_insert,
        funext (assign_cons i v)]

/-- As many elements as entries. -/
theorem card_eq : rng.card = (dom.filter (table · ≠ 0)).card := by
  have himage : rng = (dom.filter (table · ≠ 0)).image table := by
    ext q
    rw [h.mem_rng, Finset.mem_image]
    constructor
    · rintro ⟨hq, i, rfl⟩
      exact ⟨i, Finset.mem_filter.mpr ⟨h.mem_dom i hq, hq⟩, rfl⟩
    · rintro ⟨i, hi, rfl⟩
      exact ⟨(Finset.mem_filter.mp hi).2, i, rfl⟩
  rw [himage, Finset.card_image_of_injOn]
  intro i hi j _ heq
  exact h.inj i j heq (Finset.mem_filter.mp hi).2

end Links

end SglangInc.IndexMap
