import Mathlib.Data.List.Forall2

/-!
# Parallel Columns

Columns that are read by position: row `i` of each belongs to the `i`-th key of
one list of keys.

A column is a list of rows. It is cut down with an index list, `column[indices]`
(`gather`), which fails on an index it does not have, and it grows by
concatenation. A column keeps matching its keys as long as both are cut with the
same indices and both are extended at the same moment with rows for the same
keys; that is all `gather_forall₂` and `List.rel_append` say. What a column may
hold for a key is a relation `R`, so a column in which some rows are defaults is
treated as one in which none is.

An index list usually comes from a test of the keys (`positions`), and cutting
the keys with it is filtering them.

## Theorems

* `gather_map`, `gather_forall₂`: Cutting keys and rows alike.
-/

namespace SglangInc.Columns

open List

variable {κ ρ : Type}

/-- `column[indices]`. -/
def gather (indices : List Nat) (column : List ρ) : Option (List ρ) :=
  indices.mapM (column[·]?)

/-- `[i for i, key in enumerate(keys) if test(key)]`. -/
def positions (test : κ → Bool) (keys : List κ) : List Nat :=
  (keys.zipIdx.filter (fun e => test e.1)).map Prod.snd

/-- Row `i` exists and is right for the `i`-th key. Rows past the last key do
    not matter. -/
def Aligned (R : κ → ρ → Prop) (keys : List κ) (column : List ρ) : Prop :=
  ∀ (i : Nat) (key : κ), keys[i]? = some key → ∃ row, column[i]? = some row ∧ R key row

@[simp] theorem gather_nil (column : List ρ) : gather [] column = some [] := rfl

variable {column out : List ρ} {indices : List Nat} {keys kept : List κ} {R : κ → ρ → Prop}

theorem gather_cons {i : Nat} : gather (i :: indices) column = some out ↔
      ∃ row rest, column[i]? = some row ∧ gather indices column = some rest ∧
        out = row :: rest := by
  unfold gather
  rw [mapM_cons]
  constructor
  · intro h
    rcases Option.bind_eq_some_iff.mp h with ⟨row, hrow, h⟩
    rcases Option.bind_eq_some_iff.mp h with ⟨rest, hrest, h⟩
    exact ⟨row, rest, hrow, hrest, (Option.some.inj h).symm⟩
  · rintro ⟨row, rest, hrow, hrest, rfl⟩
    rw [hrow, hrest]
    rfl

theorem length_gather (h : gather indices column = some out) : out.length = indices.length := by
  induction indices generalizing out with
  | nil =>
    cases h
    rfl
  | cons i indices ih =>
    rcases gather_cons.mp h with ⟨row, rest, -, hrest, rfl⟩
    rw [length_cons, length_cons, ih hrest]

/-- Whatever a column is cut to was in it. -/
theorem mem_of_gather (h : gather indices column = some out) {row : ρ} (hrow : row ∈ out) :
    row ∈ column := by
  induction indices generalizing out with
  | nil =>
    cases h
    cases hrow
  | cons i indices ih =>
    rcases gather_cons.mp h with ⟨head, rest, hhead, hrest, rfl⟩
    rcases mem_cons.mp hrow with rfl | htail
    · exact mem_of_getElem? hhead
    · exact ih hrest htail

theorem gather_map (f : κ → ρ) (h : gather indices keys = some kept) :
    gather indices (keys.map f) = some (kept.map f) := by
  induction indices generalizing kept with
  | nil =>
    cases h
    rfl
  | cons i indices ih =>
    rcases gather_cons.mp h with ⟨key, rest, hkey, hrest, rfl⟩
    refine gather_cons.mpr ⟨f key, rest.map f, ?_, ih hrest, rfl⟩
    rw [getElem?_map, hkey]
    rfl

/-- A column that matches its keys is aligned with them. -/
theorem aligned_of_forall₂ (h : List.Forall₂ R keys column) : Aligned R keys column := by
  intro i key hkey
  rcases List.getElem?_eq_some_iff.mp hkey with ⟨hi, hget⟩
  have hi' : i < column.length := h.length_eq ▸ hi
  have hrow : R key column[i] := hget ▸ h.get hi hi'
  exact ⟨column[i], getElem?_eq_getElem hi', hrow⟩

/-- Cut with the same indices, a column still matches its keys. -/
theorem gather_forall₂ (hR : List.Forall₂ R keys column) (h : gather indices keys = some kept) :
    ∃ out, gather indices column = some out ∧ List.Forall₂ R kept out := by
  induction indices generalizing kept with
  | nil =>
    cases h
    exact ⟨[], rfl, .nil⟩
  | cons i indices ih =>
    rcases gather_cons.mp h with ⟨key, rest, hkey, hrest, rfl⟩
    rcases ih hrest with ⟨out, hout, hRout⟩
    rcases aligned_of_forall₂ hR i key hkey with ⟨row, hrow, hRrow⟩
    exact ⟨row :: out, gather_cons.mpr ⟨_, _, hrow, hout, rfl⟩, .cons hRrow hRout⟩

/-- Cutting from the back takes a front part. -/
theorem gather_range {n : Nat}
    (h : gather (List.range n) column = some out) : out = column.take n := by
  induction n generalizing out with
  | zero =>
    cases h
    rfl
  | succ n ih =>
    unfold gather at h ih
    rw [range_succ, mapM_append] at h
    rcases Option.bind_eq_some_iff.mp h with ⟨front, hfront, h⟩
    rcases Option.bind_eq_some_iff.mp h with ⟨back, hback, h⟩
    rw [mapM_cons] at hback
    rcases Option.bind_eq_some_iff.mp hback with ⟨row, hrow, hback⟩
    cases h
    rw [← Option.some.inj hback, ih hfront, take_add_one, hrow]
    rfl

variable (test : κ → Bool)

/-- Cutting the keys by a test is filtering them. The induction is on the keys
    still to come, with those already passed in front. -/
theorem gather_zipIdx (keys : List κ) : ∀ front : List κ,
      gather (((keys.zipIdx front.length).filter (fun e => test e.1)).map Prod.snd)
        (front ++ keys) = some (keys.filter test) := by
  induction keys with
  | nil => intro front; rfl
  | cons key keys ih =>
    intro front
    have hrest := ih (front ++ [key])
    rw [length_append, length_singleton, append_assoc, singleton_append] at hrest
    rw [zipIdx_cons]
    by_cases hkey : test key = true
    · rw [filter_cons_of_pos (by exact hkey), filter_cons_of_pos (l := keys) hkey, map_cons]
      refine gather_cons.mpr ⟨key, _, ?_, hrest, rfl⟩
      rw [getElem?_append_right (Nat.le_refl _), Nat.sub_self]
      rfl
    · rwa [filter_cons_of_neg (by exact hkey), filter_cons_of_neg (l := keys) hkey]

/-- The positions that pass a test cut out what passes it. -/
theorem gather_positions (keys : List κ) :
    gather (positions test keys) keys = some (keys.filter test) :=
  gather_zipIdx test keys []

theorem length_positions (keys : List κ) :
    (positions test keys).length = (keys.filter test).length :=
  (length_gather (gather_positions test keys)).symm

/-- Without keys there is nothing to match. -/
theorem aligned_nil (column : List ρ) : Aligned R [] column := by
  intro i key hkey
  cases hkey

/-- So does a column of one default row, if the default is right for each key. -/
theorem forall₂_replicate {row : ρ}
    (h : ∀ key ∈ keys, R key row) : List.Forall₂ R keys (List.replicate keys.length row) := by
  induction keys with
  | nil => exact .nil
  | cons key keys ih =>
    exact .cons (h key mem_cons_self) (ih (forall_mem_cons.mp h).2)

/-- Of two tests, one weaker than the other, that keep equally many keys, both
    keep the same ones. -/
theorem filter_eq_of_length {strong weak : κ → Bool}
    (himp : ∀ key ∈ keys, strong key = true → weak key = true)
    (hlen : (keys.filter weak).length = (keys.filter strong).length) :
    keys.filter weak = keys.filter strong := by
  have hsub : (keys.filter strong).Sublist (keys.filter weak) := by
    have heq : keys.filter strong = (keys.filter weak).filter strong := by
      rw [filter_filter]
      refine filter_congr fun key hkey => ?_
      by_cases hs : strong key = true
      · rw [hs, himp key hkey hs, Bool.and_self]
      · rw [Bool.eq_false_iff.mpr hs, Bool.false_and]
    rw [heq]
    exact filter_sublist
  exact (hsub.eq_of_length hlen.symm).symm

end SglangInc.Columns
