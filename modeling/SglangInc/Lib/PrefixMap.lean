import Mathlib.Data.List.Basic

/-!
# Maps of Page-Aligned Prefixes

The abstract content of a prefix cache: a partial map from the prefixes of
keys that are whole pages, in each namespace, to the values of their last
page.

A prefix is bound once and keeps its values (`bind`), and goes only when it is
unbound. A cache that holds such a map answers a key with the values along the
longest prefix that is bound. `Longest` is that length in pages, stated
without a search: of all the prefixes of the key, exactly those up to it are
bound. It determines the length, so an answer that is too long or too short
does not meet it. A key's values are the pages put together again
(`along_eq`).

## Theorems

* `prefix_append_iff`, `append_prefix_iff`: Prefixes around a cut.
-/

namespace SglangInc

open List

/-- In each namespace, the values of the last page of a prefix. -/
def PrefixMap (ε α ν : Type) := ε → List α → Option (List ν)

namespace PrefixMap

variable {ε α ν : Type}

/-- A prefix of a list that is cut in two ends before the cut or goes past it. -/
theorem prefix_append_iff {p u v : List α} :
    p <+: u ++ v ↔ p <+: u ∨ (u <+: p ∧ p.drop u.length <+: v) := by
  constructor
  · intro h
    rcases prefix_or_prefix_of_prefix h (prefix_append u v) with hp | ⟨q, rfl⟩
    · exact .inl hp
    · rw [prefix_append_right_inj] at h
      exact .inr ⟨prefix_append _ _, by rwa [drop_left]⟩
  · rintro (hp | ⟨⟨q, rfl⟩, hq⟩)
    · exact prefix_append_of_prefix hp
    · rw [drop_left] at hq
      exact (prefix_append_right_inj u).mpr hq

theorem append_prefix_iff {p u v : List α} : u ++ v <+: p ↔ u <+: p ∧ v <+: p.drop u.length := by
  constructor
  · rintro ⟨w, rfl⟩
    refine ⟨⟨v ++ w, (append_assoc u v w).symm⟩, ?_⟩
    rw [append_assoc, drop_left]
    exact prefix_append _ _
  · rintro ⟨⟨q, rfl⟩, hv⟩
    rw [drop_left] at hv
    exact (prefix_append_right_inj u).mpr hv

section Pages

variable (pageSize : Nat)

/-- One or more whole pages. -/
def Whole (p : List α) : Prop := p ≠ [] ∧ pageSize ∣ p.length

instance (p : List α) [DecidableEq α] : Decidable (Whole pageSize p) :=
  inferInstanceAs (Decidable (p ≠ [] ∧ pageSize ∣ p.length))

/-- The values of the last page of the prefix of length `l`. -/
def page (value : List ν) (l : Nat) : List ν := (value.take l).drop (l - pageSize)

variable {pageSize} {l : Nat}

theorem Whole.le {p : List α} (h : Whole pageSize p) : pageSize ≤ p.length :=
  Nat.le_of_dvd (length_pos_iff.mpr h.1) h.2

theorem whole_take {key : List α} {i : Nat} (hps : 0 < pageSize) (hi : 0 < i)
    (hle : i * pageSize ≤ key.length) : Whole pageSize (key.take (i * pageSize)) := by
  have hlen : (key.take (i * pageSize)).length = i * pageSize := length_take_of_le hle
  refine ⟨length_pos_iff.mp ?_, ?_⟩
  · rw [hlen]
    exact Nat.mul_pos hi hps
  · rw [hlen]
    exact Nat.dvd_mul_left _ _

/-- What goes past a list of whole pages goes at least a page past it. -/
theorem Whole.drop {p u : List α} (h : Whole pageSize p) (hu : pageSize ∣ u.length)
    (hlt : u.length < p.length) : Whole pageSize (p.drop u.length) := by
  refine ⟨length_pos_iff.mp ?_, ?_⟩
  · rw [List.length_drop]
    omega
  · rw [List.length_drop]
    exact Nat.dvd_sub h.2 hu

theorem page_take {value : List ν} {j : Nat} (h : l ≤ j) :
    page pageSize (value.take j) l = page pageSize value l := by
  rw [page, page, take_take, Nat.min_eq_left h]

theorem page_append_left {u v : List ν} (h : l ≤ u.length) :
    page pageSize (u ++ v) l = page pageSize u l := by
  rw [page, page, take_append_of_le_length h]

/-- A page past a cut is a page of what is behind it. -/
theorem page_append_right (u v : List ν) (h : u.length + pageSize ≤ l) :
    page pageSize (u ++ v) l = page pageSize v (l - u.length) := by
  have htake : (u ++ v).take l = u ++ v.take (l - u.length) := by
    rw [take_append, take_of_length_le (by omega)]
  have hdrop : l - pageSize = u.length + (l - u.length - pageSize) := by omega
  rw [page, page, htake, hdrop, ← drop_drop, drop_left]

/-- The pages of a list, put together again. -/
theorem flatMap_page (value : List ν) (n : Nat) :
    (List.range n).flatMap (fun i => page pageSize value ((i + 1) * pageSize)) =
      value.take (n * pageSize) := by
  induction n with
  | zero => simp
  | succ n ih =>
    have hcut : (n + 1) * pageSize - pageSize = n * pageSize := by
      rw [Nat.succ_mul, Nat.add_sub_cancel]
    have htake : value.take (n * pageSize) =
        (value.take (n * pageSize + pageSize)).take (n * pageSize) := by
      rw [take_take, Nat.min_eq_left (Nat.le_add_right _ _)]
    rw [range_succ, flatMap_append, ih, flatMap_singleton, page, hcut,
      Nat.succ_mul, htake, take_append_drop]

end Pages

section Maps

variable (pageSize : Nat)

/-- Nothing is bound. -/
def empty : PrefixMap ε α ν := fun _ _ => none

/-- Binds the prefixes of a key that are not bound yet. -/
def bind [DecidableEq ε] [DecidableEq α] (M : PrefixMap ε α ν) (e : ε) (key : List α)
    (value : List ν) : PrefixMap ε α ν :=
  fun e' p => (M e' p).or
    (if e' = e ∧ Whole pageSize p ∧ p <+: key then some (page pageSize value p.length) else none)

open Classical in
/-- Unbinds a set of prefixes. -/
noncomputable def unbind (M : PrefixMap ε α ν) (gone : ε → List α → Prop) : PrefixMap ε α ν :=
  fun e p => if gone e p then none else M e p

/-- Of the prefixes of the key, those of up to `n` pages are bound. -/
structure Longest (M : PrefixMap ε α ν) (e : ε) (key : List α) (n : Nat) : Prop where
  le : n * pageSize ≤ key.length
  bound_iff : ∀ i, 0 < i → i * pageSize ≤ key.length →
    ((M e (key.take (i * pageSize))).isSome ↔ i ≤ n)

/-- The values of the first `n` pages of the key. -/
def along (M : PrefixMap ε α ν) (e : ε) (key : List α) (n : Nat) : List ν :=
  (List.range n).flatMap (fun i => (M e (key.take ((i + 1) * pageSize))).getD [])

variable {pageSize}

/-- A prefix that is bound keeps its values. -/
theorem bind_eq [DecidableEq ε] [DecidableEq α] {M : PrefixMap ε α ν} {e e' : ε} {key p : List α}
    {value : List ν} (h : e' = e → p <+: key → (M e' p).isSome) :
    M.bind pageSize e key value e' p = M e' p := by
  unfold bind
  split_ifs with hc
  · exact Option.or_of_isSome (h hc.1 hc.2.2)
  · exact Option.or_none

/-- The values along the prefixes are the list they are pages of. -/
theorem along_eq {M : PrefixMap ε α ν} {e : ε} {key : List α} {n : Nat} {value : List ν}
    (h : ∀ i < n, M e (key.take ((i + 1) * pageSize)) =
      some (page pageSize value ((i + 1) * pageSize)))
    (hlen : value.length = n * pageSize) : along pageSize M e key n = value := by
  have hpages : along pageSize M e key n =
      (List.range n).flatMap (fun i => page pageSize value ((i + 1) * pageSize)) := by
    refine flatMap_congr fun i hi => ?_
    rw [h i (mem_range.mp hi), Option.getD_some]
  rw [hpages, flatMap_page, ← hlen, take_length]

end Maps

end PrefixMap

end SglangInc
