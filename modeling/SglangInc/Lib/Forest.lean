import Mathlib.Algebra.Order.Ring.Int
import Mathlib.Data.List.Basic

/-!
# Forests of Dictionaries

Trees whose nodes keep their children in a dictionary, as the ordered list of
entries an insertion-ordered dictionary is.

An algorithm on such a tree goes down by `lookup` and changes the dictionary
it ends at. `Edit` is that shape: a change of one dictionary, and the path of
nodes above it. Everything said of a tree is then said of the change alone.
A quantity summed over the nodes (`sum`) moves by what the change moves, and
a property of the nodes (`All`) has to be checked where the change is and
along the path above it.

## Theorems

* `lookup_set_self`, `lookup_set_of_ne`: Reading after writing.
* `sum_set`, `sum_set_new`, `sum_erase`: Sums after a dictionary operation.
-/

namespace SglangInc

open List

/-- The entries of a dictionary, in order: a key, a node, and the forest of
    the node's own dictionary. -/
inductive Forest (κ ν : Type) where
  | nil
  | cons (key : κ) (node : ν) (children : Forest κ ν) (rest : Forest κ ν)
deriving DecidableEq, Repr

namespace Forest

variable {κ ν : Type} {f : Forest κ ν}

/-- The keys of the dictionary at the top. -/
def keys : Forest κ ν → List κ
  | nil => []
  | cons key _ _ rest => key :: keys rest

/-- A quantity, summed over all nodes. -/
def sum (g : ν → Int) : Forest κ ν → Int
  | nil => 0
  | cons _ node children rest => g node + sum g children + sum g rest

/-- Every entry, at any depth, has the property. -/
def All (P : κ → ν → Forest κ ν → Prop) : Forest κ ν → Prop
  | nil => True
  | cons key node children rest => P key node children ∧ All P children ∧ All P rest

/-- No dictionary has a key twice. -/
def Distinct : Forest κ ν → Prop
  | nil => True
  | cons key _ children rest => key ∉ keys rest ∧ Distinct children ∧ Distinct rest

theorem sum_add (g h : ν → Int) (f : Forest κ ν) :
    sum (fun x => g x + h x) f = sum g f + sum h f := by
  induction f with
  | nil => rfl
  | cons key node children rest ihc ihr =>
    simp only [sum, ihc, ihr]
    omega

theorem sum_le_sum {g h : ν → Int} (hgh : ∀ x, g x ≤ h x) (f : Forest κ ν) : sum g f ≤ sum h f := by
  induction f with
  | nil => exact Int.le_refl _
  | cons key node children rest ihc ihr =>
    simp only [sum]
    have := hgh node
    omega

theorem sum_mul (a : Int) (g : ν → Int) (f : Forest κ ν) :
    sum (fun x => a * g x) f = a * sum g f := by
  induction f with
  | nil => exact (Int.mul_zero a).symm
  | cons key node children rest ihc ihr => simp [sum, ihc, ihr, Int.mul_add]

theorem sum_nonneg {g : ν → Int} (hg : ∀ x, 0 ≤ g x) (f : Forest κ ν) : 0 ≤ sum g f := by
  induction f with
  | nil => exact Int.le_refl _
  | cons key node children rest ihc ihr =>
    simp only [sum]
    have := hg node
    omega

theorem all_mono {P Q : κ → ν → Forest κ ν → Prop} (hPQ : ∀ k x t, P k x t → Q k x t)
    (h : All P f) : All Q f := by
  induction f with
  | nil => exact trivial
  | cons key node children rest ihc ihr => exact ⟨hPQ _ _ _ h.1, ihc h.2.1, ihr h.2.2⟩

theorem all_true (f : Forest κ ν) : All (fun _ _ _ => True) f := by
  induction f with
  | nil => exact trivial
  | cons key node children rest ihc ihr => exact ⟨trivial, ihc, ihr⟩

theorem all_and {P Q : κ → ν → Forest κ ν → Prop} (hP : All P f) (hQ : All Q f) :
    All (fun k x t => P k x t ∧ Q k x t) f := by
  induction f with
  | nil => exact trivial
  | cons key node children rest ihc ihr =>
    exact ⟨⟨hP.1, hQ.1⟩, ihc hP.2.1 hQ.2.1, ihr hP.2.2 hQ.2.2⟩

section Dictionary

variable [DecidableEq κ] {f t : Forest κ ν} {x : ν}

/-- The first entry of a key, with the forest below it. -/
def lookup (k : κ) : Forest κ ν → Option (ν × Forest κ ν)
  | nil => none
  | cons key node children rest => if key = k then some (node, children) else lookup k rest

/-- Replace the entry of a key in place, or add one at the end. -/
def set : Forest κ ν → κ → ν → Forest κ ν → Forest κ ν
  | nil, k, x, t => cons k x t nil
  | cons key node children rest, k, x, t =>
    if key = k then cons k x t rest else cons key node children (set rest k x t)

/-- The dictionary without its first entry of a key. -/
def erase (k : κ) : Forest κ ν → Forest κ ν
  | nil => nil
  | cons key node children rest =>
    if key = k then rest else cons key node children (erase k rest)

/-- The entries before the one that a lookup finds, from the last to the first. -/
theorem lookup_induction {k : κ}
    {motive : ∀ f, lookup k f = some (x, t) → Prop}
    (here : ∀ rest, motive (cons k x t rest) (if_pos rfl))
    (later : ∀ {key node children rest} (hk : key ≠ k) (hr : lookup k rest = some (x, t)),
      motive rest hr → motive (cons key node children rest) ((if_neg hk).trans hr))
    (h : lookup k f = some (x, t)) : motive f h := by
  induction f with
  | nil => cases h
  | cons key node children rest _ ih =>
    by_cases hk : key = k
    · obtain rfl := hk
      cases (if_pos rfl).symm.trans h
      exact here rest
    · exact later hk _ (ih ((if_neg hk).symm.trans h))

theorem lookup_set_self (k : κ) (x : ν) (t f : Forest κ ν) :
    lookup k (set f k x t) = some (x, t) := by
  induction f with
  | nil => simp [set, lookup]
  | cons key node children rest _ ih =>
    simp only [set]
    split_ifs with h
    · simp [lookup]
    · simp [lookup, if_neg h, ih]

variable {k k' : κ}

theorem lookup_set_of_ne (h : k' ≠ k) (x : ν) (t f : Forest κ ν) :
    lookup k' (set f k x t) = lookup k' f := by
  induction f with
  | nil => simp [set, lookup, if_neg h.symm]
  | cons key node children rest _ ih =>
    simp only [set]
    split_ifs with hk
    · subst hk
      simp [lookup, if_neg h.symm]
    · simp [lookup, ih]

/-- Writing the same key twice. -/
theorem set_set (k : κ) (x y : ν) (t u f : Forest κ ν) : set (set f k x t) k y u = set f k y u := by
  induction f with
  | nil => simp [set]
  | cons key node children rest _ ih =>
    simp only [set]
    split_ifs with h
    · simp [set]
    · simp [set, if_neg h, ih]

/-- Writing back what is there. -/
theorem set_lookup (h : lookup k f = some (x, t)) : set f k x t = f := by
  induction h using lookup_induction with
  | here rest => rw [set, if_pos rfl]
  | later hk _ ih => rw [set, if_neg hk, ih]

theorem lookup_eq_none_iff (k : κ) (f : Forest κ ν) : lookup k f = none ↔ k ∉ keys f := by
  induction f with
  | nil => simp [lookup, keys]
  | cons key node children rest _ ih =>
    simp only [lookup, keys, mem_cons, not_or]
    split_ifs with h
    · simp [h]
    · rw [ih]
      exact ⟨fun hr => ⟨fun he => h he.symm, hr⟩, fun hr => hr.2⟩

/-- An entry further on has another key, so the first entry is passed by. -/
theorem lookup_past {key k : κ} {node : ν} {children rest : Forest κ ν} (hkey : key ∉ keys rest)
    (h : lookup k rest = some (x, t)) :
    key ≠ k ∧ lookup k (cons key node children rest) = some (x, t) := by
  have hne : key ≠ k := by
    rintro rfl
    cases ((lookup_eq_none_iff key rest).mpr hkey).symm.trans h
  exact ⟨hne, by simp [lookup, if_neg hne, h]⟩

/-- The keys after a write: the same, or one more at the end. -/
theorem mem_keys_set (k k' : κ) (x : ν) (t f : Forest κ ν) :
    k' ∈ keys (set f k x t) ↔ k' = k ∨ k' ∈ keys f := by
  induction f with
  | nil => simp [set, keys]
  | cons key node children rest _ ih =>
    simp only [set]
    split_ifs with h
    · subst h
      simp [keys]
    · simp only [keys, mem_cons, ih]
      exact or_left_comm

theorem lookup_erase_of_ne (h : k' ≠ k) (f : Forest κ ν) : lookup k' (erase k f) = lookup k' f := by
  induction f with
  | nil => rfl
  | cons key node children rest _ ih =>
    simp only [erase]
    split_ifs with hk
    · subst hk
      simp [lookup, if_neg h.symm]
    · simp [lookup, ih]

theorem lookup_erase_self (k : κ) (hd : f.Distinct) : lookup k (erase k f) = none := by
  induction f with
  | nil => rfl
  | cons key node children rest _ ih =>
    simp only [erase]
    split_ifs with hk
    · subst hk
      exact (lookup_eq_none_iff _ _).mpr hd.1
    · simp [lookup, if_neg hk, ih hd.2.2]

section Sums

variable {k : κ}

theorem sum_set {y : ν} {u f : Forest κ ν} (h : lookup k f = some (y, u)) (g : ν → Int)
    (x : ν) (t : Forest κ ν) :
    sum g (set f k x t) = sum g f - (g y + sum g u) + (g x + sum g t) := by
  induction h using lookup_induction with
  | here rest =>
    simp only [set, if_true, sum]
    omega
  | later hk _ ih =>
    simp only [set, if_neg hk, sum, ih]
    omega

theorem sum_set_new {f : Forest κ ν} (h : lookup k f = none) (g : ν → Int)
    (x : ν) (t : Forest κ ν) : sum g (set f k x t) = sum g f + (g x + sum g t) := by
  induction f with
  | nil =>
    simp only [set, sum]
    omega
  | cons key node children rest _ ih =>
    simp only [lookup] at h
    simp only [set]
    split_ifs at h ⊢ with hk
    simp only [sum, ih h]
    omega

theorem sum_erase {y : ν} {u f : Forest κ ν} (h : lookup k f = some (y, u))
    (g : ν → Int) : sum g (erase k f) = sum g f - (g y + sum g u) := by
  induction h using lookup_induction with
  | here rest =>
    simp only [erase, if_true, sum]
    omega
  | later hk _ ih =>
    simp only [erase, if_neg hk, sum, ih]
    omega

end Sums

section Properties

variable {P : κ → ν → Forest κ ν → Prop} {k : κ} {t f : Forest κ ν} {x : ν}

theorem all_lookup (h : All P f) (hl : lookup k f = some (x, t)) : P k x t ∧ All P t := by
  induction hl using lookup_induction with
  | here rest => exact ⟨h.1, h.2.1⟩
  | later hk _ ih => exact ih h.2.2

/-- A property of all nodes, after an entry is set. -/
theorem all_set (h : All P f) (hx : P k x t) (ht : All P t) : All P (set f k x t) := by
  induction f with
  | nil => exact ⟨hx, ht, trivial⟩
  | cons key node children rest _ ih =>
    simp only [set]
    split_ifs with hk
    · exact ⟨hx, ht, h.2.2⟩
    · exact ⟨h.1, h.2.1, ih h.2.2⟩

theorem distinct_lookup (h : f.Distinct) (hl : lookup k f = some (x, t)) : t.Distinct := by
  induction hl using lookup_induction with
  | here rest => exact h.2.1
  | later hk _ ih => exact ih h.2.2

theorem distinct_set (h : f.Distinct) (k : κ) (x : ν) (ht : t.Distinct) :
    (set f k x t).Distinct := by
  induction f with
  | nil => exact ⟨not_mem_nil, ht, trivial⟩
  | cons key node children rest _ ih =>
    simp only [set]
    split_ifs with hk
    · exact ⟨hk ▸ h.1, ht, h.2.2⟩
    · refine ⟨fun hmem => ?_, h.2.1, ih h.2.2⟩
      rcases (mem_keys_set k key x t rest).mp hmem with heq | hmem
      · exact hk heq
      · exact h.1 hmem

end Properties

/-- A change of one dictionary, with the nodes above it from the top down. -/
inductive Edit (R : Forest κ ν → Forest κ ν → Prop) : List ν → Forest κ ν → Forest κ ν → Prop
  | here {f f'} : R f f' → Edit R [] f f'
  | down {path f k x t t'} : lookup k f = some (x, t) → Edit R path t t' →
      Edit R (x :: path) f (set f k x t')

namespace Edit

variable {R : Forest κ ν → Forest κ ν → Prop} {path : List ν} {f f' : Forest κ ν}

/-- A sum moves by what the change of the dictionary moves. -/
theorem sum {g : ν → Int} {d : Int} (h : Edit R path f f')
    (hR : ∀ f f', R f f' → Forest.sum g f' = Forest.sum g f + d) :
    Forest.sum g f' = Forest.sum g f + d := by
  induction h with
  | here hr => exact hR _ _ hr
  | down hl _ ih =>
    rw [sum_set hl, ih]
    omega

theorem distinct (h : Edit R path f f')
    (hR : ∀ f f', R f f' → f.Distinct → f'.Distinct) (hd : f.Distinct) : f'.Distinct := by
  induction h with
  | here hr => exact hR _ _ hr hd
  | down hl _ ih => exact distinct_set hd _ _ (ih (distinct_lookup hd hl))

/-- A property survives when the change keeps it and each node above keeps it
    under any edit of its forest. -/
theorem all {P : κ → ν → Forest κ ν → Prop} (h : Edit R path f f')
    (hR : ∀ f f', R f f' → All P f → All P f')
    (hup : ∀ path k x t t', Edit R path t t' → P k x t → P k x t') (hP : All P f) : All P f' := by
  induction h with
  | here hr => exact hR _ _ hr hP
  | down hl he ih =>
    rcases all_lookup hP hl with ⟨hx, ht⟩
    exact all_set hP (hup _ _ _ _ _ he hx) (ih ht)

end Edit

end Dictionary

end Forest

end SglangInc
