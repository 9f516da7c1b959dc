import Mathlib.Data.List.Dedup
import Mathlib.Data.List.Count

/-!
# Slots of Pages

Memory that is handed out in pages and used in slots: page `g` is the slots
`g * pageSize` up to `g * pageSize + pageSize - 1`.

A list of slots that starts at the beginning of a page and runs through whole
pages is `slots pageSize pages n`: the first `n` slots of the pages, the last
page filled in part. Such lists are closed under what is done with them:
cutting at the end of a page, cutting anywhere at the end, and going on in the
last page or in new ones.

To say how often a page occurs in a list it is enough to count its first slot
(`heads`), because a page is used from its first slot on. That count is
additive over appended lists, which the number of pages touched is not, and it
agrees with it on lists of slots.

## Theorems

* `slots_append`, `slots_take`, `slots_drop`: Slots of a part of the pages.
* `Paged.take`, `Paged.drop`: Parts of a list of slots.
-/

namespace SglangInc.Slots

open List

/-- The values of a list, sorted and each once. -/
def unique (l : List Nat) : List Nat := l.dedup.mergeSort

theorem count_unique (l : List Nat) (g : Nat) : (unique l).count g = if g ∈ l then 1 else 0 := by
  have hperm : (unique l).Perm l.dedup := mergeSort_perm _ _
  rw [hperm.count_eq]
  split_ifs with h
  · exact count_eq_one_of_mem (nodup_dedup l) (mem_dedup.mpr h)
  · exact List.count_eq_zero.mpr fun hmem => h (mem_dedup.mp hmem)

variable (pageSize : Nat)

/-- The number of pages that `n` slots take. -/
def pagesFor (n : Nat) : Nat := (n + pageSize - 1) / pageSize

/-- The first `n` slots of the pages. -/
def slots (pages : List Nat) (n : Nat) : List Nat :=
  (List.range n).map (fun i => pages.getD (i / pageSize) 0 * pageSize + i % pageSize)

/-- How often the first slot of a page occurs. -/
def heads (page : Nat) (l : List Nat) : Nat := l.count (page * pageSize)

variable {pageSize} {pages more l : List Nat} {n m : Nat}

@[simp]
theorem length_slots : (slots pageSize pages n).length = n := by
  rw [slots, length_map, length_range]

theorem getElem_slots {i : Nat} (h : i < (slots pageSize pages n).length) :
    (slots pageSize pages n)[i] = pages.getD (i / pageSize) 0 * pageSize + i % pageSize := by
  simp [slots]

/-- More slots of the same pages. -/
theorem slots_add (pages : List Nat) (n m : Nat) : slots pageSize pages (n + m) =
    slots pageSize pages n ++ (List.range m).map (fun i =>
      pages.getD ((n + i) / pageSize) 0 * pageSize + (n + i) % pageSize) := by
  rw [slots, slots, range_add, map_append, map_map]
  rfl

/-- A slot inside a page. -/
theorem div_mod_slot (q : Nat) {r : Nat} (hr : r < pageSize) :
    (q * pageSize + r) / pageSize = q ∧ (q * pageSize + r) % pageSize = r := by
  have hps : 0 < pageSize := Nat.lt_of_le_of_lt (Nat.zero_le r) hr
  rw [Nat.mul_comm, Nat.mul_add_div hps, Nat.mul_add_mod, Nat.div_eq_of_lt hr, Nat.mod_eq_of_lt hr]
  exact ⟨rfl, rfl⟩

theorem slots_take : (slots pageSize pages n).take m = slots pageSize pages (min m n) := by
  rw [slots, slots, ← map_take, take_range]

/-- Pages that are not reached do not matter. -/
theorem slots_append_left (h : n ≤ pages.length * pageSize) :
    slots pageSize (pages ++ more) n = slots pageSize pages n := by
  refine ext_getElem (by simp) fun i h1 h2 => ?_
  rw [length_slots] at h1
  have hlt : i / pageSize < pages.length := Nat.div_lt_of_lt_mul (by
    rw [Nat.mul_comm]
    omega)
  rw [getElem_slots, getElem_slots, getD_eq_getElem?_getD, getD_eq_getElem?_getD,
    getElem?_append_left hlt]

theorem pagesFor_of_le (hn : 0 < n) (h : n ≤ pageSize) : pagesFor pageSize n = 1 := by
  rw [pagesFor, show n + pageSize - 1 = pageSize * 1 + (n - 1) by omega,
    Nat.mul_add_div (by omega), Nat.div_eq_of_lt (by omega)]

theorem pagesFor_mono (pageSize : Nat) (h : m ≤ n) :
    pagesFor pageSize m ≤ pagesFor pageSize n :=
  Nat.div_le_div_right (by omega)

theorem heads_append (page : Nat) (l more : List Nat) :
    heads pageSize page (l ++ more) = heads pageSize page l + heads pageSize page more :=
  count_append

section

variable (hps : 0 < pageSize)
include hps

/-- Slots after whole pages are slots of the pages that follow. -/
theorem slots_drop (k : Nat) : (slots pageSize pages n).drop (k * pageSize) =
      slots pageSize (pages.drop k) (n - k * pageSize) := by
  refine ext_getElem (by simp) fun i h1 h2 => ?_
  rw [getElem_drop, getElem_slots, getElem_slots, Nat.mul_comm k, Nat.mul_add_div hps,
    Nat.mul_add_mod, getD_eq_getElem?_getD, getD_eq_getElem?_getD, getElem?_drop]

/-- Slots of whole pages, and then of the pages that follow. -/
theorem slots_append (pages more : List Nat) (m : Nat) :
    slots pageSize (pages ++ more) (pages.length * pageSize + m) =
      slots pageSize pages (pages.length * pageSize) ++ slots pageSize more m := by
  have htake : (slots pageSize (pages ++ more) (pages.length * pageSize + m)).take
      (pages.length * pageSize) = slots pageSize pages (pages.length * pageSize) := by
    rw [slots_take, Nat.min_eq_left (Nat.le_add_right _ _), slots_append_left (Nat.le_refl _)]
  have hdrop : (slots pageSize (pages ++ more) (pages.length * pageSize + m)).drop
      (pages.length * pageSize) = slots pageSize more m := by
    rw [slots_drop hps, drop_left, Nat.add_sub_cancel_left]
  rw [← htake, ← hdrop, take_append_drop]

theorem pagesFor_mul (k : Nat) : pagesFor pageSize (k * pageSize) = k := by
  rw [pagesFor, Nat.add_sub_assoc hps, Nat.mul_comm, Nat.mul_add_div hps,
    Nat.div_eq_of_lt (Nat.sub_lt hps Nat.one_pos), Nat.add_zero]

theorem pagesFor_add (k n : Nat) :
    pagesFor pageSize (k * pageSize + n) = k + pagesFor pageSize n := by
  rw [pagesFor, pagesFor, Nat.add_assoc, Nat.add_sub_assoc (by omega), Nat.mul_comm,
    Nat.mul_add_div hps]

/-- The pages hold what they are for. -/
theorem le_pagesFor_mul (n : Nat) : n ≤ pagesFor pageSize n * pageSize := by
  have hdiv := Nat.div_add_mod (n + pageSize - 1) pageSize
  have hmod := Nat.mod_lt (n + pageSize - 1) hps
  rw [pagesFor, Nat.mul_comm]
  omega

theorem pagesFor_zero : pagesFor pageSize 0 = 0 := by
  simpa using pagesFor_mul hps 0

/-- Every number of slots is a number of pages and less than a page. -/
theorem exists_slot (n : Nat) : ∃ q r, r < pageSize ∧ n = q * pageSize + r :=
  ⟨n / pageSize, n % pageSize, Nat.mod_lt _ hps, (Nat.div_add_mod' n pageSize).symm⟩

/-- Part of one page has its first slot unless it is empty. -/
theorem heads_slots_singleton (h : n ≤ pageSize) (p page : Nat) :
    heads pageSize page (slots pageSize [p] n) = if 0 < n ∧ p = page then 1 else 0 := by
  have hblock : slots pageSize [p] n = (List.range n).map (fun i => p * pageSize + i) := by
    refine map_congr_left fun i hi => ?_
    have hlt : i < pageSize := Nat.lt_of_lt_of_le (mem_range.mp hi) h
    rw [Nat.div_eq_of_lt hlt, Nat.mod_eq_of_lt hlt, getD_cons_zero]
  have hinj : Function.Injective (fun i => p * pageSize + i) := fun i j hij =>
    Nat.add_left_cancel hij
  rw [heads, hblock]
  split_ifs with hc
  · rcases hc with ⟨hn, rfl⟩
    have hcount := count_map_of_injective (List.range n) _ hinj 0
    rwa [Nat.add_zero, count_eq_one_of_mem nodup_range (mem_range.mpr hn)] at hcount
  refine List.count_eq_zero.mpr fun hmem => hc ?_
  rcases mem_map.mp hmem with ⟨i, hi, heq⟩
  have hlt : i < pageSize := Nat.lt_of_lt_of_le (mem_range.mp hi) h
  refine ⟨by have := mem_range.mp hi; omega, ?_⟩
  have hdiv := congrArg (· / pageSize) heq
  simp only [Nat.mul_comm _ pageSize, Nat.mul_add_div hps, Nat.div_eq_of_lt hlt,
    Nat.mul_div_cancel_left _ hps, Nat.add_zero] at hdiv
  exact hdiv

variable (h : pages.length = pagesFor pageSize n)

include h

/-- The first slots are the pages, when there are as many pages as the slots
    take. -/
theorem heads_slots (page : Nat) :
    heads pageSize page (slots pageSize pages n) = pages.count page := by
  induction pages generalizing n with
  | nil =>
    have hn := le_pagesFor_mul hps n
    rw [← h, length_nil, Nat.zero_mul, Nat.le_zero] at hn
    rw [hn]
    rfl
  | cons p rest ih =>
    have hpos : 0 < n := by
      rcases Nat.eq_zero_or_pos n with rfl | hn
      · exact absurd (h.trans (pagesFor_zero hps)) (Nat.succ_ne_zero _)
      · exact hn
    by_cases hle : n ≤ pageSize
    · -- One page is enough, so there are no others.
      have hone : pagesFor pageSize n ≤ 1 := by
        have hmono := pagesFor_mono pageSize (show n ≤ 1 * pageSize by omega)
        rwa [pagesFor_mul hps] at hmono
      have hnil : rest = [] := eq_nil_of_length_eq_zero (by
        rw [← h, length_cons] at hone
        omega)
      rw [hnil, heads_slots_singleton hps hle, count_singleton]
      simp [hpos]
    obtain ⟨k, rfl⟩ := Nat.exists_eq_add_of_lt (Nat.lt_of_not_le hle)
    have hsplit := slots_append hps [p] rest (k + 1)
    rw [length_singleton, Nat.one_mul, singleton_append] at hsplit
    rw [length_cons, show pageSize + k + 1 = 1 * pageSize + (k + 1) by omega, pagesFor_add hps] at h
    rw [Nat.add_assoc, hsplit, heads_append, heads_slots_singleton hps (Nat.le_refl _),
      ih (by omega), List.count_cons]
    simp only [hps, true_and, beq_iff_eq]
    omega

theorem div_lt_length {j : Nat}
    (hj : j ∈ List.range n) : j / pageSize < pages.length := by
  have := mem_range.mp hj
  have := le_pagesFor_mul hps n
  rw [h]
  exact Nat.div_lt_of_lt_mul (by rw [Nat.mul_comm]; omega)

/-- A slot is one of a page in the list. -/
theorem div_mem_of_mem_slots
    {i : Nat} (hi : i ∈ slots pageSize pages n) : i / pageSize ∈ pages := by
  rcases mem_map.mp hi with ⟨j, hj, rfl⟩
  rw [(div_mod_slot _ (Nat.mod_lt _ hps)).1, getD_eq_getElem?_getD,
    getElem?_eq_getElem (div_lt_length hps h hj), Option.getD_some]
  exact getElem_mem _

omit h

end

variable (pageSize) in
/-- A list of slots that starts at the beginning of a page. -/
def Paged (l : List Nat) : Prop :=
  ∃ pages n, pages.length = pagesFor pageSize n ∧ l = slots pageSize pages n

variable (hps : 0 < pageSize)

include hps

theorem Paged.nil : Paged pageSize [] :=
  ⟨[], 0, (pagesFor_zero hps).symm, rfl⟩

/-- A page is touched when its first slot is there. -/
theorem Paged.mem_pages_iff (h : Paged pageSize l) (page : Nat) :
    page ∈ l.map (· / pageSize) ↔ 0 < heads pageSize page l := by
  rcases h with ⟨pages, n, hlen, rfl⟩
  rw [heads_slots hps hlen, count_pos_iff]
  constructor
  · intro hmem
    rcases mem_map.mp hmem with ⟨i, hi, rfl⟩
    exact div_mem_of_mem_slots hps hlen hi
  · intro hmem
    have hcount : 0 < heads pageSize page (slots pageSize pages n) := by
      rw [heads_slots hps hlen]
      exact count_pos_iff.mpr hmem
    refine mem_map.mpr ⟨page * pageSize, count_pos_iff.mp hcount, ?_⟩
    exact Nat.mul_div_cancel _ hps

theorem Paged.take (h : Paged pageSize l) (m : Nat) :
    Paged pageSize (l.take m) := by
  rcases h with ⟨pages, n, hlen, rfl⟩
  have hle := pagesFor_mono pageSize (Nat.min_le_right m n)
  refine ⟨pages.take (pagesFor pageSize (min m n)), min m n, length_take_of_le (by omega), ?_⟩
  rw [slots_take]
  nth_rewrite 1 [← take_append_drop (pagesFor pageSize (min m n)) pages]
  refine slots_append_left ?_
  rw [length_take_of_le (by omega)]
  exact le_pagesFor_mul hps _

theorem Paged.drop (h : Paged pageSize l) {k : Nat} (hk : pageSize ∣ k) :
    Paged pageSize (l.drop k) := by
  rcases h with ⟨pages, n, hlen, rfl⟩
  rcases hk with ⟨j, rfl⟩
  rw [Nat.mul_comm, slots_drop hps]
  by_cases hle : j * pageSize ≤ n
  · obtain ⟨m, rfl⟩ := Nat.exists_eq_add_of_le hle
    rw [pagesFor_add hps] at hlen
    exact ⟨pages.drop j, m, by rw [List.length_drop]; omega, by rw [Nat.add_sub_cancel_left]⟩
  · rw [Nat.sub_eq_zero_of_le (Nat.le_of_not_le hle)]
    exact .nil hps

/-- Slots of pages none of which is there twice. -/
theorem Paged.nodup (h : Paged pageSize l)
    (hone : ∀ page, heads pageSize page l ≤ 1) : l.Nodup := by
  rcases h with ⟨pages, n, hlen, rfl⟩
  have hpages : pages.Nodup := nodup_iff_count_le_one.mpr fun page => by
    rw [← heads_slots hps hlen]
    exact hone page
  refine nodup_range.map_on fun i hi j hj heq => ?_
  -- A slot has one page and one offset, and the page is at one place.
  have hslot := congrArg (fun slot => (slot / pageSize, slot % pageSize)) heq
  simp only [div_mod_slot _ (Nat.mod_lt _ hps), Prod.mk.injEq, getD_eq_getElem?_getD,
    getElem?_eq_getElem (div_lt_length hps hlen hi),
    getElem?_eq_getElem (div_lt_length hps hlen hj), Option.getD_some,
    hpages.getElem_inj_iff] at hslot
  rw [← Nat.div_add_mod i pageSize, hslot.1, hslot.2, Nat.div_add_mod]

end SglangInc.Slots
