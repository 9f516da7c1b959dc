import SglangInc.Lib.ForestPath

/-!
# Addresses in a Forest

A node of a forest by its address, the dictionary keys that lead to it from the
top. A pointer that is used right after it was found is its address.

What is read or written at an address depends on the entry of its first key
alone, and leaves the other entries of the top dictionary as they are. `map`
forgets part of the nodes. It commutes with all of this, so it can say that two
forests differ only in what was forgotten.

## Theorems

* `lookup_map`, `map_set`, `map_along`, `map_setAt`: `map` commutes.
* `map_alterPath`, `locate_alterPath`: Changes that are forgotten.
* `lookup_setAt_congr`, `lookup_setAt_of_ne`: Only one entry matters.
-/

namespace SglangInc.Forest

open List

variable {κ ν μ : Type} {g : ν → μ} {Q : μ → Prop}

/-- A function on all nodes. -/
def map (g : ν → μ) : Forest κ ν → Forest κ μ
  | nil => nil
  | cons key node children rest => cons key (g node) (map g children) (map g rest)

theorem map_alterPath {hit : ν → Bool} {h : ν → ν} (hg : ∀ x, g (h x) = g x) (f : Forest κ ν) :
    map g (alterPath hit h f) = map g f := by
  induction f with
  | nil => rfl
  | cons key node children rest ihc ihr =>
    simp only [alterPath]
    split_ifs
    · simp [map, hg]
    · simp [map, hg, ihc]
    · simp [map, ihr]

theorem all_map {f : Forest κ ν} :
    (map g f).All (fun _ y _ => Q y) ↔ f.All fun _ x _ => Q (g x) := by
  induction f with
  | nil => exact Iff.rfl
  | cons key node children rest ihc ihr => simp [map, All, ihc, ihr]

theorem locate_map (hit : μ → Bool) (f : Forest κ ν) : locate hit (map g f) =
    (locate (fun x => hit (g x)) f).map fun r => (r.1.map g, g r.2.1, map g r.2.2) := by
  induction f with
  | nil => rfl
  | cons key node children rest ihc ihr =>
    simp only [map, locate, ihc, ihr]
    split_ifs
    · rfl
    · cases locate (fun x => hit (g x)) children <;> rfl

/-- What a change does not see of the nodes, it does not see of a path. -/
theorem locate_alterPath (hit hit' : ν → Bool) {h : ν → ν} (hg : ∀ y, g (h y) = g y)
    (hhit : ∀ y, hit' (h y) = hit' y) (f : Forest κ ν) :
    (locate hit' (alterPath hit h f)).map (fun r => (r.1 ++ [r.2.1]).map g) =
      (locate hit' f).map (fun r => (r.1 ++ [r.2.1]).map g) := by
  -- A path is found by the tests and by what is kept of the nodes.
  have hpath (f : Forest κ ν) : (locate hit' f).map (fun r => (r.1 ++ [r.2.1]).map g) =
      (locate Prod.fst (map (fun y => (hit' y, g y)) f)).map
        (fun r => (r.1 ++ [r.2.1]).map Prod.snd) := by
    rw [locate_map, Option.map_map]
    simp [Function.comp_def]
  rw [hpath, hpath, map_alterPath fun y => by rw [hhit, hg]]

variable [DecidableEq κ]

theorem lookup_map (g : ν → μ) (k : κ) (f : Forest κ ν) :
    lookup k (map g f) = (lookup k f).map fun entry => (g entry.1, map g entry.2) := by
  induction f with
  | nil => rfl
  | cons key node children rest _ ih =>
    simp only [map, lookup]
    split_ifs
    · rfl
    · exact ih

theorem map_set (g : ν → μ) (k : κ) (x : ν) (t f : Forest κ ν) :
    map g (set f k x t) = set (map g f) k (g x) (map g t) := by
  induction f with
  | nil => rfl
  | cons key node children rest _ ih =>
    simp only [set, map]
    split_ifs
    · rfl
    · simp [map, ih]

/-- The nodes along an address, top down. -/
def along : Forest κ ν → List κ → List ν
  | _, [] => []
  | f, k :: address => match lookup k f with
    | none => []
    | some (x, t) => x :: along t address

/-- A new entry in the dictionary of the node at an address. -/
def setAt : Forest κ ν → List κ → κ → ν → Forest κ ν
  | f, [], slot, node => set f slot node nil
  | f, k :: address, slot, node => match lookup k f with
    | none => f
    | some (x, t) => set f k x (setAt t address slot node)

/-- The entry of the top dictionary that is changed. -/
def entryKey (address : List κ) (slot : κ) : κ := address.headD slot

variable {f1 f2 f : Forest κ ν} {k slot : κ} {address : List κ}

theorem map_along (g : ν → μ) (f : Forest κ ν) (address : List κ) :
    (along f address).map g = along (map g f) address := by
  induction address generalizing f with
  | nil => rfl
  | cons k address ih =>
    simp only [along, lookup_map]
    cases lookup k f with
    | none => rfl
    | some entry => simp [ih]

theorem map_setAt (g : ν → μ) (f : Forest κ ν) (address : List κ) (slot : κ) (node : ν) :
    map g (setAt f address slot node) = setAt (map g f) address slot (g node) := by
  induction address generalizing f with
  | nil => exact map_set g slot node nil f
  | cons k address ih =>
    simp only [setAt, lookup_map]
    cases lookup k f with
    | none => rfl
    | some entry => simp [map_set, ih]

theorem lookup_setAt_congr (hk : entryKey address slot = k) (h : lookup k f1 = lookup k f2)
    (node : ν) : lookup k (setAt f1 address slot node) = lookup k (setAt f2 address slot node) := by
  cases address with
  | nil =>
    rw [entryKey, headD_nil] at hk
    subst hk
    simp [setAt, lookup_set_self]
  | cons k' address =>
    rw [entryKey, headD_cons] at hk
    subst hk
    simp only [setAt, h]
    cases hl : lookup k' f2 with
    | none => exact h
    | some entry => simp [lookup_set_self]

theorem lookup_setAt_of_ne (hk : entryKey address slot ≠ k) (node : ν) :
    lookup k (setAt f address slot node) = lookup k f := by
  cases address with
  | nil => exact lookup_set_of_ne (Ne.symm hk) _ _ _
  | cons k' address =>
    simp only [setAt]
    cases lookup k' f with
    | none => rfl
    | some entry => exact lookup_set_of_ne (Ne.symm hk) _ _ _

variable {P : ν → Prop} {node : ν}

theorem all_along (h : f.All fun _ x _ => P x) (address : List κ) : ∀ x ∈ along f address, P x := by
  induction address generalizing f with
  | nil => exact forall_mem_nil _
  | cons k address ih =>
    intro x hx
    simp only [along] at hx
    cases hl : lookup k f with
    | none =>
      rw [hl] at hx
      cases hx
    | some entry =>
      rw [hl] at hx
      rcases all_lookup h hl with ⟨hnode, hbelow⟩
      rcases mem_cons.mp hx with rfl | hx
      · exact hnode
      · exact ih hbelow x hx

theorem all_setAt (h : f.All fun _ x _ => P x) (address : List κ) (slot : κ) (hnode : P node) :
    (setAt f address slot node).All fun _ x _ => P x := by
  induction address generalizing f with
  | nil => exact all_set h hnode trivial
  | cons k address ih =>
    simp only [setAt]
    cases hl : lookup k f with
    | none => exact h
    | some entry =>
      rcases all_lookup h hl with ⟨hx, hbelow⟩
      exact all_set h hx (ih hbelow)

/-- A property of the nodes in the entry of a key. -/
def EntryAll (P : ν → Prop) (k : κ) (f : Forest κ ν) : Prop :=
  ∀ x t, lookup k f = some (x, t) → P x ∧ t.All fun _ y _ => P y

theorem EntryAll.mono {Q : ν → Prop} (h : EntryAll P k f) (hPQ : ∀ x, P x → Q x) :
    EntryAll Q k f := fun x t hl =>
  ⟨hPQ x (h x t hl).1, all_mono (fun _ y _ => hPQ y) (h x t hl).2⟩

theorem entryAll_set {x : ν} {t : Forest κ ν} (hx : P x) (ht : t.All fun _ y _ => P y) :
    EntryAll P k (set f k x t) := fun y u hl => by
  rw [lookup_set_self] at hl
  cases hl
  exact ⟨hx, ht⟩

theorem EntryAll.setAt (h : EntryAll P k f) (hk : entryKey address slot = k) (hnode : P node) :
    EntryAll P k (setAt f address slot node) := by
  cases address with
  | nil =>
    exact hk ▸ entryAll_set hnode trivial
  | cons k' address =>
    subst hk
    simp only [Forest.setAt]
    cases hl : lookup k' f with
    | none => exact h
    | some entry =>
      rcases h entry.1 entry.2 hl with ⟨hx, ht⟩
      exact entryAll_set hx (all_setAt ht address slot hnode)

theorem EntryAll.along (h : EntryAll P k f) (address : List κ) :
    ∀ x ∈ along f (k :: address), P x := by
  intro x hx
  simp only [Forest.along] at hx
  cases hl : lookup k f with
  | none =>
    rw [hl] at hx
    cases hx
  | some entry =>
    rw [hl] at hx
    rcases h entry.1 entry.2 hl with ⟨hnode, hbelow⟩
    rcases mem_cons.mp hx with rfl | hx
    · exact hnode
    · exact all_along hbelow address x hx

/-- The same for a property of what is left of the nodes. -/
theorem entryAll_map : EntryAll Q k (map g f) ↔ EntryAll (fun x => Q (g x)) k f := by
  constructor
  · intro h x t hl
    have hentry := h (g x) (map g t) (by rw [lookup_map, hl, Option.map_some])
    exact ⟨hentry.1, all_map.mp hentry.2⟩
  · intro h y u hl
    rw [lookup_map, Option.map_eq_some_iff] at hl
    rcases hl with ⟨⟨x, t⟩, hl, heq⟩
    cases heq
    exact ⟨(h x t hl).1, all_map.mpr (h x t hl).2⟩

end SglangInc.Forest
