/-!
# Association Lists

What `List.lookup` finds is an entry, and what it does not find is no key.
-/

namespace SglangInc.Lookup

variable {κ ν : Type} [BEq κ] [LawfulBEq κ] {l : List (κ × ν)} {k : κ}

theorem mem_of_lookup {v : ν} (h : l.lookup k = some v) : (k, v) ∈ l := by
  obtain ⟨l1, l2, rfl, -⟩ := List.lookup_eq_some_iff.mp h
  exact List.mem_append_right _ List.mem_cons_self

theorem not_mem_keys_of_lookup (h : l.lookup k = none) : k ∉ l.map Prod.fst := by
  intro hmem
  obtain ⟨e, he, rfl⟩ := List.mem_map.mp hmem
  have hne := List.lookup_eq_none_iff.mp h e he
  simp at hne

end SglangInc.Lookup
