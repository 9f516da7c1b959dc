import Mathlib.Data.List.Nodup
import Mathlib.Data.List.Perm.Basic
import Mathlib.Data.List.Range

/-!
# Hash Chains

A sequence is cut into chunks, and the hash of a chunk takes in the hash of the
chunk before it. So a hash stands for a chunk together with everything before
it. The chunks of many sequences are then named by pairs: the chunks before,
and the chunk (`extensions`). If the hash function is injective on a prior hash
and a chunk, two such pairs have different hashes.
-/

namespace SglangInc.HashChain

open List

section Chunks

variable {α : Type}

/-- `[l[start : start + n] for start in range(0, len(l), n)]`. -/
def chunks (n : Nat) (l : List α) : List (List α) :=
  (List.range ((l.length + n - 1) / n)).map fun i => (l.drop (i * n)).take n

variable {n : Nat} {u v : List α}

/-- Chunks of a list that is cut at a chunk's end. -/
theorem chunks_append (hn : 0 < n) (hu : n ∣ u.length) :
    chunks n (u ++ v) = chunks n u ++ chunks n v := by
  rcases hu with ⟨m, hm⟩
  have hceil : (u.length + n - 1) / n = m := by
    rw [hm, Nat.add_sub_assoc hn, Nat.mul_add_div hn, Nat.div_eq_of_lt (Nat.sub_lt hn Nat.one_pos),
      Nat.add_zero]
  have hboth : ((u ++ v).length + n - 1) / n = m + (v.length + n - 1) / n := by
    rw [length_append, hm, Nat.add_assoc, Nat.add_sub_assoc (by omega), Nat.mul_add_div hn]
  unfold chunks
  rw [hboth, hceil, range_add, map_append, map_map]
  congr 1
  · refine map_congr_left fun i hi => ?_
    -- The first pieces lie before the cut.
    have hle : (i + 1) * n ≤ u.length := by
      rw [hm, Nat.mul_comm n]
      exact Nat.mul_le_mul_right n (mem_range.mp hi)
    rw [Nat.add_mul, Nat.one_mul] at hle
    rw [drop_append_of_le_length (by omega),
      take_append_of_le_length (by rw [List.length_drop]; omega)]
  · refine map_congr_left fun i _ => ?_
    rw [Function.comp_apply, drop_append, drop_eq_nil_of_le, nil_append]
    · rw [Nat.add_mul, hm, Nat.mul_comm n, Nat.add_sub_cancel_left]
    · rw [Nat.add_mul, hm, Nat.mul_comm n]
      exact Nat.le_add_right _ _

theorem chunks_nil (hn : 0 < n) : chunks n ([] : List α) = [] := by
  rw [chunks, length_nil, Nat.zero_add, Nat.div_eq_of_lt (Nat.sub_lt hn Nat.one_pos)]
  rfl

theorem chunks_ne_nil (hn : 0 < n) (hu : u ≠ []) : chunks n u ≠ [] := by
  have hpos := length_pos_iff.mpr hu
  have hone : 0 < (u.length + n - 1) / n := Nat.div_pos (by omega) hn
  exact fun h => absurd (map_eq_nil_iff.mp h) (ne_nil_of_length_pos (by
    rwa [length_range]))

theorem length_chunks_of_dvd (hn : 0 < n) (hu : n ∣ u.length) :
    (chunks n u).length = u.length / n := by
  rcases hu with ⟨m, hm⟩
  rw [chunks, length_map, length_range, hm, Nat.add_sub_assoc hn, Nat.mul_add_div hn,
    Nat.div_eq_of_lt (Nat.sub_lt hn Nat.one_pos), Nat.add_zero, Nat.mul_div_cancel_left m hn]

theorem head?_chunks (hn : 0 < n) (hu : u ≠ []) : (chunks n u).head? = some (u.take n) := by
  have hpos := length_pos_iff.mpr hu
  obtain ⟨m, hm⟩ := Nat.exists_eq_succ_of_ne_zero
    (Nat.div_pos (by omega : n ≤ u.length + n - 1) hn).ne'
  rw [chunks, hm, Nat.succ_eq_add_one, range_succ_eq_map, map_cons, head?_cons,
    Nat.zero_mul, drop_zero]

end Chunks

section Chain

variable {α β : Type} (hash : α → Option β → β)

/-- The hashes of chunks, from the hash before them. -/
def chain : Option β → List α → List β
  | _, [] => []
  | prior, chunk :: rest => hash chunk prior :: chain (some (hash chunk prior)) rest

/-- The hash of the last chunk. -/
def pathHash (prior : Option β) (path : List α) : Option β :=
  path.foldl (fun prior chunk => some (hash chunk prior)) prior

/-- The chunks of a list, each with the chunks before it. -/
def extensions : List α → List α → List (List α × α)
  | _, [] => []
  | pre, chunk :: rest => (pre, chunk) :: extensions (pre ++ [chunk]) rest

/-- The hash of a chunk, from the chunks before it. -/
def chunkHash (q : List α × α) : β := hash q.2 (pathHash hash none q.1)

variable {pre u v : List α} {prior : Option β} {q : List α × α}

/-- A chain goes on from the last hash. -/
theorem chain_append : chain hash prior (u ++ v) =
    chain hash prior u ++ chain hash (pathHash hash prior u) v := by
  induction u generalizing prior with
  | nil => rfl
  | cons chunk rest ih => exact congrArg (hash chunk prior :: ·) ih

theorem length_chain : (chain hash prior u).length = u.length := by
  induction u generalizing prior with
  | nil => rfl
  | cons chunk rest ih => exact congrArg (· + 1) ih

theorem pathHash_append : pathHash hash prior (u ++ v) = pathHash hash (pathHash hash prior u) v :=
  foldl_append

theorem pathHash_concat (chunk : α) :
    pathHash hash prior (u ++ [chunk]) = some (hash chunk (pathHash hash prior u)) :=
  pathHash_append hash

theorem getLast?_chain (hu : u ≠ []) : (chain hash prior u).getLast? = pathHash hash prior u := by
  induction u using reverseRecOn with
  | nil => exact absurd rfl hu
  | append_singleton u chunk _ =>
    rw [chain_append, pathHash_concat, getLast?_append]
    rfl

theorem extensions_append : extensions pre (u ++ v) =
    extensions pre u ++ extensions (pre ++ u) v := by
  induction u generalizing pre with
  | nil => rw [nil_append, extensions, nil_append, List.append_nil]
  | cons chunk rest ih =>
    rw [cons_append, extensions, extensions, ih, append_assoc, singleton_append, cons_append]

/-- What is before a chunk, and the chunk, start with what the chunks extend. -/
theorem mem_extensions (h : q ∈ extensions pre u) : pre <+: q.1 ∧ q.1 ++ [q.2] <+: pre ++ u := by
  induction u generalizing pre with
  | nil => cases h
  | cons chunk rest ih =>
    rcases mem_cons.mp h with rfl | h
    · exact ⟨prefix_refl _, ⟨rest, by rw [append_assoc, singleton_append]⟩⟩
    · rcases ih h with ⟨hpre, hall⟩
      rw [append_assoc, singleton_append] at hall
      exact ⟨(prefix_append pre [chunk]).trans hpre, hall⟩

/-- The hash before a chunk is that of the chunk before it. -/
theorem getElem?_chain (u : List α) (i : Nat) : (chain hash prior u)[i]? =
      u[i]?.map fun chunk => hash chunk (pathHash hash prior (u.take i)) := by
  induction u generalizing prior i with
  | nil => rfl
  | cons chunk rest ih =>
    cases i with
    | zero => rfl
    | succ i => exact ih i

theorem pathHash_take_succ {i : Nat} (hi : i < u.length) :
    pathHash hash prior (u.take (i + 1)) = (chain hash prior u)[i]? := by
  rw [getElem?_chain, getElem?_eq_getElem hi, take_succ_eq_append_getElem hi, pathHash_append]
  rfl

/-- A chunk of a list is at some position, and the chunks before it are those
    up to there. -/
theorem index_of_mem_extensions (h : q ∈ extensions [] u) :
    ∃ i, u[i]? = some q.2 ∧ q.1 = u.take i := by
  rcases mem_extensions h with ⟨_, rest, hrest⟩
  rw [nil_append] at hrest
  refine ⟨q.1.length, ?_, ?_⟩
  · rw [← hrest, append_assoc, getElem?_append_right le_rfl, Nat.sub_self]
    rfl
  · rw [← hrest, append_assoc, take_left]

theorem nodup_extensions : (extensions pre u).Nodup := by
  induction u generalizing pre with
  | nil => exact nodup_nil
  | cons chunk rest ih =>
    refine nodup_cons.mpr ⟨fun h => ?_, ih⟩
    have hle := (mem_extensions h).1.length_le
    rw [length_append, length_singleton] at hle
    exact absurd hle (Nat.not_succ_le_self _)

variable {hash}

/-- Different paths have different hashes. -/
theorem pathHash_injective (hinj : Function.Injective fun p : Option β × α => hash p.2 p.1)
    (h : pathHash hash none u = pathHash hash none v) : u = v := by
  induction u using reverseRecOn generalizing v with
  | nil =>
    cases v using reverseRecOn with
    | nil => rfl
    | append_singleton v chunk =>
      rw [pathHash_append] at h
      exact absurd h (Option.some_ne_none _).symm
  | append_singleton u chunk ih =>
    cases v using reverseRecOn with
    | nil =>
      rw [pathHash_append] at h
      exact absurd h (Option.some_ne_none _)
    | append_singleton v chunk' =>
      rw [pathHash_append, pathHash_append] at h
      have hpair := Prod.mk.inj (@hinj (_, chunk) (_, chunk') (Option.some.inj h))
      rw [ih hpair.1, hpair.2]

end Chain

end SglangInc.HashChain
