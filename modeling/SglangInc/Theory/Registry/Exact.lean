import SglangInc.Core.WorkerRegistry
import SglangInc.Lib.Runs
import Mathlib.Data.List.Nodup

/-!
# Exact Indices of the Registry

What the queries of the registry return, against the workers that are registered.

Registering a worker adds it to the indices and takes nothing out of them. Under a URL
that is registered the id stays, so it is in an index twice, or still in the one of an
attribute the worker does not have any more. Without that an index has the workers with
its key in the order of their registrations (`Indexed`), since it is changed as the book
is: an entry is added at the end, or taken out.

## Theorems

* `Keyed.insert`, `Keyed.erase`, `Indexed.push`, `Indexed.retain`: The changes of a map.
* `queries_exact`: Runs in which no URL is registered that already is.
* `reregistered_stale`: A worker that moves to another model.
-/

namespace SglangInc.Registry

open List Function WorkerRegistry

/-- The workers are those that are registered with the property, each once. -/
def Lists (b : Book) (has : Worker → Prop) (l : List Worker) : Prop :=
  l.Nodup ∧ ∀ w, w ∈ l ↔ has w ∧ ∃ id, (id, w) ∈ b

/-- All queries are right. -/
structure Exact (r : WorkerRegistry) (b : Book) : Prop where
  byUrl : ∀ url, r.getByUrl url = (b.last url).map Prod.snd
  byModel : ∀ m, Lists b (·.modelId = m) (r.getByModel m)
  byModelFast : ∀ m, Lists b (·.modelId = m) (r.getByModelFast m)
  byType : ∀ t, Lists b (·.workerType = t) (r.getByType t)
  byConnection : ∀ c, Lists b (·.connectionMode = c) (r.getByConnection c)

/-- What a call has to meet: the URL of a new worker is not registered. -/
def Meets (s : WorkerRegistry × Book) : Call → Prop
  | .register worker _ => s.1.urlToId worker.url = none
  | _ => True

section Maps

variable {κ α : Type} [DecidableEq κ] {b : Book} {e : Nat × Worker} {stays : Nat × Worker → Bool}
  {k0 : κ}

section Keyed

variable {key : Nat × Worker → κ} {val : Nat × Worker → α} {m : κ → Option α}

/-- A map of the book, by a key no two entries have. -/
structure Keyed (b : Book) (key : Nat × Worker → κ) (val : Nat × Worker → α) (m : κ → Option α) :
    Prop where
  nodup : (b.map key).Nodup
  get : ∀ e ∈ b, m (key e) = some (val e)
  mem : ∀ k v, m k = some v → ∃ e ∈ b, key e = k ∧ val e = v

theorem Keyed.insert (h : Keyed b key val m) (hnew : ∀ f ∈ b, key f ≠ key e) :
    Keyed (b ++ [e]) key val (update m (key e) (some (val e))) where
  nodup := by
    rw [map_append, nodup_append_comm]
    refine nodup_cons.mpr ⟨fun hmem => ?_, h.nodup⟩
    obtain ⟨f, hf, hkey⟩ := mem_map.mp hmem
    exact hnew f hf hkey
  get := forall_mem_append.mpr ⟨fun f hf => by rw [update_of_ne (hnew f hf), h.get f hf],
    forall_mem_singleton.mpr (update_self ..)⟩
  mem k v hv := by
    rw [update_apply] at hv
    split_ifs at hv with hk
    · exact ⟨e, mem_append_right b (mem_singleton_self e), hk.symm, Option.some.inj hv⟩
    · obtain ⟨f, hf, hfv⟩ := h.mem k v hv
      exact ⟨f, mem_append_left _ hf, hfv⟩

theorem Keyed.erase (h : Keyed b key val m) (hkey : ∀ f ∈ b, stays f = true ↔ key f ≠ k0) :
    Keyed (b.filter stays) key val (update m k0 none) where
  nodup := h.nodup.sublist (filter_sublist.map key)
  get f hf := by
    obtain ⟨hf, hstays⟩ := mem_filter.mp hf
    rw [update_of_ne ((hkey f hf).mp hstays), h.get f hf]
  mem k v hv := by
    rw [update_apply] at hv
    split_ifs at hv with hk
    obtain ⟨f, hf, hfk, hfv⟩ := h.mem k v hv
    exact ⟨f, mem_filter.mpr ⟨hf, (hkey f hf).mpr (hfk ▸ hk)⟩, hfk, hfv⟩

end Keyed

section Indexed

variable {key : Worker → κ} {el : Nat × Worker → α} {index : κ → List α}

/-- An index of the book. -/
def Indexed (b : Book) (el : Nat × Worker → α) (key : Worker → κ) (index : κ → List α) : Prop :=
  ∀ k, index k = (b.filter (key ·.2 = k)).map el

theorem Indexed.push (h : Indexed b el key index) :
    Indexed (b ++ [e]) el key (push index (key e.2) (el e)) := by
  intro k
  rw [filter_append, map_append, ← h k]
  unfold WorkerRegistry.push
  by_cases hk : k = key e.2
  · rw [hk, update_self, filter_cons_of_pos (by simp)]
    rfl
  · rw [update_of_ne hk, filter_cons_of_neg (by simpa using Ne.symm hk)]
    exact (List.append_nil _).symm

theorem Indexed.retain (h : Indexed b el key index) {keep : α → Bool}
    (hkeep : ∀ f ∈ b, keep (el f) = stays f) (hgone : ∀ f ∈ b, stays f = false → f = e) :
    Indexed (b.filter stays) el key (retain index (key e.2) keep) := by
  intro k
  unfold WorkerRegistry.retain
  by_cases hk : k = key e.2
  · rw [hk, update_self, h, filter_map, filter_filter, filter_filter]
    refine congrArg (List.map el) (filter_congr fun f hf => ?_)
    rw [Function.comp_apply, hkeep f hf, Bool.and_comm]
  rw [update_of_ne hk, h k, filter_filter]
  refine congrArg (List.map el) (filter_congr fun f hf => ?_)
  cases hs : stays f with
  | true => exact (Bool.and_true _).symm
  | false =>
    rw [Bool.and_false, decide_eq_false_iff_not]
    exact fun hf' => hk (hgone f hf hs ▸ hf'.symm)

/-- What is indexed by the workers themselves is a list of them. -/
theorem Indexed.lists {index : κ → List Worker} (h : Indexed b Prod.snd key index)
    (hurls : (b.map (·.2.url)).Nodup) (k : κ) : Lists b (key · = k) (index k) := by
  rw [h k]
  refine ⟨?_, fun w => ?_⟩
  · have hall : (b.map Prod.snd).Nodup := by
      refine List.Nodup.of_map Worker.url ?_
      rwa [map_map]
    exact hall.sublist (filter_sublist.map _)
  · simp only [mem_map, mem_filter, decide_eq_true_eq, Prod.exists, exists_eq_right]
    rw [exists_and_right, and_comm]

end Indexed

end Maps

/-- The registry has the book. -/
structure Inv (r : WorkerRegistry) (b : Book) : Prop where
  urlToId : Keyed b (·.2.url) Prod.fst r.urlToId
  workers : Keyed b Prod.fst Prod.snd r.workers
  models : Indexed b Prod.fst Worker.modelId r.modelWorkers
  fast : Indexed b Prod.snd Worker.modelId r.modelIndex
  types : Indexed b Prod.fst Worker.workerType r.typeWorkers
  connections : Indexed b Prod.fst Worker.connectionMode r.connectionWorkers

variable {r : WorkerRegistry} {b : Book} {w : Worker} {e : Nat × Worker}

theorem inv_new : Inv new [] :=
  ⟨⟨by simp, by simp, by simp [new]⟩, ⟨by simp, by simp, by simp [new]⟩, fun _ => rfl,
    fun _ => rfl, fun _ => rfl, fun _ => rfl⟩

section

variable (h : Inv r b)
include h

/-- A worker with a new url is entered in every map. -/
theorem Inv.register {newId : Nat} (hfresh : r.workers newId = none)
    (hnone : r.urlToId w.url = none) :
    Inv (r.register w newId) (b.call (.register w newId)) := by
  have hnew : ∀ f ∈ b, f.2.url ≠ w.url := by
    intro f hf hurl
    rw [← hurl, h.urlToId.get f hf] at hnone
    cases hnone
  have hid : ∀ f ∈ b, f.1 ≠ newId := by
    intro f hf heq
    rw [← heq, h.workers.get f hf] at hfresh
    cases hfresh
  have hbook : b.call (.register w newId) = b ++ [(newId, w)] := by
    have hlast : b.last w.url = none := by simpa [Book.last] using hnew
    simp only [Book.call, hlast, Option.map_none, Option.getD_none]
    rw [List.filter_eq_self.mpr fun f hf => decide_eq_true (hnew f hf)]
  rw [hbook]
  simp only [WorkerRegistry.register, hnone, Option.getD_none]
  exact ⟨h.urlToId.insert hnew, h.workers.insert hid, h.models.push, h.fast.push,
    h.types.push, h.connections.push⟩

/-- The worker with an id is the one under its URL. -/
theorem Inv.id_iff_url (he : e ∈ b) : ∀ f ∈ b, f.1 = e.1 ↔ f.2.url = e.2.url := by
  intro f hf
  constructor
  · intro hid
    rw [inj_on_of_nodup_map h.workers.nodup hf he hid]
  · intro hurl
    rw [inj_on_of_nodup_map h.urlToId.nodup hf he hurl]

/-- A worker is taken out of every map. -/
theorem Inv.remove (he : e ∈ b) : Inv (r.remove e.1) (b.filter (·.1 ≠ e.1)) := by
  have hsame := h.id_iff_url he
  have hgone : ∀ f ∈ b, decide (f.1 ≠ e.1) = false → f = e := by
    intro f hf hid
    exact inj_on_of_nodup_map h.workers.nodup hf he (by simpa using hid)
  unfold WorkerRegistry.remove
  rw [h.workers.get e he]
  refine ⟨h.urlToId.erase fun f hf => ?_, h.workers.erase fun f hf => ?_, ?_, ?_, ?_, ?_⟩
  · simp [hsame f hf]
  · simp
  · exact h.models.retain (fun _ _ => rfl) hgone
  · exact h.fast.retain (fun f hf => by simp [hsame f hf]) hgone
  · exact h.types.retain (fun _ _ => rfl) hgone
  · exact h.connections.retain (fun _ _ => rfl) hgone

/-- The id is the one of the URL, so taking the URL out first changes nothing. -/
theorem removeByUrl_eq (he : e ∈ b) : r.removeByUrl e.2.url = r.remove e.1 := by
  simp [removeByUrl, h.urlToId.get e he, WorkerRegistry.remove, h.workers.get e he]

/-- Every call keeps the maps and the book together. -/
theorem Inv.call {call : Call} (hfresh : call.Fresh r) (hmeets : Meets (r, b) call) :
    Inv (r.call call) (b.call call) := by
  cases call with
  | register w newId => exact h.register hfresh hmeets
  | remove id =>
    simp only [WorkerRegistry.call, Book.call]
    cases hget : r.workers id with
    | some w =>
      obtain ⟨e, he, rfl, -⟩ := h.workers.mem id w hget
      exact h.remove he
    | none =>
      rw [List.filter_eq_self.mpr, WorkerRegistry.remove, hget]
      · exact h
      · intro f hf
        refine decide_eq_true fun hid => ?_
        rw [← hid, h.workers.get f hf] at hget
        cases hget
  | removeByUrl url =>
    -- A URL and its id name the same worker, so this is `remove`.
    simp only [WorkerRegistry.call, Book.call]
    cases hget : r.urlToId url with
    | some id =>
      obtain ⟨e, he, rfl, -⟩ := h.urlToId.mem url id hget
      rw [removeByUrl_eq h he, ← filter_congr (p := fun f => decide (f.1 ≠ e.1))]
      · exact h.remove he
      · intro f hf
        simp [h.id_iff_url he f hf]
    | none =>
      rw [List.filter_eq_self.mpr, removeByUrl, hget]
      · exact h
      · intro f hf
        refine decide_eq_true fun hurl => ?_
        rw [← hurl, h.urlToId.get f hf] at hget
        cases hget

/-- Looking the ids of an index up gives an index of the workers. -/
theorem Inv.looked {κ : Type} [DecidableEq κ] {key : Worker → κ}
    {index : κ → List Nat} (hindex : Indexed b Prod.fst key index) :
    Indexed b Prod.snd key fun k => (index k).filterMap r.workers := by
  intro k
  beta_reduce
  rw [hindex k, filterMap_map, ← filterMap_eq_map]
  exact filterMap_congr fun f hf => h.workers.get f (mem_filter.mp hf).1

theorem Inv.exact : Exact r b where
  byUrl u := by
    unfold getByUrl
    cases hlast : b.last u with
    | some e =>
      have hurl : e.2.url = u := by simpa using find?_some hlast
      have he := mem_of_find?_eq_some hlast
      rw [← hurl, h.urlToId.get e he, Option.bind_some, h.workers.get e he, Option.map_some]
    | none =>
      cases hget : r.urlToId u with
      | none => rfl
      | some id =>
        obtain ⟨f, hf, hurl, -⟩ := h.urlToId.mem u id hget
        exact absurd (decide_eq_true hurl) (find?_eq_none.mp hlast f hf)
  byModel := (h.looked h.models).lists h.urlToId.nodup
  byModelFast := h.fast.lists h.urlToId.nodup
  byType := (h.looked h.types).lists h.urlToId.nodup
  byConnection := (h.looked h.connections).lists h.urlToId.nodup

end

/-- If no URL is registered while it already is, the queries are right in every state. -/
theorem queries_exact {tr : List ((WorkerRegistry × Book) × Call × (WorkerRegistry × Book))}
    {s : WorkerRegistry × Book} (hrun : Run Step (new, []) tr s)
    (hmeets : ∀ e ∈ tr, Meets e.1 e.2.1) : Exact s.1 s.2 ∧ ∀ e ∈ tr, Exact e.2.2.1 e.2.2.2 := by
  have hinv := hrun.inv_of_guard hmeets (P := fun s => Inv s.1 s.2) inv_new
    fun t call u h hcall hstep => by
      rw [hstep.2]
      exact h.call hstep.1 hcall
  exact ⟨hinv.1.exact, fun e he => (hinv.2 e he).exact⟩

/-- A worker that is registered, removed and registered again. -/
theorem queries_exact_again : let w : Worker := ⟨"http://a", "llama", .regular, .http, 0⟩
    let r₁ := (new.register w 0).removeByUrl w.url
    Exact (r₁.register w 1) [(1, w)] ∧ (r₁.register w 1).getByModelFast "llama" = [w] := by
  intro w r₁
  have hadd : Step (new, []) (.register w 0) (new.register w 0, [(0, w)]) := ⟨rfl, rfl⟩
  have hdrop : Step (new.register w 0, [(0, w)]) (.removeByUrl w.url) (r₁, []) :=
    ⟨trivial, Prod.ext rfl (by decide)⟩
  have hagain : Step (r₁, []) (.register w 1) (r₁.register w 1, [(1, w)]) := ⟨rfl, rfl⟩
  have hrun := ((Run.nil.snoc _ hadd).snoc _ hdrop).snoc _ hagain
  refine ⟨(queries_exact hrun ?_).1, rfl⟩
  simp [Meets]
  decide

/-- A worker that is registered again with another model is still found under the first
    one, and twice where it did not change. -/
theorem reregistered_stale : let w : Worker := ⟨"http://a", "llama", .regular, .http, 0⟩
    let w' : Worker := ⟨"http://a", "qwen", .regular, .http, 1⟩
    let r := (new.register w 0).register w' 1
    r.getByModel "llama" = [w'] ∧ r.getByModelFast "llama" = [w] ∧
      r.getByType .regular = [w', w'] ∧ (r.removeByUrl w.url).getByModelFast "llama" = [w] := by
  decide

end SglangInc.Registry
