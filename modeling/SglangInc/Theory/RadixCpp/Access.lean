import SglangInc.Lib.Runs
import SglangInc.Core.RadixCpp

/-!
# Accesses to the C++ Radix Tree

An operation of the cache looks keys up and inserts values, and moves locks. A
lookup or an insertion reads and writes the entry of the root's dictionary that
its first page names, and nothing else.

Two runs number their nodes differently and hand out other indices, so trees
are compared by their tokens and by how many indices each node has
(`content`). Locks are forgotten as well.

## Theorems

* `length_matched_same`, `mem_matched`: What a match returns.
-/

namespace SglangInc.RadixCpp

open Forest Option RadixTree
open Radix (TokenId RadixKey)
open Serving (Req slice)
open Kv (Allocator)
open Checked (bind_eq_ok)

section Content

/-- What two runs can have in common in a node. -/
def content (n : TreeNode) : List TokenId × Nat := (n.tokens, n.deviceIndices.length)

/-- The entry of a page has the same content in both trees. -/
def SameAt (page : List TokenId) (f₁ f₂ : Children) : Prop :=
  (f₁.map content).lookup page = (f₂.map content).lookup page

variable {page : List TokenId} {f₁ f₂ f₁' f₂' : Children}

/-- The entries of a page in two trees were replaced, by entries of the same
    content, or both trees are as they were. -/
def Replaced (page : List TokenId) (f₁ f₁' f₂ f₂' : Children) : Prop :=
  (f₁' = f₁ ∧ f₂' = f₂) ∨
  ∃ x₁ t₁ x₂ t₂, f₁' = f₁.set page x₁ t₁ ∧ f₂' = f₂.set page x₂ t₂ ∧
    content x₁ = content x₂ ∧ t₁.map content = t₂.map content

theorem Replaced.sameAt (h : Replaced page f₁ f₁' f₂ f₂') (hsame : SameAt page f₁ f₂) :
    SameAt page f₁' f₂' := by
  rcases h with ⟨rfl, rfl⟩ | ⟨x₁, t₁, x₂, t₂, rfl, rfl, hx, ht⟩
  · exact hsame
  · rw [SameAt, map_set, map_set, lookup_set_self, lookup_set_self, hx, ht]

theorem Replaced.map_eq (h : Replaced page f₁ f₁' f₂ f₂')
    (heq : f₁.map content = f₂.map content) : f₁'.map content = f₂'.map content := by
  rcases h with ⟨rfl, rfl⟩ | ⟨x₁, t₁, x₂, t₂, rfl, rfl, hx, ht⟩
  · exact heq
  · rw [map_set, map_set, heq, hx, ht]

/-- The entries themselves, when the content is the same. -/
theorem SameAt.cases (h : SameAt page f₁ f₂) : (f₁.lookup page = none ∧ f₂.lookup page = none) ∨
    ∃ x₁ t₁ x₂ t₂, f₁.lookup page = some (x₁, t₁) ∧ f₂.lookup page = some (x₂, t₂) ∧
      content x₁ = content x₂ ∧ t₁.map content = t₂.map content := by
  rw [SameAt, lookup_map, lookup_map] at h
  rcases h1 : f₁.lookup page with _ | ⟨x₁, t₁⟩ <;> rcases h2 : f₂.lookup page with _ | ⟨x₂, t₂⟩ <;>
    rw [h1, h2] at h
  · exact .inl ⟨rfl, rfl⟩
  iterate 2 · exact absurd h (by simp)
  · rw [map_some, map_some, some.injEq, Prod.mk.injEq] at h
    exact .inr ⟨x₁, t₁, x₂, t₂, rfl, rfl, h.1, h.2⟩

end Content

section Walks

variable {pageSize rounds : Nat} {f : Children} {key : List TokenId} {x : TreeNode} {t : Children}

/-- How far a key goes into a node. -/
def prefixLength (pageSize : Nat) (node : TreeNode) (key : List TokenId) : Nat :=
  align pageSize (diffKey node key pageSize + pageSize)

theorem treeWalk_done (hkey : ¬ key.length > 0) (c : Nat) :
    treeWalk pageSize rounds f key c = ⟨[], 0, f, c⟩ := by
  cases rounds with
  | zero => rfl
  | succ rounds => rw [treeWalk, if_neg hkey]

theorem treeWalk_missing (hl : f.lookup (getKey pageSize key) = none) (c : Nat) :
    treeWalk pageSize rounds f key c = ⟨[], 0, f, c⟩ := by
  cases rounds with
  | zero => rfl
  | succ rounds =>
    rw [treeWalk, hl]
    exact ite_self _

theorem treeWalk_split (hkey : key.length > 0) (hl : f.lookup (getKey pageSize key) = some (x, t))
    (hp : prefixLength pageSize x key < x.tokens.length) (c : Nat) :
    treeWalk pageSize (rounds + 1) f key c =
      let p := prefixLength pageSize x key
      ⟨[getKey pageSize key], p, f.set (getKey pageSize key) (x.newNode p c)
        (.cons (getKey pageSize (x.oldPart p).tokens) (x.oldPart p) t .nil), c + 1⟩ := by
  rw [treeWalk, if_pos hkey, hl]
  exact if_pos hp

theorem treeWalk_down (hkey : key.length > 0) (hl : f.lookup (getKey pageSize key) = some (x, t))
    (hp : ¬ prefixLength pageSize x key < x.tokens.length) (c : Nat) :
    treeWalk pageSize (rounds + 1) f key c =
      let rest := treeWalk pageSize rounds t (key.drop (prefixLength pageSize x key)) c
      ⟨getKey pageSize key :: rest.address, prefixLength pageSize x key + rest.totalPrefixLength,
        f.set (getKey pageSize key) x rest.children, rest.nodeCounter⟩ := by
  rw [treeWalk, if_pos hkey, hl]
  exact if_neg hp

/-- A walk depends on the content of one entry. -/
theorem treeWalk_same (rounds : Nat) {f₁ f₂ : Children} {key : List TokenId} (c1 c2 : Nat)
    (h : SameAt (getKey pageSize key) f₁ f₂) :
    let w1 := treeWalk pageSize rounds f₁ key c1
    let w2 := treeWalk pageSize rounds f₂ key c2
    w1.address = w2.address ∧ w1.totalPrefixLength = w2.totalPrefixLength ∧
      Replaced (getKey pageSize key) f₁ w1.children f₂ w2.children := by
  induction rounds generalizing f₁ f₂ key with
  | zero => exact ⟨rfl, rfl, .inl ⟨rfl, rfl⟩⟩
  | succ rounds ih =>
    by_cases hkey : key.length > 0
    · rcases h.cases with ⟨h1, h2⟩ | ⟨x₁, t₁, x₂, t₂, h1, h2, hx, ht⟩
      · rw [treeWalk_missing h1, treeWalk_missing h2]
        exact ⟨rfl, rfl, .inl ⟨rfl, rfl⟩⟩
      · have htokens : x₁.tokens = x₂.tokens := congrArg Prod.fst hx
        have hlength : x₁.deviceIndices.length = x₂.deviceIndices.length := congrArg Prod.snd hx
        have hsplit : prefixLength pageSize x₁ key = prefixLength pageSize x₂ key := by
          rw [prefixLength, prefixLength, diffKey, diffKey, htokens]
        by_cases hp : prefixLength pageSize x₂ key < x₂.tokens.length
        · rw [treeWalk_split hkey h1 (by rwa [hsplit, htokens]), treeWalk_split hkey h2 hp, hsplit]
          refine ⟨rfl, rfl, .inr ⟨_, _, _, _, rfl, rfl, ?_, ?_⟩⟩
          · simp [content, TreeNode.newNode, htokens, hlength]
          · simp [map, content, TreeNode.oldPart, htokens, hlength, ht]
        · rw [treeWalk_down hkey h1 (by rwa [hsplit, htokens]), treeWalk_down hkey h2 hp, hsplit]
          rcases @ih t₁ t₂ (key.drop (prefixLength pageSize x₂ key))
            (by rw [SameAt, ht]) with ⟨ha, htotal, hrest⟩
          exact ⟨congrArg (getKey pageSize key :: ·) ha,
            congrArg (prefixLength pageSize x₂ key + ·) htotal,
            .inr ⟨_, _, _, _, rfl, rfl, hx, hrest.map_eq ht⟩⟩
    · rw [treeWalk_done hkey, treeWalk_done hkey]
      exact ⟨rfl, rfl, .inl ⟨rfl, rfl⟩⟩

/-- A walk changes the entry of its first page, or nothing, and its address starts
    there, or nothing was matched. What holds of the nodes there before holds after
    it, if a split keeps it. -/
theorem treeWalk_entry {R : TreeNode → Prop} (hnew : ∀ x p c, R x → R (x.newNode p c))
    (hold : ∀ x p, R x → R (x.oldPart p)) (rounds : Nat) {f : Children} {key : List TokenId}
    (c : Nat) (h : EntryAll R (getKey pageSize key) f) :
    let w := treeWalk pageSize rounds f key c
    (w.children = f ∧ w.address = [] ∧ w.totalPrefixLength = 0) ∨
    ∃ x t rest, w.children = f.set (getKey pageSize key) x t ∧
      w.address = getKey pageSize key :: rest ∧ R x ∧ t.All fun _ y _ => R y := by
  induction rounds generalizing f key with
  | zero => exact .inl ⟨rfl, rfl, rfl⟩
  | succ rounds ih =>
    by_cases hkey : key.length > 0
    · rcases hl : f.lookup (getKey pageSize key) with _ | ⟨x, t⟩
      · rw [treeWalk_missing hl]
        exact .inl ⟨rfl, rfl, rfl⟩
      · rcases h x t hl with ⟨hx, ht⟩
        by_cases hp : prefixLength pageSize x key < x.tokens.length
        · rw [treeWalk_split hkey hl hp]
          exact .inr ⟨_, _, _, rfl, rfl, hnew _ _ _ hx, hold _ _ hx, ht, trivial⟩
        rw [treeWalk_down hkey hl hp]
        refine .inr ⟨_, _, _, rfl, rfl, hx, ?_⟩
        rcases ih (f := t) (fun _ _ hl => all_lookup ht hl) with
          ⟨heq, -⟩ | ⟨y, u, _, heq, -, hy, hu⟩
        · rwa [heq]
        · rw [heq]
          exact all_set ht hy hu
    · rw [treeWalk_done hkey]
      exact .inl ⟨rfl, rfl, rfl⟩

theorem walk_shape (t : RadixTree) (key : List TokenId) :
    let w := t.walk key
    (w.children = t.children ∧ w.address = [] ∧ w.totalPrefixLength = 0) ∨
    ∃ x s rest, w.children = t.children.set (getKey t.pageSize key) x s ∧
      w.address = getKey t.pageSize key :: rest := by
  have hentry : EntryAll (fun _ => True) (getKey t.pageSize key) t.children :=
    fun _ s _ => ⟨trivial, all_true s⟩
  rcases treeWalk_entry (fun _ _ _ => id) (fun _ _ => id) key.length t.nodeCounter hentry
    with h | ⟨x, s, rest, hc, ha, -⟩
  · exact .inl h
  · exact .inr ⟨x, s, rest, hc, ha⟩

end Walks

section Accesses

/-- What an operation does in the tree: it looks a key up, or inserts a value
    for it. -/
structure Access where
  key : RadixKey
  value : Option (List Nat)

/-- The accesses of an operation, in order. -/
def Op.accesses : Op → List Access
  | .matchPrefix key => [⟨key, none⟩]
  | .cacheFinished req isInsert =>
    if isInsert then [⟨finishedKey req, some (req.reqToToken.take req.kvCommittedLen)⟩] else []
  | .cacheUnfinished req =>
    [⟨unfinishedKey req, some (req.reqToToken.take req.fillIds.length)⟩, ⟨unfinishedKey req, none⟩]
  | .lockRef _ _ => []

/-- The tree after an access that raises nothing. -/
inductive Accessed (t : RadixTree) : Access → RadixTree → Prop
  | lookup (key : RadixKey) : Accessed t ⟨key, none⟩ (t.matchPrefix key.tokenIds).2
  | insert {key : RadixKey} {value : List Nat} {n : Nat} {t' : RadixTree} :
      t.writingThrough key.tokenIds value = .ok (n, t') → Accessed t ⟨key, some value⟩ t'

/-- The first page, if there is one. -/
def firstPage (pageSize : Nat) (tokens : List TokenId) : Option (List TokenId) :=
  if pageSize ≤ tokens.length then some (tokens.take pageSize) else none

variable {t t' t₁ t₂ t1' t2' : RadixTree} {a : Access} {page : List TokenId}

theorem getKey_aligned (h : firstPage t.pageSize a.key.tokenIds = some page) :
    getKey t.pageSize (t.aligned a.key.tokenIds) = page := by
  unfold firstPage at h
  split_ifs at h with hle
  rw [some.injEq] at h
  rw [getKey, aligned, List.take_take, ← h]
  by_cases hps : t.pageSize = 0
  · rw [hps, Nat.zero_min]
  · have hone : 1 ≤ a.key.tokenIds.length / t.pageSize :=
      (Nat.one_le_div_iff (Nat.pos_of_ne_zero hps)).mpr hle
    have hmul := Nat.mul_le_mul_right t.pageSize hone
    rw [Nat.one_mul] at hmul
    rw [align, Nat.min_eq_left hmul]

theorem aligned_eq_nil (h : firstPage t.pageSize a.key.tokenIds = none) :
    t.aligned a.key.tokenIds = [] := by
  unfold firstPage at h
  split_ifs at h with hle
  rw [aligned, align, Nat.div_eq_of_lt (not_le.mp hle), Nat.zero_mul, List.take_zero]

/-- The children after the walk of an access. -/
def grown (pageSize : Nat) (key : List TokenId) (value : Option (List Nat)) (w : Walked) :
    Children :=
  match value with
  | none => w.children
  | some value =>
    if w.totalPrefixLength ≠ key.length then
      w.children.setAt w.address (getKey pageSize (key.drop w.totalPrefixLength))
        ⟨w.nodeCounter, key.drop w.totalPrefixLength, slice value w.totalPrefixLength key.length, 0⟩
    else w.children

/-- The children after an access to a tree that is not disabled. -/
def accessed (t : RadixTree) (a : Access) : Children :=
  grown t.pageSize (t.aligned a.key.tokenIds) a.value (t.walk (t.aligned a.key.tokenIds))

/-- What an access does to the tree. -/
theorem Accessed.cases (h : Accessed t a t') : t'.disabled = t.disabled ∧ t'.pageSize = t.pageSize ∧
    (t.disabled = true → t'.children = t.children) ∧
    (t.disabled = false → t'.children = accessed t a ∧
      ∀ value, a.value = some value → value.length = a.key.tokenIds.length) := by
  cases h with
  | lookup key =>
    unfold RadixTree.matchPrefix
    split_ifs with hd
    · exact ⟨rfl, rfl, fun _ => rfl, fun he => absurd (he.symm.trans hd) Bool.false_ne_true⟩
    · exact ⟨rfl, rfl, fun he => absurd he hd, fun _ =>
        ⟨rfl, fun _ hv => by cases hv⟩⟩
  | @insert key value n _ hw =>
    unfold writingThrough at hw
    split_ifs at hw with hd hlen
    · cases hw
      exact ⟨rfl, rfl, fun _ => rfl, fun he => absurd (he.symm.trans hd) Bool.false_ne_true⟩
    have hvalue : ∀ v, some value = some v → v.length = key.tokenIds.length := fun v hv => by
      cases hv
      exact (of_not_not hlen).symm
    simp only at hw
    split_ifs at hw with htotal
    · cases hw
      exact ⟨rfl, rfl, fun he => absurd he hd, fun _ => ⟨(if_pos htotal).symm, hvalue⟩⟩
    · cases hw
      exact ⟨rfl, rfl, fun he => absurd he hd, fun _ => ⟨(if_neg htotal).symm, hvalue⟩⟩

/-- The entry that a new node goes to is that of the first page. -/
theorem entryKey_walk (t : RadixTree) (key : List TokenId) :
    entryKey (t.walk key).address (getKey t.pageSize (key.drop (t.walk key).totalPrefixLength)) =
      getKey t.pageSize key := by
  rcases walk_shape t key with ⟨-, ha, htotal⟩ | ⟨_, _, rest, -, ha⟩
  · rw [ha, htotal, List.drop_zero]
    rfl
  · rw [ha]
    rfl

theorem lookup_walk_of_ne {key : List TokenId} (hne : page ≠ getKey t.pageSize key) :
    (t.walk key).children.lookup page = t.children.lookup page := by
  rcases walk_shape t key with ⟨heq, -⟩ | ⟨x, s, _, heq, -⟩
  · rw [heq]
  · rw [heq]
    exact lookup_set_of_ne hne _ _ _

/-- An access leaves the entries of other pages as they are. -/
theorem Accessed.lookup_of_ne (h : Accessed t a t')
    (hne : firstPage t.pageSize a.key.tokenIds ≠ some page) :
    t'.children.lookup page = t.children.lookup page := by
  rcases h.cases with ⟨_, _, hsame, hacc⟩
  cases hd : t.disabled with
  | true => rw [hsame hd]
  | false =>
    rw [(hacc hd).1]
    rcases hpage : firstPage t.pageSize a.key.tokenIds with _ | page'
    · -- The key has no page and is not walked.
      rw [accessed, aligned_eq_nil hpage]
      unfold grown
      cases a.value with
      | none => rfl
      | some value => exact congrArg (Forest.lookup page) (if_neg (not_not_intro rfl))
    have hkey := getKey_aligned hpage
    have hne' : page ≠ getKey t.pageSize (t.aligned a.key.tokenIds) := fun heq =>
      hne (hpage.trans (congrArg some (heq.trans hkey).symm))
    have hwalk := lookup_walk_of_ne hne'
    have hentry := entryKey_walk t (t.aligned a.key.tokenIds)
    unfold accessed grown
    cases a.value with
    | none => exact hwalk
    | some value =>
      split_ifs
      · rwa [lookup_setAt_of_ne (hentry.symm ▸ hne'.symm)]
      · exact hwalk

theorem walk_same (hps : t₁.pageSize = t₂.pageSize) (key : List TokenId)
    (h : SameAt (getKey t₂.pageSize key) t₁.children t₂.children) :
    (t₁.walk key).address = (t₂.walk key).address ∧
    (t₁.walk key).totalPrefixLength = (t₂.walk key).totalPrefixLength ∧
    SameAt (getKey t₂.pageSize key) (t₁.walk key).children (t₂.walk key).children := by
  rcases treeWalk_same key.length t₁.nodeCounter t₂.nodeCounter h with
    ⟨haddress, htotal, hreplaced⟩
  rw [RadixTree.walk, RadixTree.walk, hps]
  exact ⟨haddress, htotal, hreplaced.sameAt h⟩

/-- Trees that agree at a page grow alike there. -/
theorem grown_same {pageSize : Nat} {key : List TokenId} {value1 value2 : Option (List Nat)}
    {w1 w2 : Walked} (haddress : w1.address = w2.address)
    (htotal : w1.totalPrefixLength = w2.totalPrefixLength)
    (hlen : value1.map List.length = value2.map List.length)
    (hentry : entryKey w2.address (getKey pageSize (key.drop w2.totalPrefixLength)) = page)
    (h : SameAt page w1.children w2.children) :
    SameAt page (grown pageSize key value1 w1) (grown pageSize key value2 w2) := by
  unfold grown
  rcases value1 with _ | v1 <;> rcases value2 with _ | v2
  · exact h
  iterate 2 · exact absurd hlen (by simp)
  · rw [map_some, map_some, some.injEq] at hlen
    simp only [htotal, haddress]
    split_ifs
    · rw [SameAt, map_setAt, map_setAt]
      simp only [content, slice, List.length_drop, List.length_take, hlen]
      exact lookup_setAt_congr hentry h _
    · exact h

/-- Accesses of the same kind keep the content of their entry the same. -/
theorem Accessed.sameAt {a1 a2 : Access} (h1 : Accessed t₁ a1 t1') (h2 : Accessed t₂ a2 t2')
    (hd : t₁.disabled = t₂.disabled) (hps : t₁.pageSize = t₂.pageSize)
    (htokens : a1.key.tokenIds = a2.key.tokenIds) (hkind : a1.value.isSome = a2.value.isSome)
    (hpage : firstPage t₂.pageSize a2.key.tokenIds = some page)
    (h : SameAt page t₁.children t₂.children) : SameAt page t1'.children t2'.children := by
  rcases h1.cases with ⟨_, _, hsame1, hacc1⟩
  rcases h2.cases with ⟨_, _, hsame2, hacc2⟩
  cases hdis : t₂.disabled with
  | true => rwa [hsame1 (hd.trans hdis), hsame2 hdis]
  | false =>
    rcases hacc1 (hd.trans hdis) with ⟨heq1, hlen1⟩
    rcases hacc2 hdis with ⟨heq2, hlen2⟩
    have hkey := getKey_aligned hpage
    have haligned : t₁.aligned a1.key.tokenIds = t₂.aligned a2.key.tokenIds := by
      rw [aligned, aligned, hps, htokens]
    have hlen : a1.value.map List.length = a2.value.map List.length := by
      cases hv1 : a1.value with
      | none =>
        have hv2 := (Option.isSome_eq_isSome.mp hkind).mp hv1
        rw [hv2]
      | some v1 =>
        rw [hv1] at hkind
        obtain ⟨v2, hv2⟩ := isSome_iff_exists.mp hkind.symm
        rw [hv2, map_some, map_some, hlen1 v1 hv1, hlen2 v2 hv2, htokens]
    subst hkey
    rcases walk_same hps _ h with ⟨haddress, htotal, hwalked⟩
    rw [heq1, heq2, accessed, accessed, haligned, hps]
    exact grown_same haddress htotal hlen (entryKey_walk t₂ _) hwalked

end Accesses

section Steps

/-- Several accesses. -/
inductive AccessedAll : RadixTree → List Access → RadixTree → Prop
  | nil (t : RadixTree) : AccessedAll t [] t
  | cons {t t' t'' : RadixTree} {a : Access} {accesses : List Access} :
      Accessed t a t' → AccessedAll t' accesses t'' → AccessedAll t (a :: accesses) t''

/-- What locks leave as it is. -/
def bare (n : TreeNode) : List TokenId × List Nat := (n.tokens, n.deviceIndices)

/-- The trees differ in locks at most. -/
def Relocked (t t' : RadixTree) : Prop :=
  t'.disabled = t.disabled ∧ t'.pageSize = t.pageSize ∧ t'.children.map bare = t.children.map bare

variable {t t' : RadixTree} {s s' : State}

theorem Relocked.refl (t : RadixTree) : Relocked t t := ⟨rfl, rfl, rfl⟩

theorem Relocked.trans {t'' : RadixTree} (h : Relocked t t') (h' : Relocked t' t'') :
    Relocked t t'' :=
  ⟨h'.1.trans h.1, h'.2.1.trans h.2.1, h'.2.2.trans h.2.2⟩

theorem lockRef_relocked {node : Nat} {increment : Bool}
    (h : t.lockRef node increment = .ok t') : Relocked t t' := by
  have hmove : ∀ move : Nat → Nat, Relocked t { t with
      children := t.children.alterPath (·.nodeId == node) (TreeNode.moveRef move) } :=
    fun move => ⟨rfl, rfl, map_alterPath (h := TreeNode.moveRef move) (fun _ => rfl) _⟩
  unfold lockRef at h
  repeat' split at h
  all_goals cases h
  iterate 2 · exact Relocked.refl t
  all_goals exact hmove _

theorem moveLock_relocked {lastNode newLastNode : Nat}
    (h : moveLock t lastNode newLastNode = .ok t') : Relocked t t' := by
  unfold moveLock at h
  split_ifs at h
  · rcases bind_eq_ok.mp h with ⟨t₁, hdec, hinc⟩
    exact (lockRef_relocked hdec).trans (lockRef_relocked hinc)
  · exact Except.ok.inj h ▸ Relocked.refl t

/-- What an operation does in the tree: its accesses, and locks. -/
theorem step_accesses {op : Op} (h : Step s op s') :
    ∃ t, AccessedAll s.tree op.accesses t ∧ Relocked t s'.tree := by
  cases op with
  | matchPrefix key =>
    rw [show s' = _ from h]
    exact ⟨_, .cons (.lookup key) (.nil _), Relocked.refl _⟩
  | lockRef node increment =>
    rcases h with ⟨t, hlock, rfl⟩
    exact ⟨_, .nil _, lockRef_relocked hlock⟩
  | cacheFinished req isInsert =>
    rcases h with ⟨t, a, hok, rfl⟩
    unfold cacheFinishedReq at hok
    split_ifs at hok with hinsert
    all_goals simp only [bind_eq_ok] at hok
    · rcases hok with ⟨⟨n, t₁⟩, hw, _, _, _, ⟨⟩, t₂, hlock, ⟨⟩⟩
      rw [Op.accesses, if_pos hinsert]
      exact ⟨t₁, .cons (.insert hw) (.nil _), lockRef_relocked hlock⟩
    · rcases hok with ⟨_, ⟨⟩, t₂, hlock, ⟨⟩⟩
      rw [Op.accesses, if_neg hinsert]
      exact ⟨s.tree, .nil _, lockRef_relocked hlock⟩
  | cacheUnfinished req =>
    rcases h with ⟨t, a, req', hok, rfl⟩
    simp only [cacheUnfinishedReq, bind_eq_ok] at hok
    rcases hok with ⟨⟨n, t₁⟩, hw, _, _, _, _, t₂, hlock, _, _, ⟨⟩⟩
    exact ⟨_, .cons (.insert hw) (.cons (.lookup _) (.nil _)), moveLock_relocked hlock⟩

end Steps

section Matches

variable {page : List TokenId} {t t' : RadixTree} {key : RadixKey} {Q : Nat → Prop}

/-- A lookup of a page that has no entry adds none. -/
theorem Accessed.lookup_missing {a : Access} (h : Accessed t a t') (hv : a.value = none)
    (hpage : firstPage t.pageSize a.key.tokenIds = some page) (hl : t.children.lookup page = none) :
    t'.children.lookup page = none := by
  rcases h.cases with ⟨_, _, hsame, hacc⟩
  cases hd : t.disabled with
  | true => rwa [hsame hd]
  | false =>
    have hkey := getKey_aligned hpage
    rw [(hacc hd).1, accessed, hv]
    unfold grown RadixTree.walk
    rwa [treeWalk_missing (hkey ▸ hl)]

/-- What holds of the indices of an entry and of what is inserted there. -/
theorem Accessed.entryAll {a : Access} (h : Accessed t a t')
    (hpage : firstPage t.pageSize a.key.tokenIds = some page)
    (hvalue : ∀ value, a.value = some value → ∀ i ∈ value, Q i)
    (hall : EntryAll (fun n => ∀ i ∈ n.deviceIndices, Q i) page t.children) :
    EntryAll (fun n => ∀ i ∈ n.deviceIndices, Q i) page t'.children := by
  rcases h.cases with ⟨_, _, hsame, hacc⟩
  cases hd : t.disabled with
  | true => rwa [hsame hd]
  | false =>
    have hkey := getKey_aligned hpage
    subst hkey
    -- A split leaves the indices of a node to its two parts.
    have hwalk : EntryAll (fun n => ∀ i ∈ n.deviceIndices, Q i)
        (getKey t.pageSize (t.aligned a.key.tokenIds))
        (t.walk (t.aligned a.key.tokenIds)).children := by
      rcases treeWalk_entry (fun x p c hx i hi => hx i (List.mem_of_mem_take hi))
        (fun x p hx i hi => hx i (List.mem_of_mem_drop hi)) _ t.nodeCounter hall with
        ⟨heq, -⟩ | ⟨x, s, _, heq, -, hx, hs⟩
      · rwa [RadixTree.walk, heq]
      · rw [RadixTree.walk, heq]
        exact entryAll_set hx hs
    have hentry := entryKey_walk t (t.aligned a.key.tokenIds)
    rw [(hacc hd).1]
    unfold accessed grown
    cases hv : a.value with
    | none => exact hwalk
    | some value =>
      split_ifs
      · refine hwalk.setAt hentry fun i hi => hvalue value hv i ?_
        exact List.mem_of_mem_take (List.mem_of_mem_drop hi)
      · exact hwalk

/-- What a match returns has the length of the content that it walks over. -/
theorem length_matched (t : RadixTree) (key : RadixKey) (hd : t.disabled = false) :
    (matchPrefix t key).1.deviceIndices.length =
      ((((t.walk (t.aligned key.tokenIds)).children.map content).along
        (t.walk (t.aligned key.tokenIds)).address).map Prod.snd).sum := by
  rw [← map_along, List.map_map]
  unfold matchPrefix RadixTree.matchPrefix
  rw [if_neg (by rw [hd]; exact Bool.false_ne_true)]
  simp only [List.length_flatten, List.map_map]
  rfl

theorem matched_of_disabled (hd : t.disabled = true) (key : RadixKey) :
    (matchPrefix t key).1.deviceIndices = [] := by
  unfold matchPrefix RadixTree.matchPrefix
  rw [if_pos hd]
  rfl

theorem matched_of_firstPage (h : firstPage t.pageSize key.tokenIds = none) :
    (matchPrefix t key).1.deviceIndices = [] := by
  have hnil := aligned_eq_nil (a := ⟨key, none⟩) h
  unfold matchPrefix RadixTree.matchPrefix
  split_ifs with hd
  · rfl
  · simp only [hnil]
    rfl

/-- A match finds as much in two trees that agree at its first page. -/
theorem length_matched_same {t₁ t₂ : RadixTree} (hd : t₁.disabled = t₂.disabled)
    (hps : t₁.pageSize = t₂.pageSize) (hpage : firstPage t₂.pageSize key.tokenIds = some page)
    (h : SameAt page t₁.children t₂.children) :
    (matchPrefix t₁ key).1.deviceIndices.length = (matchPrefix t₂ key).1.deviceIndices.length := by
  cases hd2 : t₂.disabled with
  | true => rw [matched_of_disabled (hd.trans hd2), matched_of_disabled hd2]
  | false =>
    have hkey := getKey_aligned (a := ⟨key, none⟩) hpage
    have halign : t₁.aligned key.tokenIds = t₂.aligned key.tokenIds := by
      rw [aligned, aligned, hps]
    rw [length_matched t₁ key (hd.trans hd2), length_matched t₂ key hd2, halign]
    rcases walk_same hps (t₂.aligned key.tokenIds) (by rw [hkey]; exact h) with
      ⟨haddress, _, hsame⟩
    rw [haddress]
    rcases walk_shape t₂ (t₂.aligned key.tokenIds) with ⟨-, ha, -⟩ | ⟨_, _, rest, -, ha⟩
    · rw [ha]
      rfl
    · rw [SameAt] at hsame
      simp [ha, along, hsame]

/-- What is found is in the entry of the first page. -/
theorem mem_matched (hpage : firstPage t.pageSize key.tokenIds = some page)
    (h : EntryAll (fun n => ∀ i ∈ n.deviceIndices, Q i) page t.children) :
    ∀ i ∈ (matchPrefix t key).1.deviceIndices, Q i := by
  intro i hi
  have hafter := (Accessed.lookup (t := t) key).entryAll hpage nofun h
  have hkey := getKey_aligned (a := ⟨key, none⟩) hpage
  unfold matchPrefix at hi
  unfold RadixTree.matchPrefix at hi hafter
  split_ifs at hi hafter
  · cases hi
  rcases List.mem_flatten.mp hi with ⟨indices, hindices, hmem⟩
  rcases List.mem_map.mp hindices with ⟨n, hn, rfl⟩
  rcases walk_shape t (t.aligned key.tokenIds) with ⟨-, ha, -⟩ | ⟨_, _, rest, -, ha⟩
  · rw [ha] at hn
    cases hn
  · rw [ha, hkey] at hn
    exact hafter.along rest n hn i hmem

end Matches

end SglangInc.RadixCpp
