import SglangInc.Lib.ForestBranches
import SglangInc.Lib.HashChain
import SglangInc.Theory.Radix.Edits

/-!
# The Pages of a Tree

A page of the tree is a page of a node's key, and what names it is the page with
all pages before it, from the top of the tree (`treePages`). A split moves pages
from one node to two and leaves the pages of the tree as they are; a leaf brings
its pages and takes them away.

With one extra key no page is there twice: two nodes in one dictionary have
different first pages, and what is below a node comes after its own pages.

## Theorems

* `treePages_split`, `treePages_add`: The edits.
-/

namespace SglangInc.Radix

open List Forest HashChain

/-- A page and the pages before it. -/
abbrev Page : Type := List (List TokenId) × List TokenId

/-- The pages of a node's key. -/
def TreeNode.pages (pageSize : Nat) (n : TreeNode) : List (List TokenId) :=
  chunks pageSize n.key.tokenIds

/-- The pages along a path. -/
def pathPages (pageSize : Nat) (path : List TreeNode) : List (List TokenId) :=
  path.flatMap (·.pages pageSize)

/-- The pages of a node, each with the pages before it. -/
def branchPages (pageSize : Nat) (b : List TreeNode × TreeNode) : List Page :=
  extensions (pathPages pageSize b.1) (b.2.pages pageSize)

/-- The pages of a tree. -/
def treePages (pageSize : Nat) (f : Children) : List Page :=
  (branches [] f).flatMap (branchPages pageSize)

variable {pageSize : Nat} {f f' : Children} {path : List TreeNode} {n : TreeNode} {s : Children}
  {j newId : Nat}

theorem pathPages_append (u v : List TreeNode) :
    pathPages pageSize (u ++ v) = pathPages pageSize u ++ pathPages pageSize v :=
  flatMap_append

theorem pathPages_singleton (n : TreeNode) : pathPages pageSize [n] = n.pages pageSize :=
  flatMap_singleton _ _

section Edits

/-- The pages of a node are those of its two halves. -/
theorem pages_split (hps : 0 < pageSize) (hj : pageSize ∣ j) (hlt : j < n.key.length)
    (newId : Nat) :
    (n.upper j newId).pages pageSize ++ (n.lower j).pages pageSize = n.pages pageSize := by
  have hlen : (n.key.tokenIds.take j).length = j := length_take_of_le hlt.le
  have happend := chunks_append (v := n.key.tokenIds.drop j) hps (hlen.symm ▸ hj)
  rw [take_append_drop] at happend
  exact happend.symm

theorem pathPages_split (hps : 0 < pageSize) (hj : pageSize ∣ j) (hlt : j < n.key.length)
    (newId : Nat) (above below : List TreeNode) :
    pathPages pageSize (above ++ [n.upper j newId, n.lower j] ++ below) =
      pathPages pageSize (above ++ [n] ++ below) := by
  simp only [pathPages_append, pathPages_singleton]
  rw [← pages_split hps hj hlt newId]
  simp [pathPages]

variable {b : List TreeNode × TreeNode} {leaf : TreeNode} {counter : Nat}

section Splits

variable (h : Edit (SplitAt pageSize n s j newId) path f f')
include h

/-- What a split takes away and adds: the node and what is below it. -/
theorem branches_split :
    (branches [] f' ++ (path, n) :: branches (path ++ [n]) s).Perm
      (branches [] f ++ (path, n.upper j newId) :: (path ++ [n.upper j newId], n.lower j) ::
        branches (path ++ [n.upper j newId, n.lower j]) s) := by
  refine h.branches [] ?_
  intro f _ hr
  cases hr with
  | @intro k below hl _ _ _ _ =>
    have hset := branches_set path hl (n.upper j newId) (.cons below (n.lower j) s .nil)
    simp only [branches, List.append_nil, append_assoc, singleton_append] at hset
    exact hset

/-- The node that is split, and what is below it. -/
theorem mem_branches_split :
    (path, n) ∈ branches [] f ∧ ∀ b ∈ branches (path ++ [n]) s, b ∈ branches [] f := by
  suffices hgen : ∀ above, (above ++ path, n) ∈ branches above f ∧
      ∀ b ∈ branches (above ++ path ++ [n]) s, b ∈ branches above f from hgen []
  induction h with
  | here hr =>
    intro above
    rcases hr with ⟨hl, _, _, _, _⟩
    rw [List.append_nil]
    exact mem_branches_of_lookup _ hl
  | @down path f k x t t' hl _ ih =>
    intro above
    rcases ih (above ++ [x]) with ⟨hn, hbelow⟩
    have hsub := (mem_branches_of_lookup above hl).2
    have hassoc : above ++ [x] ++ path = above ++ x :: path := by
      rw [append_assoc, singleton_append]
    rw [hassoc] at hn hbelow
    exact ⟨hsub _ hn, fun b hb => hsub b (hbelow b hb)⟩

/-- With every id used once, the node that is split has an id of its own. -/
theorem id_ne_of_split (hi : Ids counter f) (hb : b ∈ branches [] f)
    (hne : b ≠ (path, n)) : b.2.id ≠ n.id := fun heq =>
  hne (eq_of_mem_branches (·.id == n.id) (hi.unique n.id) hb (beq_iff_eq.mpr heq)
    (mem_branches_split h).1 (beq_iff_eq.mpr rfl))

/-- The branches after a split: those of other nodes, the two halves, and those
    that now pass the two halves. -/
theorem branches_split_cases (hi : Ids counter f) (hb : b ∈ branches [] f') :
    (b ∈ branches [] f ∧ b.2.id ≠ n.id) ∨ b = (path, n.upper j newId) ∨
    b = (path ++ [n.upper j newId], n.lower j) ∨
    ∃ below, b.1 = path ++ [n.upper j newId, n.lower j] ++ below ∧
      (path ++ [n] ++ below, b.2) ∈ branches [] f ∧ b.2.id ≠ n.id := by
  classical
  rcases mem_branches_split h with ⟨hn, hs⟩
  have hcount := perm_iff_count.mp (branches_split h) b
  by_cases hnew : b ∈ (path, n.upper j newId) :: (path ++ [n.upper j newId], n.lower j) ::
      branches (path ++ [n.upper j newId, n.lower j]) s
  · rcases mem_cons.mp hnew with rfl | hnew
    · exact .inr (.inl rfl)
    · rcases mem_cons.mp hnew with rfl | hbelow
      · exact .inr (.inr (.inl rfl))
      · rw [← List.append_nil (path ++ _), branches_append] at hbelow
        rcases mem_map.mp hbelow with ⟨c, hc, rfl⟩
        have hold : (path ++ [n] ++ c.1, c.2) ∈ branches [] f := by
          refine hs _ ?_
          rw [← List.append_nil (path ++ [n]), branches_append]
          refine mem_map.mpr ⟨c, hc, ?_⟩
          rw [List.append_nil]
        have hid := id_ne_of_split h hi hold fun heq => by
          have hlen := congrArg List.length (Prod.mk.inj heq).1
          simp only [length_append, length_singleton] at hlen
          omega
        exact .inr (.inr (.inr ⟨c.1, rfl, hold, hid⟩))
  have hzero := List.count_eq_zero.mpr hnew
  have hpos := count_pos_iff.mpr hb
  simp only [count_append, List.count_cons] at hcount hzero
  have hin : b ∈ branches [] f := count_pos_iff.mp (by omega)
  refine .inl ⟨hin, id_ne_of_split h hi hin ?_⟩
  -- The node itself is there once, and is taken away.
  rintro rfl
  have hone : (branches [] f).count (path, n) ≤ 1 := by
    have hle : (branches [] f).count (path, n) ≤ (branches [] f).countP fun b => b.2.id == n.id :=
      countP_mono_left fun c _ hc => by rw [eq_of_beq hc]; exact beq_iff_eq.mpr rfl
    have hcount := countP_branches (fun x : TreeNode => x.id == n.id) [] f
    have hunique := hi.unique n.id
    omega
  rw [if_pos (beq_iff_eq.mpr rfl)] at hcount
  omega

/-- A split leaves the pages of the tree. -/
theorem treePages_split (hps : 0 < pageSize) :
    (treePages pageSize f').Perm (treePages pageSize f) := by
  rcases has_of_split h with ⟨_, _, hlt, hal⟩
  have hperm := (branches_split h).flatMap_right (branchPages pageSize)
  -- What is below the node has the same pages before it.
  have hbelow : (branches (path ++ [n.upper j newId, n.lower j]) s).flatMap (branchPages pageSize) =
      (branches (path ++ [n]) s).flatMap (branchPages pageSize) := by
    rw [← List.append_nil (path ++ [n.upper j newId, n.lower j]), ← List.append_nil (path ++ [n]),
      branches_append, branches_append, flatMap_map, flatMap_map]
    refine flatMap_congr fun b _ => ?_
    rw [branchPages, branchPages, pathPages_split hps hal hlt]
  have hnode : branchPages pageSize (path, n.upper j newId) ++
      branchPages pageSize (path ++ [n.upper j newId], n.lower j) =
      branchPages pageSize (path, n) := by
    simp only [branchPages, pathPages_append, pathPages_singleton]
    rw [← extensions_append, pages_split hps hal hlt]
  simp only [flatMap_append, flatMap_cons, ← append_assoc] at hperm
  rw [hbelow, append_assoc _ (branchPages pageSize (path, n.upper j newId)), hnode,
    append_assoc, append_assoc] at hperm
  exact (perm_append_right_iff _).mp hperm

end Splits

theorem branches_add (h : Edit (AddLeaf pageSize leaf) path f f') :
    (branches [] f').Perm (branches [] f ++ [(path, leaf)]) := by
  rw [← List.append_nil (branches [] f')]
  refine h.branches [] ?_
  rintro f _ ⟨hl, _⟩
  rw [List.append_nil]
  exact branches_set_new hl leaf .nil

theorem treePages_add (h : Edit (AddLeaf pageSize leaf) path f f') :
    (treePages pageSize f').Perm (treePages pageSize f ++ branchPages pageSize (path, leaf)) := by
  have hperm := (branches_add h).flatMap_right (branchPages pageSize)
  rwa [flatMap_append, flatMap_singleton] at hperm

end Edits

section Distinct

variable {e : Option String} {above : List TreeNode}

/-- A page below a dictionary starts with the first page of one of its nodes. -/
theorem firstPage_of_mem (hps : 0 < pageSize)
    (hf : f.All (fun k n _ => NodeOk pageSize k n ∧ n.key.extraKey = e))
    {q : Page} (hq : q ∈ (branches above f).flatMap (branchPages pageSize)) :
    ∃ k ∈ keys f, ∃ key : RadixKey, key.extraKey = e ∧ getChildKey pageSize key = .ok k ∧
      pathPages pageSize above ++ [key.tokenIds.take pageSize] <+: q.1 ++ [q.2] := by
  induction f generalizing above with
  | nil => cases hq
  | cons k n t rest _ ihr =>
    rcases hf with ⟨⟨hn, he⟩, _, hrest⟩
    have hhead := head?_chunks hps hn.nonempty
    rcases head?_eq_some_iff.mp hhead with ⟨more, hmore⟩
    have hfirst : ∀ {p : List (List TokenId)}, pathPages pageSize above ++ n.pages pageSize <+: p →
        pathPages pageSize above ++ [n.key.tokenIds.take pageSize] <+: p := fun hp => by
      refine List.IsPrefix.trans ?_ hp
      rw [TreeNode.pages, hmore]
      exact prefix_append_right_inj _ |>.mpr ⟨more, rfl⟩
    rw [branches, flatMap_cons, flatMap_append] at hq
    rcases mem_append.mp hq with hq | hq
    · refine ⟨k, mem_cons_self, n.key, he, hn.slot, ?_⟩
      rcases mem_extensions hq with ⟨hpre, hall⟩
      -- The page is one of the node's own, so it comes after the first or is it.
      have hle := hpre.length_le
      refine prefix_of_prefix_length_le (hfirst (prefix_refl _)) hall ?_
      simpa using hle
    rcases mem_append.mp hq with hq | hq
    · refine ⟨k, mem_cons_self, n.key, he, hn.slot, hfirst ?_⟩
      rcases mem_flatMap.mp hq with ⟨b, hb, hqb⟩
      rcases prefix_of_mem_branches hb with ⟨c, hc⟩
      have hpre := (mem_extensions hqb).1
      rw [← hc, pathPages_append, pathPages_append, pathPages_singleton] at hpre
      exact ((prefix_append _ _).trans hpre).trans (prefix_append _ _)
    · rcases ihr hrest hq with ⟨k', hk', hrest'⟩
      exact ⟨k', mem_cons_of_mem _ hk', hrest'⟩

/-- No page is there twice. -/
theorem nodup_branches (hps : 0 < pageSize)
    (hf : f.All (fun k n _ => NodeOk pageSize k n ∧ n.key.extraKey = e)) (hd : f.Distinct) :
    ((branches above f).flatMap (branchPages pageSize)).Nodup := by
  induction f generalizing above with
  | nil => exact nodup_nil
  | cons k n t rest ihc ihr =>
    rcases hf with ⟨⟨hn, he⟩, hbelow, hrest⟩
    rw [branches, flatMap_cons, flatMap_append, ← append_assoc]
    refine nodup_append'.mpr ⟨nodup_append'.mpr ⟨nodup_extensions, ihc hbelow hd.2.1,
      ?_⟩, ihr hrest hd.2.2, ?_⟩
    · -- What is below the node has all of its pages before it.
      intro q hq hqb
      rcases mem_flatMap.mp hqb with ⟨b, hb, hqb⟩
      rcases prefix_of_mem_branches hb with ⟨c, hc⟩
      have hpre := (mem_extensions hqb).1.length_le
      have hown := (mem_extensions hq).2.length_le
      rw [← hc] at hpre
      simp only [pathPages_append, pathPages_singleton, length_append,
        length_singleton] at hpre hown
      omega
    · -- The nodes beside it have other first pages.
      intro q hq hqr
      have hmine : q ∈ (branches above (.cons k n t .nil)).flatMap (branchPages pageSize) := by
        rwa [branches, branches, List.append_nil, flatMap_cons]
      have hone : All (fun k n _ => NodeOk pageSize k n ∧ n.key.extraKey = e)
          (.cons k n t .nil) := ⟨⟨hn, he⟩, hbelow, trivial⟩
      rcases firstPage_of_mem hps hone hmine with ⟨k1, hk1, key1, he1, hkey1, hpre1⟩
      rcases firstPage_of_mem hps hrest hqr with ⟨k2, hk2, key2, he2, hkey2, hpre2⟩
      have hsame := List.IsPrefix.eq_of_length
        (prefix_of_prefix_length_le hpre1 hpre2 (by simp)) (by simp)
      have hpage := singleton_inj.mp (append_cancel_left hsame)
      rw [getChildKey_congr (he1.trans he2.symm) hpage, hkey2, Except.ok.injEq] at hkey1
      rw [mem_singleton.mp hk1] at hkey1
      exact hd.1 (hkey1 ▸ hk2)

/-- No page is there twice. -/
theorem nodup_treePages (hps : 0 < pageSize) (hf : TreeOk pageSize f)
    (he : f.All (fun _ n _ => n.key.extraKey = e)) : (treePages pageSize f).Nodup :=
  nodup_branches hps (all_and hf.nodes he) hf.distinct

end Distinct

/-- A walk that does not use up its key stops at the end of a page, and the
    pages along it are those of the key. -/
theorem Walk.pages_eq (hps : 0 < pageSize) {key : RadixKey} {m : Nat} {stop : Stop}
    (h : Walk pageSize f key path m stop) (hstop : stop ≠ .exact) : pageSize ∣ m ∧
      pathPages pageSize path ++ chunks pageSize stop.part =
        chunks pageSize (key.tokenIds.take m) := by
  induction h with
  | missing => exact ⟨Nat.dvd_zero _, rfl⟩
  | inside _ _ _ hm => exact ⟨hm.aligned, congrArg (chunks pageSize) hm.take_eq⟩
  | exact => exact absurd rfl hstop
  | @down f key k n s j path m stop _ _ _ hm hn _ hlt _ ih =>
    rcases ih hstop with ⟨hdvd, hpages⟩
    refine ⟨Nat.dvd_add hm.aligned hdvd, ?_⟩
    have hnode := hm.tokens_eq hn
    have hlen := hm.length_eq hn hlt
    rw [pathPages, flatMap_cons, ← pathPages, append_assoc, hpages, TreeNode.pages,
      take_add, ← hnode, chunks_append hps (hlen.symm ▸ hm.aligned)]
    rfl

end SglangInc.Radix
