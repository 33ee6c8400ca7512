import Zerc20.Client.MerkleProofs

/-!
# The sparse tree

`zkp/src/utils/tree/merkle_tree.rs` keeps only the nodes on the paths of updated leaves; every
other node is read as the zero hash of its level. `MerkleTree.Holds` says that the nodes read this
way are those of a full tree, and one update keeps it (`updateLeaf_holds`); this module draws the
consequences for whole sequences of updates and for the proofs of all leaves, touched or not.
-/

namespace Zerc20

namespace Indexer

open Machine HashTree Radix

/-- An `update_leaf` of a leaf with a hash. -/
abbrev LeafUpdate := ℕ × Fr

def applyUpdate (h : Hashes) (t : MerkleTree) (u : LeafUpdate) : MerkleTree :=
  t.updateLeaf h u.1 u.2

/-- The tree after the updates, in order. -/
def updatedTree (h : Hashes) (height : ℕ) (updates : List LeafUpdate) : MerkleTree :=
  run (applyUpdate h) (.new h height) updates

/-- The last value that a leaf was given, zero if there is none. -/
def lastLeaf (updates : List LeafUpdate) (i : ℕ) : Fr :=
  ((updates.reverse.find? fun u => u.1 = i).map Prod.snd).getD 0

theorem lastLeaf_concat (updates : List LeafUpdate) (u : LeafUpdate) :
    lastLeaf (updates ++ [u]) = Function.update (lastLeaf updates) u.1 u.2 := by
  funext i
  rw [Function.update_apply, lastLeaf, List.reverse_concat, List.find?_cons]
  by_cases hi : u.1 = i
  · rw [if_pos hi.symm]
    simp [hi]
  · rw [if_neg (Ne.symm hi)]
    simp [hi, lastLeaf]

variable {h : Hashes} {height : ℕ} {t : MerkleTree} {f : ℕ → Fr}

/-- **The invariant** of every sequence of updates. -/
theorem updatedTree_holds (updates : List LeafUpdate) :
    (updatedTree h height updates).Holds h height (lastLeaf updates) := by
  induction updates using List.reverseRecOn with
  | nil => exact MerkleTree.new_holds height
  | append_singleton updates u ih =>
    rw [lastLeaf_concat, updatedTree, run_concat]
    exact MerkleTree.updateLeaf_holds ih u.1 u.2

/-! ## What the invariant says -/

/-- A node is the hash of its children. -/
theorem MerkleTree.Holds.children (ht : t.Holds h height f) {p : BitPath} (hp : p.length < height) :
    t.getNodeHash p = h.poseidon2 (t.getNodeHash ⟨p.length + 1, 2 * p.value⟩)
      (t.getNodeHash ⟨p.length + 1, 2 * p.value + 1⟩) := by
  have hlevel : height - p.length = height - (p.length + 1) + 1 := by omega
  rw [ht.nodes p hp.le, ht.nodes _ (show p.length + 1 ≤ height from hp),
    ht.nodes _ (show p.length + 1 ≤ height from hp), hlevel, node]

theorem MerkleTree.Holds.leaf (ht : t.Holds h height f) (i : ℕ) :
    t.getNodeHash ⟨height, i⟩ = f i := by
  rw [ht.nodes ⟨height, i⟩ le_rfl]
  show node h.poseidon2 f (height - height) i = f i
  rw [Nat.sub_self, node]

/-- An update changes the ancestors of its leaf and no other node. -/
theorem MerkleTree.Holds.frame (ht : t.Holds h height f) {p : BitPath} (hp : p.length ≤ height)
    {j : ℕ} (leaf : Fr) (hoff : j / 2 ^ (height - p.length) ≠ p.value) :
    (t.updateLeaf h j leaf).getNodeHash p = t.getNodeHash p := by
  rw [(MerkleTree.updateLeaf_holds ht j leaf).nodes p hp, ht.nodes p hp,
    MerkleTree.node_update_of_ne leaf hoff]

/-- In a proof, an update changes only the siblings that are ancestors of its leaf. -/
theorem MerkleTree.Holds.prove_frame (ht : t.Holds h height f) (i : ℕ) {j k : ℕ} (leaf : Fr)
    (hk : k < height) (hoff : j / 2 ^ k ≠ i / 2 ^ k ^^^ 1) :
    ((t.updateLeaf h j leaf).prove i)[k]? = (t.prove i)[k]? := by
  rw [(MerkleTree.updateLeaf_holds ht j leaf).prove, ht.prove, path_getElem? _ _ _ _ hk,
    path_getElem? _ _ _ _ hk, Nat.zero_add, MerkleTree.node_update_of_ne leaf hoff]

/-- **The sparse tree is the full tree** of the last values, after any sequence of updates. -/
theorem sparse_tree_full (h : Hashes) (height : ℕ) (updates : List LeafUpdate) :
    let t := updatedTree h height updates
    (∀ p : BitPath, p.length < height →
      t.getNodeHash p = h.poseidon2 (t.getNodeHash ⟨p.length + 1, 2 * p.value⟩)
        (t.getNodeHash ⟨p.length + 1, 2 * p.value + 1⟩))
    ∧ (∀ i, t.getNodeHash ⟨height, i⟩ = lastLeaf updates i)
    ∧ t.getRoot = node h.poseidon2 (lastLeaf updates) height 0
    ∧ (∀ i < 2 ^ height, Client.getRoot h (t.prove i) (lastLeaf updates i) i = t.getRoot)
    ∧ ∀ (j : ℕ) (leaf : Fr),
      (∀ p : BitPath, p.length ≤ height → j / 2 ^ (height - p.length) ≠ p.value →
        (t.updateLeaf h j leaf).getNodeHash p = t.getNodeHash p)
      ∧ ∀ i, ∀ k < height, j / 2 ^ k ≠ i / 2 ^ k ^^^ 1 →
        ((t.updateLeaf h j leaf).prove i)[k]? = (t.prove i)[k]? := by
  have ht : (updatedTree h height updates).Holds h height (lastLeaf updates) :=
    updatedTree_holds updates
  refine ⟨fun p hp => ht.children hp, ht.leaf, ht.getRoot,
    fun i hi => Client.getRoot_prove ht hi, fun j leaf => ⟨?_, ?_⟩⟩
  · intro p hp hoff
    exact ht.frame hp leaf hoff
  · intro i k hk hoff
    exact ht.prove_frame i leaf hk hoff

end Indexer

end Zerc20
