import Zerc20.Client.MerkleProofs

/-!
# Proofs across trees

A redemption proves a transfer in two trees at once: the siblings in the transfer tree of its
chain, extended by the siblings of that tree's root in the aggregation tree
(`MerkleProof::extend`). The global index packs the chain's position above the leaf index.

* `getRoot_extend` — the extended proof computes the root of the aggregation proof from the root
  of the local one.
* `merkleRootFromLeaf_getRoot` — the circuit computes the same from the bits of the index.
* `packed_injective`, `node_packed` — the global tree is the tree over the chains' trees.
* `proofs_compose` — these together, and that both clients build the same proof.
-/

namespace Zerc20

namespace Client

open Machine HashTree Radix Indexer Zkp

/-- `MerkleProof::extend`. -/
def extend (p q : List Fr) : List Fr := p ++ q

variable {h : Hashes}

/-- **Extending a proof** goes through the root of the local proof. -/
theorem getRoot_extend (p q : List Fr) (leaf : Fr) {i a : ℕ} (hi : i < 2 ^ p.length) :
    getRoot h (extend p q) leaf ((a <<< p.length) + i)
      = getRoot h q (getRoot h p leaf i) a := by
  rw [getRoot_eq, getRoot_eq, getRoot_eq, extend, List.length_append, climb_packed _ _ _ _ hi]

/-- The circuit's root is the host's, on the bits of any index. -/
theorem merkleRootFromLeaf_getRoot (siblings : List Fr) (leaf : Fr) (index : ℕ) :
    merkleRootFromLeaf h leaf (bitsLE siblings.length index) siblings
      = some (getRoot h siblings leaf index) := by
  rw [merkleRootFromLeaf_eq_some, getRoot_eq, bitsLE_length]
  exact ⟨rfl, rfl⟩

/-- A global index names its chain and its leaf. -/
theorem packed_injective {d a a' i i' : ℕ} (hi : i < 2 ^ d) (hi' : i' < 2 ^ d)
    (heq : (a <<< d) + i = (a' <<< d) + i') : a = a' ∧ i = i' := by
  constructor
  · rw [← packed_div (a := a) hi, heq, packed_div hi']
  · rw [← packed_mod (a := a) hi, heq, packed_mod hi']

/-- The tree over all global leaves is the tree over the roots of the chains' trees. -/
theorem node_packed (f : ℕ → Fr) (d e : ℕ) :
    node h.poseidon2 f (d + e) 0
      = node h.poseidon2 (fun a => node h.poseidon2 (fun i => f ((a <<< d) + i)) d 0) e 0 := by
  rw [node_add]
  congr 1
  funext a
  simp only [Nat.shiftLeft_eq]
  rw [node_shift, Nat.add_zero]

/-- The two clients' states of one aggregation event. -/
theorem states_agree {onchainRoot : Word} {event : AggregationEvent} {chainIds : List ℕ}
    {state : AggregationTreeState} {snapshot : AggregationSnapshot}
    (hrust : fetchAggregationTreeState h onchainRoot event chainIds = .ok state)
    (hts : fetchAggregationSnapshot h onchainRoot event chainIds = .ok snapshot) :
    state.tree = aggregationTree h snapshot.snapshot ∧ state.chainIds = snapshot.chainIds := by
  obtain ⟨_, -, hrust⟩ := bind_eq_ok.mp hrust
  obtain ⟨_, -, hrust⟩ := bind_eq_ok.mp hrust
  obtain ⟨_, -, hts⟩ := bind_eq_ok.mp hts
  obtain ⟨_, -, hts⟩ := bind_eq_ok.mp hts
  cases Except.ok.inj hrust
  cases Except.ok.inj hts
  exact ⟨rfl, rfl⟩

/-- Both clients build the same global proof of a transfer, from the same local one. -/
theorem global_proofs_agree {state : AggregationTreeState} {snapshot : List Word}
    (htree : state.tree = aggregationTree h snapshot) {position treeIndex : ℕ}
    {aggregationProof : List Fr} {event : IndexedEvent} {proof : HistoricalProof}
    {witness : LocalTeleportMerkleProof} {rust : GlobalTeleportMerkleProof}
    {ts : GlobalTeleportProof}
    (hproof : aggregationMerkleProof h snapshot position = .ok aggregationProof)
    (hlocal : localTeleportMerkleProof h treeIndex event proof = .ok witness)
    (hrust : globalTeleportMerkleProof h state position witness = .ok rust)
    (hts : globalTeleportProof position aggregationProof event proof = .ok ts) :
    rust.globalLeafIndex = ts.leafIndex ∧ rust.globalMerkleProof = ts.siblings := by
  obtain ⟨_, -, hret⟩ := bind_eq_ok.mp hproof
  cases Except.ok.inj hret
  obtain ⟨_, hindices, hlocal⟩ := bind_eq_ok.mp hlocal
  have hindex := (require_eq_ok.mp hindices).1
  obtain ⟨_, -, hret⟩ := bind_eq_ok.mp hlocal
  cases Except.ok.inj hret
  obtain ⟨_, -, hret⟩ := bind_eq_ok.mp hrust
  cases Except.ok.inj hret
  obtain ⟨_, -, hts⟩ := bind_eq_ok.mp hts
  obtain ⟨_, -, hret⟩ := bind_eq_ok.mp hts
  cases Except.ok.inj hret
  dsimp only
  rw [hindex, htree]
  exact ⟨rfl, rfl⟩

/-- **Proofs compose across the trees**, on the host, in the circuit and in both clients. -/
theorem proofs_compose (h : Hashes) :
    (∀ (p q : List Fr) (leaf : Fr) (i a : ℕ), i < 2 ^ p.length → a < 2 ^ q.length →
      p.length + q.length ≤ 64 →
        getRoot h (extend p q) leaf ((a <<< p.length) + i) = getRoot h q (getRoot h p leaf i) a
        ∧ merkleRootFromLeaf h leaf
            (bitsLE (p.length + q.length) ((a <<< p.length) + i)) (extend p q)
          = some (getRoot h q (getRoot h p leaf i) a)
        ∧ (a <<< p.length) + i < 2 ^ (p.length + q.length))
    ∧ (∀ d a a' i i' : ℕ, i < 2 ^ d → i' < 2 ^ d → (a <<< d) + i = (a' <<< d) + i' →
        a = a' ∧ i = i')
    ∧ (∀ f : ℕ → Fr, node h.poseidon2 f globalTransferTreeHeight 0
        = node h.poseidon2 (fun a => node h.poseidon2
            (fun i => f ((a <<< transferTreeHeight) + i)) transferTreeHeight 0) aggregationHeight 0)
    ∧ ∀ (onchainRoot : Word) (event : AggregationEvent) (chainIds : List ℕ)
        (state : AggregationTreeState) (snapshot : AggregationSnapshot),
      fetchAggregationTreeState h onchainRoot event chainIds = .ok state →
      fetchAggregationSnapshot h onchainRoot event chainIds = .ok snapshot →
        state.chainIds = snapshot.chainIds
        ∧ ∀ (position treeIndex : ℕ) (aggregationProof : List Fr) (event : IndexedEvent)
            (proof : HistoricalProof) (witness : LocalTeleportMerkleProof)
            (rust : GlobalTeleportMerkleProof) (ts : GlobalTeleportProof),
          aggregationMerkleProof h snapshot.snapshot position = .ok aggregationProof →
          localTeleportMerkleProof h treeIndex event proof = .ok witness →
          globalTeleportMerkleProof h state position witness = .ok rust →
          globalTeleportProof position aggregationProof event proof = .ok ts →
            rust.globalLeafIndex = ts.leafIndex ∧ rust.globalMerkleProof = ts.siblings := by
  refine ⟨?_, fun d a a' i i' => packed_injective, fun f => node_packed f _ _, ?_⟩
  · intro p q leaf i a hi ha _
    have hextend := getRoot_extend (h := h) p q leaf (a := a) hi
    refine ⟨hextend, ?_, packed_lt hi ha⟩
    have hcircuit := merkleRootFromLeaf_getRoot (h := h) (extend p q) leaf ((a <<< p.length) + i)
    rwa [hextend, extend, List.length_append] at hcircuit
  · intro onchainRoot event chainIds state snapshot hrust hts
    obtain ⟨htree, hchains⟩ := states_agree hrust hts
    refine ⟨hchains, ?_⟩
    intro position treeIndex aggregationProof event proof witness rust ts
    exact global_proofs_agree htree

/-- The third leaf of the second chain. -/
theorem proofs_compose_second :
    getRoot realHashes (extend [1, 2] [3]) 5 6
      = getRoot realHashes [3] (getRoot realHashes [1, 2] 5 2) 1 :=
  ((proofs_compose realHashes).1 [1, 2] [3] 5 2 1 (by decide) (by decide) (by decide)).1

end Client

end Zerc20
