import Zerc20.Indexer.PlainTree
import Zerc20.Contracts.System
import Zerc20.Lib.SortByKey

/-!
# Merkle proofs for a redemption

Both clients collect, for every transfer they redeem, its siblings in the aggregated tree: the
indexer's siblings inside the transfer tree of the chain, followed by the siblings of that
chain's root in the aggregation tree. The Rust client is `client-common/src/teleport`, the
TypeScript client `frontend/src/services/sdk/operations/teleport.ts`. The field elements of a
response are kept as such: its hexadecimal form is that of a canonical representative.
-/

namespace Zerc20

namespace Client

open Machine HashTree Radix Indexer SortByKey

variable (h : Hashes)

/-- `GLOBAL_TRANSFER_TREE_HEIGHT`. -/
def globalTransferTreeHeight : ℕ := transferTreeHeight + aggregationHeight

structure IndexedEvent where
  eventIndex : ℕ
  src : Address
  dst : Address
  value : Word
  deriving DecidableEq

inductive ClientError where
  | indexer (e : DbMerkleTreeError)
  | proofCount (got expected treeIndex : ℕ)
  | proofIndices (eventIndex leafIndex targetIndex expected : ℕ)
  | invalidLocalProof (eventIndex : ℕ) (computed root : Fr)
  | chainNotFound (chainId : ℕ)
  | treeIndexMissing (chainId : ℕ)
  | invalidGlobalProof (globalLeafIndex : ℕ) (computed root : Fr)
  | aggregationRootMismatch (expected actual : ℕ)
  | aggregationIndexExceeds
  | mismatchedLengths (events proofs leafIndices secrets : ℕ)
  | siblingCount
  | missingSecret (dst : Address)
  | emptySteps
  | leafIndexRange (index : ℕ)
  deriving DecidableEq

/-- `MerkleProof::get_root`. -/
def getRoot (siblings : List Fr) (leaf : Fr) (index : ℕ) : Fr :=
  (siblings.foldl (fun (s : BitPath × Fr) sibling =>
    (s.1.pop, if s.1.value % 2 = 1 then h.poseidon2 sibling s.2 else h.poseidon2 s.2 sibling))
    (⟨siblings.length, index⟩, leaf)).2

/-- `leaf_hash`. -/
def eventLeaf (e : IndexedEvent) : Fr := h.poseidon2 (addressToFr e.dst) (u256ToFr e.value.val)

/-- A token as the indexer serves it. -/
structure TokenIndex where
  chainId : ℕ
  cfg : TreeConfig
  db : TreeDb

structure EventsWithEligibility where
  eligible : List IndexedEvent
  ineligible : List IndexedEvent

/-- `partitionEventsByEligibility`, and the partition of `separate_events_by_eligibility`. -/
def partitionEvents (treeIndex : ℕ) (events : List IndexedEvent) : EventsWithEligibility where
  eligible := events.filter fun e => e.eventIndex < treeIndex
  ineligible := events.filter fun e => ¬ e.eventIndex < treeIndex

/-! ## The aggregation tree -/

/-- The tree over the transfer roots of an `AggregationRootUpdated` event. -/
def aggregationTree (snapshot : List Word) : MerkleTree :=
  snapshot.zipIdx.foldl (fun tree leaf =>
    if leaf.1.val ≠ 0 then tree.updateLeaf h leaf.2 (u256ToFr leaf.1.val) else tree)
    (.new h aggregationHeight)

/-- The `AggregationRootUpdated` event that both clients look up. -/
structure AggregationEvent where
  aggSeq : ℕ
  root : Word
  snapshot : List Word
  transferTreeIndices : List ℕ

structure AggregationTreeState where
  latestAggSeq : ℕ
  aggregationRoot : Word
  tree : MerkleTree
  treeRootIndices : List ℕ
  chainIds : List ℕ

/-- `fetch_aggregation_tree_state`, once the event and the Hub's chain ids are there. -/
def fetchAggregationTreeState (onchainRoot : Word) (event : AggregationEvent)
    (chainIds : List ℕ) : Except ClientError AggregationTreeState := do
  require (event.root = onchainRoot) (.aggregationRootMismatch onchainRoot.val event.root.val)
  let tree := aggregationTree h event.snapshot
  require (tree.getRoot = u256ToFr event.root.val)
    (.aggregationRootMismatch event.root.val tree.getRoot.val)
  return ⟨event.aggSeq, event.root, tree, event.transferTreeIndices, chainIds⟩

/-- The position of a chain among the leaves of the aggregation tree. -/
def chainPosition (chainIds : List ℕ) (chainId : ℕ) : Except ClientError ℕ :=
  match chainIds.findIdx? (· == chainId) with
  | some i => .ok i
  | none => .error (.chainNotFound chainId)

/-- `get_tree_id_for_chain_id` and `getTreeIndexForChain`. -/
def treeIndexForChain (chainIds treeIndices : List ℕ) (chainId : ℕ) : Except ClientError ℕ := do
  let i ← chainPosition chainIds chainId
  match treeIndices[i]? with
  | some treeIndex => .ok treeIndex
  | none => .error (.treeIndexMissing chainId)

/-! ## The Rust client -/

structure LocalTeleportMerkleProof where
  treeIndex : ℕ
  event : IndexedEvent
  localMerkleProof : List Fr

def localTeleportMerkleProof (treeIndex : ℕ) (event : IndexedEvent) (proof : HistoricalProof) :
    Except ClientError LocalTeleportMerkleProof := do
  require (proof.leafIndex = event.eventIndex ∧ proof.targetIndex = treeIndex)
    (.proofIndices event.eventIndex proof.leafIndex proof.targetIndex treeIndex)
  let root := getRoot h proof.siblings (eventLeaf h event) event.eventIndex
  require (root = proof.root) (.invalidLocalProof event.eventIndex root proof.root)
  return ⟨treeIndex, event, proof.siblings⟩

/-- The answer of the indexer. -/
def requestProofs (cfg : TreeConfig) (db : TreeDb) (treeIndex : ℕ) (leafIndices : List ℕ) :
    Except ClientError (List HistoricalProof) :=
  (proveMany h cfg db treeIndex leafIndices).mapError .indexer

def fetchLocalTeleportMerkleProofs (cfg : TreeConfig) (db : TreeDb) (treeIndex : ℕ)
    (events : List IndexedEvent) : Except ClientError (List LocalTeleportMerkleProof) := do
  let proofs ← requestProofs h cfg db treeIndex (events.map IndexedEvent.eventIndex)
  require (proofs.length = events.length) (.proofCount proofs.length events.length treeIndex)
  let localProofs ← (events.zip proofs).mapM fun ep =>
    localTeleportMerkleProof h treeIndex ep.1 ep.2
  return sortByKey (fun w => w.event.eventIndex) localProofs

def separateEventsByEligibility (state : AggregationTreeState)
    (events : List (TokenIndex × List IndexedEvent)) :
    Except ClientError (List (TokenIndex × EventsWithEligibility)) :=
  events.mapM fun x => do
    let treeRootIndex ← treeIndexForChain state.chainIds state.treeRootIndices x.1.chainId
    return (x.1, partitionEvents treeRootIndex x.2)

/-- The loop of `redeem_transfers` that fills `local_teleport_mps`. -/
def collectLocalProofs (state : AggregationTreeState)
    (separated : List (TokenIndex × EventsWithEligibility)) :
    Except ClientError (List (ℕ × List LocalTeleportMerkleProof)) :=
  (separated.filter fun x => x.2.eligible ≠ []).mapM fun x => do
    let treeIndex ← treeIndexForChain state.chainIds state.treeRootIndices x.1.chainId
    let localProofs ← fetchLocalTeleportMerkleProofs h x.1.cfg x.1.db treeIndex x.2.eligible
    return (x.1.chainId, localProofs)

structure GlobalTeleportMerkleProof where
  event : IndexedEvent
  globalMerkleProof : List Fr
  globalLeafIndex : ℕ

def globalTeleportMerkleProof (state : AggregationTreeState) (aggregationIndex : ℕ)
    (witness : LocalTeleportMerkleProof) : Except ClientError GlobalTeleportMerkleProof := do
  let globalMerkleProof := witness.localMerkleProof ++ state.tree.prove aggregationIndex
  let globalLeafIndex := (aggregationIndex <<< transferTreeHeight) + witness.event.eventIndex
  let root := getRoot h globalMerkleProof (eventLeaf h witness.event) globalLeafIndex
  require (root = u256ToFr state.aggregationRoot.val)
    (.invalidGlobalProof globalLeafIndex root (u256ToFr state.aggregationRoot.val))
  return ⟨witness.event, globalMerkleProof, globalLeafIndex⟩

/-- The argument is a `HashMap` from chain ids, as a list in its order of iteration. -/
def generateGlobalTeleportMerkleProofs (state : AggregationTreeState)
    (localProofs : List (ℕ × List LocalTeleportMerkleProof)) :
    Except ClientError (List GlobalTeleportMerkleProof) := do
  let globalProofs ← localProofs.mapM fun entry => do
    let aggregationIndex ← chainPosition state.chainIds entry.1
    entry.2.mapM (globalTeleportMerkleProof h state aggregationIndex)
  return sortByKey GlobalTeleportMerkleProof.globalLeafIndex globalProofs.flatten

/-! ## The TypeScript client -/

/-- `AggregationTreeState` of `teleport.ts`: the snapshot in place of the tree. -/
structure AggregationSnapshot where
  latestAggSeq : ℕ
  aggregationRoot : Word
  snapshot : List Word
  transferTreeIndices : List ℕ
  chainIds : List ℕ

/-- `fetchAggregationTreeState` of `teleport.ts`. -/
def fetchAggregationSnapshot (onchainRoot : Word) (event : AggregationEvent)
    (chainIds : List ℕ) : Except ClientError AggregationSnapshot := do
  require (event.root = onchainRoot) (.aggregationRootMismatch onchainRoot.val event.root.val)
  let recomputedRoot := (aggregationTree h event.snapshot).getRoot
  require (recomputedRoot.val = onchainRoot.val)
    (.aggregationRootMismatch onchainRoot.val recomputedRoot.val)
  return ⟨event.aggSeq, onchainRoot, event.snapshot, event.transferTreeIndices, chainIds⟩

structure GlobalTeleportProof where
  event : IndexedEvent
  siblings : List Fr
  leafIndex : ℕ

/-- `aggregationMerkleProof`, which builds the tree again. -/
def aggregationMerkleProof (snapshot : List Word) (index : ℕ) : Except ClientError (List Fr) := do
  require (index < 2 ^ aggregationHeight) .aggregationIndexExceeds
  return (aggregationTree h snapshot).prove index

def globalTeleportProof (aggregationIndex : ℕ) (aggregationProof : List Fr)
    (event : IndexedEvent) (proof : HistoricalProof) : Except ClientError GlobalTeleportProof := do
  require (proof.siblings.length = transferTreeHeight) .siblingCount
  let combinedSiblings := proof.siblings ++ aggregationProof
  require (combinedSiblings.length = transferTreeHeight + aggregationHeight) .siblingCount
  return ⟨event, combinedSiblings, (aggregationIndex <<< transferTreeHeight) + proof.leafIndex⟩

def generateGlobalTeleportProofs (state : AggregationSnapshot) (chainId : ℕ)
    (events : List IndexedEvent) (localProofs : List HistoricalProof) :
    Except ClientError (List GlobalTeleportProof) := do
  require (events.length = localProofs.length)
    (.mismatchedLengths events.length localProofs.length 0 0)
  let aggregationIndex ← chainPosition state.chainIds chainId
  let aggregationProof ← aggregationMerkleProof h state.snapshot aggregationIndex
  (events.zip localProofs).mapM fun ep =>
    globalTeleportProof aggregationIndex aggregationProof ep.1 ep.2

/-- The eligible events of one chain and their proofs, from the loop of `collectRedeemContext`
over the tokens. -/
def chainContext (state : AggregationSnapshot) (token : TokenIndex) (events : List IndexedEvent) :
    Except ClientError (EventsWithEligibility × List GlobalTeleportProof) := do
  let treeRootIndex ← treeIndexForChain state.chainIds state.transferTreeIndices token.chainId
  let separated := partitionEvents treeRootIndex events
  if separated.eligible = [] then return (separated, [])
  else do
    let localProofs ← requestProofs h token.cfg token.db treeRootIndex
      (separated.eligible.map IndexedEvent.eventIndex)
    require (localProofs.length = separated.eligible.length)
      (.proofCount localProofs.length separated.eligible.length treeRootIndex)
    let globalProofs ← generateGlobalTeleportProofs h state token.chainId separated.eligible
      localProofs
    return (separated, globalProofs)

/-! ## The aggregated tree -/

variable {h}

/-- The root of a proof is that of the climb. -/
theorem getRoot_eq (siblings : List Fr) (leaf : Fr) (index : ℕ) :
    getRoot h siblings leaf index
      = climb h.poseidon2 leaf ((bitsLE siblings.length index).zip siblings) := by
  unfold getRoot
  induction siblings generalizing leaf index with
  | nil => rfl
  | cons sibling siblings ih =>
    have hpop : (⟨siblings.length + 1, index⟩ : BitPath).pop
        = ⟨siblings.length, index / 2⟩ := rfl
    rw [List.foldl_cons, List.length_cons, hpop, ih, bitsLE_succ, List.zip_cons_cons, climb]
    congr 1
    rcases Nat.mod_two_eq_zero_or_one index with heven | hodd
    · simp [join, heven]
    · simp [join, hodd]

/-- The proof of a leaf folds it to the root. -/
theorem getRoot_prove {height : ℕ} {t : MerkleTree}
    {f : ℕ → Fr} (ht : t.Holds h height f) {i : ℕ} (hi : i < 2 ^ height) :
    getRoot h (t.prove i) (f i) i = t.getRoot := by
  have hclimb := climb_path h.poseidon2 f 0 i height
  rw [Nat.zero_add, Nat.div_eq_of_lt hi, node] at hclimb
  rw [ht.prove, getRoot_eq, path_length, hclimb, ht.getRoot]

/-- The leaves of the aggregation tree. -/
def snapshotLeaves (snapshot : List Word) : ℕ → Fr :=
  leavesOf 0 (snapshot.map fun root => u256ToFr root.val)

/-- One more root in the snapshot is one more leaf, unless it is 0. -/
theorem aggregationTree_concat (snapshot : List Word) (root : Word) :
    aggregationTree h (snapshot ++ [root]) = if root.val ≠ 0
      then (aggregationTree h snapshot).updateLeaf h snapshot.length (u256ToFr root.val)
      else aggregationTree h snapshot := by
  rw [aggregationTree, List.zipIdx_append, List.foldl_append]
  simp [aggregationTree]

/-- So the wasm tree holds the roots of the snapshot. -/
theorem aggregationTree_holds (snapshot : List Word) :
    (aggregationTree h snapshot).Holds h aggregationHeight (snapshotLeaves snapshot) := by
  induction snapshot using List.reverseRecOn with
  | nil => exact MerkleTree.new_holds aggregationHeight
  | append_singleton snapshot root ih =>
    have hleaves : snapshotLeaves (snapshot ++ [root])
        = Function.update (snapshotLeaves snapshot) snapshot.length (u256ToFr root.val) := by
      rw [snapshotLeaves, List.map_append, List.map_singleton, leavesOf_concat, List.length_map]
      rfl
    rw [aggregationTree_concat, hleaves]
    split
    · exact MerkleTree.updateLeaf_holds ih _ _
    · -- a skipped leaf is zero already
      rename_i hzero
      have hroot : u256ToFr root.val = 0 := by rw [not_not.mp hzero, u256ToFr, Nat.cast_zero]
      have hsame : Function.update (snapshotLeaves snapshot) snapshot.length (u256ToFr root.val)
          = snapshotLeaves snapshot := by
        rw [hroot, Function.update_eq_self_iff, snapshotLeaves, leavesOf, List.getD_eq_default]
        rw [List.length_map]
      rw [hsame]
      exact ih

/-- The siblings of a leaf under those of the root of its tree. -/
theorem climb_aggregated {f g : ℕ → Fr} {position index depth height : ℕ}
    (hindex : index < 2 ^ depth) (hposition : position < 2 ^ height)
    (hroot : g position = node h.poseidon2 f depth 0) :
    climb h.poseidon2 (f index)
        ((bitsLE (depth + height) ((position <<< depth) + index)).zip
          (path h.poseidon2 f 0 index depth ++ path h.poseidon2 g 0 position height))
      = node h.poseidon2 g height 0 := by
  have hpacked := climb_packed h.poseidon2 (f index) (path h.poseidon2 f 0 index depth)
    (path h.poseidon2 g 0 position height) (a := position) (i := index)
    (by rw [path_length]; exact hindex)
  rw [path_length, path_length] at hpacked
  have hlocal := climb_path h.poseidon2 f 0 index depth
  rw [Nat.zero_add, Nat.div_eq_of_lt hindex, node] at hlocal
  have hupper := climb_path h.poseidon2 g 0 position height
  rw [Nat.zero_add, Nat.div_eq_of_lt hposition, node] at hupper
  rw [hpacked, hlocal, ← hroot, hupper]

/-! ## What the indexer answers -/

/-- A served token, with the transfers of its chain and the size of its tree in the last
aggregation. -/
structure ChainView extends TokenIndex where
  transfers : List Transfer
  treeIndex : ℕ

namespace ChainView

variable (h) in
/-- The leaves of the aggregated transfer tree. -/
def leaves (v : ChainView) : ℕ → Fr := transferLeaves h (v.transfers.take v.treeIndex)

variable (h) in
def root (v : ChainView) : Fr := transferRoot h (v.transfers.take v.treeIndex)

variable (h) in
def siblings (v : ChainView) (i : ℕ) : List Fr :=
  path h.poseidon2 (v.leaves h) 0 i transferTreeHeight

variable (h) in
/-- The database is that of the chain, and the aggregated tree is one it still proves. -/
structure Faithful (v : ChainView) : Prop where
  height : v.cfg.height = transferTreeHeight
  tree : Represents h v.cfg v.db (v.transfers.map entryOf)
  capacity : v.transfers.length ≤ 2 ^ transferTreeHeight
  treeIndex_le : v.treeIndex ≤ v.transfers.length
  window : v.transfers.length - v.treeIndex ≤ v.cfg.historyWindow

/-- `e` is one of the chain's transfers. -/
def Has (v : ChainView) (e : IndexedEvent) : Prop :=
  ∃ t, v.transfers[e.eventIndex]? = some t ∧ t.src = e.src ∧ t.dst = e.dst
    ∧ t.value.val = e.value.val

/-- The transfers that are in the aggregated tree. -/
def eligible (v : ChainView) (events : List IndexedEvent) : List IndexedEvent :=
  (partitionEvents v.treeIndex events).eligible

variable {v : ChainView} {e : IndexedEvent} {events : List IndexedEvent}

theorem mem_eligible : e ∈ v.eligible events ↔ e ∈ events ∧ e.eventIndex < v.treeIndex := by
  rw [eligible, partitionEvents, List.mem_filter, decide_eq_true_iff]

theorem siblings_length (i : ℕ) : (v.siblings h i).length = transferTreeHeight :=
  path_length _ _ _ _ _

theorem Faithful.index_lt (hv : v.Faithful h) (he : e.eventIndex < v.treeIndex) :
    e.eventIndex < 2 ^ transferTreeHeight :=
  (he.trans_le hv.treeIndex_le).trans_le hv.capacity

/-- The leaf of an event below the index of the root is its hash. -/
theorem leaves_of_has (hhas : v.Has e) (he : e.eventIndex < v.treeIndex) :
    v.leaves h e.eventIndex = eventLeaf h e := by
  obtain ⟨t, ht, -, hdst, hvalue⟩ := hhas
  have hget : (v.transfers.take v.treeIndex)[e.eventIndex]? = some t := by
    rw [List.getElem?_take_of_lt he, ht]
  rw [leaves, transferLeaves_of_getElem? h hget, Transfer.leaf, hdst, hvalue]
  rfl

/-- The answer to a request for leaves of the aggregated tree. -/
theorem Faithful.requestProofs (hv : v.Faithful h) {leafIndices : List ℕ}
    (hbound : ∀ i ∈ leafIndices, i < v.treeIndex) :
    requestProofs h v.cfg v.db v.treeIndex leafIndices
      = .ok (leafIndices.map (proofAt h v.cfg (v.transfers.map entryOf) v.treeIndex)) := by
  unfold Client.requestProofs
  cases leafIndices with
  | nil => rfl
  | cons i is =>
    have hi := hbound i List.mem_cons_self
    rw [hv.tree.proveMany_ok (List.cons_ne_nil _ _) (by omega)
      (by rw [List.length_map]; exact hv.treeIndex_le)
      (by rw [List.length_map]; exact hv.window) hbound]
    rfl

/-- The siblings that the indexer gives are those of the historical tree. -/
theorem Faithful.proofAt_siblings (hv : v.Faithful h) (i : ℕ) :
    (proofAt h v.cfg (v.transfers.map entryOf) v.treeIndex i).siblings = v.siblings h i := by
  rw [proofAt, ← List.map_take, entryLeaves_entryOf, hv.height]
  rfl

theorem Faithful.proofAt_root (hv : v.Faithful h) (i : ℕ) :
    (proofAt h v.cfg (v.transfers.map entryOf) v.treeIndex i).root = v.root h := by
  rw [proofAt, ← List.map_take, entryRoot, entryLeaves_entryOf, hv.height]
  rfl

/-- They lead from the event to the root. -/
theorem climb_siblings (hv : v.Faithful h) (hhas : v.Has e) (he : e.eventIndex < v.treeIndex) :
    climb h.poseidon2 (eventLeaf h e)
      ((bitsLE transferTreeHeight e.eventIndex).zip (v.siblings h e.eventIndex)) = v.root h := by
  have hclimb := climb_path h.poseidon2 (v.leaves h) 0 e.eventIndex transferTreeHeight
  rw [Nat.zero_add, Nat.div_eq_of_lt (hv.index_lt he), node, leaves_of_has hhas he] at hclimb
  exact hclimb

end ChainView

/-- The Rust client's proof of one eligible transfer. -/
def localProofOf (h : Hashes) (v : ChainView) (e : IndexedEvent) : LocalTeleportMerkleProof :=
  ⟨v.treeIndex, e, v.siblings h e.eventIndex⟩

variable {v : ChainView} {events : List IndexedEvent}

/-- So the indexer proves every eligible event. -/
theorem fetchLocalTeleportMerkleProofs_ok (hv : v.Faithful h)
    (hhas : ∀ e ∈ events, v.Has e ∧ e.eventIndex < v.treeIndex) :
    fetchLocalTeleportMerkleProofs h v.cfg v.db v.treeIndex events
      = .ok (sortByKey (fun w => w.event.eventIndex) (events.map (localProofOf h v))) := by
  have hrequest : requestProofs h v.cfg v.db v.treeIndex (events.map IndexedEvent.eventIndex)
      = .ok ((events.map IndexedEvent.eventIndex).map
        (proofAt h v.cfg (v.transfers.map entryOf) v.treeIndex)) := by
    refine hv.requestProofs ?_
    intro i hi
    obtain ⟨e, he, rfl⟩ := List.mem_map.mp hi
    exact (hhas e he).2
  -- each answer passes the check of its root
  have hloop : (events.zip ((events.map IndexedEvent.eventIndex).map
      (proofAt h v.cfg (v.transfers.map entryOf) v.treeIndex))).mapM
        (fun ep => localTeleportMerkleProof h v.treeIndex ep.1 ep.2)
      = .ok (events.map (localProofOf h v)) := by
    rw [List.map_map, ← List.map_prod_left_eq_zip]
    refine (mapM_eq_ok (g := fun ep => ⟨v.treeIndex, ep.1, ep.2.siblings⟩) ?_).trans ?_
    · intro ep hep
      obtain ⟨e, he, rfl⟩ := List.mem_map.mp hep
      obtain ⟨hmem, hlt⟩ := hhas e he
      refine bind_eq_ok.mpr ⟨(), require_of ⟨rfl, rfl⟩, bind_eq_ok.mpr ⟨(), require_of ?_, rfl⟩⟩
      show getRoot h (proofAt h v.cfg (v.transfers.map entryOf) v.treeIndex e.eventIndex).siblings
        _ _ = (proofAt h v.cfg (v.transfers.map entryOf) v.treeIndex e.eventIndex).root
      rw [getRoot_eq, hv.proofAt_siblings, hv.proofAt_root, ChainView.siblings_length]
      exact ChainView.climb_siblings hv hmem hlt
    · rw [List.map_map]
      refine congrArg Except.ok (List.map_congr_left fun e _ => ?_)
      exact congrArg (LocalTeleportMerkleProof.mk v.treeIndex e) (hv.proofAt_siblings _)
  rw [fetchLocalTeleportMerkleProofs, hrequest]
  simp only [bind, Except.bind, hloop, require_of, List.length_map]
  rfl

end Client

end Zerc20
