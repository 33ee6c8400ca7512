import Zerc20.Client.MerkleProofs

/-!
# The steps of a batch teleport

The step inputs of a batch withdrawal, as `cli/src/proof/batch.rs` builds them from the events and
proofs of `redeem_transfers`, and as `runNovaProver` of the front end hands them to the WASM
prover. Real steps are sorted by their leaf index in the tree; one to nine dummies follow, just
below the last index of the tree.

Both builders end with `realSteps`, whatever the order in which chains and events came in.
-/

namespace Zerc20

namespace Client

open Machine HashTree Radix Indexer SortByKey Zkp

/-! ## The tokens of a chain -/

/-- `find_token_by_chain`, with what a command keeps of a token and its errors. -/
def findTokenByChain {τ κ ε : Type} [DecidableEq κ] (chainIdOf : τ → κ)
    (noToken multipleTokens : κ → ε) (tokens : List τ) (chainId : κ) : Except ε τ :=
  match tokens.filter fun token => chainIdOf token = chainId with
  | [] => .error (noToken chainId)
  | [entry] => .ok entry
  | _ => .error (multipleTokens chainId)

/-- The token that is found is the only one of its chain. -/
theorem findTokenByChain_eq_ok {τ κ ε : Type} [DecidableEq κ] {chainIdOf : τ → κ}
    {noToken multipleTokens : κ → ε} {tokens : List τ} {chainId : κ} {entry : τ} :
    findTokenByChain chainIdOf noToken multipleTokens tokens chainId = .ok entry
      ↔ (tokens.filter fun token => chainIdOf token = chainId) = [entry] := by
  rw [findTokenByChain]
  split
  case h_1 hfilter => simp [hfilter]
  case h_2 found hfilter => simp [hfilter]
  case h_3 hfew hmany =>
    -- more than one
    constructor
    · intro hok
      cases hok
    · intro hfilter
      exact absurd hfilter (hmany entry)

/-- It is one of the tokens, with the chain id that was asked for. -/
theorem findTokenByChain_mem {τ κ ε : Type} [DecidableEq κ] {chainIdOf : τ → κ}
    {noToken multipleTokens : κ → ε} {tokens : List τ} {chainId : κ} {entry : τ}
    (hok : findTokenByChain chainIdOf noToken multipleTokens tokens chainId = .ok entry) :
    entry ∈ tokens ∧ chainIdOf entry = chainId := by
  have hmem : entry ∈ tokens.filter fun token => chainIdOf token = chainId := by
    rw [findTokenByChain_eq_ok.mp hok]
    exact List.mem_singleton_self entry
  exact ⟨(List.mem_filter.mp hmem).1, of_decide_eq_true (List.mem_filter.mp hmem).2⟩

variable (h : Hashes)

def NUM_BATCH_INVOICES : ℕ := 10

/-- `dummy_withdraw_ext_input`. -/
def dummyWithdrawExtInput (depth index value : ℕ) : WithdrawExternalInputs where
  isDummy := true
  value := u256ToFr value
  secret := 0
  leafIndex := (index : Fr)
  siblings := List.replicate depth 0

def dummySteps (depth numDummySteps : ℕ) : List WithdrawExternalInputs :=
  let offset := 2 ^ depth - 1 - numDummySteps
  (List.range numDummySteps).map fun i => dummyWithdrawExtInput depth (offset + i) 0

/-! ## The Rust builder -/

/-- What `batch_teleport_proof` proves about one event. -/
structure BatchItem where
  event : IndexedEvent
  merkleProof : List Fr
  leafIndex : ℕ
  secret : Fr

def realStep (depth : ℕ) (x : BatchItem) : Except ClientError WithdrawExternalInputs := do
  require (x.merkleProof.length = depth) .siblingCount
  return ⟨false, u256ToFr x.event.value.val, x.secret, (x.leafIndex : Fr), x.merkleProof⟩

/-- The inputs of `batch_teleport_proof`, with `numDummySteps` drawn from
`1..NUM_BATCH_INVOICES`. -/
def batchExternalInputs (depth : ℕ) (events : List IndexedEvent) (merkleProofs : List (List Fr))
    (leafIndices : List ℕ) (secrets : List Fr) (numDummySteps : ℕ) :
    Except ClientError (List WithdrawExternalInputs) := do
  require (events.length = merkleProofs.length ∧ events.length = leafIndices.length
      ∧ events.length = secrets.length)
    (.mismatchedLengths events.length merkleProofs.length leafIndices.length secrets.length)
  let steps ← (events.zip (merkleProofs.zip (leafIndices.zip secrets))).mapM fun x =>
    realStep depth ⟨x.1, x.2.1, x.2.2.1, x.2.2.2⟩
  return steps ++ dummySteps depth numDummySteps

/-- `burn_address_to_secret.get(&event.to)`. -/
def secretFor (burnAddressToSecret : Address → Option Word) (dst : Address) :
    Except ClientError Fr :=
  match burnAddressToSecret dst with
  | some secret => .ok (u256ToFr secret.val)
  | none => .error (.missingSecret dst)

/-- The inputs for proofs in the tree of one chain. -/
def localInputs (burnAddressToSecret : Address → Option Word)
    (proofs : List LocalTeleportMerkleProof) (numDummySteps : ℕ) :
    Except ClientError (List WithdrawExternalInputs) := do
  let secrets ← proofs.mapM fun p => secretFor burnAddressToSecret p.event.dst
  batchExternalInputs transferTreeHeight (proofs.map LocalTeleportMerkleProof.event)
    (proofs.map LocalTeleportMerkleProof.localMerkleProof)
    (proofs.map fun p => p.event.eventIndex) secrets numDummySteps

def globalInputs (burnAddressToSecret : Address → Option Word)
    (proofs : List GlobalTeleportMerkleProof) (numDummySteps : ℕ) :
    Except ClientError (List WithdrawExternalInputs) := do
  let secrets ← proofs.mapM fun p => secretFor burnAddressToSecret p.event.dst
  batchExternalInputs globalTransferTreeHeight (proofs.map GlobalTeleportMerkleProof.event)
    (proofs.map GlobalTeleportMerkleProof.globalMerkleProof)
    (proofs.map GlobalTeleportMerkleProof.globalLeafIndex) secrets numDummySteps

/-- The orders in which the two `HashMap`s of `redeem_transfers` are iterated. -/
structure IterationOrder where
  separated : List (TokenIndex × EventsWithEligibility) →
    List (TokenIndex × EventsWithEligibility)
  localProofs : List (ℕ × List LocalTeleportMerkleProof) →
    List (ℕ × List LocalTeleportMerkleProof)
  separated_perm : ∀ l, (separated l).Perm l
  localProofs_perm : ∀ l, (localProofs l).Perm l

/-- The proofs that `redeem_transfers` collects for the events of all chains. -/
def redeemProofs (order : IterationOrder) (state : AggregationTreeState)
    (events : List (TokenIndex × List IndexedEvent)) :
    Except ClientError (List GlobalTeleportMerkleProof) := do
  let separated ← separateEventsByEligibility state events
  let localProofs ← collectLocalProofs h state (order.separated separated)
  generateGlobalTeleportMerkleProofs h state (order.localProofs localProofs)

/-! ## The TypeScript builder -/

/-- A step as it is handed to the WASM prover. -/
structure JsExternalInput where
  isDummy : Bool
  value : Fr
  secret : Fr
  leafIndex : ℕ
  siblings : List Fr

def randomDummySteps (buffer : ℕ) : ℕ :=
  let value := buffer % NUM_BATCH_INVOICES
  if value = 0 then 1 else value

def appendDummySteps (dummySteps : ℕ) (steps : List JsExternalInput) : List JsExternalInput :=
  let offset := 2 ^ globalTransferTreeHeight - 1 - dummySteps
  steps ++ (List.range dummySteps).map fun i =>
    ⟨true, 0, 0, offset + i, List.replicate globalTransferTreeHeight 0⟩

/-- `prove_with_depth` up to `prove_step`: a leaf index is read as a `u64`. -/
def wasmInput (e : JsExternalInput) : Except ClientError WithdrawExternalInputs := do
  require (e.leafIndex < 2 ^ 64) (.leafIndexRange e.leafIndex)
  return ⟨e.isDummy, e.value, e.secret, (e.leafIndex : Fr), e.siblings⟩

/-- `WithdrawNovaWasm::prove` up to the folding: the depth of the circuit and its inputs. -/
def wasmInputs (steps : List JsExternalInput) :
    Except ClientError (ℕ × List WithdrawExternalInputs) := do
  let treeHeight := ((steps.head?).map fun e => e.siblings.length).getD transferTreeHeight
  require (∀ e ∈ steps, e.siblings.length = treeHeight) .siblingCount
  require (treeHeight = transferTreeHeight ∨ treeHeight = globalTransferTreeHeight) .siblingCount
  let inputs ← steps.mapM wasmInput
  return (treeHeight, inputs)

/-- `runNovaProver` up to the folding. -/
def runNovaProver (secret : Word) (proofs : List GlobalTeleportProof) (events : List IndexedEvent)
    (dummySteps : ℕ) : Except ClientError (ℕ × List WithdrawExternalInputs) := do
  require (proofs.length = events.length)
    (.mismatchedLengths events.length proofs.length 0 0)
  let pairs := sortByKey (fun p => p.2.leafIndex) (events.zip proofs)
  let steps := pairs.map fun p => (⟨false, u256ToFr p.1.value.val, u256ToFr secret.val,
    p.2.leafIndex, p.2.siblings⟩ : JsExternalInput)
  wasmInputs (appendDummySteps dummySteps steps)

/-- The eligible events and the proofs of `collectRedeemContext`, over all chains. -/
def redeemContext (state : AggregationSnapshot) (events : List (TokenIndex × List IndexedEvent)) :
    Except ClientError (List IndexedEvent × List GlobalTeleportProof) := do
  let perChain ← events.mapM fun x => chainContext h state x.1 x.2
  return (perChain.flatMap fun c => c.1.eligible, perChain.flatMap Prod.snd)

/-- The inputs that the front end proves for the events of one burn address. -/
def burnInputs (state : AggregationSnapshot) (events : List (TokenIndex × List IndexedEvent))
    (secret : Word) (dummySteps : ℕ) : Except ClientError (ℕ × List WithdrawExternalInputs) := do
  let context ← redeemContext h state events
  runNovaProver secret context.2 context.1 dummySteps

/-! ## Leaves of the aggregated tree -/

variable {h}

/-- The place of a chain among the leaves of the aggregation tree. -/
def place (chainIds : List ℕ) (v : ChainView) : ℕ := chainIds.findIdx (· == v.chainId)

/-- The chain is part of the aggregation. -/
structure Aggregated (h : Hashes) (event : AggregationEvent) (chainIds : List ℕ)
    (v : ChainView) : Prop where
  chain : v.chainId ∈ chainIds
  treeIndex : event.transferTreeIndices[place chainIds v]? = some v.treeIndex
  root : (event.snapshot[place chainIds v]?).map Fin.val = some (v.root h).val

/-- The index of a transfer in the aggregated tree. -/
def globalIndex (chainIds : List ℕ) (x : ChainView × IndexedEvent) : ℕ :=
  (place chainIds x.1 <<< transferTreeHeight) + x.2.eventIndex

def globalSiblings (h : Hashes) (event : AggregationEvent) (chainIds : List ℕ)
    (x : ChainView × IndexedEvent) : List Fr :=
  x.1.siblings h x.2.eventIndex
    ++ path h.poseidon2 (snapshotLeaves event.snapshot) 0 (place chainIds x.1)
      aggregationHeight

variable {event : AggregationEvent} {chainIds : List ℕ} {v : ChainView} {e : IndexedEvent}

/-- A chain of the aggregation is found at its place. -/
theorem Aggregated.findIdx (hv : Aggregated h event chainIds v) :
    chainIds.findIdx? (· == v.chainId) = some (place chainIds v) := by
  rw [List.findIdx?_eq_some_iff_findIdx_eq]
  exact ⟨List.findIdx_lt_length_of_exists ⟨v.chainId, hv.chain, beq_self_eq_true _⟩, rfl⟩

theorem Aggregated.chainPosition (hv : Aggregated h event chainIds v) :
    chainPosition chainIds v.chainId = .ok (place chainIds v) := by
  rw [Client.chainPosition, hv.findIdx]

/-- Its index in the event is the index of the view. -/
theorem Aggregated.treeIndexForChain (hv : Aggregated h event chainIds v) :
    treeIndexForChain chainIds event.transferTreeIndices v.chainId = .ok v.treeIndex := by
  rw [Client.treeIndexForChain, hv.chainPosition]
  simp only [bind, Except.bind, hv.treeIndex]

/-- Chains in one place are one chain. -/
theorem Aggregated.chainId_eq (hv : Aggregated h event chainIds v) {w : ChainView}
    (hw : Aggregated h event chainIds w) (hplace : place chainIds v = place chainIds w) :
    v.chainId = w.chainId := by
  have hv' := (List.findIdx?_eq_some_iff_getElem.mp hv.findIdx)
  have hw' := (List.findIdx?_eq_some_iff_getElem.mp hw.findIdx)
  obtain ⟨hlt, hget, -⟩ := hv'
  obtain ⟨hlt', hget', -⟩ := hw'
  simp only [hplace] at hget
  rw [← eq_of_beq hget, ← eq_of_beq hget']

/-- Its leaf in the snapshot is the root of the view. -/
theorem Aggregated.snapshotLeaves (hv : Aggregated h event chainIds v) :
    snapshotLeaves event.snapshot (place chainIds v) = v.root h := by
  obtain ⟨root, hget, hroot⟩ := Option.map_eq_some_iff.mp hv.root
  rw [Client.snapshotLeaves, leavesOf, List.getD_eq_getElem?_getD, List.getElem?_map, hget]
  show u256ToFr root.val = _
  rw [hroot, u256ToFr, ZMod.natCast_zmod_val]

/-- A global path is as long as the global tree is high. -/
theorem globalSiblings_length (x : ChainView × IndexedEvent) :
    (globalSiblings h event chainIds x).length = globalTransferTreeHeight := by
  rw [globalSiblings, List.length_append, ChainView.siblings_length, path_length]
  rfl

/-- An index of the aggregated tree names one of the chains it has room for. -/
theorem place_lt {x : ChainView × IndexedEvent}
    (hindex : globalIndex chainIds x < 2 ^ globalTransferTreeHeight) :
    place chainIds x.1 < 2 ^ aggregationHeight := by
  have hheight : 2 ^ globalTransferTreeHeight
      = 2 ^ aggregationHeight * 2 ^ transferTreeHeight := by decide
  rw [globalIndex, Nat.shiftLeft_eq, hheight] at hindex
  exact Nat.lt_of_mul_lt_mul_right (Nat.lt_of_le_of_lt (Nat.le_add_right _ _) hindex)

/-- The local path and then the aggregation's lead from the event to the global root. -/
theorem climb_globalSiblings (hv : v.Faithful h) (ha : Aggregated h event chainIds v)
    (hhas : v.Has e) (he : e.eventIndex < v.treeIndex)
    (hindex : globalIndex chainIds (v, e) < 2 ^ globalTransferTreeHeight) :
    climb h.poseidon2 (eventLeaf h e)
        ((bitsLE globalTransferTreeHeight (globalIndex chainIds (v, e))).zip
          (globalSiblings h event chainIds (v, e)))
      = node h.poseidon2 (snapshotLeaves event.snapshot) aggregationHeight 0 := by
  have hclimb := climb_aggregated (h := h) (f := v.leaves h) (g := snapshotLeaves event.snapshot)
    (hv.index_lt he) (place_lt hindex) ha.snapshotLeaves
  rw [ChainView.leaves_of_has hhas he] at hclimb
  exact hclimb

/-! ## A batch -/

/-- The events of some chains, in any order. -/
abbrev Batch := List (ChainView × List IndexedEvent)

namespace Batch

/-- What the clients are given. -/
def served (batch : Batch) : List (TokenIndex × List IndexedEvent) :=
  batch.map fun x => (x.1.toTokenIndex, x.2)

/-- The eligible events, each with its chain. -/
def items (batch : Batch) : List (ChainView × IndexedEvent) :=
  batch.flatMap fun x => (x.1.eligible x.2).map (Prod.mk x.1)

/-- The events are transfers of aggregated chains, each once. -/
structure Valid (h : Hashes) (event : AggregationEvent) (chainIds : List ℕ) (batch : Batch) :
    Prop where
  faithful : ∀ x ∈ batch, x.1.Faithful h
  aggregated : ∀ x ∈ batch, Aggregated h event chainIds x.1
  has : ∀ x ∈ batch, ∀ e ∈ x.2, x.1.Has e
  chains : (batch.map fun x => x.1.chainId).Nodup
  distinct : ∀ x ∈ batch, (x.2.map IndexedEvent.eventIndex).Nodup

variable {batch batch' : Batch}

/-- The items of a batch are its transfers below the index of the chain's root. -/
theorem mem_items {y : ChainView × IndexedEvent} :
    y ∈ batch.items ↔ ∃ x ∈ batch, x.1 = y.1 ∧ y.2 ∈ x.2 ∧ y.2.eventIndex < y.1.treeIndex := by
  rw [items, List.mem_flatMap]
  constructor
  · rintro ⟨x, hx, hy⟩
    obtain ⟨e, he, rfl⟩ := List.mem_map.mp hy
    rw [ChainView.mem_eligible] at he
    exact ⟨x, hx, rfl, he.1, he.2⟩
  · rintro ⟨x, hx, hchain, hmem, hlt⟩
    refine ⟨x, hx, List.mem_map.mpr ⟨y.2, ?_, ?_⟩⟩
    · rw [ChainView.mem_eligible, hchain]
      exact ⟨hmem, hlt⟩
    · rw [hchain]

/-- What is known of an item. -/
theorem Valid.item (hvalid : batch.Valid h event chainIds) {y : ChainView × IndexedEvent}
    (hy : y ∈ batch.items) :
    y.1.Faithful h ∧ Aggregated h event chainIds y.1 ∧ y.1.Has y.2
      ∧ y.2.eventIndex < y.1.treeIndex := by
  obtain ⟨x, hx, hchain, hmem, hlt⟩ := mem_items.mp hy
  rw [← hchain] at hlt ⊢
  exact ⟨hvalid.faithful x hx, hvalid.aggregated x hx, hvalid.has x hx _ hmem, hlt⟩

/-- No two items have one index. -/
theorem Valid.index_nodup (hvalid : batch.Valid h event chainIds) :
    (batch.items.map (globalIndex chainIds)).Nodup := by
  have hflat : batch.items.map (globalIndex chainIds)
      = batch.flatMap fun x => (x.1.eligible x.2).map fun e => globalIndex chainIds (x.1, e) := by
    rw [items, List.map_flatMap]
    simp only [List.map_map]
    rfl
  rw [hflat, List.nodup_flatMap]
  constructor
  · -- on one chain, the event index tells the events apart
    intro x hx
    have hevents : ((x.1.eligible x.2).map IndexedEvent.eventIndex).Nodup :=
      (hvalid.distinct x hx).sublist (List.filter_sublist.map _)
    have hmap : ((x.1.eligible x.2).map fun e => globalIndex chainIds (x.1, e))
        = ((x.1.eligible x.2).map IndexedEvent.eventIndex).map
          (fun i => (place chainIds x.1 <<< transferTreeHeight) + i) := by
      rw [List.map_map]
      rfl
    rw [hmap]
    exact hevents.map fun i j hij => Nat.add_left_cancel hij
  · -- on two chains, the place does
    refine (List.pairwise_map.mp hvalid.chains).imp_of_mem ?_
    intro x y hx hy hne
    rw [Function.onFun, List.disjoint_left]
    intro i hi hi'
    obtain ⟨e, he, rfl⟩ := List.mem_map.mp hi
    obtain ⟨e', he', heq⟩ := List.mem_map.mp hi'
    rw [ChainView.mem_eligible] at he he'
    have hlt := (hvalid.faithful x hx).index_lt he.2
    have hlt' := (hvalid.faithful y hy).index_lt he'.2
    have hplace : place chainIds x.1 = place chainIds y.1 := by
      simp only [globalIndex, Nat.shiftLeft_eq, transferTreeHeight] at heq hlt hlt'
      omega
    exact hne ((hvalid.aggregated x hx).chainId_eq (hvalid.aggregated y hy) hplace)

/-- The order of the chains decides the order of the items only. -/
theorem items_perm (hperm : batch.Perm batch') : batch.items.Perm batch'.items :=
  hperm.flatMap_right _

/-- Chains without eligible events do not matter. -/
theorem items_filter : items (batch.filter fun x => x.1.eligible x.2 ≠ []) = batch.items := by
  induction batch with
  | nil => rfl
  | cons x batch ih =>
    rw [List.filter_cons]
    split
    · rw [items, List.flatMap_cons, ← items, ih]
      rfl
    · rename_i hempty
      have hnil : x.1.eligible x.2 = [] := by simpa using hempty
      rw [ih, items, items, List.flatMap_cons, hnil]
      rfl

end Batch

/-! ## What the Rust client builds -/

/-- The state that the Rust client redeems against. -/
structure Fetched (h : Hashes) (event : AggregationEvent) (chainIds : List ℕ)
    (state : AggregationTreeState) : Prop where
  root : node h.poseidon2 (snapshotLeaves event.snapshot) aggregationHeight 0
    = u256ToFr event.root.val
  state_eq : state
    = ⟨event.aggSeq, event.root, aggregationTree h event.snapshot, event.transferTreeIndices,
      chainIds⟩

/-- The state that was fetched is that of the root on chain. -/
theorem fetchAggregationTreeState_eq_ok {onchainRoot : Word} {state : AggregationTreeState}
    (hok : fetchAggregationTreeState h onchainRoot event chainIds = .ok state) :
    event.root = onchainRoot ∧ Fetched h event chainIds state := by
  unfold fetchAggregationTreeState at hok
  simp only [bind_eq_ok, require_eq_ok, exists_const] at hok
  obtain ⟨hevent, hroot, hstate⟩ := hok
  rw [(aggregationTree_holds event.snapshot).getRoot] at hroot
  exact ⟨hevent, hroot, (Except.ok.inj hstate).symm⟩

/-- The Rust client's proof of one item. -/
def globalProofOf (h : Hashes) (event : AggregationEvent) (chainIds : List ℕ)
    (x : ChainView × IndexedEvent) : GlobalTeleportMerkleProof :=
  ⟨x.2, globalSiblings h event chainIds x, globalIndex chainIds x⟩

variable {state : AggregationTreeState}

/-- An eligible transfer gets its global proof. -/
theorem globalTeleportMerkleProof_ok (hstate : Fetched h event chainIds state)
    (hv : v.Faithful h) (ha : Aggregated h event chainIds v) (hhas : v.Has e)
    (he : e.eventIndex < v.treeIndex)
    (hindex : globalIndex chainIds (v, e) < 2 ^ globalTransferTreeHeight) :
    globalTeleportMerkleProof h state (place chainIds v) (localProofOf h v e)
      = .ok (globalProofOf h event chainIds (v, e)) := by
  have hprove : state.tree.prove (place chainIds v) = path h.poseidon2
      (snapshotLeaves event.snapshot) 0 (place chainIds v) aggregationHeight := by
    rw [hstate.state_eq]
    exact (aggregationTree_holds event.snapshot).prove _
  have hroot : getRoot h (globalSiblings h event chainIds (v, e)) (eventLeaf h e)
      (globalIndex chainIds (v, e)) = u256ToFr state.aggregationRoot.val := by
    rw [getRoot_eq, globalSiblings_length, climb_globalSiblings hv ha hhas he hindex, hstate.root,
      hstate.state_eq]
  unfold globalTeleportMerkleProof
  rw [hprove]
  exact bind_eq_ok.mpr ⟨(), require_of hroot, rfl⟩

variable {batch batch' : Batch}

/-- A valid batch is valid in any order. -/
theorem Batch.Valid.of_perm (hvalid : batch.Valid h event chainIds) (hperm : batch'.Perm batch) :
    batch'.Valid h event chainIds where
  faithful x hx := hvalid.faithful x (hperm.mem_iff.mp hx)
  aggregated x hx := hvalid.aggregated x (hperm.mem_iff.mp hx)
  has x hx := hvalid.has x (hperm.mem_iff.mp hx)
  chains := (hperm.map _).nodup_iff.mpr hvalid.chains
  distinct x hx := hvalid.distinct x (hperm.mem_iff.mp hx)

/-- The transfers are separated at the index that was aggregated. -/
theorem separateEventsByEligibility_ok (hstate : Fetched h event chainIds state)
    (hvalid : batch.Valid h event chainIds) :
    separateEventsByEligibility state batch.served
      = .ok (batch.map fun x => (x.1.toTokenIndex, partitionEvents x.1.treeIndex x.2)) := by
  rw [hstate.state_eq, separateEventsByEligibility, Batch.served, List.mapM_map]
  refine mapM_eq_ok fun x hx => ?_
  exact bind_eq_ok.mpr ⟨_, (hvalid.aggregated x hx).treeIndexForChain, rfl⟩

/-- The entry of a chain in `local_teleport_mps`. -/
def localEntry (h : Hashes) (x : ChainView × List IndexedEvent) :
    ℕ × List LocalTeleportMerkleProof :=
  (x.1.chainId, sortByKey (fun w => w.event.eventIndex)
    ((x.1.eligible x.2).map (localProofOf h x.1)))

/-- The indexers prove the eligible transfers of each chain. -/
theorem collectLocalProofs_ok (hstate : Fetched h event chainIds state)
    (hvalid : batch.Valid h event chainIds) :
    collectLocalProofs h state
        (batch.map fun x => (x.1.toTokenIndex, partitionEvents x.1.treeIndex x.2))
      = .ok ((batch.filter fun x => x.1.eligible x.2 ≠ []).map (localEntry h)) := by
  have hfilter : (batch.map fun x => (x.1.toTokenIndex, partitionEvents x.1.treeIndex x.2)).filter
        (fun x => x.2.eligible ≠ [])
      = (batch.filter fun x => x.1.eligible x.2 ≠ []).map
        fun x => (x.1.toTokenIndex, partitionEvents x.1.treeIndex x.2) := by
    rw [List.filter_map]
    rfl
  rw [hstate.state_eq, collectLocalProofs, hfilter, List.mapM_map]
  refine mapM_eq_ok fun x hx => ?_
  have hx := (List.mem_filter.mp hx).1
  refine bind_eq_ok.mpr ⟨_, (hvalid.aggregated x hx).treeIndexForChain, bind_eq_ok.mpr ⟨_, ?_, rfl⟩⟩
  refine fetchLocalTeleportMerkleProofs_ok (hvalid.faithful x hx) ?_
  intro e he
  obtain ⟨hmem, hlt⟩ := ChainView.mem_eligible.mp he
  exact ⟨hvalid.has x hx e hmem, hlt⟩

/-- The proofs of one chain, in the order of its entry. -/
def entryProofs (h : Hashes) (event : AggregationEvent) (chainIds : List ℕ)
    (x : ChainView × List IndexedEvent) : List GlobalTeleportMerkleProof :=
  (localEntry h x).2.map fun w => globalProofOf h event chainIds (x.1, w.event)

/-- So every item gets its global proof. -/
theorem generateGlobalTeleportMerkleProofs_ok (hstate : Fetched h event chainIds state)
    (hvalid : batch.Valid h event chainIds)
    (hindex : ∀ y ∈ batch.items, globalIndex chainIds y < 2 ^ globalTransferTreeHeight) :
    generateGlobalTeleportMerkleProofs h state (batch.map (localEntry h))
      = .ok (sortByKey GlobalTeleportMerkleProof.globalLeafIndex
        (batch.flatMap (entryProofs h event chainIds))) := by
  have hids : state.chainIds = chainIds := by rw [hstate.state_eq]
  have hloop : (batch.map (localEntry h)).mapM (fun entry => do
      let aggregationIndex ← chainPosition state.chainIds entry.1
      entry.2.mapM (globalTeleportMerkleProof h state aggregationIndex))
      = .ok (batch.map (entryProofs h event chainIds)) := by
    rw [List.mapM_map]
    refine mapM_eq_ok fun x hx => ?_
    have ha := hvalid.aggregated x hx
    refine bind_eq_ok.mpr ⟨_, by rw [hids]; exact ha.chainPosition, ?_⟩
    -- each local proof is extended by the path of its chain's root
    refine mapM_eq_ok fun w hw => ?_
    obtain ⟨e, he, rfl⟩ := List.mem_map.mp (mem_sortByKey.mp hw)
    obtain ⟨hmem, hlt⟩ := ChainView.mem_eligible.mp he
    have hitem : (x.1, e) ∈ batch.items := Batch.mem_items.mpr ⟨x, hx, rfl, hmem, hlt⟩
    exact globalTeleportMerkleProof_ok hstate (hvalid.faithful x hx) ha (hvalid.has x hx e hmem)
      hlt (hindex _ hitem)
  rw [generateGlobalTeleportMerkleProofs, hloop]
  rfl

/-- The proofs of one chain, in whatever order the indexer lists them. -/
theorem entryProofs_perm (x : ChainView × List IndexedEvent) :
    (entryProofs h event chainIds x).Perm
      (((x.1.eligible x.2).map (Prod.mk x.1)).map (globalProofOf h event chainIds)) := by
  have hperm : ((localEntry h x).2.map fun w => globalProofOf h event chainIds (x.1, w.event)).Perm
      (((x.1.eligible x.2).map (localProofOf h x.1)).map
        fun w => globalProofOf h event chainIds (x.1, w.event)) := (sortByKey_perm _).map _
  rw [List.map_map] at hperm ⊢
  exact hperm

/-- The Rust client collects the same proofs for every order of chains, events and maps. -/
theorem redeemProofs_ok (order : IterationOrder) (hstate : Fetched h event chainIds state)
    (hvalid : batch.Valid h event chainIds)
    (hindex : ∀ y ∈ batch.items, globalIndex chainIds y < 2 ^ globalTransferTreeHeight) :
    redeemProofs h order state batch.served
      = .ok ((sortByKey (globalIndex chainIds) batch.items).map
        (globalProofOf h event chainIds)) := by
  -- the maps in the order in which they are iterated
  obtain ⟨batch₁, hperm₁, hseparated⟩ := exists_perm_map (order.separated_perm
    (batch.map fun x => (x.1.toTokenIndex, partitionEvents x.1.treeIndex x.2)))
  have hvalid₁ := hvalid.of_perm hperm₁
  obtain ⟨batch₂, hperm₂, hlocal⟩ := exists_perm_map (order.localProofs_perm
    ((batch₁.filter fun x => x.1.eligible x.2 ≠ []).map (localEntry h)))
  have hvalid₂ : Batch.Valid h event chainIds batch₂ := by
    have hsub : (batch₁.filter fun x => x.1.eligible x.2 ≠ []).Sublist batch₁ :=
      List.filter_sublist
    have hfiltered : Batch.Valid h event chainIds
        (batch₁.filter fun x => x.1.eligible x.2 ≠ []) :=
      ⟨fun x hx => hvalid₁.faithful x (hsub.mem hx), fun x hx => hvalid₁.aggregated x (hsub.mem hx),
        fun x hx => hvalid₁.has x (hsub.mem hx), hvalid₁.chains.sublist (hsub.map _),
        fun x hx => hvalid₁.distinct x (hsub.mem hx)⟩
    exact hfiltered.of_perm hperm₂
  have hitems : (Batch.items batch₂).Perm batch.items := by
    refine (Batch.items_perm hperm₂).trans ?_
    rw [Batch.items_filter]
    exact Batch.items_perm hperm₁
  have hproofs : (List.flatMap (entryProofs h event chainIds) batch₂).Perm
      (batch.items.map (globalProofOf h event chainIds)) := by
    refine (List.Perm.flatMap_left batch₂ fun x _ => entryProofs_perm x).trans ?_
    rw [← List.map_flatMap]
    exact hitems.map _
  have hkeys : (batch.items.map (globalProofOf h event chainIds)).map
      GlobalTeleportMerkleProof.globalLeafIndex = batch.items.map (globalIndex chainIds) := by
    rw [List.map_map]
    rfl
  have hnodup := hvalid.index_nodup
  rw [← hkeys] at hnodup
  rw [redeemProofs, separateEventsByEligibility_ok hstate hvalid]
  simp only [bind, Except.bind]
  rw [hseparated, collectLocalProofs_ok hstate hvalid₁]
  simp only
  rw [hlocal, generateGlobalTeleportMerkleProofs_ok hstate hvalid₂
    (fun y hy => hindex y (hitems.mem_iff.mp hy)),
    ← sortByKey_congr hproofs.symm hnodup, map_sortByKey]
  intro y _
  rfl

/-- The step for an item. -/
def itemStep (h : Hashes) (event : AggregationEvent) (chainIds : List ℕ) (secret : Address → Fr)
    (x : ChainView × IndexedEvent) : WithdrawExternalInputs :=
  ⟨false, u256ToFr x.2.value.val, secret x.2.dst, (globalIndex chainIds x : Fr),
    globalSiblings h event chainIds x⟩

/-- The real steps of a batch. -/
def realSteps (h : Hashes) (event : AggregationEvent) (chainIds : List ℕ) (secret : Address → Fr)
    (batch : Batch) : List WithdrawExternalInputs :=
  (sortByKey (globalIndex chainIds) batch.items).map (itemStep h event chainIds secret)

/-- Inputs of equal length, one of each for every item. -/
theorem batchExternalInputs_map {α : Type} {depth n : ℕ} (l : List α) (event : α → IndexedEvent)
    (proof : α → List Fr) (index : α → ℕ) (secret : α → Fr)
    (hlength : ∀ x ∈ l, (proof x).length = depth) :
    batchExternalInputs depth (l.map event) (l.map proof) (l.map index) (l.map secret) n
      = .ok (l.map (fun x => ⟨false, u256ToFr (event x).value.val, secret x, (index x : Fr),
        proof x⟩) ++ dummySteps depth n) := by
  unfold batchExternalInputs
  refine bind_eq_ok.mpr ⟨(), require_of (by simp only [List.length_map, and_self]), ?_⟩
  refine bind_eq_ok.mpr ⟨_, ?_, rfl⟩
  rw [List.zip_map', List.zip_map', List.zip_map', List.mapM_map]
  refine mapM_eq_ok fun x hx => ?_
  exact bind_eq_ok.mpr ⟨(), require_of (hlength x hx), rfl⟩

/-- The secret of a burn address. -/
def secretOf (burnAddressToSecret : Address → Option Word) (dst : Address) : Fr :=
  ((burnAddressToSecret dst).map fun secret => u256ToFr secret.val).getD 0

variable {burnAddressToSecret : Address → Option Word}

/-- A burn address of the invoice has its secret. -/
theorem secretFor_ok {dst : Address} (hsecret : (burnAddressToSecret dst).isSome) :
    secretFor burnAddressToSecret dst = .ok (secretOf burnAddressToSecret dst) := by
  obtain ⟨secret, hsome⟩ := Option.isSome_iff_exists.mp hsecret
  rw [secretFor, secretOf, hsome]
  rfl

/-- The inputs of a local teleport: one step for each transfer, in the order of the leaves. -/
theorem localInputs_ok {events : List IndexedEvent} (n : ℕ)
    (hsecret : ∀ e ∈ events, (burnAddressToSecret e.dst).isSome) :
    localInputs burnAddressToSecret
        (sortByKey (fun w => w.event.eventIndex) (events.map (localProofOf h v))) n
      = .ok ((sortByKey IndexedEvent.eventIndex events).map (fun e =>
        ⟨false, u256ToFr e.value.val, secretOf burnAddressToSecret e.dst, (e.eventIndex : Fr),
          v.siblings h e.eventIndex⟩) ++ dummySteps transferTreeHeight n) := by
  have hsort : (sortByKey IndexedEvent.eventIndex events).map (localProofOf h v)
      = sortByKey (fun w => w.event.eventIndex) (events.map (localProofOf h v)) :=
    map_sortByKey (localProofOf h v) fun _ _ => rfl
  rw [← hsort]
  -- every address has its secret
  have hsecrets : ((sortByKey IndexedEvent.eventIndex events).map (localProofOf h v)).mapM
      (fun p => secretFor burnAddressToSecret p.event.dst)
      = .ok ((sortByKey IndexedEvent.eventIndex events).map
        fun e => secretOf burnAddressToSecret e.dst) := by
    rw [List.mapM_map]
    refine mapM_eq_ok fun e he => secretFor_ok (hsecret e (mem_sortByKey.mp he))
  rw [localInputs, hsecrets]
  simp only [bind, Except.bind, List.map_map]
  exact batchExternalInputs_map _ _ _ _ _ fun e _ => ChainView.siblings_length _

theorem globalInputs_ok (n : ℕ)
    (hsecret : ∀ y ∈ batch.items, (burnAddressToSecret y.2.dst).isSome) :
    globalInputs burnAddressToSecret ((sortByKey (globalIndex chainIds) batch.items).map
        (globalProofOf h event chainIds)) n
      = .ok (realSteps h event chainIds (secretOf burnAddressToSecret) batch
        ++ dummySteps globalTransferTreeHeight n) := by
  have hsecrets : ((sortByKey (globalIndex chainIds) batch.items).map
        (globalProofOf h event chainIds)).mapM
      (fun p => secretFor burnAddressToSecret p.event.dst)
      = .ok ((sortByKey (globalIndex chainIds) batch.items).map
        fun y => secretOf burnAddressToSecret y.2.dst) := by
    rw [List.mapM_map]
    refine mapM_eq_ok fun y hy => secretFor_ok (hsecret y (mem_sortByKey.mp hy))
  rw [globalInputs, hsecrets]
  simp only [bind, Except.bind, List.map_map]
  exact batchExternalInputs_map _ _ _ _ _ fun y _ => globalSiblings_length y

/-! ## What the TypeScript client builds -/

/-- The state that the TypeScript client redeems against. -/
theorem fetchAggregationSnapshot_eq_ok {onchainRoot : Word} {web : AggregationSnapshot}
    (hok : fetchAggregationSnapshot h onchainRoot event chainIds = .ok web) :
    web = ⟨event.aggSeq, event.root, event.snapshot, event.transferTreeIndices, chainIds⟩ := by
  unfold fetchAggregationSnapshot at hok
  simp only [bind_eq_ok, require_eq_ok, exists_const] at hok
  obtain ⟨hevent, -, hstate⟩ := hok
  rw [hevent]
  exact (Except.ok.inj hstate).symm

/-- The TypeScript client's proof of one item. -/
def webProofOf (h : Hashes) (event : AggregationEvent) (chainIds : List ℕ)
    (x : ChainView × IndexedEvent) : GlobalTeleportProof :=
  ⟨x.2, globalSiblings h event chainIds x, globalIndex chainIds x⟩

variable {web : AggregationSnapshot}

theorem chainContext_ok
    (hweb : web = ⟨event.aggSeq, event.root, event.snapshot, event.transferTreeIndices, chainIds⟩)
    (hvalid : batch.Valid h event chainIds)
    (hindex : ∀ y ∈ batch.items, globalIndex chainIds y < 2 ^ globalTransferTreeHeight)
    {x : ChainView × List IndexedEvent} (hx : x ∈ batch) :
    chainContext h web x.1.toTokenIndex x.2
      = .ok (partitionEvents x.1.treeIndex x.2,
        ((x.1.eligible x.2).map (Prod.mk x.1)).map (webProofOf h event chainIds)) := by
  have hv := hvalid.faithful x hx
  have ha := hvalid.aggregated x hx
  have hmem : ∀ e ∈ x.1.eligible x.2, (x.1, e) ∈ batch.items ∧ e.eventIndex < x.1.treeIndex := by
    intro e he
    obtain ⟨hmem, hlt⟩ := ChainView.mem_eligible.mp he
    exact ⟨Batch.mem_items.mpr ⟨x, hx, rfl, hmem, hlt⟩, hlt⟩
  rw [hweb]
  unfold chainContext
  refine bind_eq_ok.mpr ⟨_, ha.treeIndexForChain, ?_⟩
  show (if x.1.eligible x.2 = [] then _ else _) = _
  split
  -- a chain with nothing to redeem asks for no proof
  · rename_i hempty
    rw [hempty]
    rfl
  · rename_i hne
    obtain ⟨e₀, he₀⟩ := List.exists_mem_of_ne_nil _ hne
    have hplace := place_lt (hindex _ (hmem e₀ he₀).1)
    -- the indexer answers the indices in the order they were asked for
    have hrequest : requestProofs h x.1.cfg x.1.db x.1.treeIndex
        ((x.1.eligible x.2).map IndexedEvent.eventIndex)
        = .ok ((x.1.eligible x.2).map fun e =>
          proofAt h x.1.cfg (x.1.transfers.map entryOf) x.1.treeIndex e.eventIndex) := by
      rw [hv.requestProofs, List.map_map]
      · rfl
      · intro i hi
        obtain ⟨e, he, rfl⟩ := List.mem_map.mp hi
        exact (hmem e he).2
    have haggregation : aggregationMerkleProof h event.snapshot (place chainIds x.1)
        = .ok (path h.poseidon2 (snapshotLeaves event.snapshot) 0 (place chainIds x.1)
          aggregationHeight) := by
      refine bind_eq_ok.mpr ⟨(), require_of hplace, ?_⟩
      rw [(aggregationTree_holds event.snapshot).prove]
      rfl
    refine bind_eq_ok.mpr ⟨_, hrequest, bind_eq_ok.mpr ⟨(), require_of ?_, ?_⟩⟩
    · exact List.length_map _
    refine bind_eq_ok.mpr ⟨_, ?_, rfl⟩
    unfold generateGlobalTeleportProofs
    refine bind_eq_ok.mpr ⟨(), require_of (List.length_map _).symm, ?_⟩
    refine bind_eq_ok.mpr ⟨_, ha.chainPosition, bind_eq_ok.mpr ⟨_, haggregation, ?_⟩⟩
    show ((x.1.eligible x.2).zip _).mapM _ = _
    rw [← List.map_prod_left_eq_zip, List.mapM_map, List.map_map]
    -- each proof is the path in the chain's tree and then that of its root
    refine mapM_eq_ok fun e _ => ?_
    have hsiblings := hv.proofAt_siblings e.eventIndex
    refine bind_eq_ok.mpr ⟨(), require_of ?_, bind_eq_ok.mpr ⟨(), require_of ?_, ?_⟩⟩
    · show (proofAt h _ _ _ _).siblings.length = _
      rw [hsiblings, ChainView.siblings_length]
    · show ((proofAt h _ _ _ _).siblings ++ _).length = _
      rw [hsiblings, List.length_append, ChainView.siblings_length, path_length]
    · show Except.ok (⟨e, (proofAt h _ _ _ _).siblings ++ _, _⟩ : GlobalTeleportProof) = _
      rw [hsiblings]
      rfl

theorem redeemContext_ok
    (hweb : web = ⟨event.aggSeq, event.root, event.snapshot, event.transferTreeIndices, chainIds⟩)
    (hvalid : batch.Valid h event chainIds)
    (hindex : ∀ y ∈ batch.items, globalIndex chainIds y < 2 ^ globalTransferTreeHeight) :
    redeemContext h web batch.served
      = .ok (batch.items.map Prod.snd, batch.items.map (webProofOf h event chainIds)) := by
  have hloop : batch.served.mapM (fun x => chainContext h web x.1 x.2)
      = .ok (batch.map fun x => (partitionEvents x.1.treeIndex x.2,
        ((x.1.eligible x.2).map (Prod.mk x.1)).map (webProofOf h event chainIds))) := by
    rw [Batch.served, List.mapM_map]
    exact mapM_eq_ok fun x hx => chainContext_ok hweb hvalid hindex hx
  rw [redeemContext, hloop]
  simp only [bind, Except.bind, List.flatMap_map, Batch.items, List.map_flatMap, List.map_map]
  have hevents : ∀ x : ChainView × List IndexedEvent,
      (x.1.eligible x.2).map (Prod.snd ∘ Prod.mk x.1)
        = (partitionEvents x.1.treeIndex x.2).eligible :=
    fun x => List.map_id _
  simp only [hevents]
  rfl

/-- The wasm prover takes steps whose paths have one length and whose indices fit. -/
theorem wasmInputs_ok {steps : List JsExternalInput} (hne : steps ≠ [])
    (hlength : ∀ e ∈ steps, e.siblings.length = globalTransferTreeHeight)
    (hrange : ∀ e ∈ steps, e.leafIndex < 2 ^ 64) :
    wasmInputs steps = .ok (globalTransferTreeHeight, steps.map fun e =>
      ⟨e.isDummy, e.value, e.secret, (e.leafIndex : Fr), e.siblings⟩) := by
  have hheight : ((steps.head?).map fun e => e.siblings.length).getD transferTreeHeight
      = globalTransferTreeHeight := by
    obtain ⟨e, rest, rfl⟩ := List.exists_cons_of_ne_nil hne
    exact hlength e List.mem_cons_self
  unfold wasmInputs
  rw [hheight]
  refine bind_eq_ok.mpr ⟨(), require_of hlength, bind_eq_ok.mpr ⟨(), require_of (Or.inr rfl), ?_⟩⟩
  refine bind_eq_ok.mpr ⟨_, mapM_eq_ok fun e he => ?_, rfl⟩
  exact bind_eq_ok.mpr ⟨(), require_of (hrange e he), rfl⟩

/-- The browser proves the items and pads them with dummies. -/
theorem runNovaProver_ok (secret : Word) {n : ℕ} (hn : 1 ≤ n) (hsmall : n < NUM_BATCH_INVOICES)
    (hindex : ∀ y ∈ batch.items, globalIndex chainIds y < 2 ^ globalTransferTreeHeight) :
    runNovaProver secret (batch.items.map (webProofOf h event chainIds))
        (batch.items.map Prod.snd) n
      = .ok (globalTransferTreeHeight,
        realSteps h event chainIds (fun _ => u256ToFr secret.val) batch
          ++ dummySteps globalTransferTreeHeight n) := by
  have hheight : 2 ^ globalTransferTreeHeight ≤ 2 ^ 64 := by decide
  -- sorting the pairs is sorting the items
  have hpairs : sortByKey (fun p : IndexedEvent × GlobalTeleportProof => p.2.leafIndex)
      ((batch.items.map Prod.snd).zip (batch.items.map (webProofOf h event chainIds)))
      = (sortByKey (globalIndex chainIds) batch.items).map
        fun y => (y.2, webProofOf h event chainIds y) := by
    rw [List.zip_map', map_sortByKey]
    exact fun _ _ => rfl
  unfold runNovaProver
  refine bind_eq_ok.mpr ⟨(), require_of (by rw [List.length_map, List.length_map]), ?_⟩
  simp only [hpairs, List.map_map]
  rw [wasmInputs_ok]
  · rw [appendDummySteps, List.map_append, List.map_map, List.map_map]
    simp only [realSteps, dummySteps, Function.comp_def, dummyWithdrawExtInput, webProofOf,
      u256ToFr, Nat.cast_zero]
    rfl
  · rw [appendDummySteps]
    refine List.append_ne_nil_of_right_ne_nil _ ?_
    rw [Ne, List.map_eq_nil_iff, List.range_eq_nil]
    omega
  -- every path has the height of the tree
  · intro e he
    rcases List.mem_append.mp he with he | he
    · obtain ⟨y, -, rfl⟩ := List.mem_map.mp he
      exact globalSiblings_length y
    · obtain ⟨i, -, rfl⟩ := List.mem_map.mp he
      exact List.length_replicate
  -- every index fits in 64 bits, those of the dummies too
  · intro e he
    rcases List.mem_append.mp he with he | he
    · obtain ⟨y, hy, rfl⟩ := List.mem_map.mp he
      exact (hindex y (mem_sortByKey.mp hy)).trans_le hheight
    · obtain ⟨i, hi, rfl⟩ := List.mem_map.mp he
      rw [List.mem_range] at hi
      refine lt_of_lt_of_le ?_ hheight
      have hlarge : NUM_BATCH_INVOICES < 2 ^ globalTransferTreeHeight := by decide
      show 2 ^ globalTransferTreeHeight - 1 - n + i < 2 ^ globalTransferTreeHeight
      omega

end Client

end Zerc20
