import Zerc20.Client.Batch
import Zerc20.Client.AggregationRoot
import Zerc20.Contracts.Network

/-!
# Aggregation state and later registrations

The clients read the roots and indices of the leaves from the event of a broadcast, and the chain
ids from the tokens that the Hub has now. In between the owner may have registered tokens, and
`updateToken` may have put another chain id in a slot. `get_tree_id_for_chain_id` finds a position
among the chain ids and indexes with it into the indices of the event; `getTreeIndexForChain`
compares it with their number first.

A history of the Hub is any sequence of its calls; the parts of `broadcast` before and after its
calls of others are calls of their own, so what those do to the Hub is between them.
`lookups_safe_iff` says which histories leave both clients with the leaves that they look for.
-/

namespace Zerc20

open Machine HashTree

/-! ## Histories of the Hub -/

inductive HubCall where
  | setPeer (sender : Address) (eid : ℕ) (peer : Word)
  | registerToken (sender : Address) (info : TokenInfo)
  | updateToken (sender : Address) (info : TokenInfo)
  | lzReceive (sender : Address) (srcEid : ℕ) (originSender : Word) (payload : Payload)
  | broadcastStart (value : ℕ) (targetEids : List ℕ) (quote : ℕ → MessagingFee)
  | broadcastDone (ctx : BroadcastContext)
  /-- The sends and the refund of an open `broadcast`, and ether from elsewhere. -/
  | nativeBalance (amount : ℕ)

namespace Hub

section

variable (h : Hashes)

def call (u : Hub) : HubCall → Except HubError Hub
  | .setPeer sender eid peer => u.setPeer sender eid peer
  | .registerToken sender info => u.registerToken sender info
  | .updateToken sender info => u.updateToken sender info
  | .lzReceive sender srcEid originSender payload => u.lzReceive sender srcEid originSender payload
  | .broadcastStart value targetEids quote =>
    (u.broadcastStart h value targetEids quote).map Prod.fst
  | .broadcastDone ctx => .ok (u.broadcastDone ctx)
  | .nativeBalance amount => .ok { u with nativeBalance := amount }

/-- The Hub after some calls; one that reverts changes nothing. -/
def after (u : Hub) (calls : List HubCall) : Hub := run (fun u c => commit u (u.call h c)) u calls

end

def chainIds (u : Hub) : List ℕ := u.tokenInfos.map TokenInfo.chainId

/-- The arrays are parallel and fit the aggregation tree. -/
structure Recorded (h : Hashes) (u : Hub) : Prop extends u.Aligned where
  capacity : u.transferRoots.length ≤ MAX_LEAVES
  words : ∀ root ∈ u.transferRoots, root < 2 ^ 256
  zeroHash : u.zeroHash = generateZeroHashes h

variable {h : Hashes} {u u' : Hub}

/-- The record speaks of the arrays and the zero hashes. -/
theorem Recorded.frame (hu : u.Recorded h) (harrays : u'.arrays = u.arrays)
    (hzero : u'.zeroHash = u.zeroHash) : u'.Recorded h where
  toAligned := hu.toAligned.frame harrays
  capacity := by
    rw [show u'.transferRoots = u.transferRoots from congrArg (·.1) harrays]
    exact hu.capacity
  words := by
    rw [show u'.transferRoots = u.transferRoots from congrArg (·.1) harrays]
    exact hu.words
  zeroHash := hzero.trans hu.zeroHash

/-- Every call of the Hub keeps the record: the snapshots are those of the chains registered then.
-/
theorem call_recorded (hu : u.Recorded h) {c : HubCall} (hok : u.call h c = .ok u') :
    u'.Recorded h := by
  cases c with
  | setPeer sender eid peer =>
    rw [setPeer_eq_ok hok]
    exact hu.frame rfl rfl
  -- a new leaf is the empty root, and there is room for it
  | registerToken sender info =>
    have haligned := registerToken_aligned hu.toAligned hok
    obtain ⟨-, hroom, rfl⟩ := registerToken_eq_ok hok
    refine ⟨haligned, ?_, ?_, hu.zeroHash⟩
    · show (u.transferRoots ++ [0]).length ≤ MAX_LEAVES
      rw [List.length_append]
      exact hroom
    · intro root hroot
      rcases List.mem_append.mp (show root ∈ u.transferRoots ++ [0] from hroot) with hold | hnew
      -- an older index changes nothing
      · exact hu.words root hold
      · rw [List.mem_singleton.mp hnew]
        exact Nat.two_pow_pos 256
  | updateToken sender info =>
    have haligned := updateToken_aligned hu.toAligned hok
    obtain ⟨-, rfl⟩ := updateToken_eq_ok hok
    exact ⟨haligned, hu.capacity, hu.words, hu.zeroHash⟩
  | lzReceive sender srcEid originSender payload =>
    have haligned := lzReceive_aligned hu.toAligned hok
    obtain ⟨-, -, -, ⟨-, rfl⟩ | ⟨-, rfl⟩⟩ := lzReceive_eq_ok hok
    · exact hu
    · refine ⟨haligned, ?_, ?_, hu.zeroHash⟩
      · show (u.transferRoots.set _ _).length ≤ MAX_LEAVES
        rw [List.length_set]
        exact hu.capacity
      · intro root hroot
        rcases List.mem_or_eq_of_mem_set hroot with hold | rfl
        · exact hu.words root hold
        · exact payload.1.isLt
  -- a broadcast writes neither roots nor chain ids
  | broadcastStart value targetEids quote =>
    change (u.broadcastStart h value targetEids quote).map Prod.fst = .ok u' at hok
    cases hstart : u.broadcastStart h value targetEids quote with
    | error e =>
      rw [hstart] at hok
      cases hok
    | ok r =>
      obtain ⟨u'', ctx, fees, refund⟩ := r
      rw [hstart] at hok
      cases hok
      obtain ⟨-, -, -, -, rfl⟩ := broadcastStart_eq_ok hstart
      exact hu.frame rfl rfl
  | broadcastDone ctx =>
    cases hok
    exact hu.frame rfl rfl
  | nativeBalance amount =>
    cases hok
    exact hu.frame rfl rfl

theorem after_recorded (h : Hashes) (owner endpoint : Address) (calls : List HubCall) :
    ((initial h owner endpoint).after h calls).Recorded h := by
  refine run_induction (I := Recorded h) ?_ (fun u c hu => ?_) calls
  · exact ⟨initial_aligned owner endpoint, Nat.zero_le _, nofun, rfl⟩
  · rcases commit_cases u (u.call h c) with ⟨-, hsame⟩ | hok
    · rw [hsame]
      exact hu
    · exact call_recorded hu hok

end Hub

/-! ## What the clients fetch -/

namespace Client

open Indexer

/-- The `AggregationRootUpdated` event of a broadcast. -/
def eventOf (ctx : BroadcastContext) : AggregationEvent where
  aggSeq := ctx.nextAggSeq
  root := toWord ctx.aggregationRoot
  snapshot := ctx.snapshot.map toWord
  transferTreeIndices := ctx.transferTreeIndicesSnapshot

variable {h : Hashes}

/-- The clients find the root that the Hub computed. -/
theorem getRoot_eventOf {u u' : Hub} (hu : u.Recorded h) {value : ℕ} {targetEids : List ℕ}
    {quote : ℕ → MessagingFee} {ctx : BroadcastContext} {fees : List (ℕ × ℕ)} {refund : ℕ}
    (hstart : u.broadcastStart h value targetEids quote = .ok (u', ctx, fees, refund)) :
    (aggregationTree h (eventOf ctx).snapshot).getRoot.val = (eventOf ctx).root.val := by
  obtain ⟨-, rfl, -, -, -⟩ := Hub.broadcastStart_eq_ok hstart
  have hleaves : snapshotLeaves (u.transferRoots.map toWord)
      = leavesOf 0 (u.transferRoots.map u256ToFr) := by
    rw [snapshotLeaves, List.map_map]
    congr 1
    refine List.map_congr_left fun root hroot => ?_
    show u256ToFr (toWord root).val = u256ToFr root
    rw [toWord_val (hu.words root hroot)]
  rw [(aggregationTree_holds _).getRoot]
  show (node h.poseidon2 (snapshotLeaves (u.transferRoots.map toWord)) TREE_HEIGHT 0).val
    = (toWord (computeAggregationRoot h u.zeroHash u.transferRoots)).val
  rw [hleaves, hu.zeroHash, computeAggregationRoot_eq hu.capacity, toWord_val]
  exact (ZMod.val_lt _).trans (by decide)

/-- Both clients accept the event of a broadcast. -/
theorem fetch_eventOf {u u' : Hub} (hu : u.Recorded h) {value : ℕ} {targetEids : List ℕ}
    {quote : ℕ → MessagingFee} {ctx : BroadcastContext} {fees : List (ℕ × ℕ)} {refund : ℕ}
    (hstart : u.broadcastStart h value targetEids quote = .ok (u', ctx, fees, refund))
    (chainIds : List ℕ) :
    fetchAggregationTreeState h (eventOf ctx).root (eventOf ctx) chainIds
        = .ok ⟨ctx.nextAggSeq, (eventOf ctx).root, aggregationTree h (eventOf ctx).snapshot,
          ctx.transferTreeIndicesSnapshot, chainIds⟩
      ∧ fetchAggregationSnapshot h (eventOf ctx).root (eventOf ctx) chainIds
        = .ok ⟨ctx.nextAggSeq, (eventOf ctx).root, (eventOf ctx).snapshot,
          ctx.transferTreeIndicesSnapshot, chainIds⟩ := by
  have hroot := getRoot_eventOf hu hstart
  have hfr : (aggregationTree h (eventOf ctx).snapshot).getRoot
      = u256ToFr (eventOf ctx).root.val := by
    rw [← hroot, u256ToFr, ZMod.natCast_zmod_val]
  constructor
  · exact bind_eq_ok.mpr ⟨(), require_of rfl, bind_eq_ok.mpr ⟨(), require_of hfr, rfl⟩⟩
  · exact bind_eq_ok.mpr ⟨(), require_of rfl, bind_eq_ok.mpr ⟨(), require_of hroot, rfl⟩⟩

/-! ## Lookups -/

inductive TreeIdLookup where
  | notFound
  | found (treeIndex : ℕ)
  /-- `self.tree_root_indices[idx]` panics. -/
  | outOfBounds
  deriving DecidableEq

/-- `get_tree_id_for_chain_id`; where it panics, `treeIndexForChain` has the error of the front
end. -/
def AggregationTreeState.getTreeIdForChainId (state : AggregationTreeState) (chainId : ℕ) :
    TreeIdLookup :=
  match state.chainIds.findIdx? (· == chainId) with
  | none => .notFound
  | some i =>
    match state.treeRootIndices[i]? with
    | some treeIndex => .found treeIndex
    | none => .outOfBounds

/-- The indexer proves what it is asked for. -/
def Answers (h : Hashes) (token : TokenIndex) (events : List IndexedEvent) (treeIndex : ℕ) : Prop :=
  ∃ proofs, requestProofs h token.cfg token.db treeIndex
      ((partitionEvents treeIndex events).eligible.map IndexedEvent.eventIndex) = .ok proofs
    ∧ proofs.length = (partitionEvents treeIndex events).eligible.length
    ∧ ∀ proof ∈ proofs, proof.siblings.length = transferTreeHeight

/-- What is to hold of the states that the clients have fetched, if the leaves of the broadcast were
those of the chains `chainIds` and the configured ones are `tokens`: no lookup is out of bounds, the
configured chains that have a leaf are looked up at its position and with its tree index, and neither
client fails because of the other chains. -/
structure LookupsSafe (h : Hashes) (state : AggregationTreeState) (web : AggregationSnapshot)
    (chainIds tokens : List ℕ) : Prop where
  inBounds : ∀ chainId, state.getTreeIdForChainId chainId ≠ .outOfBounds
  position : ∀ (i chainId : ℕ), chainIds[i]? = some chainId → chainId ∈ tokens →
    chainPosition state.chainIds chainId = .ok i ∧ chainPosition web.chainIds chainId = .ok i
  treeIndex : ∀ (i chainId treeIndex : ℕ), chainIds[i]? = some chainId → chainId ∈ tokens →
    state.treeRootIndices[i]? = some treeIndex →
      state.getTreeIdForChainId chainId = .found treeIndex
        ∧ treeIndexForChain web.chainIds web.transferTreeIndices chainId = .ok treeIndex
  separates : (∃ chainId ∈ tokens, chainId ∈ chainIds) →
    ∀ events : List (TokenIndex × List IndexedEvent), (∀ x ∈ events, x.1.chainId ∈ tokens) →
      ∃ separated, separateEventsByEligibility state events = .ok separated
  collects : (∃ chainId ∈ tokens, chainId ∈ chainIds) →
    ∀ events : List (TokenIndex × List IndexedEvent), events.map (fun x => x.1.chainId) = tokens →
      (∀ x ∈ events, ∀ treeIndex,
        treeIndexForChain web.chainIds web.transferTreeIndices x.1.chainId = .ok treeIndex →
          Answers h x.1 x.2 treeIndex) →
      ∃ context, redeemContext h web events = .ok context

/-- The Hub's chain ids were `chainIds` at the broadcast and are `current` now. A token that was
registered since has the chain id of a slot of the broadcast. The slots of configured chains have
kept their chain ids, which no earlier slot has. If there is such a slot, all configured chains are
registered. -/
structure Settled (chainIds current tokens : List ℕ) : Prop where
  registered : ∀ chainId ∈ current, chainId ∈ current.take chainIds.length
  slots : ∀ (i chainId : ℕ), chainIds[i]? = some chainId → chainId ∈ tokens →
    current[i]? = some chainId ∧ ∀ j < i, current[j]? ≠ some chainId
  configured : (∃ chainId ∈ tokens, chainId ∈ chainIds) → ∀ chainId ∈ tokens, chainId ∈ current

section

variable {chainIds current tokens : List ℕ} {chainId i : ℕ}

/-- The search finds the first place of the chain id. -/
theorem findIdx_eq_some :
    current.findIdx? (· == chainId) = some i
      ↔ current[i]? = some chainId ∧ ∀ j < i, current[j]? ≠ some chainId := by
  rw [List.findIdx?_eq_some_iff_getElem]
  constructor
  · rintro ⟨hlt, hget, hbefore⟩
    refine ⟨List.getElem?_eq_some_iff.mpr ⟨hlt, eq_of_beq hget⟩, fun j hj hsome => ?_⟩
    obtain ⟨hlt', hget'⟩ := List.getElem?_eq_some_iff.mp hsome
    exact hbefore j hj (by rw [hget', beq_self_eq_true])
  · rintro ⟨hsome, hbefore⟩
    obtain ⟨hlt, hget⟩ := List.getElem?_eq_some_iff.mp hsome
    refine ⟨hlt, by rw [hget, beq_self_eq_true], fun j hj hbeq => hbefore j hj ?_⟩
    exact List.getElem?_eq_some_iff.mpr ⟨hj.trans hlt, eq_of_beq hbeq⟩

theorem chainPosition_eq_ok :
    chainPosition current chainId = .ok i
      ↔ current[i]? = some chainId ∧ ∀ j < i, current[j]? ≠ some chainId := by
  rw [← findIdx_eq_some, chainPosition]
  cases hfind : current.findIdx? (· == chainId) with
  | none => exact iff_of_false (fun hok => by cases hok) fun hok => by cases hok
  | some j => exact ⟨fun hok => congrArg some (Except.ok.inj hok), fun hok => by cases hok; rfl⟩

/-- A chain id has a position when it is in the list. -/
theorem exists_chainPosition : (∃ i, chainPosition current chainId = .ok i) ↔ chainId ∈ current := by
  constructor
  · rintro ⟨i, hi⟩
    exact List.mem_of_getElem? (chainPosition_eq_ok.mp hi).1
  · intro hmem
    cases hfind : current.findIdx? (· == chainId) with
    | none =>
      have hnone := List.findIdx?_eq_none_iff.mp hfind chainId hmem
      rw [beq_self_eq_true] at hnone
      cases hnone
    | some i => exact ⟨i, chainPosition_eq_ok.mpr (findIdx_eq_some.mp hfind)⟩

/-- The first slot with a chain id is below `n` if one is. -/
theorem mem_take_iff {n : ℕ} :
    chainId ∈ current.take n ↔ ∃ i < n, chainPosition current chainId = .ok i := by
  constructor
  · intro hmem
    obtain ⟨i, hi⟩ := exists_chainPosition.mpr (List.mem_of_mem_take hmem)
    refine ⟨i, ?_, hi⟩
    by_contra hge
    obtain ⟨j, hj⟩ := List.mem_iff_getElem?.mp hmem
    have hlt : j < n := by
      obtain ⟨hlt, -⟩ := List.getElem?_eq_some_iff.mp hj
      rw [List.length_take] at hlt
      omega
    rw [List.getElem?_take_of_lt hlt] at hj
    exact (chainPosition_eq_ok.mp hi).2 j (by omega) hj
  · rintro ⟨i, hi, hposition⟩
    have hget := (chainPosition_eq_ok.mp hposition).1
    rw [← List.getElem?_take_of_lt hi] at hget
    exact List.mem_of_getElem? hget

variable {indices : List ℕ}

/-- Its tree index is the one at that position. -/
theorem treeIndexForChain_eq_ok {treeIndex : ℕ} :
    treeIndexForChain current indices chainId = .ok treeIndex
      ↔ ∃ i, chainPosition current chainId = .ok i ∧ indices[i]? = some treeIndex := by
  rw [treeIndexForChain, bind_eq_ok]
  refine exists_congr fun i => and_congr_right fun _ => ?_
  cases indices[i]? with
  | none => exact iff_of_false (fun hok => by cases hok) fun hok => by cases hok
  | some j => exact ⟨fun hok => congrArg some (Except.ok.inj hok), fun hok => by cases hok; rfl⟩

/-- The panic, by the position that is found. -/
theorem getTreeIdForChainId_eq {state : AggregationTreeState} {i : ℕ}
    (hposition : chainPosition state.chainIds chainId = .ok i) :
    state.getTreeIdForChainId chainId = match state.treeRootIndices[i]? with
      | some treeIndex => .found treeIndex
      | none => .outOfBounds := by
  rw [AggregationTreeState.getTreeIdForChainId,
    findIdx_eq_some.mpr (chainPosition_eq_ok.mp hposition)]

end

/-! ## When the lookups are safe -/

section

variable {state : AggregationTreeState} {web : AggregationSnapshot} {tokens : List ℕ}

/-- Both clients have found the leaves of `chainIds`, and the chain ids `current`. -/
structure FetchedAt (state : AggregationTreeState) (web : AggregationSnapshot)
    (chainIds current : List ℕ) : Prop where
  length : state.treeRootIndices.length = chainIds.length
  capacity : chainIds.length ≤ 2 ^ aggregationHeight
  chainIds : state.chainIds = current
  indices : web.transferTreeIndices = state.treeRootIndices
  webChainIds : web.chainIds = current

variable {chainIds current : List ℕ}

/-- A slot of the broadcast has a tree index. -/
theorem FetchedAt.treeIndex (hf : FetchedAt state web chainIds current) {chainId : ℕ}
    (hmem : chainId ∈ current.take chainIds.length) :
    ∃ i < 2 ^ aggregationHeight, ∃ treeIndex, chainPosition current chainId = .ok i
      ∧ state.treeRootIndices[i]? = some treeIndex := by
  obtain ⟨i, hi, hposition⟩ := mem_take_iff.mp hmem
  have hlt : i < state.treeRootIndices.length := by
    rw [hf.length]
    exact hi
  exact ⟨i, hi.trans_le hf.capacity, _, hposition, List.getElem?_eq_getElem hlt⟩

/-- A lookup stays in bounds when the chain is unknown or has a slot of the broadcast. -/
theorem FetchedAt.inBounds_iff (hf : FetchedAt state web chainIds current) {chainId : ℕ} :
    state.getTreeIdForChainId chainId ≠ .outOfBounds
      ↔ (chainId ∈ current → chainId ∈ current.take chainIds.length) := by
  by_cases hcurrent : chainId ∈ current
  · obtain ⟨i, hposition⟩ := exists_chainPosition.mpr hcurrent
    have hstate : chainPosition state.chainIds chainId = .ok i := by
      rw [hf.chainIds]
      exact hposition
    have hlookup := getTreeIdForChainId_eq hstate
    rw [mem_take_iff, imp_iff_right hcurrent]
    constructor
    · -- the panic is the only way to have no tree index
      intro hbounds
      refine ⟨i, ?_, hposition⟩
      by_contra hge
      have hnone : state.treeRootIndices[i]? = none :=
        List.getElem?_eq_none (by rw [hf.length]; omega)
      rw [hnone] at hlookup
      exact hbounds hlookup
    · rintro ⟨j, hj, hposition'⟩
      rw [hposition] at hposition'
      cases hposition'
      have hsome : state.treeRootIndices[i]? = some _ :=
        List.getElem?_eq_getElem (by rw [hf.length]; exact hj)
      rw [hsome] at hlookup
      rw [hlookup]
      nofun
  · refine iff_of_true ?_ fun hmem => absurd hmem hcurrent
    have hnone : state.chainIds.findIdx? (· == chainId) = none := by
      cases hfind : state.chainIds.findIdx? (· == chainId) with
      | none => rfl
      | some i =>
        rw [hf.chainIds] at hfind
        exact absurd (exists_chainPosition.mp
          ⟨i, chainPosition_eq_ok.mpr (findIdx_eq_some.mp hfind)⟩) hcurrent
    rw [AggregationTreeState.getTreeIdForChainId, hnone]
    nofun

/-- The front end collects the proofs of a chain that has a slot of the broadcast. -/
theorem FetchedAt.chainContext (hf : FetchedAt state web chainIds current) {token : TokenIndex}
    {events : List IndexedEvent} (hmem : token.chainId ∈ current.take chainIds.length)
    (hanswers : ∀ treeIndex,
      treeIndexForChain web.chainIds web.transferTreeIndices token.chainId = .ok treeIndex →
        Answers h token events treeIndex) :
    ∃ context, chainContext h web token events = .ok context := by
  obtain ⟨i, hi, treeIndex, hposition, hget⟩ := hf.treeIndex hmem
  have hindex : treeIndexForChain web.chainIds web.transferTreeIndices token.chainId
      = .ok treeIndex := by
    rw [hf.webChainIds, hf.indices]
    exact treeIndexForChain_eq_ok.mpr ⟨i, hposition, hget⟩
  obtain ⟨proofs, hproofs, hlength, hsiblings⟩ := hanswers treeIndex hindex
  have hpath : aggregationMerkleProof h web.snapshot i
      = .ok ((aggregationTree h web.snapshot).prove i) :=
    bind_eq_ok.mpr ⟨(), require_of hi, rfl⟩
  have hpathLength : ((aggregationTree h web.snapshot).prove i).length = aggregationHeight := by
    rw [(aggregationTree_holds web.snapshot).prove, path_length]
  -- the siblings of every event have the length that is expected
  obtain ⟨global, hglobal⟩ : ∃ global, ((partitionEvents treeIndex events).eligible.zip proofs).mapM
      (fun ep => globalTeleportProof i ((aggregationTree h web.snapshot).prove i) ep.1 ep.2)
      = .ok global := by
    refine exists_mapM_eq_ok.mpr fun ep hep => ?_
    have hlocal := hsiblings ep.2 (List.of_mem_zip hep).2
    refine ⟨_, bind_eq_ok.mpr ⟨(), require_of hlocal, bind_eq_ok.mpr ⟨(), require_of ?_, rfl⟩⟩⟩
    show (ep.2.siblings ++ _).length = _
    rw [List.length_append, hlocal, hpathLength]
  have hgenerate : generateGlobalTeleportProofs h web token.chainId
      (partitionEvents treeIndex events).eligible proofs = .ok global := by
    refine bind_eq_ok.mpr ⟨(), require_of hlength.symm, bind_eq_ok.mpr ⟨i, ?_, ?_⟩⟩
    · rw [hf.webChainIds]
      exact hposition
    · exact bind_eq_ok.mpr ⟨_, hpath, hglobal⟩
  by_cases hempty : (partitionEvents treeIndex events).eligible = []
  · refine ⟨(partitionEvents treeIndex events, []), ?_⟩
    exact bind_eq_ok.mpr ⟨treeIndex, hindex, if_pos hempty⟩
  · refine ⟨(partitionEvents treeIndex events, global), ?_⟩
    refine bind_eq_ok.mpr ⟨treeIndex, hindex, (if_neg hempty).trans ?_⟩
    refine bind_eq_ok.mpr ⟨proofs, hproofs, bind_eq_ok.mpr ⟨(), require_of hlength, ?_⟩⟩
    exact bind_eq_ok.mpr ⟨global, hgenerate, rfl⟩

/-- With settled registrations every lookup is in bounds and about the right chain. -/
theorem FetchedAt.lookupsSafe (hf : FetchedAt state web chainIds current)
    (hsettled : Settled chainIds current tokens) : LookupsSafe h state web chainIds tokens where
  inBounds chainId := hf.inBounds_iff.mpr (hsettled.registered chainId)
  position i chainId hget hmem := by
    rw [hf.chainIds, hf.webChainIds, and_self]
    exact chainPosition_eq_ok.mpr (hsettled.slots i chainId hget hmem)
  treeIndex i chainId treeIndex hget hmem hindex := by
    have hposition := chainPosition_eq_ok.mpr (hsettled.slots i chainId hget hmem)
    constructor
    · rw [getTreeIdForChainId_eq (by rw [hf.chainIds]; exact hposition), hindex]
    · rw [hf.webChainIds, hf.indices]
      exact treeIndexForChain_eq_ok.mpr ⟨i, hposition, hindex⟩
  separates hleaf events htokens := by
    refine exists_mapM_eq_ok.mpr fun x hx => ?_
    have hcurrent := hsettled.configured hleaf _ (htokens x hx)
    obtain ⟨i, -, treeIndex, hposition, hget⟩ := hf.treeIndex (hsettled.registered _ hcurrent)
    refine ⟨_, bind_eq_ok.mpr ⟨treeIndex, ?_, rfl⟩⟩
    rw [hf.chainIds]
    exact treeIndexForChain_eq_ok.mpr ⟨i, hposition, hget⟩
  collects hleaf events htokens hanswers := by
    -- each chain of the answer is configured, so its slot is in the snapshot
    have hchains : ∀ x ∈ events, ∃ context, Client.chainContext h web x.1 x.2 = .ok context := by
      intro x hx
      have hmem : x.1.chainId ∈ tokens := by
        rw [← htokens]
        exact List.mem_map_of_mem hx
      have hcurrent := hsettled.configured hleaf _ hmem
      exact hf.chainContext (hsettled.registered _ hcurrent) (hanswers x hx)
    obtain ⟨perChain, hperChain⟩ := exists_mapM_eq_ok.mpr hchains
    exact ⟨_, bind_eq_ok.mpr ⟨perChain, hperChain, rfl⟩⟩

/-- A token with nothing in its tree yet. -/
def freshToken (chainId : ℕ) : TokenIndex :=
  ⟨chainId, ⟨transferTreeHeight, 1, transferTreeHeight_pos, Nat.one_pos⟩, .initial⟩

/-- When the lookups are safe, the registrations are settled. -/
theorem FetchedAt.settled (hf : FetchedAt state web chainIds current)
    (hsafe : LookupsSafe h state web chainIds tokens) : Settled chainIds current tokens where
  registered chainId hmem := hf.inBounds_iff.mp (hsafe.inBounds chainId) hmem
  slots i chainId hget hmem := by
    have hposition := (hsafe.position i chainId hget hmem).1
    rw [hf.chainIds] at hposition
    exact chainPosition_eq_ok.mp hposition
  configured hleaf chainId hmem := by
    -- a token without events is enough for the loop to fail
    obtain ⟨separated, hok⟩ := hsafe.separates hleaf [(freshToken chainId, [])] fun x hx => by
      rw [List.mem_singleton.mp hx]
      exact hmem
    obtain ⟨_, htoken⟩ := exists_mapM_eq_ok.mp ⟨separated, hok⟩ _ (List.mem_singleton_self _)
    obtain ⟨_, hindex, -⟩ := bind_eq_ok.mp htoken
    obtain ⟨i, hposition, -⟩ := treeIndexForChain_eq_ok.mp hindex
    rw [hf.chainIds] at hposition
    exact exists_chainPosition.mp ⟨i, hposition⟩

end

/-- What the clients fetch after a broadcast. -/
theorem fetchedAt_of_broadcast {u₀ u₁ : Hub} (hu : u₀.Recorded h) {value : ℕ} {targetEids : List ℕ}
    {quote : ℕ → MessagingFee} {ctx : BroadcastContext} {fees : List (ℕ × ℕ)} {refund : ℕ}
    (hstart : u₀.broadcastStart h value targetEids quote = .ok (u₁, ctx, fees, refund))
    (current : List ℕ) :
    ∃ state web,
      fetchAggregationTreeState h (eventOf ctx).root (eventOf ctx) current = .ok state
        ∧ fetchAggregationSnapshot h (eventOf ctx).root (eventOf ctx) current = .ok web
        ∧ FetchedAt state web u₀.chainIds current := by
  obtain ⟨hstate, hweb⟩ := fetch_eventOf hu hstart current
  refine ⟨_, _, hstate, hweb, ?_⟩
  obtain ⟨-, rfl, -, -, -⟩ := Hub.broadcastStart_eq_ok hstart
  have hlength : u₀.chainIds.length = u₀.transferRoots.length := by
    rw [Hub.chainIds, List.length_map, hu.infos_length]
  refine ⟨?_, ?_, rfl, rfl, rfl⟩
  · rw [hlength]
    exact hu.indices_length
  · rw [hlength]
    exact hu.capacity

/-- Both clients have the event of a broadcast that came after the calls `before`, and read the chain
ids after more calls `later`. Their lookups are safe if and only if nothing has happened but what
`Settled` allows. -/
theorem lookups_safe_iff (h : Hashes) (owner endpoint : Address) (before later : List HubCall)
    {u₁ : Hub} {value : ℕ} {targetEids : List ℕ} {quote : ℕ → MessagingFee}
    {ctx : BroadcastContext} {fees : List (ℕ × ℕ)} {refund : ℕ}
    (hstart : ((Hub.initial h owner endpoint).after h before).broadcastStart h value targetEids quote
      = .ok (u₁, ctx, fees, refund)) :
    let chainIds := ((Hub.initial h owner endpoint).after h before).chainIds
    let current := (u₁.after h later).chainIds
    ∃ state web,
      fetchAggregationTreeState h (eventOf ctx).root (eventOf ctx) current = .ok state
        ∧ fetchAggregationSnapshot h (eventOf ctx).root (eventOf ctx) current = .ok web
        ∧ ∀ tokens, LookupsSafe h state web chainIds tokens ↔ Settled chainIds current tokens := by
  obtain ⟨state, web, hstate, hweb, hf⟩ := fetchedAt_of_broadcast
    (Hub.after_recorded h owner endpoint before) hstart (u₁.after h later).chainIds
  exact ⟨state, web, hstate, hweb, fun tokens => ⟨hf.settled, hf.lookupsSafe⟩⟩

/-- For the configured chains alone: their lookups are in bounds if and only if those of them that
are registered have the chain id of a slot of the broadcast. Tokens of other chains that were
registered since do no harm there. -/
theorem configured_lookups_inBounds (h : Hashes) (owner endpoint : Address)
    (before later : List HubCall) {u₁ : Hub} {value : ℕ} {targetEids : List ℕ}
    {quote : ℕ → MessagingFee} {ctx : BroadcastContext} {fees : List (ℕ × ℕ)} {refund : ℕ}
    (hstart : ((Hub.initial h owner endpoint).after h before).broadcastStart h value targetEids quote
      = .ok (u₁, ctx, fees, refund)) :
    let chainIds := ((Hub.initial h owner endpoint).after h before).chainIds
    let current := (u₁.after h later).chainIds
    ∃ state, fetchAggregationTreeState h (eventOf ctx).root (eventOf ctx) current = .ok state
      ∧ ∀ tokens : List ℕ,
        (∀ chainId ∈ tokens, state.getTreeIdForChainId chainId ≠ .outOfBounds)
          ↔ ∀ chainId ∈ tokens, chainId ∈ current → chainId ∈ current.take chainIds.length := by
  obtain ⟨state, web, hstate, -, hf⟩ := fetchedAt_of_broadcast
    (Hub.after_recorded h owner endpoint before) hstart (u₁.after h later).chainIds
  exact ⟨state, hstate, fun tokens => forall₂_congr fun chainId _ => hf.inBounds_iff⟩

/-- The Hub with one token, on the chain `1`. -/
def oneToken : List HubCall := [.registerToken 1 ⟨1, 1, 1, 1⟩]

/-- A second token of that chain does no harm. -/
theorem lookups_safe_oneToken :
    ∃ u₁ ctx state web,
      ((Hub.initial realHashes 1 2).after realHashes oneToken).broadcastStart realHashes 0 []
          (fun _ => ⟨0, 0⟩) = .ok (u₁, ctx, [], 0)
        ∧ fetchAggregationTreeState realHashes (eventOf ctx).root (eventOf ctx)
          (u₁.after realHashes [.broadcastDone ctx, .registerToken 1 ⟨1, 2, 1, 1⟩]).chainIds
          = .ok state
        ∧ LookupsSafe realHashes state web [1] [1] := by
  have hstart : ((Hub.initial realHashes 1 2).after realHashes oneToken).broadcastStart realHashes 0
      [] (fun _ => ⟨0, 0⟩) = .ok (_, _, [], 0) := rfl
  obtain ⟨state, web, hstate, -, hiff⟩ := lookups_safe_iff realHashes 1 2 oneToken
    [.broadcastDone _, .registerToken 1 ⟨1, 2, 1, 1⟩] hstart
  refine ⟨_, _, state, web, hstart, hstate, (hiff [1]).mpr ⟨?_, ?_, ?_⟩⟩
  · show ∀ chainId ∈ [1, 1], chainId ∈ [1]
    decide
  · intro i chainId hget _
    obtain ⟨hlt, heq⟩ := List.getElem?_eq_some_iff.mp hget
    obtain rfl : i = 0 := Nat.lt_one_iff.mp hlt
    cases heq
    exact ⟨rfl, nofun⟩
  · show _ → ∀ chainId ∈ [1], chainId ∈ [1, 1]
    decide

/-- A token of the chain `2` is registered after the broadcast. -/
def lateToken (ctx : BroadcastContext) : List HubCall :=
  [.broadcastDone ctx, .registerToken 1 ⟨2, 2, 1, 1⟩]

/-- The Rust client panics at the new token, and neither client gets to the leaf of the old one. -/
theorem late_registration_unsafe :
    let u₀ := (Hub.initial realHashes 1 2).after realHashes oneToken
    ∃ u₁ ctx state web,
      u₀.broadcastStart realHashes 0 [] (fun _ => ⟨0, 0⟩) = .ok (u₁, ctx, [], 0)
        ∧ u₀.chainIds = [1]
        ∧ fetchAggregationTreeState realHashes (eventOf ctx).root (eventOf ctx)
          (u₁.after realHashes (lateToken ctx)).chainIds = .ok state
        ∧ fetchAggregationSnapshot realHashes (eventOf ctx).root (eventOf ctx)
          (u₁.after realHashes (lateToken ctx)).chainIds = .ok web
        ∧ state.getTreeIdForChainId 2 = .outOfBounds
        ∧ (¬ ∃ separated, separateEventsByEligibility state
          [(freshToken 1, []), (freshToken 2, [])] = .ok separated)
        ∧ redeemContext realHashes web [(freshToken 1, []), (freshToken 2, [])]
          = .error (.treeIndexMissing 2)
        ∧ ¬ LookupsSafe realHashes state web u₀.chainIds [1, 2] := by
  intro u₀
  have hstart : u₀.broadcastStart realHashes 0 [] (fun _ => ⟨0, 0⟩) = .ok (_, _, [], 0) := rfl
  have hids : u₀.chainIds = [1] := rfl
  obtain ⟨hstate, hweb⟩ :=
    fetch_eventOf (Hub.after_recorded realHashes 1 2 oneToken) hstart [1, 2]
  -- both clients read the new chain ids beside the old snapshot
  refine ⟨_, _, _, _, hstart, hids, hstate, hweb, rfl, ?_, rfl, ?_⟩
  · rintro ⟨separated, hok⟩
    cases hok
  · intro hsafe
    exact hsafe.inBounds 2 rfl

end Client

end Zerc20
