import Zerc20.Client.Redeem

/-!
# Receiving a transfer

The `receive-transfer` command, `cli/src/commands/receive_transfer.rs`. It fetches the transfers to
the burn address on every chain, and returns when there are none on the recipient's own chain, where
`redeem_transfers`, and the invoice command with it, take the transfers of all chains.
`receive_complete_iff` says when the command redeems what was paid.
-/

namespace Zerc20

namespace Client

open Machine HashTree Indexer Zkp

/-! ## The command -/

inductive ReceiveError where
  | decode (e : FullBurnAddressError)
  | burnAddress (e : BurnAddressError)
  | noToken (chainId : ℕ)
  | multipleTokens (chainId : ℕ)
  | client (e : ClientError)

/-- What is printed, or the result of the redemption. -/
inductive ReceiveOutcome where
  | noTransferEvents
  | noEligibleTransfers
  | redeemed (r : RedeemResult)

/-- What the command reads of the Verifier of a token, with the Hub's answers for it. -/
structure VerifierReads where
  onchainRoot : Word
  event : AggregationEvent
  chainIds : List ℕ
  totalTeleported : ℕ → ℕ

section

variable (h : Hashes) (P : Provers)

/-- `run`, once the bytes of the payload are there. -/
def receiveTransfer (order : IterationOrder) (indexerFetchLimit numDummySteps : ℕ)
    (tokens : List TokenView) (verifier : TokenView → VerifierReads) (burnBytes : List UInt8) :
    Except ReceiveError ReceiveOutcome := do
  let burnPayload ← (FullBurnAddress.fromBytes burnBytes).mapError .decode
  let burnAddress ← (burnPayload.burnAddress h).mapError .burnAddress
  let chainId := burnPayload.gr.chainId.val
  let tokenEntry ← findTokenByChain (·.chainId) .noToken .multipleTokens tokens chainId
  let reads := verifier tokenEntry
  let state ← (fetchAggregationTreeState h reads.onchainRoot reads.event reads.chainIds).mapError
    .client
  let eventsMap := fetchTransferEvents (some indexerFetchLimit) tokens [burnAddress]
  let separated ← (separateEventsByEligibility state
    (eventsMap.map fun x => (x.1.toTokenIndex, x.2))).mapError .client
  match separated.find? fun x => x.1.chainId = chainId with
  | none => return .noTransferEvents
  | some eventsForChain =>
    if eventsForChain.2.eligible = [] then return .noEligibleTransfers
    else do
      let result ← (redeemTransfers h P order state separated
        (fun dst => if dst = burnAddress then some burnPayload.secret else none) burnPayload.gr
        (reads.totalTeleported (burnPayload.gr.hash h)) numDummySteps).mapError .client
      return .redeemed result

end

/-! ## The tokens -/

section

variable {h : Hashes} {event : AggregationEvent} {chainIds : List ℕ} {limit n : ℕ}
  {tokens : List TokenView} {own token : TokenView} {x : Address}

/-- Of distinct chain ids one token has the recipient's. -/
theorem token_eq_of_chainId (hchains : (tokens.map fun token => token.chainId).Nodup)
    (hown : own ∈ tokens) (htoken : token ∈ tokens) (hid : token.chainId = own.chainId) :
    token = own :=
  List.inj_on_of_nodup_map hchains htoken hown hid

theorem findTokenByChain_ok (hchains : (tokens.map fun token => token.chainId).Nodup)
    (hown : own ∈ tokens) :
    findTokenByChain (·.chainId) ReceiveError.noToken .multipleTokens tokens own.chainId
      = .ok own := by
  have hfilter : (tokens.filter fun token => token.chainId = own.chainId) = [own] := by
    have hmem : ∀ token, token ∈ tokens.filter (fun token => token.chainId = own.chainId)
        ↔ token = own := by
      intro token
      rw [List.mem_filter, decide_eq_true_iff]
      constructor
      · rintro ⟨htoken, hid⟩
        exact token_eq_of_chainId hchains hown htoken hid
      · rintro rfl
        exact ⟨hown, rfl⟩
    have hnodup : (tokens.filter fun token => token.chainId = own.chainId).Nodup :=
      (List.Nodup.of_map _ hchains).filter _
    have hperm : (tokens.filter fun token => token.chainId = own.chainId).Perm [own] :=
      (List.perm_ext_iff_of_nodup hnodup (List.nodup_singleton own)).mpr fun token => by
        rw [hmem, List.mem_singleton]
    exact List.perm_singleton.mp hperm
  exact findTokenByChain_eq_ok.mpr hfilter

/-- The entries of `separated_events`. -/
theorem Covered.mem_separated (hcovered : Covered h event chainIds limit n tokens [x])
    {y : TokenIndex × EventsWithEligibility} :
    y ∈ (fetchedBatch limit tokens [x]).separated
      ↔ ∃ token ∈ tokens, token.balanceOf x ≠ 0
        ∧ y = (token.toTokenIndex, partitionEvents token.treeIndex (token.transfersTo x)) := by
  rw [Batch.separated, fetchedBatch, List.map_map, List.mem_map]
  constructor
  · rintro ⟨⟨token, events⟩, hmem, rfl⟩
    obtain ⟨htoken, hbalance, rfl⟩ := mem_fetchTransferEvents.mp hmem
    refine ⟨token, htoken, hbalance, ?_⟩
    rw [hcovered.eventsByRecipient htoken (List.mem_singleton_self x)]
    rfl
  · rintro ⟨token, htoken, hbalance, rfl⟩
    refine ⟨_, mem_fetchTransferEvents.mpr ⟨htoken, hbalance, rfl⟩, ?_⟩
    rw [hcovered.eventsByRecipient htoken (List.mem_singleton_self x)]
    rfl

/-- The entry of the recipient's chain. -/
theorem Covered.find_own (hcovered : Covered h event chainIds limit n tokens [x])
    (hown : own ∈ tokens) :
    (fetchedBatch limit tokens [x]).separated.find? (fun y => y.1.chainId = own.chainId)
      = if own.balanceOf x = 0 then none
        else some (own.toTokenIndex, partitionEvents own.treeIndex (own.transfersTo x)) := by
  split
  -- no balance, so the token was not asked
  · rename_i hzero
    rw [List.find?_eq_none]
    intro y hy hid
    obtain ⟨token, htoken, hbalance, rfl⟩ := hcovered.mem_separated.mp hy
    obtain rfl := token_eq_of_chainId hcovered.chains hown htoken (of_decide_eq_true hid)
    exact hbalance hzero
  · rename_i hbalance
    cases hfind : (fetchedBatch limit tokens [x]).separated.find?
      (fun y => y.1.chainId = own.chainId) with
    | none =>
      have hnot := List.find?_eq_none.mp hfind _ (hcovered.mem_separated.mpr
        ⟨own, hown, hbalance, rfl⟩)
      exact absurd (decide_eq_true rfl) hnot
    | some y =>
      obtain ⟨token, htoken, -, rfl⟩ := hcovered.mem_separated.mp (List.mem_of_find?_eq_some hfind)
      have hid := List.find?_some hfind
      obtain rfl := token_eq_of_chainId hcovered.chains hown htoken (of_decide_eq_true hid)
      rfl

/-- A burn address has a balance when it was paid something. -/
theorem Covered.balance_ne_zero (hcovered : Covered h event chainIds limit n tokens [x])
    (hown : own ∈ tokens) :
    own.balanceOf x ≠ 0 ↔ ∃ e ∈ own.transfersTo x, e.value.val ≠ 0 := by
  rw [hcovered.balance own hown x (List.mem_singleton_self x), totalValue, Ne,
    List.sum_eq_zero_iff]
  simp only [List.mem_map, forall_exists_index, and_imp, forall_apply_eq_imp_iff₂, not_forall]
  simp only [exists_prop]

/-! ## Which payments are received -/

/-- The command, with all transfers covered. -/
theorem Covered.receiveTransfer_eq (P : Provers) (order : IterationOrder)
    (verifier : TokenView → VerifierReads) {burn : FullBurnAddress} {x : Address}
    (hburn : burn.burnAddress h = .ok x) (hown : own ∈ tokens)
    (hchain : own.chainId = burn.gr.chainId.val) {state : AggregationTreeState}
    (hstate : fetchAggregationTreeState h (verifier own).onchainRoot (verifier own).event
      (verifier own).chainIds = .ok state)
    (hcovered : Covered h (verifier own).event (verifier own).chainIds limit n tokens [x]) :
    receiveTransfer h P order limit n tokens verifier burn.toBytes
      = if own.balanceOf x = 0 then .ok .noTransferEvents
        else if own.eligible (own.transfersTo x) = [] then .ok .noEligibleTransfers
        else do
          let result ← (redeemTransfers h P order state (fetchedBatch limit tokens [x]).separated
            (fun dst => if dst = x then some burn.secret else none) burn.gr
            ((verifier own).totalTeleported (burn.gr.hash h)) n).mapError ReceiveError.client
          return .redeemed result := by
  have hseparated : separateEventsByEligibility state
      ((fetchTransferEvents (some limit) tokens [x]).map fun y => (y.1.toTokenIndex, y.2))
      = .ok (fetchedBatch limit tokens [x]).separated := by
    have hok := separateEventsByEligibility_ok (fetchAggregationTreeState_eq_ok hstate).2
      (hcovered.valid (List.nodup_singleton x))
    rw [Batch.served, fetchedBatch, List.map_map] at hok
    exact hok
  rw [receiveTransfer, FullBurnAddress.fromBytes_toBytes]
  simp only [Except.mapError, bind, Except.bind, hburn, ← hchain,
    findTokenByChain_ok hcovered.chains hown, hstate, hseparated, hcovered.find_own hown]
  -- the early return is about the recipient's own chain
  by_cases hzero : own.balanceOf x = 0
  · rw [if_pos hzero, if_pos hzero]
    rfl
  · rw [if_neg hzero, if_neg hzero]
    rfl

end

/-- **Receiving.** With all transfers to the burn address covered, and more of them than was
teleported, the command submits a proof of their sum when some of it was paid on the recipient's
own chain, and no proof otherwise. -/
theorem receive_complete_iff (h : Hashes) (d : DeciderSets) (vs : Verifiers) (P : Provers)
    (hprovers : P.Complete h (d vs)) (order : IterationOrder) (limit n : ℕ) (hn : 1 ≤ n)
    (hsmall : n < NUM_BATCH_INVOICES) (tokens : List TokenView)
    (verifier : TokenView → VerifierReads) (burn : FullBurnAddress) (x : Address)
    (hburn : burn.burnAddress h = .ok x) (own : TokenView) (hown : own ∈ tokens)
    (hchain : own.chainId = burn.gr.chainId.val) (state : AggregationTreeState)
    (hstate : fetchAggregationTreeState h (verifier own).onchainRoot (verifier own).event
      (verifier own).chainIds = .ok state)
    (hcovered : Covered h (verifier own).event (verifier own).chainIds limit n tokens [x])
    (hbound : paidTo tokens [x] < 2 ^ 248)
    (hlt : (verifier own).totalTeleported (burn.gr.hash h) < paidTo tokens [x]) :
    (∃ tx, receiveTransfer h P order limit n tokens verifier burn.toBytes
        = .ok (.redeemed (.submitted tx))
      ∧ tx.Proves h d vs burn.gr (verifier own).event.aggSeq
        (u256ToFr (verifier own).onchainRoot.val) (paidTo tokens [x]))
      ↔ ∃ e ∈ own.transfersTo x, e.value.val ≠ 0 := by
  obtain ⟨hroot, hfetched⟩ := fetchAggregationTreeState_eq_ok hstate
  rw [hcovered.receiveTransfer_eq P order verifier hburn hown hchain hstate,
    ← hcovered.balance_ne_zero hown]
  constructor
  · -- without a balance there, the command returns
    rintro ⟨tx, hsubmitted, -⟩ hzero
    rw [if_pos hzero] at hsubmitted
    cases hsubmitted
  · intro hbalance
    obtain ⟨e, he, -⟩ := (hcovered.balance_ne_zero hown).mp hbalance
    have heligible : e ∈ own.eligible (own.transfersTo x) :=
      ChainView.mem_eligible.mpr ⟨he, (hcovered.covers own hown x (List.mem_singleton_self x)
        (List.ne_nil_of_mem he)).eligible e he⟩
    obtain ⟨tx, hredeemed, hproves⟩ := hcovered.redeems burn.gr
      (fun dst => if dst = x then some burn.secret else none) hprovers order hfetched
      (List.nodup_singleton x)
      (by
        intro y hy
        obtain rfl := List.mem_singleton.mp hy
        exact ⟨burn.secret, if_pos rfl, FullBurnAddress.burnAddress_eq_ok.mp hburn⟩)
      hbound hn hsmall hlt
    refine ⟨tx, ?_, ?_⟩
    · rw [if_neg hbalance, if_neg (List.ne_nil_of_mem heligible), hredeemed]
      rfl
    · rw [← hroot]
      exact hproves

/-! ### Payments on the recipient's chain, and elsewhere -/

namespace ReceiveExample

def burn : FullBurnAddress := ⟨BurnExample.recipient, 3296⟩

/-- The two payments on chain `chainId`. -/
def paid (chainId : ℕ) : TokenView where
  toChainView := { BatchExample.view with chainId := chainId }
  balanceOf dst := if dst = BurnExample.burnAt then 7 else 0

def unpaid : TokenView where
  chainId := 1
  cfg := BatchExample.cfg
  db := TreeDb.initial
  transfers := []
  treeIndex := 0
  balanceOf _ := 0

def provers : Provers where
  single _ root recipient value _ := ⟨0, ![BatchExample.word root, BatchExample.word recipient,
    BatchExample.word value]⟩
  batch := BatchExample.produceDeciderProof

def deciders : DeciderSets := fun _ => ⟨fun _ => false, fun _ _ => true, fun _ _ => true⟩

/-- The provers of the example are complete for its deciders. -/
theorem provers_complete : provers.Complete realHashes (deciders BatchExample.verifiers) where
  single _ _ _ _ _ _ := ⟨rfl, rfl, rfl, rfl⟩
  batch := BatchExample.decidersComplete

/-- The burn address of the example's payload. -/
theorem burnAddress_eq : burn.burnAddress realHashes = .ok BurnExample.burnAt := by
  rw [FullBurnAddress.burnAddress_eq_ok]
  decide +kernel

def rootWord : Word := BatchExample.word (BatchExample.view.root realHashes)

/-- A Verifier that has received the root of the snapshot, and teleported nothing. -/
def reads (snapshot : List Word) (transferTreeIndices chainIds : List ℕ) : VerifierReads where
  onchainRoot := BatchExample.word
    (node realHashes.poseidon2 (snapshotLeaves snapshot) aggregationHeight 0)
  event := ⟨1, BatchExample.word
    (node realHashes.poseidon2 (snapshotLeaves snapshot) aggregationHeight 0), snapshot,
    transferTreeIndices⟩
  chainIds := chainIds
  totalTeleported _ := 0

/-- What the example reads on chain is an aggregation. -/
theorem fetch_reads (snapshot : List Word) (transferTreeIndices chainIds : List ℕ) :
    ∃ state, fetchAggregationTreeState realHashes
      (reads snapshot transferTreeIndices chainIds).onchainRoot
      (reads snapshot transferTreeIndices chainIds).event
      (reads snapshot transferTreeIndices chainIds).chainIds = .ok state := by
  refine ⟨_, bind_eq_ok.mpr ⟨(), require_of rfl, bind_eq_ok.mpr ⟨(), require_of ?_, rfl⟩⟩⟩
  exact (aggregationTree_holds snapshot).getRoot.trans (BatchExample.word_cast _).symm

theorem transfersTo_paid (chainId : ℕ) : (paid chainId).transfersTo BurnExample.burnAt
    = [⟨0, 0, BurnExample.burnAt, 5⟩, ⟨1, 0, BurnExample.burnAt, 2⟩] := by
  show (paid 1).transfersTo BurnExample.burnAt = _
  decide

theorem index_le_one {e : IndexedEvent} {chainId : ℕ}
    (he : e ∈ (paid chainId).transfersTo BurnExample.burnAt) : e.eventIndex ≤ 1 := by
  rw [transfersTo_paid] at he
  revert e
  decide

theorem room {chainIds : List ℕ} {chainId : ℕ} {e : IndexedEvent}
    (hplace : place chainIds (paid chainId).toChainView ≤ 1) (he : e.eventIndex ≤ 1) :
    globalIndex chainIds ((paid chainId).toChainView, e)
      < 2 ^ globalTransferTreeHeight - 1 - 1 := by
  have hmul := Nat.mul_le_mul_right (2 ^ transferTreeHeight) hplace
  have hroom : 1 * 2 ^ transferTreeHeight + 1 < 2 ^ globalTransferTreeHeight - 1 - 1 := by decide
  rw [globalIndex, Nat.shiftLeft_eq]
  exact (Nat.add_le_add hmul he).trans_lt hroom

/-- The database of the chain represents its events. -/
theorem faithful (chainId : ℕ) : (paid chainId).Faithful realHashes := by
  obtain ⟨hheight, htree, hcapacity, htreeIndex, hwindow⟩ := BatchExample.faithful
  refine ⟨hheight, ?_, hcapacity, htreeIndex, hwindow⟩
  dsimp only [paid]
  exact htree

/-- Its root is the one in the snapshot. -/
theorem root_paid (chainId : ℕ) :
    ((paid chainId).root realHashes).val = rootWord.val := by
  dsimp only [paid, ChainView.root, rootWord, BatchExample.word]

theorem covers {event : AggregationEvent} {chainIds : List ℕ} {chainId : ℕ}
    (ha : Aggregated realHashes event chainIds (paid chainId).toChainView)
    (hplace : place chainIds (paid chainId).toChainView ≤ 1) :
    Covers realHashes event chainIds 20 1 (paid chainId) BurnExample.burnAt where
  faithful := faithful chainId
  aggregated := ha
  eligible e he := Nat.lt_succ_of_le (index_le_one he)
  room e he := room hplace (index_le_one he)
  answered := by
    rw [transfersTo_paid]
    decide

/-- The burn address still has what it was paid. -/
theorem balance_paid (chainId : ℕ) : (paid chainId).balanceOf BurnExample.burnAt
    = totalValue ((paid chainId).transfersTo BurnExample.burnAt) := by
  rw [transfersTo_paid]
  rfl

/-- The payments are on the recipient's chain. -/
def readsOwn : VerifierReads := reads [rootWord] [2] [1]

/-- The payments are on chain 2. -/
def readsElsewhere : VerifierReads := reads [0, rootWord] [0, 2] [1, 2]

/-- Payments on the recipient's own chain. -/
theorem covered_own : Covered realHashes readsOwn.event readsOwn.chainIds 20 1 [paid 1]
    [BurnExample.burnAt] where
  chains := List.nodup_singleton _
  balance token htoken x hx := by
    obtain rfl := List.mem_singleton.mp htoken
    obtain rfl := List.mem_singleton.mp hx
    exact balance_paid 1
  covers token htoken x hx _ := by
    obtain rfl := List.mem_singleton.mp htoken
    obtain rfl := List.mem_singleton.mp hx
    refine covers ⟨List.mem_singleton_self _, rfl, ?_⟩ (by decide)
    rw [root_paid]
    rfl

/-- The same payments on the other chain only. -/
theorem covered_elsewhere : Covered realHashes readsElsewhere.event readsElsewhere.chainIds 20 1
    [unpaid, paid 2] [BurnExample.burnAt] where
  chains := by decide
  balance token htoken x hx := by
    obtain rfl := List.mem_singleton.mp hx
    simp only [List.mem_cons, List.not_mem_nil, or_false] at htoken
    rcases htoken with rfl | rfl
    · rfl
    · exact balance_paid 2
  covers token htoken x hx hne := by
    obtain rfl := List.mem_singleton.mp hx
    simp only [List.mem_cons, List.not_mem_nil, or_false] at htoken
    rcases htoken with rfl | rfl
    · exact absurd rfl hne
    · refine covers ⟨by decide, rfl, ?_⟩ (by decide)
      rw [root_paid]
      rfl

end ReceiveExample

/-- The two payments on the recipient's chain. -/
theorem receive_complete_own_chain :
    ∃ tx, receiveTransfer realHashes ReceiveExample.provers BatchExample.order 20 1
        [ReceiveExample.paid 1] (fun _ => ReceiveExample.readsOwn) ReceiveExample.burn.toBytes
        = .ok (.redeemed (.submitted tx))
      ∧ tx.Proves realHashes ReceiveExample.deciders BatchExample.verifiers
        BurnExample.recipient 1 (u256ToFr ReceiveExample.readsOwn.onchainRoot.val) 7 := by
  obtain ⟨state, hstate⟩ := ReceiveExample.fetch_reads [ReceiveExample.rootWord] [2] [1]
  refine (receive_complete_iff realHashes ReceiveExample.deciders BatchExample.verifiers
    ReceiveExample.provers ReceiveExample.provers_complete BatchExample.order 20 1 (by decide)
    (by decide) [ReceiveExample.paid 1] (fun _ => ReceiveExample.readsOwn) ReceiveExample.burn
    BurnExample.burnAt ReceiveExample.burnAddress_eq (ReceiveExample.paid 1)
    (List.mem_singleton_self _) rfl state hstate ReceiveExample.covered_own ?_ ?_).mpr ?_
  · decide
  · decide
  · rw [ReceiveExample.transfersTo_paid]
    decide

/-- The two payments on another chain, with nothing on the recipient's: all are covered and none was
teleported, and the command ends without a transaction. -/
theorem receive_elsewhere_ignored :
    ReceiveExample.provers.Complete realHashes
        (ReceiveExample.deciders BatchExample.verifiers)
      ∧ ReceiveExample.burn.burnAddress realHashes = .ok BurnExample.burnAt
      ∧ (∃ state, fetchAggregationTreeState realHashes ReceiveExample.readsElsewhere.onchainRoot
        ReceiveExample.readsElsewhere.event ReceiveExample.readsElsewhere.chainIds = .ok state)
      ∧ Covered realHashes ReceiveExample.readsElsewhere.event
        ReceiveExample.readsElsewhere.chainIds 20 1 [ReceiveExample.unpaid, ReceiveExample.paid 2]
        [BurnExample.burnAt]
      ∧ ReceiveExample.readsElsewhere.totalTeleported (BurnExample.recipient.hash realHashes) = 0
      ∧ paidTo [ReceiveExample.unpaid, ReceiveExample.paid 2] [BurnExample.burnAt] = 7
      ∧ receiveTransfer realHashes ReceiveExample.provers BatchExample.order 20 1
          [ReceiveExample.unpaid, ReceiveExample.paid 2] (fun _ => ReceiveExample.readsElsewhere)
          ReceiveExample.burn.toBytes = .ok .noTransferEvents := by
  obtain ⟨state, hstate⟩ := ReceiveExample.fetch_reads [0, ReceiveExample.rootWord] [0, 2] [1, 2]
  refine ⟨ReceiveExample.provers_complete, ReceiveExample.burnAddress_eq, ⟨state, hstate⟩,
    ReceiveExample.covered_elsewhere, rfl, by decide, ?_⟩
  rw [Covered.receiveTransfer_eq ReceiveExample.provers BatchExample.order
    (fun _ => ReceiveExample.readsElsewhere) ReceiveExample.burnAddress_eq List.mem_cons_self rfl
    hstate ReceiveExample.covered_elsewhere]
  exact if_pos rfl

end Client

end Zerc20
