import Zerc20.Client.InvoiceCommand
import Zerc20.Client.Receive
import Zerc20.Lib.Cumulative

/-!
# Redeeming a batch invoice in the front end

The burn addresses of a batch invoice share the tweak, so all of them are redeemed for one recipient,
with one total on its chain. The CLI proves the transfers to all of them at once. The front end
lists them and redeems one at a time (`redeemBurn` of `ScanInvoicesPanel.tsx`, over
`collectRedeemContext` of `operations/receive.ts`), and the Verifier mints what a proof exceeds the
total by. The claims of the burns are cumulative claims on that total, so that they are not added up:
`batch_redemption_complete_iff`.
-/

namespace Zerc20

namespace Client

open Machine HashTree Radix Indexer Zkp Cumulative

/-! ## The front end -/

/-- `RedeemContext`, of all chains together. -/
structure RedeemContext where
  aggregationState : AggregationSnapshot
  events : EventsWithEligibility
  globalProofs : List GlobalTeleportProof
  totalEligibleValue : ℕ
  totalPendingValue : ℕ
  totalTeleported : ℕ

def RedeemContext.totalIndexedValue (context : RedeemContext) : ℕ :=
  context.totalEligibleValue + context.totalPendingValue

inductive RedeemBurnResult where
  | alreadyRedeemed
  | noEligible
  | submitted (tx : TeleportTx)

section

variable (h : Hashes) (P : Provers)

/-- `verifierContract` is that of the token of the recipient's chain. -/
def collectRedeemContext (indexerFetchLimit : Option ℕ) (tokens : List TokenView)
    (verifierContract : VerifierReads) (burn : FullBurnAddress) (burnAddress : Address) :
    Except ReceiveError RedeemContext := do
  let _ ← findTokenByChain (·.chainId) .noToken .multipleTokens tokens burn.gr.chainId.val
  let aggregationState ← (fetchAggregationSnapshot h verifierContract.onchainRoot
    verifierContract.event verifierContract.chainIds).mapError .client
  let perChain ← ((collectEvents indexerFetchLimit tokens burnAddress).mapM fun x =>
    chainContext h aggregationState x.1.toTokenIndex x.2).mapError .client
  return {
    aggregationState
    events := ⟨perChain.flatMap fun c => c.1.eligible, perChain.flatMap fun c => c.1.ineligible⟩
    globalProofs := perChain.flatMap Prod.snd
    totalEligibleValue := (perChain.map fun c => totalValue c.1.eligible).sum
    totalPendingValue := (perChain.map fun c => totalValue c.1.ineligible).sum
    totalTeleported := verifierContract.totalTeleported (toFr h burn.gr).val }

/-- The WASM prover takes the depth of its circuit from the siblings. -/
def generateSingleTeleportProof (aggregationRoot : Word) (recipientFr : Fr) (secret : Word)
    (event : IndexedEvent) (proof : GlobalTeleportProof) : Except ClientError SingleProof := do
  require (proof.siblings.length = transferTreeHeight
    ∨ proof.siblings.length = globalTransferTreeHeight) .siblingCount
  require (proof.leafIndex < 2 ^ 64) (.leafIndexRange proof.leafIndex)
  let value := u256ToFr event.value.val
  return P.single (proof.siblings.length = globalTransferTreeHeight) (u256ToFr aggregationRoot.val)
    recipientFr value ⟨value, 0, u256ToFr secret.val, (proof.leafIndex : Fr), proof.siblings⟩

/-- The steps are all of the depth of the dummies, that of the `withdraw_global` circuit. -/
def generateBatchTeleportProof (aggregationRoot : Word) (recipientFr : Fr) (secret : Word)
    (events : List IndexedEvent) (proofs : List GlobalTeleportProof) (buffer : ℕ) :
    Except ClientError WithdrawProof := do
  let nova ← runNovaProver secret proofs events (randomDummySteps buffer)
  return P.batch true ⟨u256ToFr aggregationRoot.val, recipientFr, 0, 0⟩ nova.2

/-- `redeemBurn` from `const eligible` on: one event has a Groth16 proof, more have a Nova proof. -/
def redeemEligible (context : RedeemContext) (burn : FullBurnAddress) (buffer : ℕ) :
    Except ReceiveError RedeemBurnResult := do
  let state := context.aggregationState
  match context.events.eligible with
  | [] => return .noEligible
  | [event] => do
    let globalProof ← okOr context.globalProofs.head? (.client .siblingCount)
    let proof ← (generateSingleTeleportProof P state.aggregationRoot (toFr h burn.gr) burn.secret
      event globalProof).mapError .client
    return .submitted (.single true state.latestAggSeq burn.gr proof)
  | eligible => do
    let proof ← (generateBatchTeleportProof P state.aggregationRoot (toFr h burn.gr) burn.secret
      eligible context.globalProofs buffer).mapError .client
    return .submitted (.batch true state.latestAggSeq burn.gr proof)

def redeemBurn (indexerFetchLimit : Option ℕ) (tokens : List TokenView)
    (verifierContract : VerifierReads) (burn : FullBurnAddress) (burnAddress : Address)
    (buffer : ℕ) : Except ReceiveError RedeemBurnResult := do
  let context ← collectRedeemContext h indexerFetchLimit tokens verifierContract burn burnAddress
  if context.totalIndexedValue ≤ context.totalTeleported then return .alreadyRedeemed
  else redeemEligible h P context burn buffer

end

/-! ## Redemptions -/

/-- A burn of an invoice when it is redeemed, with the recipient's chain and what the indexer, the
Hub and the Verifier answer then. -/
structure Redemption where
  burn : Address × SecretAndTweak
  chain : Chain
  tokens : List TokenView
  onchainRoot : Word
  event : AggregationEvent
  chainIds : List ℕ
  buffer : ℕ

namespace Redemption

def reads (r : Redemption) : VerifierReads :=
  ⟨r.onchainRoot, r.event, r.chainIds, r.chain.verifier.totalTeleported⟩

/-- The value of the events of an answer with at most `limit` of them for every token. -/
def shown (limit : ℕ) (r : Redemption) : ℕ :=
  (r.tokens.map fun token => totalValue (token.eventsByRecipient r.burn.1 (some limit))).sum

section

variable (h : Hashes) (d : DeciderSets) (P : Provers) (limit : ℕ) (recipientChainId : Fin (2 ^ 64))
  (recipientAddress : Address)

/-- `FullBurnAddress::new`, as `build_full_burn_address` calls it for a burn of the invoice. -/
def fullBurnAddress (r : Redemption) : FullBurnAddress :=
  ⟨newEvm recipientChainId recipientAddress r.burn.2.tweak, r.burn.2.secret⟩

/-- The chain after the redemption; a transaction that reverts changes nothing. -/
def chainAfter (r : Redemption) : Chain :=
  match redeemBurn h P (some limit) r.tokens r.reads
      (r.fullBurnAddress recipientChainId recipientAddress) r.burn.1 r.buffer with
  | .ok (.submitted tx) => commit r.chain (tx.exec h d r.chain)
  | _ => r.chain

end

end Redemption

/-- What the log of a token mints to an address. -/
def mintedTo (dst : Address) (events : List Transfer) : ℕ :=
  ((events.filter fun tr => tr.src = 0 ∧ tr.dst = dst).map fun tr => tr.value.val).sum

section

variable (h : Hashes) (d : DeciderSets) (P : Provers) (limit : ℕ) (recipientChainId : Fin (2 ^ 64))
  (recipientAddress : Address)

/-- What the redemptions mint to the recipient. -/
def redeemedTotal (rs : List Redemption) : ℕ :=
  (rs.map fun r =>
    mintedTo recipientAddress
        (r.chainAfter h d P limit recipientChainId recipientAddress).token.events
      - mintedTo recipientAddress r.chain.token.events).sum

/-- Redemptions one after the other. Between them anything may happen on the chain but to the total
of the recipient with the hash `recipient`, which was `total` before the first. -/
def InSequence (recipient : ℕ) : ℕ → List Redemption → Prop
  | _, [] => True
  | total, r :: rs => r.chain.verifier.totalTeleported recipient = total
    ∧ InSequence recipient ((r.chainAfter h d P limit recipientChainId
      recipientAddress).verifier.totalTeleported recipient) rs

end

/-- What a redemption finds: the configured tokens are in the aggregation, the indexer has their
transfers, what was paid to the burn address is eligible, and the Verifier, which asks the contracts
`vs`, can mint it. -/
structure Redemption.Ready (h : Hashes) (vs : Verifiers) (gr : GeneralRecipient)
    (payments : Address → ℕ) (r : Redemption) : Prop where
  chains : (r.tokens.map fun token => token.chainId).Nodup
  own : ∃ own ∈ r.tokens, own.chainId = gr.chainId.val
  state : ∃ state, fetchAggregationSnapshot h r.onchainRoot r.event r.chainIds = .ok state
  faithful : ∀ token ∈ r.tokens, token.Faithful h
  aggregated : ∀ token ∈ r.tokens, Aggregated h r.event r.chainIds token.toChainView
  eligible : ∀ token ∈ r.tokens, ∀ e ∈ token.transfersTo r.burn.1, e.eventIndex < token.treeIndex
  /-- The last places of the tree are left for the dummies. -/
  room : ∀ token ∈ r.tokens, ∀ e ∈ token.transfersTo r.burn.1,
    globalIndex r.chainIds (token.toChainView, e)
      < 2 ^ globalTransferTreeHeight - NUM_BATCH_INVOICES
  paid : paidTo r.tokens [r.burn.1] = payments r.burn.1
  canMint : CanMint h vs r.chain true r.event.aggSeq (u256ToFr r.onchainRoot.val) gr
    (payments r.burn.1)

/-! ## One redemption -/

section

variable {h : Hashes} {d : DeciderSets} {vs : Verifiers} {P : Provers} {limit : ℕ}
  {gr : GeneralRecipient} {payments : Address → ℕ} {r : Redemption}

namespace Redemption

/-- The answers of the indexer. -/
def batch (limit : ℕ) (r : Redemption) : Batch :=
  r.tokens.map fun token => (token.toChainView, token.eventsByRecipient r.burn.1 (some limit))

/-- The batch has one answer for every token. -/
theorem mem_batch {x : ChainView × List IndexedEvent} :
    x ∈ r.batch limit ↔ ∃ token ∈ r.tokens,
      (token.toChainView, token.eventsByRecipient r.burn.1 (some limit)) = x := List.mem_map

/-- An answer shows transfers to the address that was asked for. -/
theorem mem_eventsByRecipient {v : ChainView} {x : Address} {e : IndexedEvent}
    (he : e ∈ v.eventsByRecipient x (some limit)) : e ∈ v.transfersTo x := List.mem_of_mem_take he

/-- What the indexers answer about tokens that are in the aggregation is a valid batch. -/
theorem Ready.valid (hr : r.Ready h vs gr payments) :
    (r.batch limit).Valid h r.event r.chainIds where
  faithful x hx := by
    obtain ⟨token, htoken, rfl⟩ := mem_batch.mp hx
    exact hr.faithful token htoken
  aggregated x hx := by
    obtain ⟨token, htoken, rfl⟩ := mem_batch.mp hx
    exact hr.aggregated token htoken
  has x hx e he := by
    obtain ⟨token, htoken, rfl⟩ := mem_batch.mp hx
    exact (ChainView.mem_transfersTo.mp (mem_eventsByRecipient he)).1
  chains := by
    rw [batch, List.map_map]
    exact hr.chains
  distinct x hx := by
    obtain ⟨token, htoken, rfl⟩ := mem_batch.mp hx
    exact ChainView.transfersTo_index_nodup.sublist ((List.take_sublist _ _).map _)

/-- Everything that is shown is eligible. -/
theorem Ready.partition_eq (hr : r.Ready h vs gr payments) {token : TokenView}
    (htoken : token ∈ r.tokens) :
    partitionEvents token.treeIndex (token.eventsByRecipient r.burn.1 (some limit))
      = ⟨token.eventsByRecipient r.burn.1 (some limit), []⟩ := by
  have hlt : ∀ e ∈ token.eventsByRecipient r.burn.1 (some limit), e.eventIndex < token.treeIndex :=
    fun e he => hr.eligible token htoken e (mem_eventsByRecipient he)
  rw [partitionEvents]
  congr 1
  · exact List.filter_eq_self.mpr fun e he => decide_eq_true (hlt e he)
  · exact List.filter_eq_nil_iff.mpr fun e he => by simp [hlt e he]

/-- The value of the batch is what the answers show. -/
theorem Ready.total (hr : r.Ready h vs gr payments) :
    totalValue ((r.batch limit).items.map Prod.snd) = r.shown limit := by
  rw [Batch.totalValue_items, batch, List.map_map, shown]
  refine congrArg List.sum (List.map_congr_left fun token htoken => ?_)
  show totalValue (partitionEvents _ _).eligible = _
  rw [hr.partition_eq htoken]

/-- Every event that is shown was paid to the burn address, and lies below the places of the
dummies. -/
theorem Ready.item (hr : r.Ready h vs gr payments) {y : ChainView × IndexedEvent}
    (hy : y ∈ (r.batch limit).items) :
    y.2.dst = r.burn.1
      ∧ globalIndex r.chainIds y < 2 ^ globalTransferTreeHeight - NUM_BATCH_INVOICES := by
  obtain ⟨v, e⟩ := y
  obtain ⟨x, hx, hchain, he, -⟩ := Batch.mem_items.mp hy
  obtain ⟨token, htoken, rfl⟩ := mem_batch.mp hx
  obtain rfl : token.toChainView = v := hchain
  have hmem := mem_eventsByRecipient he
  exact ⟨(ChainView.mem_transfersTo.mp hmem).2, hr.room token htoken e hmem⟩

/-- No more is shown than was paid. -/
theorem Ready.shown_le (hr : r.Ready h vs gr payments) : r.shown limit ≤ payments r.burn.1 := by
  rw [← hr.paid, shown, paidTo]
  refine List.sum_le_sum fun token _ => ?_
  rw [List.map_singleton, List.sum_singleton]
  exact ((List.take_sublist _ _).map _).sum_le_sum fun _ _ => Nat.zero_le _

/-- The context of one chain. -/
def chainPart (h : Hashes) (limit : ℕ) (r : Redemption) (token : TokenView) :
    EventsWithEligibility × List GlobalTeleportProof :=
  (⟨token.eventsByRecipient r.burn.1 (some limit), []⟩,
    ((token.eventsByRecipient r.burn.1 (some limit)).map (Prod.mk token.toChainView)).map
      (webProofOf h r.event r.chainIds))

/-- All that is shown is eligible, so nothing of the answers is dropped. -/
theorem Ready.items_eq (hr : r.Ready h vs gr payments) :
    (r.batch limit).items = r.tokens.flatMap fun token =>
      (token.eventsByRecipient r.burn.1 (some limit)).map (Prod.mk token.toChainView) := by
  rw [Batch.items, batch, List.flatMap_map]
  refine List.flatMap_congr fun token htoken => ?_
  show List.map _ (partitionEvents _ _).eligible = _
  rw [hr.partition_eq htoken]

/-- What `collectRedeemContext` returns. -/
def context (h : Hashes) (limit : ℕ) (gr : GeneralRecipient) (r : Redemption) : RedeemContext where
  aggregationState := ⟨r.event.aggSeq, r.event.root, r.event.snapshot, r.event.transferTreeIndices,
    r.chainIds⟩
  events := ⟨(r.batch limit).items.map Prod.snd, []⟩
  globalProofs := (r.batch limit).items.map (webProofOf h r.event r.chainIds)
  totalEligibleValue := r.shown limit
  totalPendingValue := 0
  totalTeleported := r.chain.verifier.totalTeleported (gr.hash h)

/-- `collectRedeemContext` succeeds, with all that the answers show as eligible. -/
theorem Ready.collectRedeemContext (hr : r.Ready h vs gr payments) {burn : FullBurnAddress}
    (hburn : burn.gr = gr) :
    collectRedeemContext h (some limit) r.tokens r.reads burn r.burn.1
      = .ok (r.context h limit gr) := by
  obtain ⟨own, hown, hchain⟩ := hr.own
  obtain ⟨state, hstate⟩ := hr.state
  have hindex : ∀ y ∈ (r.batch limit).items,
      globalIndex r.chainIds y < 2 ^ globalTransferTreeHeight :=
    fun y hy => (hr.item hy).2.trans_le (Nat.sub_le _ _)
  obtain rfl := fetchAggregationSnapshot_eq_ok hstate
  have hchains : (collectEvents (some limit) r.tokens r.burn.1).mapM (fun x =>
      chainContext h ⟨r.event.aggSeq, r.event.root, r.event.snapshot,
        r.event.transferTreeIndices, r.chainIds⟩ x.1.toTokenIndex x.2)
      = .ok (r.tokens.map (r.chainPart h limit)) := by
    rw [collectEvents, List.mapM_map]
    refine mapM_eq_ok fun token htoken => ?_
    have hok := chainContext_ok rfl hr.valid hindex (mem_batch.mpr ⟨token, htoken, rfl⟩)
    rw [ChainView.eligible, hr.partition_eq htoken] at hok
    exact hok
  have hfind : findTokenByChain (·.chainId) ReceiveError.noToken .multipleTokens r.tokens
      burn.gr.chainId.val = .ok own := by
    rw [hburn, ← hchain]
    exact findTokenByChain_ok hr.chains hown
  have hfr : (toFr h burn.gr).val = gr.hash h := by
    rw [hburn]
    exact recipientFr_val h gr
  have hevents : (r.tokens.map (r.chainPart h limit)).flatMap (fun c => c.1.eligible)
      = (r.batch limit).items.map Prod.snd := by
    rw [hr.items_eq, List.flatMap_map, List.map_flatMap]
    refine List.flatMap_congr fun token _ => ?_
    rw [List.map_map]
    exact (List.map_id _).symm
  have hproofs : (r.tokens.map (r.chainPart h limit)).flatMap Prod.snd
      = (r.batch limit).items.map (webProofOf h r.event r.chainIds) := by
    rw [hr.items_eq, List.flatMap_map, List.map_flatMap]
    rfl
  have hpending : (r.tokens.map (r.chainPart h limit)).flatMap (fun c => c.1.ineligible) = [] :=
    List.flatMap_eq_nil_iff.mpr fun c hc => by
      obtain ⟨token, -, rfl⟩ := List.mem_map.mp hc
      rfl
  have hpendingValue :
      ((r.tokens.map (r.chainPart h limit)).map fun c => totalValue c.1.ineligible).sum = 0 :=
    List.sum_eq_zero fun x hx => by
      obtain ⟨c, hc, rfl⟩ := List.mem_map.mp hx
      obtain ⟨token, -, rfl⟩ := List.mem_map.mp hc
      rfl
  have hvalue : ((r.tokens.map (r.chainPart h limit)).map fun c => totalValue c.1.eligible).sum
      = r.shown limit := by
    rw [List.map_map]
    rfl
  unfold Client.collectRedeemContext
  refine bind_eq_ok.mpr ⟨own, hfind, bind_eq_ok.mpr ⟨_, mapError_eq_ok.mpr hstate, ?_⟩⟩
  refine bind_eq_ok.mpr ⟨_, mapError_eq_ok.mpr hchains, ?_⟩
  rw [hevents, hproofs, hpending, hpendingValue, hvalue, hfr]
  rfl

/-- The root that the Verifier has is that of the snapshot. -/
theorem Ready.root (hr : r.Ready h vs gr payments) :
    r.event.root = r.onchainRoot
      ∧ node h.poseidon2 (snapshotLeaves r.event.snapshot) aggregationHeight 0
        = u256ToFr r.event.root.val := by
  obtain ⟨state, hstate⟩ := hr.state
  unfold fetchAggregationSnapshot at hstate
  simp only [bind_eq_ok, require_eq_ok, exists_const] at hstate
  obtain ⟨hevent, hroot, -⟩ := hstate
  refine ⟨hevent, ?_⟩
  rw [(aggregationTree_holds r.event.snapshot).getRoot] at hroot
  rw [hevent, ← hroot, u256ToFr, ZMod.natCast_zmod_val]

/-- A burn that shows no more than the total is taken for redeemed. -/
theorem Ready.redeemBurn_of_le (hr : r.Ready h vs gr payments) {burn : FullBurnAddress}
    (hburn : burn.gr = gr)
    (hle : r.shown limit ≤ r.chain.verifier.totalTeleported (gr.hash h)) :
    redeemBurn h P (some limit) r.tokens r.reads burn r.burn.1 r.buffer = .ok .alreadyRedeemed :=
  bind_eq_ok.mpr ⟨_, hr.collectRedeemContext hburn, if_pos hle⟩

/-- Otherwise what it shows is proved. -/
theorem Ready.redeemBurn_of_lt (hr : r.Ready h vs gr payments) (hprovers : P.Complete h (d vs))
    {burn : FullBurnAddress} (hburn : burn.gr = gr)
    (hworks : computeBurnAddressFromSecret h (toFr h gr) (u256ToFr burn.secret.val)
      = .ok (addressToFr r.burn.1))
    (hbound : payments r.burn.1 < 2 ^ 248)
    (hlt : r.chain.verifier.totalTeleported (gr.hash h) < r.shown limit) :
    ∃ tx, redeemBurn h P (some limit) r.tokens r.reads burn r.burn.1 r.buffer = .ok (.submitted tx)
      ∧ tx.Proves h d vs gr r.event.aggSeq (u256ToFr r.event.root.val) (r.shown limit) := by
  obtain ⟨hdraw, hsmall⟩ := randomDummySteps_range r.buffer
  have hbelow : ∀ y ∈ (r.batch limit).items,
      globalIndex r.chainIds y < 2 ^ globalTransferTreeHeight - 1 - randomDummySteps r.buffer :=
    fun y hy => (hr.item hy).2.trans_le (by omega)
  have hindex : ∀ y ∈ (r.batch limit).items,
      globalIndex r.chainIds y < 2 ^ globalTransferTreeHeight :=
    fun y hy => (hr.item hy).2.trans_le (Nat.sub_le _ _)
  have htotal : totalValue ((r.batch limit).items.map Prod.snd) < 2 ^ 248 := by
    rw [hr.total]
    exact hr.shown_le.trans_lt hbound
  have hredeem : ∀ y ∈ (r.batch limit).items, Redeemable h gr
      (fun dst => if dst = r.burn.1 then some burn.secret else none) y.2 := by
    intro y hy
    rw [Redeemable, (hr.item hy).1]
    exact ⟨burn.secret, if_pos rfl, hworks⟩
  have hsecret : ∀ y ∈ (r.batch limit).items,
      secretOf (fun dst => if dst = r.burn.1 then some burn.secret else none) y.2.dst
        = u256ToFr burn.secret.val := by
    intro y hy
    rw [secretOf, (hr.item hy).1, if_pos rfl]
    rfl
  rw [← hr.total]
  -- what is left is the branch by the number of eligible events
  suffices hproof : ∃ tx, redeemEligible h P (r.context h limit gr) burn r.buffer
      = .ok (.submitted tx) ∧ tx.Proves h d vs gr r.event.aggSeq (u256ToFr r.event.root.val)
        (totalValue ((r.batch limit).items.map Prod.snd)) by
    obtain ⟨tx, hok, hproves⟩ := hproof
    refine ⟨tx, bind_eq_ok.mpr ⟨_, hr.collectRedeemContext hburn, ?_⟩, hproves⟩
    exact (if_neg (not_le.mpr hlt)).trans hok
  have hevents : (r.context h limit gr).events.eligible = (r.batch limit).items.map Prod.snd := rfl
  cases hitems : (r.batch limit).items with
  | nil =>
    have hnone : r.shown limit = 0 := by
      rw [← hr.total, hitems]
      rfl
    omega
  | cons y rest =>
    have hy : y ∈ (r.batch limit).items := by
      rw [hitems]
      exact List.mem_cons_self
    rw [← hitems]
    -- one event takes the single circuit, more take the folded one
    cases rest with
    | nil =>
      have hproves := single_item_proves hprovers hr.root.2 hr.valid hitems (hredeem y hy)
        (hindex y hy) htotal
      rw [hsecret y hy] at hproves
      refine ⟨_, ?_, hproves⟩
      have hhead : (r.context h limit gr).globalProofs.head?
          = some (webProofOf h r.event r.chainIds y) := by
        show ((r.batch limit).items.map _).head? = _
        rw [hitems]
        rfl
      have hproof : generateSingleTeleportProof P r.event.root (toFr h burn.gr) burn.secret y.2
          (webProofOf h r.event r.chainIds y) = .ok (P.single true (u256ToFr r.event.root.val)
            (toFr h gr) (u256ToFr y.2.value.val) ⟨u256ToFr y.2.value.val, 0,
              u256ToFr burn.secret.val, (globalIndex r.chainIds y : Fr),
              globalSiblings h r.event r.chainIds y⟩) := by
        have hlength : (globalSiblings h r.event r.chainIds y).length = globalTransferTreeHeight :=
          globalSiblings_length y
        have hrange : globalIndex r.chainIds y < 2 ^ 64 := (hindex y hy).trans_le (by decide)
        refine bind_eq_ok.mpr ⟨(), require_of (Or.inr hlength), ?_⟩
        refine bind_eq_ok.mpr ⟨(), require_of hrange, ?_⟩
        simp only [webProofOf, hlength, hburn, decide_true]
        rfl
      unfold redeemEligible
      rw [hevents, hitems]
      refine bind_eq_ok.mpr ⟨_, okOr_eq_ok.mpr hhead, ?_⟩
      refine bind_eq_ok.mpr ⟨_, mapError_eq_ok.mpr hproof, ?_⟩
      rw [hburn]
      rfl
    | cons y' rest =>
      have hproves := batch_items_proves hprovers hr.root.2 hr.valid (List.ne_nil_of_mem hy) hredeem
        htotal hdraw hsmall hbelow
      refine ⟨_, ?_, hproves⟩
      have hsteps : realSteps h r.event r.chainIds (fun _ => u256ToFr burn.secret.val)
          (r.batch limit) = realSteps h r.event r.chainIds
            (secretOf fun dst => if dst = r.burn.1 then some burn.secret else none)
            (r.batch limit) := by
        refine List.map_congr_left fun z hz => ?_
        rw [itemStep, itemStep, hsecret z (SortByKey.mem_sortByKey.mp hz)]
      have hnova : runNovaProver burn.secret (r.context h limit gr).globalProofs
          ((r.batch limit).items.map Prod.snd) (randomDummySteps r.buffer) = .ok _ :=
        runNovaProver_ok burn.secret hdraw hsmall hindex
      rw [hsteps] at hnova
      have hproof : generateBatchTeleportProof P r.event.root (toFr h burn.gr) burn.secret
          ((r.batch limit).items.map Prod.snd) (r.context h limit gr).globalProofs r.buffer
            = .ok _ :=
        bind_eq_ok.mpr ⟨_, hnova, rfl⟩
      unfold redeemEligible
      rw [hevents, hitems]
      rw [hitems] at hproof
      refine bind_eq_ok.mpr ⟨_, mapError_eq_ok.mpr hproof, ?_⟩
      rw [hburn]
      rfl

end Redemption

end

/-! ## What is minted -/

/-- A logged transfer adds to what was minted if it is a mint to the address. -/
theorem mintedTo_concat (dst : Address) (events : List Transfer) (tr : Transfer) :
    mintedTo dst (events ++ [tr])
      = mintedTo dst events + if tr.src = 0 ∧ tr.dst = dst then tr.value.val else 0 := by
  rw [mintedTo, List.filter_append, List.map_append, List.sum_append, ← mintedTo]
  congr 1
  by_cases hminted : tr.src = 0 ∧ tr.dst = dst
  · rw [if_pos hminted, List.filter_singleton, decide_eq_true hminted]
    simp
  · rw [if_neg hminted, List.filter_singleton, decide_eq_false hminted]
    rfl

/-- The Verifier reads the address back that the client has put in. -/
theorem recipientAddr_newEvm (chainId : Fin (2 ^ 64)) (address : Address) (tweak : Word) :
    Verifier.recipientAddr (newEvm chainId address tweak) = address := by
  refine Fin.ext ?_
  show address.val % 2 ^ 160 = address.val
  exact Nat.mod_eq_of_lt address.isLt

/-- What the token has room for, it has room for in part. -/
theorem CanMint.mono {h : Hashes} {vs : Verifiers} {c : Chain} {isGlobal : Bool} {rootHint : ℕ}
    {root : Fr} {gr : GeneralRecipient} {amount amount' : ℕ}
    (hcan : CanMint h vs c isGlobal rootHint root gr amount)
    (hle : amount' ≤ amount) : CanMint h vs c isGlobal rootHint root gr amount' :=
  { hcan with supply := (Nat.add_le_add_left hle _).trans hcan.supply }

section

variable {h : Hashes} {d : DeciderSets} {vs : Verifiers} {P : Provers} {limit : ℕ}
  {chainId : Fin (2 ^ 64)} {address : Address} {tweak : Word} {payments : Address → ℕ}

/-- The burn has the tweak, and its address is that of its secret. -/
structure BurnFor (h : Hashes) (gr : GeneralRecipient) (burn : Address × SecretAndTweak) : Prop where
  tweak : burn.2.tweak = gr.tweak
  works : computeBurnAddressFromSecret h (toFr h gr) (u256ToFr burn.2.secret.val)
    = .ok (addressToFr burn.1)

variable (limit) in
/-- **One redemption** is a claim of what the burn shows on the total of the recipient. -/
theorem Redemption.Ready.chainAfter {r : Redemption} (hprovers : P.Complete h (d vs))
    (hr : r.Ready h vs (newEvm chainId address tweak) payments)
    (hburn : BurnFor h (newEvm chainId address tweak) r.burn)
    (hbound : payments r.burn.1 < 2 ^ 248) :
    let key := (newEvm chainId address tweak).hash h
    let total := r.chain.verifier.totalTeleported key
    let c' := r.chainAfter h d P limit chainId address
    c'.verifier.totalTeleported key = max total (r.shown limit)
      ∧ mintedTo address c'.token.events - mintedTo address r.chain.token.events
        = max total (r.shown limit) - total := by
  intro key total c'
  have hpayload : (r.fullBurnAddress chainId address).gr = newEvm chainId address tweak := by
    rw [Redemption.fullBurnAddress, hburn.tweak]
    rfl
  -- the panel submits only when more than the total is shown
  rcases Nat.lt_or_ge total (r.shown limit) with hlt | hle
  · obtain ⟨tx, hsubmits, hproves⟩ := hr.redeemBurn_of_lt hprovers hpayload hburn.works hbound hlt
    have hshown : r.shown limit - total ≤ payments r.burn.1 :=
      (Nat.sub_le _ _).trans hr.shown_le
    have hcan := hr.canMint.mono hshown
    rw [← hr.root.1] at hcan
    obtain ⟨c'', hexec, hminted⟩ := hproves.mints r.chain hlt hcan
    have hafter : c' = c'' := by
      show r.chainAfter h d P limit chainId address = c''
      rw [Redemption.chainAfter, hsubmits]
      show commit r.chain (tx.exec h d r.chain) = c''
      rw [hexec]
      rfl
    obtain ⟨tr, hsrc, hdst, hvalue, hevents⟩ := hminted.event
    rw [hafter, hminted.total, Function.update_self, max_eq_right hlt.le, hevents, mintedTo_concat,
      if_pos ⟨hsrc, hdst.trans (recipientAddr_newEvm chainId address tweak)⟩, hvalue]
    exact ⟨rfl, Nat.add_sub_cancel_left _ _⟩
  · have hafter : c' = r.chain := by
      show r.chainAfter h d P limit chainId address = r.chain
      rw [Redemption.chainAfter, hr.redeemBurn_of_le hpayload hle]
    rw [hafter, max_eq_left hle, Nat.sub_self, Nat.sub_self]
    exact ⟨rfl, rfl⟩

/-- **Redemptions in sequence** are cumulative claims. -/
theorem redeemedTotal_eq (hprovers : P.Complete h (d vs)) {rs : List Redemption} {total : ℕ}
    (hseq : InSequence h d P limit chainId address ((newEvm chainId address tweak).hash h) total rs)
    (hready : ∀ r ∈ rs, r.Ready h vs (newEvm chainId address tweak) payments)
    (hburn : ∀ r ∈ rs, BurnFor h (newEvm chainId address tweak) r.burn)
    (hbound : ∀ r ∈ rs, payments r.burn.1 < 2 ^ 248) :
    redeemedTotal h d P limit chainId address rs
      = paidOut total (rs.map fun r => r.shown limit) := by
  -- each redemption starts from the total that the one before left
  induction rs generalizing total with
  | nil => rfl
  | cons r rs ih =>
    obtain ⟨htotal, hrest⟩ := hseq
    obtain ⟨hafter, hminted⟩ := (hready r List.mem_cons_self).chainAfter limit hprovers
      (hburn r List.mem_cons_self) (hbound r List.mem_cons_self)
    rw [htotal] at hafter hminted
    rw [hafter] at hrest
    have hstep := ih hrest (fun r' hr' => hready r' (List.mem_cons_of_mem r hr'))
      (fun r' hr' => hburn r' (List.mem_cons_of_mem r hr'))
      (fun r' hr' => hbound r' (List.mem_cons_of_mem r hr'))
    rw [redeemedTotal] at hstep ⊢
    rw [List.map_cons, List.sum_cons, hstep, hminted]
    rfl

end

/-! ## Batch invoices -/

section

variable {h : Hashes} {d : DeciderSets} {vs : Verifiers} {P : Provers} {keccak256 : List UInt8 → Word}
  {invoice : Derivation} {invoiceId : Word} {burns : List (Address × SecretAndTweak)}

/-- The burns of a batch invoice are burns for one recipient. -/
theorem Derivation.burnFor (hburns : invoice.burns h keccak256 false invoiceId = .ok burns)
    {burn : Address × SecretAndTweak} (hburn : burn ∈ burns) :
    BurnFor h (invoice.gr keccak256 invoiceId) burn := by
  obtain ⟨subId, -, hok⟩ := (mapM_inv hburns).2 burn hburn
  obtain ⟨st, hst, hok⟩ := bind_eq_ok.mp hok
  obtain ⟨payload, hpayload, hok⟩ := bind_eq_ok.mp hok
  obtain ⟨x, hx, hret⟩ := bind_eq_ok.mp hok
  cases hret
  rw [okOr_eq_ok] at hst
  rw [mapError_eq_ok] at hpayload hx
  -- all sub ids share the tweak of the invoice
  have htweak : st.tweak = invoice.tweak keccak256 invoiceId := by
    simp only [batchInvoice, secretAndTweak, Option.bind_eq_bind, Option.bind_eq_some_iff,
      Option.pure_def, Option.some.injEq] at hst
    obtain ⟨secret, -, rfl⟩ := hst
    rfl
  obtain ⟨-, -, hret⟩ := bind_eq_ok.mp hpayload
  cases hret
  have hworks := FullBurnAddress.burnAddress_eq_ok.mp hx
  refine ⟨htweak, ?_⟩
  rw [Derivation.gr, ← htweak]
  exact hworks

/-- The map that the CLI inserts the burns into. -/
def burnAddressToSecret (burns : List (Address × SecretAndTweak)) (dst : Address) : Option Word :=
  (burns.reverse.find? fun burn => burn.1 = dst).map fun burn => burn.2.secret

/-- Every burn address of the invoice is found in the map, with the secret of a burn of this
address. -/
theorem burnAddressToSecret_of_mem {x : Address} (hx : x ∈ burns.map Prod.fst) :
    ∃ burn ∈ burns, burn.1 = x ∧ burnAddressToSecret burns x = some burn.2.secret := by
  obtain ⟨burn, hburn, rfl⟩ := List.mem_map.mp hx
  have hsome : (burns.reverse.find? fun b => b.1 = burn.1).isSome := by
    rw [List.find?_isSome]
    exact ⟨burn, List.mem_reverse.mpr hburn, decide_eq_true rfl⟩
  obtain ⟨found, hfound⟩ := Option.isSome_iff_exists.mp hsome
  refine ⟨found, List.mem_reverse.mp (List.mem_of_find?_eq_some hfound), ?_, ?_⟩
  · have hfst := List.find?_some hfound
    exact of_decide_eq_true hfst
  · rw [burnAddressToSecret, hfound]
    rfl

/-- What was paid to several addresses is the sum of what was paid to each. -/
theorem paidTo_eq_sum (tokens : List TokenView) (addresses : List Address) :
    paidTo tokens addresses = (addresses.map fun x => paidTo tokens [x]).sum := by
  induction addresses with
  | nil => simp [paidTo]
  | cons x addresses ih =>
    rw [List.map_cons, List.sum_cons, ← ih]
    simp only [paidTo, List.map_cons, List.sum_cons, List.map_nil, List.sum_nil, Nat.add_zero]
    exact List.sum_map_add

/-- **Redemption of a batch invoice.** The CLI proves what was paid to all of its burn addresses. The
front end, burn by burn and in any order, mints as much if and only if only one of the addresses was
paid, and everything that was paid to it is shown. -/
theorem batch_redemption_complete_iff (h : Hashes) (d : DeciderSets) (vs : Verifiers)
    (P : Provers) (hprovers : P.Complete h (d vs)) (keccak256 : List UInt8 → Word)
    (invoice : Derivation) (invoiceId : Word) (burns : List (Address × SecretAndTweak))
    (hburns : invoice.burns h keccak256 false invoiceId = .ok burns) (payments : Address → ℕ)
    (hbound : ∑ x ∈ (burns.map Prod.fst).toFinset, payments x < 2 ^ 248) (limit : ℕ)
    (rs : List Redemption) (honce : (rs.map Redemption.burn).Perm burns)
    (hready : ∀ r ∈ rs, r.Ready h vs (invoice.gr keccak256 invoiceId) payments)
    (hseq : InSequence h d P limit invoice.chainId invoice.address
      ((invoice.gr keccak256 invoiceId).hash h) 0 rs) :
    (∀ (order : IterationOrder) (event : AggregationEvent) (chainIds : List ℕ) (onchainRoot : Word)
        (state : AggregationTreeState) (tokens : List TokenView) (limit n : ℕ),
      fetchAggregationTreeState h onchainRoot event chainIds = .ok state →
      1 ≤ n → n < NUM_BATCH_INVOICES →
      Covered h event chainIds limit n tokens (burns.map Prod.fst).dedup →
      (∀ x ∈ burns.map Prod.fst, paidTo tokens [x] = payments x) →
      0 < ∑ x ∈ (burns.map Prod.fst).toFinset, payments x →
      ∃ tx, redeemTransfers h P order state
          (fetchedBatch limit tokens (burns.map Prod.fst).dedup).separated
          (burnAddressToSecret burns) (invoice.gr keccak256 invoiceId) 0 n = .ok (.submitted tx)
        ∧ tx.Proves h d vs (invoice.gr keccak256 invoiceId) event.aggSeq (u256ToFr onchainRoot.val)
          (∑ x ∈ (burns.map Prod.fst).toFinset, payments x))
    ∧ (redeemedTotal h d P limit invoice.chainId invoice.address rs
        = ∑ x ∈ (burns.map Prod.fst).toFinset, payments x
      ↔ (∀ x ∈ burns.map Prod.fst, ∀ y ∈ burns.map Prod.fst,
          payments x ≠ 0 → payments y ≠ 0 → x = y)
        ∧ ∀ x ∈ burns.map Prod.fst, ∃ r ∈ rs, r.burn.1 = x ∧ r.shown limit = payments x) := by
  -- the command line: all addresses in one batch
  constructor
  · intro order event chainIds onchainRoot state tokens limit n hstate hn hsmall hcovered hpaid hpos
    obtain ⟨hroot, hfetched⟩ := fetchAggregationTreeState_eq_ok hstate
    have htotal : paidTo tokens (burns.map Prod.fst).dedup
        = ∑ x ∈ (burns.map Prod.fst).toFinset, payments x := by
      have hsame : (burns.map Prod.fst).dedup.toFinset = (burns.map Prod.fst).toFinset := by
        ext x
        rw [List.mem_toFinset, List.mem_toFinset, List.mem_dedup]
      rw [paidTo_eq_sum, ← hsame, List.sum_toFinset _ (List.nodup_dedup _)]
      exact congrArg List.sum (List.map_congr_left fun x hx => hpaid x (List.mem_dedup.mp hx))
    rw [← htotal] at hbound hpos ⊢
    rw [← hroot]
    refine hcovered.redeems _ _ hprovers order hfetched (List.nodup_dedup _) ?_ hbound hn hsmall hpos
    intro x hx
    obtain ⟨burn, hburn, rfl, hsecret⟩ := burnAddressToSecret_of_mem (List.mem_dedup.mp hx)
    exact ⟨burn.2.secret, hsecret, (invoice.burnFor hburns hburn).works⟩
  -- the front end: one address after another on one counter
  · have howners : (rs.map fun r => r.burn.1).Perm (burns.map Prod.fst) := by
      have hperm := honce.map Prod.fst
      rw [List.map_map] at hperm
      exact hperm
    have hburn : ∀ r ∈ rs, r.burn ∈ burns := fun r hr =>
      honce.subset (List.mem_map_of_mem hr)
    have hsmall : ∀ r ∈ rs, payments r.burn.1 < 2 ^ 248 := by
      intro r hr
      refine (Finset.single_le_sum (fun x _ => Nat.zero_le (payments x)) ?_).trans_lt hbound
      exact List.mem_toFinset.mpr (List.mem_map_of_mem (hburn r hr))
    have hminted := redeemedTotal_eq hprovers hseq hready
      (fun r hr => invoice.burnFor hburns (hburn r hr)) hsmall
    have htotal := add_paidOut 0 (rs.map fun r => r.shown limit)
    rw [Nat.zero_add] at htotal
    rw [hminted, htotal, ← List.toFinset_eq_of_perm _ _ howners,
      totalAfter_eq_sum_iff fun r hr => (hready r hr).shown_le]
    simp only [howners.mem_iff]

end

/-! ### Payments to two burn addresses, and to one -/

section

variable (h : Hashes) (d : DeciderSets) (P : Provers) (limit : ℕ) (chainId : Fin (2 ^ 64))
  (address : Address) (recipient : ℕ) (redemption : ℕ → Address × SecretAndTweak → Redemption)

/-- Redemptions of the burns one after the other, each with the total that the last one left. -/
def redeemEach : ℕ → List (Address × SecretAndTweak) → List Redemption
  | _, [] => []
  | total, burn :: burns => redemption total burn ::
    redeemEach (((redemption total burn).chainAfter h d P limit chainId
      address).verifier.totalTeleported recipient) burns

variable {h d P limit chainId address recipient redemption}
  {burns : List (Address × SecretAndTweak)} {total : ℕ}

/-- Every redemption in the list is one of a burn, at some total. -/
theorem mem_redeemEach {r : Redemption}
    (hr : r ∈ redeemEach h d P limit chainId address recipient redemption total burns) :
    ∃ total burn, r = redemption total burn := by
  induction burns generalizing total with
  | nil => cases hr
  | cons burn burns ih =>
    rcases List.mem_cons.mp hr with rfl | hmem
    · exact ⟨total, burn, rfl⟩
    · exact ih hmem

/-- The burns are redeemed in their order. -/
theorem redeemEach_burn (hburn : ∀ total burn, (redemption total burn).burn = burn) :
    (redeemEach h d P limit chainId address recipient redemption total burns).map
      Redemption.burn = burns := by
  induction burns generalizing total with
  | nil => rfl
  | cons burn burns ih => rw [redeemEach, List.map_cons, ih, hburn]

/-- Each redemption starts from the total that the last one left. -/
theorem redeemEach_inSequence
    (htotal : ∀ total burn,
      (redemption total burn).chain.verifier.totalTeleported recipient = total) :
    InSequence h d P limit chainId address recipient total
      (redeemEach h d P limit chainId address recipient redemption total burns) := by
  induction burns generalizing total with
  | nil => trivial
  | cons burn burns ih => exact ⟨htotal total burn, ih⟩

end

namespace BatchInvoiceExample

def invoice : Derivation := ⟨InvoiceExample.seed, 1, InvoiceExample.address⟩

/-- A batch invoice for chain 1. -/
def invoiceId : Word := 0x00000000000000000100000000000000000000000000000000000000000027d6

def recipient : GeneralRecipient := invoice.gr Keccak.hash invoiceId

def tweakPreimage : List UInt8 :=
  INVOICE_TWEAK_DOMAIN ++ bytesBE 32 InvoiceExample.seed.val ++ bytesBE 32 invoiceId.val

def secretPreimage (subId : ℕ) : List UInt8 :=
  INVOICE_SECRET_DOMAIN ++ bytesBE 32 InvoiceExample.seed.val ++ bytesBE 32 invoiceId.val
    ++ bytesBE 4 (Fin.ofNat (2 ^ 32) subId).val

/-- The burn addresses of the sub ids 0 and 1. -/
def first : Address := 0xfc4eb3f9bb22f6e25b6cd31defd234f3f4a8a13d

def second : Address := 0xf3f8060ee5836c1ecaeb8154bc5dbcf35b79ddf9

set_option maxRecDepth 10000 in
/-- The burn of the first sub id, with its secret and tweak. -/
theorem burns_first : burnOf realHashes (batchInvoice realHashes Keccak.hash invoiceId 0
    InvoiceExample.seed) 1 InvoiceExample.address
    = .ok (first, ⟨0x19fa8fb1e0eef6c3bac2ada247526d65eeafe6b8066b864f6c182f4f575f59d0,
      0x79c85d03cbd8f3a7b3e97b9fe03289f30909bfb9f55609a9ee02bb2a6129b3d⟩) := by
  decide +kernel

set_option maxRecDepth 10000 in
/-- The burn of the second one. -/
theorem burns_second : burnOf realHashes (batchInvoice realHashes Keccak.hash invoiceId 1
    InvoiceExample.seed) 1 InvoiceExample.address
    = .ok (second, ⟨0x2872012ae5fcef7fe8fe31eb38c73cf9ca0df82c7fc64f54c0274d758ab96001,
      0x79c85d03cbd8f3a7b3e97b9fe03289f30909bfb9f55609a9ee02bb2a6129b3d⟩) := by
  decide +kernel

/-- A nonce with a proof of work for each sub id. -/
def nonces : List ℕ := [8, 12, 2673, 1613, 198, 6198, 13572, 353, 9683, 4099]

/-- The recipient of the invoice, as the circuits have it. -/
theorem recipient_toFr : (newEvm 1 InvoiceExample.address (Keccak.hash tweakPreimage)).toFr realHashes
    = 0x1eb22ad5a3edb6791c6123bd5b43821d095b5d23a6e678b2052ebe47b38ae29 := by
  decide +kernel

set_option maxRecDepth 10000 in
/-- A proof-of-work nonce for every sub id of the batch. -/
theorem nonces_work {subId : ℕ} (hsubId : subId < 10) :
    nonces.getD subId 0 < 2 ^ 64 ∧ (computeBurnAddressFromSecret realHashes
      ((newEvm 1 InvoiceExample.address (Keccak.hash tweakPreimage)).toFr realHashes)
      (secretFromNonce (b256ToFr (Keccak.hash (secretPreimage subId)))
        (nonces.getD subId 0))).isOk := by
  rw [recipient_toFr]
  interval_cases subId <;> decide +kernel

/-- A derivation that returns has a burn address. -/
theorem exists_burnOf {derive : Fin (2 ^ 64) → Address → Option SecretAndTweak}
    {chainId : Fin (2 ^ 64)} {address : Address} {st : SecretAndTweak}
    (hst : derive chainId address = some st) (hderived : Derived realHashes chainId address st) :
    ∃ burn, burnOf realHashes derive chainId address = .ok burn := by
  obtain ⟨a, hnew, hburn, -⟩ := hderived.burnAddress
  refine ⟨(a, st), bind_eq_ok.mpr ⟨st, okOr_eq_ok.mpr hst, ?_⟩⟩
  refine bind_eq_ok.mpr ⟨_, mapError_eq_ok.mpr hnew, ?_⟩
  exact bind_eq_ok.mpr ⟨a, mapError_eq_ok.mpr hburn, rfl⟩

/-- All burns of the invoice can be derived, the two paid ones among them. -/
theorem exists_burns : ∃ burns, invoice.burns realHashes Keccak.hash false invoiceId = .ok burns
    ∧ first ∈ burns.map Prod.fst ∧ second ∈ burns.map Prod.fst := by
  have hcalls : ∀ subId ∈ List.range NUM_BATCH_INVOICES, ∃ burn,
      burnOf realHashes (batchInvoice realHashes Keccak.hash invoiceId (Fin.ofNat _ subId)
        InvoiceExample.seed) 1 InvoiceExample.address = .ok burn := by
    intro subId hmem
    obtain ⟨hlt, hok⟩ := nonces_work (List.mem_range.mp hmem)
    have hnonce : ∃ a, computeBurnAddressFromSecret realHashes
        ((newEvm 1 InvoiceExample.address (Keccak.hash tweakPreimage)).toFr realHashes)
        (secretFromNonce (b256ToFr (Keccak.hash (secretPreimage subId))) (nonces.getD subId 0))
        = .ok a := by
      revert hok
      generalize computeBurnAddressFromSecret realHashes _ _ = result
      intro hok
      cases result with
      | error e => cases hok
      | ok a => exact ⟨a, rfl⟩
    obtain ⟨st, hst⟩ := exists_secretAndTweak hlt hnonce
    exact exists_burnOf hst (secretAndTweak_derived hst)
  obtain ⟨burns, hburns⟩ := exists_mapM_eq_ok.mpr hcalls
  refine ⟨burns, hburns, ?_, ?_⟩
  · obtain ⟨burn, hburn, hok⟩ := (mapM_inv hburns).1 0 (by decide)
    cases hok.symm.trans burns_first
    exact List.mem_map_of_mem hburn
  · obtain ⟨burn, hburn, hok⟩ := (mapM_inv hburns).1 1 (by decide)
    cases hok.symm.trans burns_second
    exact List.mem_map_of_mem hburn

/-! The transfers on chain 1, and their tree. -/

section

variable (a b : Address)

def transfers : List Transfer := [⟨0, a, 5⟩, ⟨0, b, 2⟩]

def token : TokenView where
  chainId := 1
  cfg := BatchExample.cfg
  db := run (appendStep realHashes BatchExample.cfg) TreeDb.initial ((transfers a b).map entryOf)
  transfers := transfers a b
  treeIndex := 2
  balanceOf _ := 0

def snapshot : List Word := [BatchExample.word ((token a b).root realHashes)]

def aggregationRoot : Fr :=
  node realHashes.poseidon2 (snapshotLeaves (snapshot a b)) aggregationHeight 0

def event : AggregationEvent := ⟨1, BatchExample.word (aggregationRoot a b), snapshot a b, [2]⟩

/-- The recipient's chain, where `total` was teleported to the recipient. -/
def chain (total : ℕ) : Chain where
  chainId := 1
  token := { Token.initial 0 with verifier := 1 }
  verifier := { Verifier.initial 0 0 0 BatchExample.verifiers with
    globalTransferRoots := fun _ => (aggregationRoot a b).val
    totalTeleported := fun _ => total }
  verifierAddr := 1
  minterAddr := 0
  tokenAddress := 0
  nativeBalance := 0
  underlying _ := 0
  records := []

def redemption (total : ℕ) (burn : Address × SecretAndTweak) : Redemption where
  burn := burn
  chain := chain a b total
  tokens := [token a b]
  onchainRoot := BatchExample.word (aggregationRoot a b)
  event := event a b
  chainIds := [1]
  buffer := 3

/-- The burns one after the other, with at most 20 events for each. -/
def redemptions : ℕ → List (Address × SecretAndTweak) → List Redemption :=
  redeemEach realHashes ReceiveExample.deciders ReceiveExample.provers 20 1 InvoiceExample.address
    (recipient.hash realHashes) (redemption a b)

end

section

variable {α : Type} (H : α → α → α)

/-- Upwards from the leftmost node, with the zero hashes on the way. -/
def foldZeros : ℕ → α × α → α × α
  | 0, s => s
  | n + 1, s => foldZeros n (H s.1 s.2, H s.2 s.2)

/-- A tree over two leaves is a tree over their parent, one level up. -/
theorem node_pair (z u v : α) (d : ℕ) :
    node H (leavesOf z [u, v]) (d + 1) 0 = node H (leavesOf (H z z) [H u v]) d 0 := by
  rw [node_succ]
  refine node_congr _ _ _ fun q _ => ?_
  cases q with
  | zero => rfl
  | succ q => simp [leavesOf, Nat.mul_succ]

/-- A tree with one leaf is the leaf folded with the zero hashes. -/
theorem node_single (z v : α) (d : ℕ) : node H (leavesOf z [v]) d 0 = (foldZeros H d (v, z)).1 := by
  induction d generalizing z v with
  | zero => rfl
  | succ d ih =>
    have hpad : leavesOf z [v] = leavesOf z [v, z] := by
      funext q
      match q with
      | 0 => rfl
      | 1 => rfl
      | q + 2 => rfl
    rw [hpad, node_pair, ih, foldZeros]

end

/-- The root of the tree of two transfers. -/
def pairRoot (a b : Address) : Fr :=
  (foldZeros realHashes.poseidon2 39 (realHashes.poseidon2 (Transfer.leaf realHashes ⟨0, a, 5⟩)
    (Transfer.leaf realHashes ⟨0, b, 2⟩), realHashes.poseidon2 0 0)).1

/-- The transfer root of the chain is that of the two payments. -/
theorem root_eq (a b : Address) : (token a b).root realHashes = pairRoot a b := by
  have hleaves : (token a b).root realHashes = node realHashes.poseidon2
      (leavesOf 0 [Transfer.leaf realHashes ⟨0, a, 5⟩, Transfer.leaf realHashes ⟨0, b, 2⟩])
      (39 + 1) 0 := by
    rfl
  rw [hleaves, node_pair, node_single, pairRoot]

/-- The aggregation has this root as its only leaf. -/
theorem aggregationRoot_eq (a b : Address) :
    aggregationRoot a b = (foldZeros realHashes.poseidon2 6 (pairRoot a b, 0)).1 := by
  have hleaves : snapshotLeaves (snapshot a b) = leavesOf 0 [pairRoot a b] := by
    rw [snapshotLeaves, snapshot, List.map_singleton, root_eq, u256ToFr, BatchExample.word_cast]
  rw [aggregationRoot, hleaves]
  exact node_single _ _ _ 6

/-- The aggregation root is not zero with both addresses paid. -/
theorem aggregationRoot_two_ne : aggregationRoot first second ≠ 0 := by
  rw [aggregationRoot_eq]
  decide +kernel

/-- Nor is it with one address paid twice. -/
theorem aggregationRoot_one_ne : aggregationRoot first first ≠ 0 := by
  rw [aggregationRoot_eq]
  decide +kernel

/-! The transfers, as the front end gets them. -/

section

variable {a b x : Address}

def payments (a b x : Address) : ℕ := paidTo [token a b] [x]

/-- The rows of the indexer are the two payments. -/
theorem rows_eq : (token a b).rows = [⟨0, 0, a, 5⟩, ⟨1, 0, b, 2⟩] := rfl

/-- Their indices are 0 and 1. -/
theorem index_le_one {e : IndexedEvent} (he : e ∈ (token a b).transfersTo x) : e.eventIndex ≤ 1 := by
  have hmem := (List.mem_filter.mp (SortByKey.mem_sortByKey.mp he)).1
  rw [rows_eq] at hmem
  simp only [List.mem_cons, List.not_mem_nil, or_false] at hmem
  rcases hmem with rfl | rfl
  · exact Nat.zero_le 1
  · exact le_rfl

/-- What an address was paid: 5 as the first one, 2 as the second one. -/
theorem payments_eq : payments a b x = (if a = x then 5 else 0) + if b = x then 2 else 0 := by
  have hperm : ((token a b).transfersTo x).Perm ((token a b).rows.filter fun e => e.dst = x) :=
    SortByKey.sortByKey_perm _
  have hpaid : payments a b x = totalValue ((token a b).transfersTo x) := by
    simp [payments, paidTo]
  rw [hpaid, totalValue, (hperm.map _).sum_eq, rows_eq]
  by_cases ha : a = x
  · by_cases hb : b = x
    · simp [ha, hb]
    · simp [ha, hb]
  · by_cases hb : b = x
    · simp [ha, hb]
    · simp [ha, hb]

/-- The limit is not reached, so a redemption shows all that the address was paid. -/
theorem shown_eq (total : ℕ) (burn : Address × SecretAndTweak) :
    (redemption a b total burn).shown 20 = payments a b burn.1 := by
  have hlength : ((token a b).transfersTo burn.1).length ≤ min 20 1000 := by
    have hperm : ((token a b).transfersTo burn.1).Perm
        ((token a b).rows.filter fun e => e.dst = burn.1) := SortByKey.sortByKey_perm _
    rw [hperm.length_eq]
    refine (List.length_filter_le _ _).trans ?_
    rw [rows_eq]
    show 2 ≤ min 20 1000
    decide
  show ([token a b].map fun token => totalValue (token.eventsByRecipient burn.1 (some 20))).sum = _
  rw [List.map_singleton, ChainView.eventsByRecipient_of_le hlength]
  simp [payments, paidTo]

/-- The indexer has ingested both payments. -/
theorem faithful : (token a b).Faithful realHashes where
  height := rfl
  tree := by
    have hcapacity : ((transfers a b).map entryOf).length ≤ 2 ^ BatchExample.cfg.height := by
      show 2 ≤ 2 ^ 40
      norm_num
    have hrun := run_represents (h := realHashes) ((transfers a b).map entryOf) hcapacity
    have hall : appendedEntries ((transfers a b).map entryOf) = (transfers a b).map entryOf := by
      refine List.take_of_length_le ?_
      show 2 ≤ i64Max
      decide
    rw [hall] at hrun
    dsimp only [token]
    exact hrun
  capacity := by
    show 2 ≤ 2 ^ transferTreeHeight
    decide
  treeIndex_le := le_rfl
  window := Nat.zero_le _

/-- Every burn can be redeemed at any time. -/
theorem redemption_ready (hroot : aggregationRoot a b ≠ 0) (total : ℕ)
    (burn : Address × SecretAndTweak) :
    (redemption a b total burn).Ready realHashes BatchExample.verifiers recipient
      (payments a b) where
  chains := List.nodup_singleton _
  own := ⟨token a b, List.mem_singleton_self _, rfl⟩
  state := by
    refine ⟨_, bind_eq_ok.mpr ⟨(), require_of rfl, bind_eq_ok.mpr ⟨(), require_of ?_, rfl⟩⟩⟩
    exact congrArg ZMod.val (aggregationTree_holds (snapshot a b)).getRoot
  faithful token htoken := by
    rw [List.mem_singleton.mp htoken]
    exact faithful
  aggregated token htoken := by
    rw [List.mem_singleton.mp htoken]
    exact ⟨List.mem_singleton_self _, rfl, rfl⟩
  eligible token htoken e he := by
    rw [List.mem_singleton.mp htoken] at he ⊢
    exact Nat.lt_succ_of_le (index_le_one he)
  room token htoken e he := by
    rw [List.mem_singleton.mp htoken] at he ⊢
    have hplace : place [1] (BatchInvoiceExample.token a b).toChainView = 0 := rfl
    show (place [1] _ <<< transferTreeHeight) + e.eventIndex < _
    rw [hplace, Nat.zero_shiftLeft, Nat.zero_add]
    exact (index_le_one he).trans_lt (by decide)
  paid := rfl
  canMint := by
    have hsmall : payments a b burn.1 ≤ 7 := by
      rw [payments_eq]
      split <;> split <;> decide
    have hword : u256ToFr (BatchExample.word (aggregationRoot a b)).val = aggregationRoot a b :=
      BatchExample.word_cast _
    have hstored : (chain a b total).verifier.globalTransferRoots 1 = (aggregationRoot a b).val := rfl
    have hread : (redemption a b total burn).onchainRoot = BatchExample.word (aggregationRoot a b) :=
      rfl
    refine ⟨rfl, rfl, ?_, ?_, rfl, rfl, ?_, ?_, ?_⟩
    · rw [if_pos rfl, hread, hword]
      exact hstored
    · exact fun hzero => hroot (hword.symm.trans hzero)
    · rw [recipient, Derivation.gr, recipientAddr_newEvm]
      decide
    · show 0 + payments a b burn.1 ≤ uint256Max
      rw [uint256Max]
      omega
    · show 0 < uint256Max
      rw [uint256Max]
      norm_num

end

section

variable {a b : Address} (burns : List (Address × SecretAndTweak)) (total : ℕ)

/-- Each burn is redeemed once. -/
theorem redemptions_burn (a b : Address) :
    (redemptions a b total burns).map Redemption.burn = burns := redeemEach_burn fun _ _ => rfl

/-- The redemptions follow each other. -/
theorem redemptions_inSequence :
    InSequence realHashes ReceiveExample.deciders ReceiveExample.provers 20 1
      InvoiceExample.address (recipient.hash realHashes) total (redemptions a b total burns) :=
  redeemEach_inSequence fun _ _ => rfl

/-- Every one of them finds what it needs. -/
theorem redemptions_ready (hroot : aggregationRoot a b ≠ 0) :
    ∀ r ∈ redemptions a b total burns,
      r.Ready realHashes BatchExample.verifiers recipient (payments a b) := by
  intro r hr
  obtain ⟨total, burn, rfl⟩ := mem_redeemEach hr
  exact redemption_ready hroot total burn

/-- Every one of them shows all that its address was paid. -/
theorem redemptions_shown :
    ∀ r ∈ redemptions a b total burns, r.shown 20 = payments a b r.burn.1 := by
  intro r hr
  obtain ⟨total, burn, rfl⟩ := mem_redeemEach hr
  exact shown_eq total burn

/-- Both addresses together were paid 7. -/
theorem sum_payments {A : Finset Address} (ha : a ∈ A) (hb : b ∈ A) :
    ∑ x ∈ A, payments a b x = 7 := by
  simp only [payments_eq, Finset.sum_add_distrib, Finset.sum_ite_eq, if_pos ha, if_pos hb]

end

end BatchInvoiceExample

/-- With one of the addresses paid, the front end mints all of it. -/
theorem batch_redemption_complete_one :
    ∃ burns rs, BatchInvoiceExample.invoice.burns realHashes Keccak.hash false
        BatchInvoiceExample.invoiceId = .ok burns
      ∧ (rs.map Redemption.burn).Perm burns
      ∧ redeemedTotal realHashes ReceiveExample.deciders ReceiveExample.provers 20 1
        InvoiceExample.address rs = 7 := by
  obtain ⟨burns, hburns, hfirst, -⟩ := BatchInvoiceExample.exists_burns
  have hmem : BatchInvoiceExample.first ∈ (burns.map Prod.fst).toFinset :=
    List.mem_toFinset.mpr hfirst
  have hsum := BatchInvoiceExample.sum_payments hmem hmem
  have hperm := List.Perm.of_eq (BatchInvoiceExample.redemptions_burn burns 0
    BatchInvoiceExample.first BatchInvoiceExample.first)
  obtain ⟨-, hiff⟩ := batch_redemption_complete_iff realHashes ReceiveExample.deciders
    BatchExample.verifiers ReceiveExample.provers ReceiveExample.provers_complete Keccak.hash
    BatchInvoiceExample.invoice BatchInvoiceExample.invoiceId burns hburns
    (BatchInvoiceExample.payments BatchInvoiceExample.first BatchInvoiceExample.first)
    (by rw [hsum]; norm_num) 20 _ hperm
    (BatchInvoiceExample.redemptions_ready burns 0
      BatchInvoiceExample.aggregationRoot_one_ne)
    (BatchInvoiceExample.redemptions_inSequence burns 0)
  refine ⟨burns, _, hburns, hperm, ?_⟩
  rw [← hsum]
  refine hiff.mpr ⟨?_, ?_⟩
  · -- only the first was paid
    have hpaid : ∀ x, BatchInvoiceExample.payments BatchInvoiceExample.first
        BatchInvoiceExample.first x ≠ 0 → BatchInvoiceExample.first = x := by
      intro x hne
      by_contra hnot
      rw [BatchInvoiceExample.payments_eq, if_neg hnot, if_neg hnot] at hne
      exact hne rfl
    exact fun x _ y _ hx hy => (hpaid x hx).symm.trans (hpaid y hy)
  · intro x hx
    obtain ⟨burn, hburn, hfst⟩ := List.mem_map.mp ((hperm.map Prod.fst).mem_iff.mpr hx)
    obtain ⟨r, hr, rfl⟩ := List.mem_map.mp hburn
    refine ⟨r, hr, hfst, ?_⟩
    rw [← hfst]
    exact BatchInvoiceExample.redemptions_shown burns 0 r hr

/-- Of 5 and 2 that two addresses were paid, the front end mints 5. -/
theorem batch_redemption_short :
    ∃ burns rs payments, BatchInvoiceExample.invoice.burns realHashes Keccak.hash false
        BatchInvoiceExample.invoiceId = .ok burns
      ∧ (rs.map Redemption.burn).Perm burns
      ∧ (∀ r ∈ rs, r.Ready realHashes BatchExample.verifiers
        (BatchInvoiceExample.invoice.gr Keccak.hash BatchInvoiceExample.invoiceId) payments)
      ∧ InSequence realHashes ReceiveExample.deciders ReceiveExample.provers 20 1
        InvoiceExample.address ((BatchInvoiceExample.invoice.gr Keccak.hash
          BatchInvoiceExample.invoiceId).hash realHashes) 0 rs
      ∧ (∀ r ∈ rs, r.shown 20 = payments r.burn.1)
      ∧ ∑ x ∈ (burns.map Prod.fst).toFinset, payments x = 7
      ∧ redeemedTotal realHashes ReceiveExample.deciders ReceiveExample.provers 20 1
        InvoiceExample.address rs = 5 := by
  obtain ⟨burns, hburns, hfirst, hsecond⟩ := BatchInvoiceExample.exists_burns
  have hperm := List.Perm.of_eq (BatchInvoiceExample.redemptions_burn burns 0
    BatchInvoiceExample.first BatchInvoiceExample.second)
  have hready := BatchInvoiceExample.redemptions_ready burns 0
    BatchInvoiceExample.aggregationRoot_two_ne
  have hshown := BatchInvoiceExample.redemptions_shown (a := BatchInvoiceExample.first)
    (b := BatchInvoiceExample.second) burns 0
  have hle : ∀ x, BatchInvoiceExample.payments BatchInvoiceExample.first
      BatchInvoiceExample.second x ≤ 5 := by
    intro x
    have hne : BatchInvoiceExample.first ≠ BatchInvoiceExample.second := by decide
    rw [BatchInvoiceExample.payments_eq]
    by_cases hx : BatchInvoiceExample.first = x
    · rw [if_pos hx, if_neg fun hx' => hne (hx.trans hx'.symm)]
    · rw [if_neg hx]
      split <;> decide
  refine ⟨burns, _, _, hburns, hperm, hready,
    BatchInvoiceExample.redemptions_inSequence burns 0, hshown,
    BatchInvoiceExample.sum_payments (List.mem_toFinset.mpr hfirst)
      (List.mem_toFinset.mpr hsecond), ?_⟩
  have hminted := redeemedTotal_eq ReceiveExample.provers_complete
    (BatchInvoiceExample.redemptions_inSequence burns 0) hready
    (fun r hr => BatchInvoiceExample.invoice.burnFor hburns
      (hperm.subset (List.mem_map_of_mem hr)))
    (fun r _ => (hle r.burn.1).trans_lt (by norm_num))
  have htotal := add_paidOut 0 ((BatchInvoiceExample.redemptions BatchInvoiceExample.first
    BatchInvoiceExample.second 0 burns).map fun r => r.shown 20)
  rw [Nat.zero_add] at htotal
  refine (hminted.trans htotal).trans (le_antisymm ?_ ?_)
  · refine totalAfter_le (Nat.zero_le 5) fun v hv => ?_
    obtain ⟨r, hr, rfl⟩ := List.mem_map.mp hv
    rw [hshown r hr]
    exact hle r.burn.1
  · -- the redemption of the first address
    obtain ⟨burn, hburn, hburnFirst⟩ := List.mem_map.mp hfirst
    obtain ⟨r, hr, rfl⟩ := List.mem_map.mp (hperm.mem_iff.mpr hburn)
    have hfive : r.shown 20 = 5 := by
      rw [hshown r hr, hburnFirst, BatchInvoiceExample.payments_eq]
      decide
    rw [← hfive]
    exact claim_le_totalAfter (List.mem_map_of_mem (f := fun r => r.shown 20) hr)

end Client

end Zerc20
