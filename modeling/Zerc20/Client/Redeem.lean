import Zerc20.Client.Events
import Zerc20.Client.BurnAddress

/-!
# Redemptions of the Rust client

`redeem_transfers` of `cli/src/commands/teleport.rs`: the proofs of all eligible events become one
transaction, with a Groth16 proof when there is one event and a Nova proof when there are more.
The provers are parameters; the events of a chain stand with the entry of its token, which
`find_token_by_chain` would find again.

`redeemTransfers_submits` says that a redemption of more than was teleported submits a
transaction that proves the sum of all its events.
-/

namespace Zerc20

namespace Client

open Machine HashTree Radix Indexer SortByKey Zkp

/-! ## The code -/

/-- The proofs for the public inputs and the witness of a circuit. -/
structure Provers where
  single : Bool → Fr → Fr → Fr → SingleWithdrawWitness → SingleProof
  batch : Bool → WithdrawState → List WithdrawExternalInputs → WithdrawProof

/-- A transaction to the Verifier. -/
inductive TeleportTx where
  | single (isGlobal : Bool) (rootHint : ℕ) (gr : GeneralRecipient) (proof : SingleProof)
  | batch (isGlobal : Bool) (rootHint : ℕ) (gr : GeneralRecipient) (proof : WithdrawProof)

inductive RedeemResult where
  | alreadyClaimed
  | noProofs
  | submitted (tx : TeleportTx)

/-- `eligible_total_value`, a sum of `U256`. -/
def EventsWithEligibility.eligibleTotalValue (events : EventsWithEligibility) : ℕ :=
  totalValue events.eligible % 2 ^ 256

section

variable (h : Hashes) (P : Provers)

/-- `single_teleport_proof` of an event in the aggregated tree. -/
def singleTeleportProof (recipient : Fr) (aggregationRoot : Word) (p : GlobalTeleportMerkleProof)
    (secret : Fr) : Except ClientError SingleProof := do
  require (p.globalMerkleProof.length = globalTransferTreeHeight) .siblingCount
  let value := u256ToFr p.event.value.val
  return P.single true (u256ToFr aggregationRoot.val) recipient value
    ⟨value, 0, secret, (p.globalLeafIndex : Fr), p.globalMerkleProof⟩

def redeemTransfers (order : IterationOrder) (state : AggregationTreeState)
    (separated : List (TokenIndex × EventsWithEligibility))
    (burnAddressToSecret : Address → Option Word) (gr : GeneralRecipient)
    (totalTeleported numDummySteps : ℕ) : Except ClientError RedeemResult := do
  let totalEligibleValue := (separated.map fun x => x.2.eligibleTotalValue).sum % 2 ^ 256
  if totalEligibleValue ≤ totalTeleported then return .alreadyClaimed
  else do
    let localProofs ← collectLocalProofs h state (order.separated separated)
    let globalProofs ← generateGlobalTeleportMerkleProofs h state (order.localProofs localProofs)
    match globalProofs with
    | [] => return .noProofs
    | [p] => do
      let secret ← secretFor burnAddressToSecret p.event.dst
      let proof ← singleTeleportProof P (toFr h gr) state.aggregationRoot p secret
      return .submitted (.single true state.latestAggSeq gr proof)
    | proofs => do
      let inputs ← globalInputs burnAddressToSecret proofs numDummySteps
      let proof := P.batch true ⟨u256ToFr state.aggregationRoot.val, toFr h gr, 0, 0⟩ inputs
      return .submitted (.batch true state.latestAggSeq gr proof)

end

/-! ## What a transaction proves -/

/-- The Groth16 prover: a satisfied circuit has a proof, which carries the public inputs and is
accepted. -/
def SingleComplete (h : Hashes) (d : Deciders)
    (prove : Bool → Fr → Fr → Fr → SingleWithdrawWitness → SingleProof) : Prop :=
  ∀ isGlobal root recipient value w,
    singleWithdrawCircuit h (withdrawDepth isGlobal) root recipient value w = some () →
    d.singleWithdrawVerifier isGlobal (prove isGlobal root recipient value w) = true
      ∧ ((prove isGlobal root recipient value w).pubSignals 0).val = root.val
      ∧ ((prove isGlobal root recipient value w).pubSignals 1).val = recipient.val
      ∧ ((prove isGlobal root recipient value w).pubSignals 2).val = value.val

/-- True statements are provable, and the Verifier accepts their proofs. -/
structure Provers.Complete (h : Hashes) (d : Deciders) (P : Provers) : Prop where
  single : SingleComplete h d P.single
  batch : DecidersComplete h d P.batch

namespace TeleportTx

variable (h : Hashes) (d : DeciderSets) (vs : Verifiers)

def exec (c : Chain) : TeleportTx → Except ChainError Chain
  | .single isGlobal rootHint gr proof => c.singleTeleport h d isGlobal rootHint gr proof
  | .batch isGlobal rootHint gr proof => c.teleport h d isGlobal rootHint gr proof

/-- What the Verifier reads from the proof. -/
def claim (d : Deciders) : TeleportTx → Except VerifierError Verifier.Claim
  | .single isGlobal _ _ proof => Verifier.singleTeleportClaim d isGlobal proof
  | .batch isGlobal _ _ proof => Verifier.teleportClaim d isGlobal proof

/-- The contracts `vs` take the transaction as a claim of `total` of the aggregated tree for `gr`,
and what of it was not yet teleported is minted. -/
structure Proves (gr : GeneralRecipient) (aggSeq : ℕ) (root : Fr) (total : ℕ) (tx : TeleportTx) :
    Prop where
  claims : tx.claim (d vs) = .ok ⟨true, root.val, gr.hash h, total⟩
  mints : ∀ c : Chain, c.verifier.totalTeleported (gr.hash h) < total →
    CanMint h vs c true aggSeq root gr (total - c.verifier.totalTeleported (gr.hash h)) →
    ∃ c', tx.exec h d c = .ok c'
      ∧ Minted h c c' gr (total - c.verifier.totalTeleported (gr.hash h)) total

end TeleportTx

section

variable {h : Hashes} {d : DeciderSets} {vs : Verifiers} {P : Provers} {gr : GeneralRecipient}

/-- A settled single claim is a transaction that proves the total. -/
theorem single_proves {aggSeq total : ℕ} {root : Fr} {proof : SingleProof}
    (hbound : total < 2 ^ 248)
    (hclaim : Verifier.singleTeleportClaim (d vs) true proof
      = .ok ⟨true, root.val, gr.hash h, total⟩) :
    (TeleportTx.single true aggSeq gr proof).Proves h d vs gr aggSeq root total := by
  refine ⟨hclaim, ?_⟩
  intro c hlt hcan
  obtain ⟨c', hok, hminted⟩ := finishTeleport_mints hbound (.single proof) hlt hcan
  refine ⟨c', ?_, hminted⟩
  show c.singleTeleport h d true aggSeq gr proof = .ok c'
  unfold Chain.singleTeleport
  refine bind_eq_ok.mpr ⟨(), Chain.liftVerifier_eq_ok.mpr (require_of hcan.paused), ?_⟩
  refine bind_eq_ok.mpr ⟨_, Chain.liftVerifier_eq_ok.mpr ?_, hok⟩
  rw [hcan.verifiers]
  exact hclaim

theorem batch_proves {aggSeq total : ℕ} {root : Fr} {proof : WithdrawProof}
    (hbound : total < 2 ^ 248)
    (hclaim : Verifier.teleportClaim (d vs) true proof = .ok ⟨true, root.val, gr.hash h, total⟩) :
    (TeleportTx.batch true aggSeq gr proof).Proves h d vs gr aggSeq root total := by
  refine ⟨hclaim, ?_⟩
  intro c hlt hcan
  obtain ⟨c', hok, hminted⟩ := finishTeleport_mints hbound (.batch proof) hlt hcan
  refine ⟨c', ?_, hminted⟩
  show c.teleport h d true aggSeq gr proof = .ok c'
  unfold Chain.teleport
  refine bind_eq_ok.mpr ⟨(), Chain.liftVerifier_eq_ok.mpr (require_of hcan.paused), ?_⟩
  refine bind_eq_ok.mpr ⟨_, Chain.liftVerifier_eq_ok.mpr ?_, hok⟩
  rw [hcan.verifiers]
  exact hclaim

/-- The claim of the Groth16 proof of one event. -/
theorem singleTeleportClaim_ok (hsingle : SingleComplete h (d vs) P.single) {root : Fr} {o : Opening}
    (ho : o.Checks h globalTransferTreeHeight root (toFr h gr))
    (hvalue : o.value.val < 2 ^ BYTES31_BIT_LENGTH) :
    Verifier.singleTeleportClaim (d vs) true (P.single true root (toFr h gr) o.value
        ⟨o.value, 0, o.secret, o.leafIndex, o.siblings⟩)
      = .ok ⟨true, root.val, gr.hash h, o.value.val⟩ := by
  have hsat := singleWithdrawCircuit_complete h (by decide) ho hvalue
  obtain ⟨haccepted, hroot, hrecipient, htotal⟩ := hsingle true _ _ _ _ hsat
  have hhash : (toFr h gr).val = gr.hash h := recipientFr_val h gr
  unfold Verifier.singleTeleportClaim
  simp only [haccepted, hroot, hrecipient, htotal, hhash]
  rfl

end

/-! ## Redemptions -/

section

variable {h : Hashes} {d : DeciderSets} {vs : Verifiers} {P : Provers} {gr : GeneralRecipient}
  {event : AggregationEvent} {chainIds : List ℕ} {state : AggregationTreeState} {batch : Batch}
  {burnAddressToSecret : Address → Option Word}

/-- The events of a batch, by eligibility. -/
def Batch.separated (batch : Batch) : List (TokenIndex × EventsWithEligibility) :=
  batch.map fun x => (x.1.toTokenIndex, partitionEvents x.1.treeIndex x.2)

/-- The items of a batch are worth what the eligible transfers of its chains are. -/
theorem Batch.totalValue_items :
    totalValue (batch.items.map Prod.snd)
      = (batch.map fun x => totalValue (x.1.eligible x.2)).sum := by
  induction batch with
  | nil => rfl
  | cons x batch ih =>
    have hitems : Batch.items (x :: batch)
        = (x.1.eligible x.2).map (Prod.mk x.1) ++ Batch.items batch := rfl
    have hevents : ((x.1.eligible x.2).map (Prod.mk x.1)).map Prod.snd = x.1.eligible x.2 := by
      rw [List.map_map]
      exact List.map_id _
    rw [hitems, List.map_append, hevents, List.map_cons, List.sum_cons, ← ih]
    simp only [totalValue, List.map_append, List.sum_append]

/-- Sums of `U256` below `2 ^ 248` do not wrap. -/
theorem Batch.separated_total (htotal : totalValue (batch.items.map Prod.snd) < 2 ^ 248) :
    (batch.separated.map fun x => x.2.eligibleTotalValue).sum % 2 ^ 256
      = totalValue (batch.items.map Prod.snd) := by
  have hbound : (2 : ℕ) ^ 248 < 2 ^ 256 := by decide
  rw [Batch.totalValue_items] at htotal ⊢
  have hsum : (batch.separated.map fun x => x.2.eligibleTotalValue).sum
      = (batch.map fun x => totalValue (x.1.eligible x.2)).sum := by
    rw [Batch.separated, List.map_map]
    refine congrArg List.sum (List.map_congr_left fun x hx => ?_)
    have hle : totalValue (x.1.eligible x.2)
        ≤ (batch.map fun x => totalValue (x.1.eligible x.2)).sum :=
      List.le_sum_of_mem (List.mem_map_of_mem (f := fun x => totalValue (x.1.eligible x.2)) hx)
    exact Nat.mod_eq_of_lt ((hle.trans_lt htotal).trans hbound)
  rw [hsum]
  exact Nat.mod_eq_of_lt (by omega)

/-- The proofs that `redeem_transfers` collects. -/
theorem collect_ok (order : IterationOrder) (hstate : Fetched h event chainIds state)
    (hvalid : batch.Valid h event chainIds)
    (hindex : ∀ y ∈ batch.items, globalIndex chainIds y < 2 ^ globalTransferTreeHeight) :
    ∃ localProofs, collectLocalProofs h state (order.separated batch.separated) = .ok localProofs
      ∧ generateGlobalTeleportMerkleProofs h state (order.localProofs localProofs)
        = .ok ((sortByKey (globalIndex chainIds) batch.items).map
          (globalProofOf h event chainIds)) := by
  have hproofs := redeemProofs_ok order hstate hvalid hindex
  rw [redeemProofs, separateEventsByEligibility_ok hstate hvalid, ← Batch.separated] at hproofs
  obtain ⟨separated, hseparated, hproofs⟩ := bind_eq_ok.mp hproofs
  obtain rfl := Except.ok.inj hseparated
  obtain ⟨localProofs, hlocal, hglobal⟩ := bind_eq_ok.mp hproofs
  exact ⟨localProofs, hlocal, hglobal⟩

/-- The opening of one item. -/
theorem item_checks {y : ChainView × IndexedEvent}
    (hroot : node h.poseidon2 (snapshotLeaves event.snapshot) aggregationHeight 0
      = u256ToFr event.root.val)
    (hvalid : batch.Valid h event chainIds) (hy : y ∈ batch.items)
    (hredeem : Redeemable h gr burnAddressToSecret y.2)
    (hindex : globalIndex chainIds y < 2 ^ globalTransferTreeHeight) :
    (⟨secretOf burnAddressToSecret y.2.dst, u256ToFr y.2.value.val, (globalIndex chainIds y : Fr),
        globalSiblings h event chainIds y⟩ : Opening).Checks h globalTransferTreeHeight
      (u256ToFr event.root.val) (toFr h gr) := by
  obtain ⟨hv, ha, hhas, hlt⟩ := hvalid.item hy
  exact (stepReady_of_climb (by decide) hindex (globalSiblings_length y)
    hredeem.computeBurnAddress ((climb_globalSiblings hv ha hhas hlt hindex).trans hroot)).real rfl

/-- The Groth16 proof of the only item. -/
theorem single_item_proves (hprovers : P.Complete h (d vs))
    (hroot : node h.poseidon2 (snapshotLeaves event.snapshot) aggregationHeight 0
      = u256ToFr event.root.val)
    (hvalid : batch.Valid h event chainIds) {y : ChainView × IndexedEvent}
    (hitems : batch.items = [y]) (hredeem : Redeemable h gr burnAddressToSecret y.2)
    (hindex : globalIndex chainIds y < 2 ^ globalTransferTreeHeight)
    (htotal : totalValue (batch.items.map Prod.snd) < 2 ^ 248) :
    (TeleportTx.single true event.aggSeq gr (P.single true (u256ToFr event.root.val) (toFr h gr)
        (u256ToFr y.2.value.val) ⟨u256ToFr y.2.value.val, 0, secretOf burnAddressToSecret y.2.dst,
          (globalIndex chainIds y : Fr), globalSiblings h event chainIds y⟩)).Proves h d vs gr
      event.aggSeq (u256ToFr event.root.val) (totalValue (batch.items.map Prod.snd)) := by
  have hsum : totalValue (batch.items.map Prod.snd) = y.2.value.val := by
    rw [hitems]
    simp [totalValue]
  rw [hsum] at htotal ⊢
  have hval : (u256ToFr y.2.value.val).val = y.2.value.val :=
    val_natCast_of_lt_two_pow (n := 248) (by omega) htotal
  have hy : y ∈ batch.items := by
    rw [hitems]
    exact List.mem_singleton_self y
  have hclaim := singleTeleportClaim_ok hprovers.single
    (item_checks hroot hvalid hy hredeem hindex) (by rw [hval]; exact htotal)
  rw [hval] at hclaim
  exact single_proves htotal hclaim

/-- The Nova proof of the items and some dummies. -/
theorem batch_items_proves (hprovers : P.Complete h (d vs))
    (hroot : node h.poseidon2 (snapshotLeaves event.snapshot) aggregationHeight 0
      = u256ToFr event.root.val)
    (hvalid : batch.Valid h event chainIds) (hne : batch.items ≠ [])
    (hredeem : ∀ y ∈ batch.items, Redeemable h gr burnAddressToSecret y.2)
    (htotal : totalValue (batch.items.map Prod.snd) < 2 ^ 248) {n : ℕ} (hn : 1 ≤ n)
    (hsmall : n < NUM_BATCH_INVOICES)
    (hbelow : ∀ y ∈ batch.items, globalIndex chainIds y < 2 ^ globalTransferTreeHeight - 1 - n) :
    (TeleportTx.batch true event.aggSeq gr (P.batch true
        ⟨u256ToFr event.root.val, toFr h gr, 0, 0⟩
        (realSteps h event chainIds (secretOf burnAddressToSecret) batch
          ++ dummySteps globalTransferTreeHeight n))).Proves h d vs gr
      event.aggSeq (u256ToFr event.root.val) (totalValue (batch.items.map Prod.snd)) := by
  obtain ⟨z, hrun, hstate, hrecipient, hvalue⟩ :=
    global_run hsmall hroot hvalid hredeem hbelow htotal
  exact batch_proves htotal
    (teleportClaim_ok hprovers.batch (two_le_steps hne hn) hrun hstate hrecipient hvalue)

/-- **A redemption of more than was teleported** submits a transaction that proves the sum of the
eligible events, of whatever chains. -/
theorem redeemTransfers_submits (hprovers : P.Complete h (d vs)) (order : IterationOrder)
    (hstate : Fetched h event chainIds state) (hvalid : batch.Valid h event chainIds)
    (hredeem : ∀ y ∈ batch.items, Redeemable h gr burnAddressToSecret y.2)
    (htotal : totalValue (batch.items.map Prod.snd) < 2 ^ 248) {n : ℕ} (hn : 1 ≤ n)
    (hsmall : n < NUM_BATCH_INVOICES)
    (hbelow : ∀ y ∈ batch.items, globalIndex chainIds y < 2 ^ globalTransferTreeHeight - 1 - n)
    {totalTeleported : ℕ} (hlt : totalTeleported < totalValue (batch.items.map Prod.snd)) :
    ∃ tx, redeemTransfers h P order state batch.separated burnAddressToSecret gr totalTeleported n
        = .ok (.submitted tx)
      ∧ tx.Proves h d vs gr event.aggSeq (u256ToFr event.root.val)
        (totalValue (batch.items.map Prod.snd)) := by
  have hindex : ∀ y ∈ batch.items, globalIndex chainIds y < 2 ^ globalTransferTreeHeight :=
    fun y hy => (hbelow y hy).trans_le ((Nat.sub_le _ _).trans (Nat.sub_le _ _))
  obtain ⟨localProofs, hlocal, hglobal⟩ := collect_ok order hstate hvalid hindex
  have hseq : state.latestAggSeq = event.aggSeq := by rw [hstate.state_eq]
  have hstateRoot : state.aggregationRoot = event.root := by rw [hstate.state_eq]
  have hperm : (sortByKey (globalIndex chainIds) batch.items).Perm batch.items :=
    sortByKey_perm _
  unfold redeemTransfers
  simp only [Batch.separated_total htotal, if_neg (not_le.mpr hlt), hlocal, bind, Except.bind,
    hglobal, hseq, hstateRoot]
  -- the items in the order of their index
  cases hitems : sortByKey (globalIndex chainIds) batch.items with
  | nil =>
    rw [hitems] at hperm
    rw [List.nil_perm.mp hperm] at hlt
    exact absurd hlt (Nat.not_lt_zero _)
  | cons y rest =>
    rw [hitems] at hperm
    have hy : y ∈ batch.items := hperm.subset List.mem_cons_self
    cases rest with
    | nil =>
      have hproves := single_item_proves hprovers hstate.root hvalid
        (List.singleton_perm.mp hperm).symm (hredeem y hy) (hindex y hy) htotal
      simp only [List.map_cons, List.map_nil, secretFor_ok (hredeem y hy).isSome, globalProofOf,
        singleTeleportProof, globalSiblings_length, require_of, bind, Except.bind]
      exact ⟨_, rfl, hproves⟩
    | cons y' rest =>
      have hinputs : globalInputs burnAddressToSecret
          ((sortByKey (globalIndex chainIds) batch.items).map (globalProofOf h event chainIds)) n
          = .ok _ := globalInputs_ok n fun y hy => (hredeem y hy).isSome
      rw [hitems] at hinputs
      have hproves := batch_items_proves hprovers hstate.root hvalid (List.ne_nil_of_mem hy) hredeem
        htotal hn hsmall hbelow
      simp only [List.map_cons] at hinputs ⊢
      simp only [hinputs]
      exact ⟨_, rfl, hproves⟩

end

/-! ## All payments to some burn addresses -/

/-- The transfers of the token to `x` are part of the aggregation, below the places of the dummies,
and the indexer serves and proves all of them. -/
structure Covers (h : Hashes) (event : AggregationEvent) (chainIds : List ℕ) (limit n : ℕ)
    (token : TokenView) (x : Address) : Prop where
  faithful : token.Faithful h
  aggregated : Aggregated h event chainIds token.toChainView
  eligible : ∀ e ∈ token.transfersTo x, e.eventIndex < token.treeIndex
  room : ∀ e ∈ token.transfersTo x,
    globalIndex chainIds (token.toChainView, e) < 2 ^ globalTransferTreeHeight - 1 - n
  answered : (token.transfersTo x).length ≤ min limit 1000

/-- All transfers to the burn addresses are covered, and none of their balance was moved. -/
structure Covered (h : Hashes) (event : AggregationEvent) (chainIds : List ℕ) (limit n : ℕ)
    (tokens : List TokenView) (burnAddresses : List Address) : Prop where
  chains : (tokens.map fun token => token.chainId).Nodup
  balance : ∀ token ∈ tokens, ∀ x ∈ burnAddresses,
    token.balanceOf x = totalValue (token.transfersTo x)
  covers : ∀ token ∈ tokens, ∀ x ∈ burnAddresses, token.transfersTo x ≠ [] →
    Covers h event chainIds limit n token x

/-- What was paid to the burn addresses. -/
def paidTo (tokens : List TokenView) (burnAddresses : List Address) : ℕ :=
  (tokens.map fun token => (burnAddresses.map fun x => totalValue (token.transfersTo x)).sum).sum

/-- The answers to `fetch_transfer_events`. -/
def fetchedBatch (limit : ℕ) (tokens : List TokenView) (burnAddresses : List Address) : Batch :=
  (fetchTransferEvents (some limit) tokens burnAddresses).map fun x => (x.1.toChainView, x.2)

section

variable {h : Hashes} {event : AggregationEvent} {chainIds : List ℕ} {limit n : ℕ}
  {tokens : List TokenView} {burnAddresses : List Address} {token : TokenView}

/-- The addresses that a token is asked about. -/
def funded (token : TokenView) (burnAddresses : List Address) : List Address :=
  burnAddresses.filter fun x => token.balanceOf x ≠ 0

/-- A chain of the fetched batch is one of the tokens, with a burn address that has a balance. -/
theorem mem_fetchedBatch {y : ChainView × List IndexedEvent}
    (hy : y ∈ fetchedBatch limit tokens burnAddresses) :
    ∃ token ∈ tokens, funded token burnAddresses ≠ []
      ∧ y = (token.toChainView, (funded token burnAddresses).flatMap
        fun x => token.eventsByRecipient x (some limit)) := by
  obtain ⟨⟨token, events⟩, hmem, rfl⟩ := List.mem_map.mp hy
  obtain ⟨token', htoken, heq⟩ := List.mem_filterMap.mp hmem
  dsimp only at heq
  split at heq
  · cases heq
  · rename_i hfunded
    cases heq
    exact ⟨token, htoken, hfunded, rfl⟩

theorem fetchedBatch_chains (tokens : List TokenView) (burnAddresses : List Address) :
    ((fetchedBatch limit tokens burnAddresses).map fun y => y.1.chainId).Sublist
      (tokens.map fun token => token.chainId) := by
  rw [fetchedBatch, fetchTransferEvents, List.map_map]
  induction tokens with
  | nil => exact List.Sublist.slnil
  | cons token tokens ih =>
    rw [List.filterMap_cons, List.map_cons]
    dsimp only
    split
    · exact ih.cons _
    · rename_i y heq
      split at heq
      · cases heq
      · cases heq
        exact ih.cons_cons _

/-- What the indexer answers for an address is all there is. -/
theorem Covered.eventsByRecipient (hcovered : Covered h event chainIds limit n tokens burnAddresses)
    (htoken : token ∈ tokens) {x : Address} (hx : x ∈ burnAddresses) :
    token.eventsByRecipient x (some limit) = token.transfersTo x := by
  refine ChainView.eventsByRecipient_of_le ?_
  by_cases hnil : token.transfersTo x = []
  · rw [hnil]
    exact Nat.zero_le _
  · exact (hcovered.covers token htoken x hx hnil).answered

/-- Within the limit the indexer answers with all the transfers. -/
theorem Covered.flatMap_eq (hcovered : Covered h event chainIds limit n tokens burnAddresses)
    (htoken : token ∈ tokens) :
    ((funded token burnAddresses).flatMap fun x => token.eventsByRecipient x (some limit))
      = (funded token burnAddresses).flatMap token.transfersTo :=
  List.flatMap_congr fun _ hx =>
    hcovered.eventsByRecipient htoken (List.mem_of_mem_filter hx)

/-- A fetched transfer went to one of the burn addresses. -/
theorem mem_funded_transfers {e : IndexedEvent}
    (he : e ∈ (funded token burnAddresses).flatMap token.transfersTo) :
    e.dst ∈ burnAddresses ∧ e ∈ token.transfersTo e.dst := by
  obtain ⟨x, hx, he⟩ := List.mem_flatMap.mp he
  have hdst := (ChainView.mem_transfersTo.mp he).2
  rw [hdst]
  exact ⟨List.mem_of_mem_filter hx, he⟩

/-- The aggregation covers the chain of every fetched transfer. -/
theorem Covered.covers_of_mem (hcovered : Covered h event chainIds limit n tokens burnAddresses)
    (htoken : token ∈ tokens) {e : IndexedEvent}
    (he : e ∈ (funded token burnAddresses).flatMap token.transfersTo) :
    Covers h event chainIds limit n token e.dst := by
  obtain ⟨hdst, hmem⟩ := mem_funded_transfers he
  exact hcovered.covers token htoken e.dst hdst (List.ne_nil_of_mem hmem)

/-- A token that is asked about some address has transfers to it. -/
theorem Covered.covers_of_funded (hcovered : Covered h event chainIds limit n tokens burnAddresses)
    (htoken : token ∈ tokens) (hfunded : funded token burnAddresses ≠ []) :
    ∃ x ∈ burnAddresses, Covers h event chainIds limit n token x := by
  obtain ⟨x, hx⟩ := List.exists_mem_of_ne_nil _ hfunded
  obtain ⟨hmem, hbalance⟩ := List.mem_filter.mp hx
  rw [decide_eq_true_iff, hcovered.balance token htoken x hmem] at hbalance
  refine ⟨x, hmem, hcovered.covers token htoken x hmem fun hnil => ?_⟩
  rw [hnil] at hbalance
  exact hbalance rfl

/-- One index is one transfer, so its recipient is one address. -/
theorem flatMap_transfersTo_nodup {addresses : List Address} (hnodup : addresses.Nodup) :
    ((addresses.flatMap token.transfersTo).map IndexedEvent.eventIndex).Nodup := by
  rw [List.map_flatMap, List.nodup_flatMap]
  refine ⟨fun x _ => ChainView.transfersTo_index_nodup, hnodup.imp ?_⟩
  intro x y hne
  rw [Function.onFun, List.disjoint_left]
  intro i hi hi'
  obtain ⟨e, he, rfl⟩ := List.mem_map.mp hi
  obtain ⟨e', he', heq⟩ := List.mem_map.mp hi'
  obtain ⟨⟨t, hget, -, hdst, -⟩, rfl⟩ := ChainView.mem_transfersTo.mp he
  obtain ⟨⟨t', hget', -, hdst', -⟩, rfl⟩ := ChainView.mem_transfersTo.mp he'
  rw [heq, hget] at hget'
  cases hget'
  exact hne (hdst.symm.trans hdst')

/-- An address without a balance was paid nothing. -/
theorem totalValue_funded
    (hbalance : ∀ x ∈ burnAddresses, token.balanceOf x = totalValue (token.transfersTo x)) :
    totalValue ((funded token burnAddresses).flatMap token.transfersTo)
      = (burnAddresses.map fun x => totalValue (token.transfersTo x)).sum := by
  induction burnAddresses with
  | nil => rfl
  | cons x xs ih =>
    have hrest := ih fun y hy => hbalance y (List.mem_cons_of_mem _ hy)
    have hx := hbalance x List.mem_cons_self
    rw [List.map_cons, List.sum_cons, ← hrest]
    by_cases hzero : token.balanceOf x = 0
    · rw [hzero] at hx
      rw [← hx, Nat.zero_add, funded, List.filter_cons_of_neg (by simp [hzero])]
      rfl
    · rw [funded, List.filter_cons_of_pos (by simp [hzero]), List.flatMap_cons]
      simp only [totalValue, List.map_append, List.sum_append]
      rfl

end

section

variable {h : Hashes} {event : AggregationEvent} {chainIds : List ℕ} {limit n : ℕ}
  {tokens : List TokenView} {burnAddresses : List Address}

/-- So every item is one that the aggregation covers. -/
theorem Covered.item (hcovered : Covered h event chainIds limit n tokens burnAddresses)
    {y : ChainView × IndexedEvent} (hy : y ∈ (fetchedBatch limit tokens burnAddresses).items) :
    y.2.dst ∈ burnAddresses
      ∧ globalIndex chainIds y < 2 ^ globalTransferTreeHeight - 1 - n := by
  obtain ⟨v, e⟩ := y
  obtain ⟨z, hz, hchain, hmem, -⟩ := Batch.mem_items.mp hy
  obtain ⟨token, htoken, -, rfl⟩ := mem_fetchedBatch hz
  obtain rfl : token.toChainView = v := hchain
  rw [hcovered.flatMap_eq htoken] at hmem
  obtain ⟨hdst, htransfer⟩ := mem_funded_transfers hmem
  exact ⟨hdst, (hcovered.covers_of_mem htoken hmem).room e htransfer⟩

theorem Covered.valid (hcovered : Covered h event chainIds limit n tokens burnAddresses)
    (hnodup : burnAddresses.Nodup) :
    (fetchedBatch limit tokens burnAddresses).Valid h event chainIds where
  faithful y hy := by
    obtain ⟨token, htoken, hfunded, rfl⟩ := mem_fetchedBatch hy
    obtain ⟨x, -, hcovers⟩ := hcovered.covers_of_funded htoken hfunded
    exact hcovers.faithful
  aggregated y hy := by
    obtain ⟨token, htoken, hfunded, rfl⟩ := mem_fetchedBatch hy
    obtain ⟨x, -, hcovers⟩ := hcovered.covers_of_funded htoken hfunded
    exact hcovers.aggregated
  has y hy e he := by
    obtain ⟨token, htoken, -, rfl⟩ := mem_fetchedBatch hy
    rw [hcovered.flatMap_eq htoken] at he
    exact (ChainView.mem_transfersTo.mp (mem_funded_transfers he).2).1
  chains := hcovered.chains.sublist (fetchedBatch_chains tokens burnAddresses)
  distinct y hy := by
    obtain ⟨token, htoken, -, rfl⟩ := mem_fetchedBatch hy
    rw [hcovered.flatMap_eq htoken]
    exact flatMap_transfersTo_nodup (hnodup.filter _)

theorem fetchedBatch_cons (token : TokenView) :
    fetchedBatch limit (token :: tokens) burnAddresses
      = (if funded token burnAddresses = [] then []
        else [(token.toChainView, (funded token burnAddresses).flatMap
          fun x => token.eventsByRecipient x (some limit))])
        ++ fetchedBatch limit tokens burnAddresses := by
  rw [fetchedBatch, fetchTransferEvents, List.filterMap_cons]
  dsimp only
  rw [← funded]
  -- a token without funded addresses has no entry
  split
  · rename_i hnone
    split at hnone
    · rename_i hnil
      rw [if_pos hnil]
      rfl
    · cases hnone
  · rename_i y hsome
    split at hsome
    · cases hsome
    · rename_i hne
      cases hsome
      rw [if_neg hne]
      rfl

/-- All transfers are eligible. -/
theorem Covered.eligible_eq (hcovered : Covered h event chainIds limit n tokens burnAddresses)
    {token : TokenView} (htoken : token ∈ tokens) :
    token.eligible ((funded token burnAddresses).flatMap
        fun x => token.eventsByRecipient x (some limit))
      = (funded token burnAddresses).flatMap token.transfersTo := by
  rw [hcovered.flatMap_eq htoken]
  show List.filter _ _ = _
  rw [List.filter_eq_self]
  intro e he
  exact decide_eq_true ((hcovered.covers_of_mem htoken he).eligible e (mem_funded_transfers he).2)

/-- What was paid is what the batch adds up to. -/
theorem Covered.total (hcovered : Covered h event chainIds limit n tokens burnAddresses) :
    totalValue ((fetchedBatch limit tokens burnAddresses).items.map Prod.snd)
      = paidTo tokens burnAddresses := by
  rw [Batch.totalValue_items, paidTo]
  -- on the tokens, of which any part is covered as well
  suffices hsub : ∀ tokens' ⊆ tokens,
      ((fetchedBatch limit tokens' burnAddresses).map fun x => totalValue (x.1.eligible x.2)).sum
        = (tokens'.map fun token =>
          (burnAddresses.map fun x => totalValue (token.transfersTo x)).sum).sum from
    hsub tokens (List.Subset.refl _)
  intro tokens' hsub
  induction tokens' with
  | nil => rfl
  | cons token tokens' ih =>
    have htoken := hsub List.mem_cons_self
    have hvalue := totalValue_funded (hcovered.balance token htoken)
    rw [fetchedBatch_cons, List.map_append, List.sum_append, List.map_cons, List.sum_cons,
      ih fun t ht => hsub (List.mem_cons_of_mem _ ht), ← hvalue]
    congr 1
    split
    · rename_i hnil
      rw [hnil]
      rfl
    · rw [List.map_singleton, List.sum_singleton, hcovered.eligible_eq htoken]

/-- Redeeming all that was paid to burn addresses of one recipient. -/
theorem Covered.redeems {d : DeciderSets} {vs : Verifiers} {P : Provers}
    {state : AggregationTreeState}
    (hcovered : Covered h event chainIds limit n tokens burnAddresses) (gr : GeneralRecipient)
    (burnAddressToSecret : Address → Option Word) (hprovers : P.Complete h (d vs))
    (order : IterationOrder) (hstate : Fetched h event chainIds state) (hnodup : burnAddresses.Nodup)
    (hsecret : ∀ x ∈ burnAddresses, ∃ secret, burnAddressToSecret x = some secret
      ∧ computeBurnAddressFromSecret h (toFr h gr) (u256ToFr secret.val) = .ok (addressToFr x))
    (hbound : paidTo tokens burnAddresses < 2 ^ 248) (hn : 1 ≤ n) (hsmall : n < NUM_BATCH_INVOICES)
    {totalTeleported : ℕ} (hlt : totalTeleported < paidTo tokens burnAddresses) :
    ∃ tx, redeemTransfers h P order state (fetchedBatch limit tokens burnAddresses).separated
        burnAddressToSecret gr totalTeleported n = .ok (.submitted tx)
      ∧ tx.Proves h d vs gr event.aggSeq (u256ToFr event.root.val)
        (paidTo tokens burnAddresses) := by
  have htotal := hcovered.total
  rw [← htotal] at hbound hlt ⊢
  exact redeemTransfers_submits hprovers order hstate (hcovered.valid hnodup)
    (fun y hy => hsecret _ (hcovered.item hy).1) hbound hn hsmall
    (fun y hy => (hcovered.item hy).2) hlt

end

end Client

end Zerc20
