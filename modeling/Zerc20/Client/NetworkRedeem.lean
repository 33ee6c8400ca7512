import Zerc20.Client.Receive
import Zerc20.Client.Registrations
import Zerc20.Contracts.NetworkTeleports

/-!
# Redeeming on the network

`Covered.redeems` takes the aggregation event, the roots in it and the root on the recipient's chain
as given. Here they are those of the Hub and the Verifiers after a run: what the Hub logged last
reached the recipient's chain, the indexers serve the histories of the chains, and the rest follows.

* `World.LogInv` — the Hub logs the broadcasts that it assigned.
* `Mirrors.aggregated` — a chain that is served is part of the aggregation.
* `fetch_stored` — the clients accept the event of a stored root.
-/

namespace Zerc20

open Machine HashTree Zkp

/-! ## The log of the Hub -/

/-- A broadcast that the Hub logs was assigned its sequence number. -/
def World.LogInv (w : World) : Prop :=
  ∀ ctx, .aggregationRootUpdated ctx ∈ w.hub.log → ∃ a ∈ w.assigned, a.ctx = ctx

variable {h : Hashes} {d : ℕ → DeciderSets} {D : Deployment} {s s' : NetState} {w : World}

/-- A step that logs no root keeps the invariant. -/
theorem World.LogInv.of_log {w' : World} (hw : w.LogInv) (hext : Extends w w')
    (hlog : ∀ ctx, .aggregationRootUpdated ctx ∈ w'.hub.log →
      .aggregationRootUpdated ctx ∈ w.hub.log) : w'.LogInv := by
  intro ctx hmem
  obtain ⟨a, ha, hctx⟩ := hw ctx (hlog ctx hmem)
  exact ⟨a, hext.assigned a ha, hctx⟩

/-- The root that a broadcast logs was assigned when it started. -/
theorem Move.logInv {a : NetAction} (hs : s.Inv h D) (hmove : Move h D s a s') (ha : a ≠ .revert)
    (hw : s.world.LogInv) : s'.world.LogInv := by
  obtain ⟨hext, -⟩ := hmove.keeps ha
  have hsame : s'.world.hub.log = s.world.hub.log → s'.world.LogInv := fun hlog =>
    hw.of_log hext fun _ hmem => hlog ▸ hmem
  -- every action but the end of a broadcast logs some other event, or none
  have hother : ∀ e : HubEvent, (∀ ctx, .aggregationRootUpdated ctx ≠ e) →
      s'.world.hub.log = s.world.hub.log ++ [e] → s'.world.LogInv := by
    intro e he hlog
    refine hw.of_log hext fun ctx hmem => ?_
    rw [hlog, List.mem_append, List.mem_singleton] at hmem
    exact hmem.resolve_right (he ctx)
  cases hmove with
  | quiet a w hhub => exact hsame hhub.log
  | register sender info u hok =>
    obtain ⟨-, -, rfl⟩ := Hub.registerToken_eq_ok hok
    exact hother _ (fun _ heq => by cases heq) rfl
  | update sender info u hok =>
    obtain ⟨-, rfl⟩ := Hub.updateToken_eq_ok hok
    exact hother _ (fun _ heq => by cases heq) rfl
  | receive m u hhub hsent hok =>
    obtain ⟨-, -, -, ⟨-, rfl⟩ | ⟨-, rfl⟩⟩ := Hub.lzReceive_eq_ok hok
    · exact hsame rfl
    · exact hother _ (fun _ heq => by cases heq) rfl
  | openBroadcast value targetEids quote u ctx fees refund hok =>
    obtain ⟨-, -, -, -, rfl⟩ := Hub.broadcastStart_eq_ok hok
    exact hsame rfl
  | openRelay => exact hsame rfl
  | hubSend f fs ctx eid fee sends refund w hframes hcont hok =>
    exact hsame (World.hubSend_eq_ok hok).1.log
  | verifierSend f fs eid root index value w hframes hcont hok =>
    exact hsame (congrArg Hub.log (World.verifierSend_eq_ok hok).1)
  | refund => exact hsame rfl
  | finishBroadcast f fs ctx hframes hcont =>
    -- an open broadcast was assigned
    intro ctx' hmem
    rcases List.mem_append.mp (show _ ∈ s.world.hub.log ++ [.aggregationRootUpdated ctx] from hmem)
      with hold | hnew
    · exact hw ctx' hold
    · cases List.mem_singleton.mp hnew
      rw [NetState.Inv, hframes] at hs
      have hentitled : Entitled s.world f.cont := hs.2.1
      rw [hcont] at hentitled
      exact hentitled
  | finishRelay f fs eid root index value w hframes hcont hhub =>
    exact hsame (congrArg Hub.log hhub)
  | revert => exact absurd rfl ha

/-- So every logged root of a run was assigned. -/
theorem NetState.run_logInv (acts : List NetAction) :
    (run (NetState.step h d D) (D.initial h) acts).world.LogInv := by
  refine (run_allWorlds (I := World.LogInv) (C := fun _ _ => True) initial_inv
    (initial_allWorlds fun _ hmem => absurd hmem List.not_mem_nil) ?_
    (Along.of_forall fun _ _ => trivial)).2.1
  intro t a t' ht _ hw _ hok ha
  exact (exec_move ht hok).logInv ht ha hw

/-! ## What the clients read -/

theorem World.GenuineInv.snapshot_lt (hw : w.GenuineInv h) {a : Assignment}
    (hrec : Recorded h w a) : ∀ root ∈ a.ctx.snapshot, root < 2 ^ 256 := by
  intro root hmem
  obtain ⟨j, hj⟩ := List.mem_iff_getElem?.mp hmem
  obtain ⟨eid, index, -, -, hproved⟩ := hrec.stored j root hj
  by_cases hzero : root = 0
  · rw [hzero]
    exact Nat.two_pow_pos 256
  · have heq := hproved.resolve_left hzero
    obtain ⟨-, -, hvalue⟩ := (hw.roots eid).2.proved index (by rw [heq]; exact hzero)
    rw [← heq, hvalue]
    exact val_lt_two_pow_256 _

namespace Client

open Indexer

/-- The leaves of the event are those of the broadcast. -/
theorem snapshotLeaves_eventOf (hw : w.GenuineInv h) {a : Assignment} (hrec : Recorded h w a) :
    snapshotLeaves (eventOf a.ctx).snapshot = leavesOf 0 (a.ctx.snapshot.map u256ToFr) := by
  rw [snapshotLeaves, eventOf, List.map_map]
  congr 1
  refine List.map_congr_left fun root hroot => ?_
  show u256ToFr (toWord root).val = u256ToFr root
  rw [toWord_val (hw.snapshot_lt hrec root hroot)]

/-- The clients accept the event of a root that some Verifier stores. -/
theorem fetch_stored (hw : w.GenuineInv h) (hinv : NetInv h D w) {a : Assignment}
    (ha : a ∈ w.assigned) {dst : ℕ}
    (hstored : (w.chains dst).verifier.globalTransferRoots a.ctx.nextAggSeq ≠ 0)
    (chainIds : List ℕ) :
    (w.chains dst).verifier.globalTransferRoots a.ctx.nextAggSeq
        = (u256ToFr (eventOf a.ctx).root.val).val
      ∧ ∃ state, fetchAggregationTreeState h
        (toWord ((w.chains dst).verifier.globalTransferRoots a.ctx.nextAggSeq)) (eventOf a.ctx)
        chainIds = .ok state := by
  have hrec := hinv.assigned a ha
  obtain ⟨b, hb, hseq, heq⟩ := hinv.globals dst _ hstored
  rw [List.inj_on_of_nodup_map hinv.unique hb ha hseq] at heq
  have hroot : a.ctx.aggregationRoot = (node h.poseidon2
      (leavesOf 0 (a.ctx.snapshot.map u256ToFr)) aggregationHeight 0).val :=
    hrec.root.trans (computeAggregationRoot_eq (hw.snapshot_le hrec))
  have hword : (eventOf a.ctx).root.val = a.ctx.aggregationRoot := by
    rw [eventOf, hroot]
    exact toWord_val (val_lt_two_pow_256 _)
  have hfield : u256ToFr (eventOf a.ctx).root.val
      = node h.poseidon2 (leavesOf 0 (a.ctx.snapshot.map u256ToFr)) aggregationHeight 0 := by
    rw [hword, hroot, u256ToFr, ZMod.natCast_zmod_val]
  -- the root is compared with the stored one, then with that of the tree of the snapshot
  refine ⟨by rw [heq, hfield, hroot], _, bind_eq_ok.mpr ⟨(), require_of ?_,
    bind_eq_ok.mpr ⟨(), require_of ?_, rfl⟩⟩⟩
  · rw [heq]
    rfl
  · rw [(aggregationTree_holds _).getRoot, snapshotLeaves_eventOf hw hrec, hfield]

/-- The served chain is the one behind the first slot with its chain id: its transfers are the first
ones there, and its tree is that of the leaf in the broadcast with the number `seq`. -/
def Mirrors (w : World) (seq : ℕ) (v : ChainView) : Prop :=
  ∃ j eid, chainPosition w.hub.chainIds v.chainId = .ok j ∧ w.registry.chainAt j = some eid
    ∧ v.transfers <+: (w.chains eid).token.events ∧ w.histories seq j = some v.treeIndex

/-- **A chain that is served is part of the aggregation.** -/
theorem Mirrors.aggregated {v : ChainView} {a : Assignment} (hw : w.GenuineInv h)
    (hinv : NetInv h D w) (ha : a ∈ w.assigned) (hv : Mirrors w a.ctx.nextAggSeq v)
    (htree : v.treeIndex ≤ v.transfers.length) :
    Aggregated h (eventOf a.ctx) w.hub.chainIds v := by
  obtain ⟨j, eid, hposition, hchain, hpre, hlength⟩ := hv
  have hrec := hinv.assigned a ha
  have hplace : place w.hub.chainIds v = j :=
    (List.findIdx?_eq_some_iff_findIdx_eq.mp
      (findIdx_eq_some.mpr (chainPosition_eq_ok.mp hposition))).2
  rw [World.histories_eq hinv.unique ha] at hlength
  obtain ⟨root, hroot, hindex⟩ := Option.bind_eq_some_iff.mp hlength
  split at hindex
  · cases hindex
  · rename_i hne
    obtain ⟨eid', index, heid, hindex', hproved⟩ := hrec.stored j root hroot
    rw [World.registry, Registry.ofEids_chainAt hw.placed.eids_nodup, hrec.slot heid,
      Option.some.injEq] at hchain
    rw [hindex', Option.some.injEq] at hindex
    subst hchain hindex
    -- the leaf is the root of the transfers that are served
    have heq := hproved.resolve_left hne
    obtain ⟨-, -, hvalue⟩ := (hw.roots eid').2.proved v.treeIndex (by rw [heq]; exact hne)
    have htake : (w.chains eid').token.events.take v.treeIndex = v.transfers.take v.treeIndex := by
      obtain ⟨rest, hrest⟩ := hpre
      rw [← hrest, List.take_append_of_le_length htree]
    refine ⟨exists_chainPosition.mp ⟨j, hposition⟩, ?_, ?_⟩
    · rw [hplace]
      exact hindex'
    · rw [hplace, eventOf, List.getElem?_map, hroot, Option.map_some, Option.map_some,
        toWord_val (hw.snapshot_lt hrec root (List.mem_of_getElem? hroot)), ChainView.root,
        ← htake, ← hvalue, heq]

/-! ## The transaction -/

/-- The transaction as a call of the recipient's chain. -/
def TeleportTx.action : TeleportTx → ChainAction
  | .single isGlobal rootHint gr proof =>
    .singleTeleport isGlobal (Fin.ofNat (2 ^ 64) rootHint) gr proof
  | .batch isGlobal rootHint gr proof => .teleport isGlobal (Fin.ofNat (2 ^ 64) rootHint) gr proof

def TeleportTx.rootHint : TeleportTx → ℕ
  | .single _ rootHint _ _ | .batch _ rootHint _ _ => rootHint

/-- Sending the transaction is the action of the chain. -/
theorem TeleportTx.exec_action {tx : TeleportTx} (hlt : tx.rootHint < 2 ^ 64) (d : DeciderSets)
    (c : Chain) : c.exec h d tx.action = tx.exec h d c := by
  have hval : (Fin.ofNat (2 ^ 64) tx.rootHint).val = tx.rootHint := Nat.mod_eq_of_lt hlt
  cases tx with
  | single isGlobal rootHint gr proof =>
    show c.singleTeleport h d isGlobal (Fin.ofNat (2 ^ 64) rootHint).val gr proof = _
    rw [show (Fin.ofNat (2 ^ 64) rootHint).val = rootHint from hval]
    rfl
  | batch isGlobal rootHint gr proof =>
    show c.teleport h d isGlobal (Fin.ofNat (2 ^ 64) rootHint).val gr proof = _
    rw [show (Fin.ofNat (2 ^ 64) rootHint).val = rootHint from hval]
    rfl

/-- A redemption submits the sequence number of the state that it was given. -/
theorem redeemTransfers_rootHint {P : Provers} {order : IterationOrder}
    {state : AggregationTreeState} {separated : List (TokenIndex × EventsWithEligibility)}
    {burnAddressToSecret : Address → Option Word} {gr : GeneralRecipient}
    {totalTeleported numDummySteps : ℕ} {tx : TeleportTx}
    (hok : redeemTransfers h P order state separated burnAddressToSecret gr totalTeleported
      numDummySteps = .ok (.submitted tx)) : tx.rootHint = state.latestAggSeq := by
  unfold redeemTransfers at hok
  dsimp only at hok
  split at hok
  · cases hok
  · obtain ⟨localProofs, -, hok⟩ := bind_eq_ok.mp hok
    obtain ⟨globalProofs, -, hok⟩ := bind_eq_ok.mp hok
    -- by the number of proofs: none, one, more
    split at hok
    · cases hok
    · obtain ⟨secret, -, hok⟩ := bind_eq_ok.mp hok
      obtain ⟨proof, -, hok⟩ := bind_eq_ok.mp hok
      cases hok
      rfl
    · obtain ⟨inputs, -, hok⟩ := bind_eq_ok.mp hok
      cases hok
      rfl

/-- What the Verifier and the token refuse a teleport of `amount` for, besides its proof. -/
structure CanReceive (c : Chain) (gr : GeneralRecipient) (amount : ℕ) : Prop where
  paused : c.verifier.paused = false
  chainId : gr.chainId.val = uint64 c.chainId
  verifier : c.verifierAddr = c.token.verifier
  dst_ne : Verifier.recipientAddr gr ≠ 0
  supply : c.token.totalSupply + amount ≤ uint256Max
  index : c.token.index < uint256Max

/-- The transfers of the token to `x` are in the broadcast with the number `seq`, below the places of
the dummies, and the indexer serves and proves all of them. -/
structure Serves (h : Hashes) (w : World) (seq limit n : ℕ) (token : TokenView) (x : Address) :
    Prop where
  faithful : token.Faithful h
  mirrors : Mirrors w seq token.toChainView
  eligible : ∀ e ∈ token.transfersTo x, e.eventIndex < token.treeIndex
  room : ∀ e ∈ token.transfersTo x,
    globalIndex w.hub.chainIds (token.toChainView, e) < 2 ^ globalTransferTreeHeight - 1 - n
  answered : (token.transfersTo x).length ≤ min limit 1000

/-- All transfers to the burn addresses are served, and none of their balance was moved. -/
structure Served (h : Hashes) (w : World) (seq limit n : ℕ) (tokens : List TokenView)
    (burnAddresses : List Address) : Prop where
  chains : (tokens.map fun token => token.chainId).Nodup
  balance : ∀ token ∈ tokens, ∀ x ∈ burnAddresses,
    token.balanceOf x = totalValue (token.transfersTo x)
  serves : ∀ token ∈ tokens, ∀ x ∈ burnAddresses, token.transfersTo x ≠ [] →
    Serves h w seq limit n token x

/-- What the network serves is what the receiver has to find: the recorded aggregation, and tokens
whose roots are in it. -/
theorem Served.covered {limit n : ℕ} {tokens : List TokenView} {burnAddresses : List Address}
    {a : Assignment} (hw : w.GenuineInv h) (hinv : NetInv h D w) (ha : a ∈ w.assigned)
    (hserved : Served h w a.ctx.nextAggSeq limit n tokens burnAddresses) :
    Covered h (eventOf a.ctx) w.hub.chainIds limit n tokens burnAddresses where
  chains := hserved.chains
  balance := hserved.balance
  covers token htoken x hx hne := by
    obtain ⟨hfaithful, hmirrors, heligible, hroom, hanswered⟩ := hserved.serves token htoken x hx hne
    exact ⟨hfaithful, hmirrors.aggregated hw hinv ha hfaithful.treeIndex_le, heligible, hroom,
      hanswered⟩

/-- The events that the client fetches are separated as they were aggregated. -/
theorem Covered.separated_ok {event : AggregationEvent} {chainIds : List ℕ} {limit n : ℕ}
    {tokens : List TokenView} {burnAddresses : List Address} {state : AggregationTreeState}
    (hcovered : Covered h event chainIds limit n tokens burnAddresses) (hnodup : burnAddresses.Nodup)
    (hstate : Fetched h event chainIds state) :
    separateEventsByEligibility state
        ((fetchTransferEvents (some limit) tokens burnAddresses).map fun y => (y.1.toTokenIndex, y.2))
      = .ok (fetchedBatch limit tokens burnAddresses).separated := by
  have hok := separateEventsByEligibility_ok hstate (hcovered.valid hnodup)
  rw [Batch.served, fetchedBatch, List.map_map] at hok
  exact hok

end Client

open Client Indexer

/-- **What was burned can be redeemed.** The Hub has logged a broadcast whose root the Verifier
behind `dst` has stored, and the indexers serve the transfers that it aggregated. Then a client
that asks for all that was paid to some burn addresses of one recipient fetches the aggregation,
submits one transaction, and the network takes it: what was paid, less what was teleported before, is
minted to the recipient, unless the run exhibits a collision. -/
theorem network_burns_redeem (h : Hashes) (d : ℕ → DeciderSets)
    (V : RootProof → List RootExternalInputs)
    (hV : ∀ eid vs p, (d eid vs).rootDecider p = true → p.Satisfied h (V p))
    (hinit : INITIAL_TRANSFER_ROOT = (transferRoot h []).val) (D : Deployment)
    (acts : List NetAction)
    (hfew : Along (NetState.step h d D) (fun s _ => ∀ eid, s.FewEvents eid) (D.initial h) acts)
    (s : NetState) (hreach : run (NetState.step h d D) (D.initial h) acts = s)
    (dst seq : ℕ)
    (hstored : (s.world.chains dst).verifier.globalTransferRoots seq ≠ 0)
    (ctx : BroadcastContext) (hlogged : .aggregationRootUpdated ctx ∈ s.world.hub.log)
    (hctx : ctx.nextAggSeq = seq) (P : Provers)
    (hprovers : P.Complete h (d dst (s.world.chains dst).verifier.verifiers))
    (order : IterationOrder) (limit n : ℕ) (hn : 1 ≤ n) (hsmall : n < NUM_BATCH_INVOICES)
    (tokens : List TokenView) (burnAddresses : List Address) (hnodup : burnAddresses.Nodup)
    (hserved : Client.Served h s.world seq limit n tokens burnAddresses) (gr : GeneralRecipient)
    (burnAddressToSecret : Address → Option Word)
    (hsecret : ∀ x ∈ burnAddresses, ∃ secret, burnAddressToSecret x = some secret
      ∧ computeBurnAddressFromSecret h (toFr h gr) (u256ToFr secret.val) = .ok (addressToFr x))
    (paid : ℕ) (hpaid : paidTo tokens burnAddresses = paid) (hbound : paid < 2 ^ 248)
    (total : ℕ) (htotal : (s.world.chains dst).verifier.totalTeleported (gr.hash h) = total)
    (hlt : total < paid) (hcan : CanReceive (s.world.chains dst) gr (paid - total)) :
    (∃ state separated tx s',
      fetchAggregationTreeState h
          (toWord ((s.world.chains dst).verifier.globalTransferRoots seq)) (eventOf ctx)
          s.world.hub.chainIds = .ok state
        ∧ separateEventsByEligibility state ((fetchTransferEvents (some limit) tokens
          burnAddresses).map fun y => (y.1.toTokenIndex, y.2)) = .ok separated
        ∧ redeemTransfers h P order state separated burnAddressToSecret gr total n
          = .ok (.submitted tx)
        ∧ s.exec h d D (.chain dst tx.action) = .ok s'
        ∧ Minted h (s.world.chains dst) (s'.world.chains dst) gr (paid - total) paid)
      ∨ Collision (Function.uncurry h.poseidon2)
        (gathered (NetState.step h d D) (rootInputs h d V) (D.initial h) acts)
      ∨ Collision (hashChainOf h)
        (gathered (NetState.step h d D) (rootChainInputs h d V) (D.initial h) acts) := by
  rw [or_iff_not_imp_right, not_or]
  rintro ⟨hP, hC⟩
  obtain ⟨hs, hw⟩ := NetState.run_genuineInv hV hinit hfew hP hC
  have hlog := NetState.run_logInv (h := h) (d := d) (D := D) acts
  rw [hreach] at hs hw hlog
  have hinv : NetInv h D s.world := Frames.Valid.inv hs
  obtain ⟨a, ha, rfl⟩ := hlog ctx hlogged
  rw [← hctx] at hstored hserved ⊢
  -- the client
  obtain ⟨hroot, state, hstate⟩ := fetch_stored hw hinv ha hstored s.world.hub.chainIds
  obtain ⟨-, hfetched⟩ := fetchAggregationTreeState_eq_ok hstate
  have hcovered := hserved.covered hw hinv ha
  have hseparated := hcovered.separated_ok hnodup hfetched
  rw [← hpaid] at hbound hlt hcan ⊢
  obtain ⟨tx, hsubmitted, hproves⟩ := hcovered.redeems gr burnAddressToSecret hprovers order
    hfetched hnodup hsecret hbound hn hsmall hlt
  -- the contract
  have hne : u256ToFr (eventOf a.ctx).root.val ≠ 0 := by
    intro hzero
    rw [hroot, hzero, ZMod.val_zero] at hstored
    exact hstored rfl
  obtain ⟨c, hc, hminted⟩ := hproves.mints (s.world.chains dst) (by rw [htotal]; exact hlt)
    ⟨rfl, hcan.paused, by rw [if_pos rfl]; exact hroot, hne, hcan.chainId, hcan.verifier, hcan.dst_ne,
      by rw [htotal]; exact hcan.supply, hcan.index⟩
  rw [htotal] at hminted
  have hhint : tx.rootHint < 2 ^ 64 := by
    rw [redeemTransfers_rootHint hsubmitted, hfetched.state_eq]
    exact (hinv.assigned a ha).seq_lt
  have hexec : s.exec h d D (.chain dst tx.action)
      = .ok ⟨{ s.world with chains := Function.update s.world.chains dst c }, s.frames⟩ := by
    refine bind_eq_ok.mpr ⟨(), require_of ?_, bind_eq_ok.mpr ⟨_, bind_eq_ok.mpr ⟨c,
      liftChain_eq_ok.mpr ?_, rfl⟩, rfl⟩⟩
    · cases tx <;> trivial
    · rw [TeleportTx.exec_action hhint]
      exact hc
  refine ⟨state, _, tx, _, hstate, hseparated, hsubmitted, hexec, ?_⟩
  show Minted h _ (Function.update s.world.chains dst c dst) gr _ _
  rw [Function.update_self]
  exact hminted

/-! ### A burn, redeemed from the aggregation -/

namespace NetworkRedeemExample

def deciders : DeciderSets := fun _ =>
  ⟨fun p => decide (p = BurnExample.rootProof), fun _ _ => true, fun _ _ => true⟩

/-- The deposit to the burn address reaches the aggregation. -/
def acts : List NetAction := GlobalBurnExample.acts.take 15

def after : NetState :=
  run (NetState.step realHashes (fun _ => deciders) RefundExample.deployment)
    (RefundExample.deployment.initial realHashes) acts

def transfers : List Transfer := [⟨0, BurnExample.burnAt, 5⟩]

def ctx : BroadcastContext := ⟨[BurnExample.root], [1], GlobalBurnExample.root, 1⟩

def token : TokenView where
  chainId := 1
  cfg := BatchExample.cfg
  db := run (appendStep realHashes BatchExample.cfg) TreeDb.initial (transfers.map entryOf)
  transfers := transfers
  treeIndex := 1
  balanceOf dst := if dst = BurnExample.burnAt then 5 else 0

def payment : Client.IndexedEvent := ⟨0, 0, BurnExample.burnAt, 5⟩

/-- The deciders of the example accept its own root proof. -/
theorem deciders_sound (vs : Verifiers) (p : RootProof)
    (hp : (deciders vs).rootDecider p = true) :
    p.Satisfied realHashes GlobalBurnExample.rootWitness := by
  rw [of_decide_eq_true hp]
  exact GlobalBurnExample.rootProof_satisfied

/-- Its provers make what the deciders in force take. -/
theorem provers_complete : ReceiveExample.provers.Complete realHashes
    (deciders (after.world.chains 5).verifier.verifiers) where
  single _ _ _ _ _ _ := ⟨rfl, rfl, rfl, rfl⟩
  batch := BatchExample.decidersComplete

/-- The token of the example has one payment to the burn address. -/
theorem transfersTo_token : token.transfersTo BurnExample.burnAt = [payment] := by
  decide

theorem faithful : token.Faithful realHashes where
  height := rfl
  tree := by
    have hrun : Represents realHashes BatchExample.cfg
        (run (appendStep realHashes BatchExample.cfg) TreeDb.initial (transfers.map entryOf))
        (appendedEntries (transfers.map entryOf)) := run_represents _ (by decide)
    have hall : appendedEntries (transfers.map entryOf) = transfers.map entryOf :=
      List.take_of_length_le (show 1 ≤ i64Max by decide)
    rw [hall] at hrun
    dsimp only [token]
    exact hrun
  capacity := by decide
  treeIndex_le := by decide
  window := by decide

/-- The broadcast arrived, and is logged. -/
theorem after_broadcast : (after.world.chains 5).verifier.globalTransferRoots 1 ≠ 0
    ∧ .aggregationRootUpdated ctx ∈ after.world.hub.log := by
  decide +kernel

/-- The slot of the token, and what is recorded there. -/
theorem after_slot : after.world.hub.chainIds = [1] ∧ after.world.hub.eids = [5]
    ∧ after.world.histories 1 0 = some 1
    ∧ (after.world.chains 5).token.events = transfers := by
  decide +kernel

theorem mirrors : Mirrors after.world 1 token.toChainView := by
  obtain ⟨hchainIds, heids, hlength, hevents⟩ := after_slot
  refine ⟨0, 5, ?_, ?_, ?_, hlength⟩
  · rw [hchainIds]
    rfl
  · rw [World.registry, heids]
    rfl
  · rw [hevents]
    exact List.prefix_refl _

theorem served : Client.Served realHashes after.world 1 20 1 [token] [BurnExample.burnAt] where
  chains := List.nodup_singleton _
  balance t ht x hx := by
    obtain rfl := List.mem_singleton.mp ht
    obtain rfl := List.mem_singleton.mp hx
    rw [transfersTo_token]
    rfl
  serves t ht x hx _ := by
    obtain rfl := List.mem_singleton.mp ht
    obtain rfl := List.mem_singleton.mp hx
    refine ⟨faithful, mirrors, ?_, ?_, ?_⟩
    · rw [transfersTo_token]
      intro e he
      rw [List.mem_singleton.mp he]
      exact Nat.one_pos
    · rw [transfersTo_token, after_slot.1]
      intro e he
      rw [List.mem_singleton.mp he]
      decide
    · rw [transfersTo_token]
      decide

/-- Its recipient can receive the payment. -/
theorem canReceive : CanReceive (after.world.chains 5) BurnExample.recipient 5 where
  paused := by decide +kernel
  chainId := by decide +kernel
  verifier := by decide +kernel
  dst_ne := by decide
  supply := by decide +kernel
  index := by decide +kernel

end NetworkRedeemExample

open NetworkRedeemExample in
/-- In the example the payment on one chain is redeemed on another. -/
theorem network_burns_redeem_burn :
    (∃ state separated tx s',
      fetchAggregationTreeState realHashes
          (toWord ((after.world.chains 5).verifier.globalTransferRoots 1)) (eventOf ctx)
          after.world.hub.chainIds = .ok state
        ∧ separateEventsByEligibility state ((fetchTransferEvents (some 20) [token]
          [BurnExample.burnAt]).map fun y => (y.1.toTokenIndex, y.2)) = .ok separated
        ∧ redeemTransfers realHashes ReceiveExample.provers BatchExample.order state separated
          BatchExample.secrets BurnExample.recipient 0 1 = .ok (.submitted tx)
        ∧ after.exec realHashes (fun _ => deciders) RefundExample.deployment (.chain 5 tx.action)
          = .ok s'
        ∧ Minted realHashes (after.world.chains 5) (s'.world.chains 5) BurnExample.recipient 5 5)
      ∨ Collision (Function.uncurry realHashes.poseidon2)
        (gathered (NetState.step realHashes (fun _ => deciders) RefundExample.deployment)
          (rootInputs realHashes (fun _ => deciders) fun _ => GlobalBurnExample.rootWitness)
          (RefundExample.deployment.initial realHashes) acts)
      ∨ Collision (hashChainOf realHashes)
        (gathered (NetState.step realHashes (fun _ => deciders) RefundExample.deployment)
          (rootChainInputs realHashes (fun _ => deciders) fun _ => GlobalBurnExample.rootWitness)
          (RefundExample.deployment.initial realHashes) acts) := by
  obtain ⟨hstored, hlogged⟩ := after_broadcast
  have htotal : (after.world.chains 5).verifier.totalTeleported
      (BurnExample.recipient.hash realHashes) = 0 := by
    decide +kernel
  refine network_burns_redeem realHashes (fun _ => deciders)
    (fun _ => GlobalBurnExample.rootWitness) (fun _ => deciders_sound) transferRoot_empty.symm
    RefundExample.deployment acts (NetState.fewEvents_along (by decide)) after rfl 5 1 hstored ctx
    hlogged rfl ReceiveExample.provers provers_complete BatchExample.order 20 1 le_rfl
    (by decide) [token] [BurnExample.burnAt] (List.nodup_singleton _) served BurnExample.recipient
    BatchExample.secrets ?_ 5 ?_ (by decide) 0 htotal (by decide) canReceive
  · intro x hx
    obtain rfl := List.mem_singleton.mp hx
    exact (BatchExample.redeemable _ List.mem_cons_self).2
  · rw [paidTo, List.map_singleton, List.map_singleton, transfersTo_token]
    rfl

end Zerc20
