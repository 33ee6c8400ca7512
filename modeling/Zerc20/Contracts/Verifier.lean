import Zerc20.Contracts.Token
import Zerc20.Hash.Sha256

/-!
# The Verifier contract

`contracts/src/Verifier.sol`: reserved hash chains, proved transfer roots, aggregation roots
received from the Hub, and the teleported total of each recipient hash. Proofs arrive decoded,
as the word arrays that `abi.decode` returns; the four withdraw verifiers and the root decider
are the fields of `Deciders`, functions of those words. The owner may replace all five
(`setVerifiers`), so the answers depend on the set that is installed (`DeciderSets`). Calls that the
contract makes to other contracts (`zERC20.teleport`, the LayerZero endpoint) are made by the modules
that put the contracts together.
-/

namespace Zerc20

open Machine

abbrev RootProof := Fin 32 → Word

abbrev WithdrawProof := Fin 34 → Word

instance neZero_rootProof : NeZero 32 := ⟨by decide⟩

instance neZero_withdrawProof : NeZero 34 := ⟨by decide⟩

/-- The decoded Groth16 calldata: the points `pA`, `pB`, `pC` and the public signals. -/
structure SingleProof where
  points : Fin 8 → Word
  pubSignals : Fin 3 → Word
  deriving DecidableEq

instance neZero_pubSignals : NeZero 3 := ⟨by decide⟩

/-- The verifier contracts called by the Verifier; `isGlobal` selects the withdraw ones. -/
structure Deciders where
  rootDecider : RootProof → Bool
  withdrawDecider : Bool → WithdrawProof → Bool
  singleWithdrawVerifier : Bool → SingleProof → Bool

/-- The addresses of the verifier contracts, as `initialize` and `setVerifiers` take them. -/
structure Verifiers where
  rootDecider : Address
  withdrawGlobalDecider : Address
  withdrawLocalDecider : Address
  singleWithdrawGlobalVerifier : Address
  singleWithdrawLocalVerifier : Address
  deriving DecidableEq

/-- What each set of verifier contracts answers. For a set that is never installed it may be
anything, so what is assumed of all sets is assumed of the installed ones. -/
abbrev DeciderSets := Verifiers → Deciders

/-- `abi.encode(uint256, uint64)`, the payload of both message directions. -/
abbrev Payload := Word × Word

def uint64 (x : ℕ) : ℕ := x % 2 ^ 64

def INITIAL_TRANSFER_ROOT : ℕ :=
  8687547638004116013653730449839507042090717944911454416140763808366589487233

theorem INITIAL_TRANSFER_ROOT_lt : INITIAL_TRANSFER_ROOT < 2 ^ 256 := by decide

theorem zeroAt_val (k : ℕ) :
    (HashTree.zeroAt PoseidonT3.poseidon2 0 k).val = PoseidonT3.zeroHash k := by
  induction k with
  | zero => rfl
  | succ k ih =>
    rw [HashTree.zeroAt, PoseidonT3.poseidon2_val, ih]
    rfl

/-- The constant is the root of the empty tree. -/
theorem transferRoot_empty : (transferRoot realHashes []).val = INITIAL_TRANSFER_ROOT := by
  rw [transferRoot_nil]
  exact (zeroAt_val transferTreeHeight).trans PoseidonT3.zeroHash_forty

inductive VerifierError where
  | invalidProof
  | noProvedRoot
  | zeroAddress
  | invalidHubSource (srcEid : ℕ)
  | oldRootZero (index : ℕ)
  | oldRootMismatch (index expected actual : ℕ)
  | reserveHashChainNotFound (index : ℕ)
  | newHashChainMismatch (index expected actual : ℕ)
  | invalidInitialLastLeafIndex (value : ℕ)
  | invalidInitialTotalValue (value : ℕ)
  | finalTransferRootMismatch (expected actual : ℕ)
  | finalRecipientMismatch (expected actual : ℕ)
  | expectedRootZero (rootHint : ℕ)
  | transferRootMismatch (expected actual : ℕ)
  | recipientMismatch (expected actual : ℕ)
  | invalidRecipientChainId (provided expected : ℕ)
  | nothingToWithdraw (currentTotal totalValue : ℕ)
  | insufficientMsgValue (required provided : ℕ)
  | onlyEndpoint (addr : Address)
  | noPeer (eid : ℕ)
  | onlyPeer (eid sender : ℕ)
  | malformedPayload
  | token (e : TokenError)
  | reverted (reason : String)
  deriving DecidableEq

inductive VerifierEvent where
  | hashChainReserved (index hashChain : ℕ)
  | transferRootProved (index root : ℕ)
  | transferRootRelayed (index root : ℕ)
  | globalRootSaved (aggSeq root : ℕ)
  | emergencyTriggered (index root1 root2 : ℕ)
  | deactivateEmergency
  | teleport (dst : Address) (value : ℕ)
  | verifiersSet (verifiers : Verifiers)
  deriving DecidableEq

structure Verifier where
  owner : Address
  endpoint : Address
  peers : ℕ → ℕ
  hubEid : ℕ
  verifiers : Verifiers
  paused : Bool
  latestReservedIndex : ℕ
  latestProvedIndex : ℕ
  latestAggSeq : ℕ
  latestRelayedIndex : ℕ
  reservedHashChains : ℕ → ℕ
  provedTransferRoots : ℕ → ℕ
  globalTransferRoots : ℕ → ℕ
  totalTeleported : ℕ → ℕ
  log : List VerifierEvent

namespace Verifier

/-- The contract after `initialize`. -/
def initial (owner endpoint : Address) (hubEid : ℕ) (verifiers : Verifiers) : Verifier where
  owner := owner
  endpoint := endpoint
  peers _ := 0
  hubEid := hubEid
  verifiers := verifiers
  paused := false
  latestReservedIndex := 0
  latestProvedIndex := 0
  latestAggSeq := 0
  latestRelayedIndex := 0
  reservedHashChains _ := 0
  provedTransferRoots := Function.update (fun _ => 0) 0 INITIAL_TRANSFER_ROOT
  globalTransferRoots _ := 0
  totalTeleported _ := 0
  log := [.verifiersSet verifiers]

def emit (v : Verifier) (e : VerifierEvent) : Verifier := { v with log := v.log ++ [e] }

def whenNotPaused (v : Verifier) : Except VerifierError Unit :=
  require (v.paused = false) (.reverted "Pausable: paused")

def onlyOwner (v : Verifier) (sender : Address) : Except VerifierError Unit :=
  require (sender = v.owner) (.reverted "Ownable: caller is not the owner")

/-- `_pause`. -/
def pause (v : Verifier) : Except VerifierError Verifier := do
  v.whenNotPaused
  return { v with paused := true }

/-- `_unpause`. -/
def unpause (v : Verifier) : Except VerifierError Verifier := do
  require (v.paused = true) (.reverted "Pausable: not paused")
  return { v with paused := false }

/-! ## Transfer roots -/

def reserveHashChain (v : Verifier) (t : Token) : Verifier :=
  let index := uint64 t.index
  { v with
    reservedHashChains := Function.update v.reservedHashChains index t.hashChain
    latestReservedIndex := index }.emit (.hashChainReserved index t.hashChain)

def proveTransferRoot (d : Deciders) (v : Verifier) (proof : RootProof) :
    Except VerifierError Verifier := do
  v.whenNotPaused
  let oldIndex := uint64 (proof 1)
  let oldRoot := (proof 3).val
  let newIndex := uint64 (proof 4)
  let newHashChain := (proof 5).val
  let newRoot := (proof 6).val
  require (d.rootDecider proof = true) .invalidProof
  require (oldRoot ≠ 0) (.oldRootZero oldIndex)
  let expectedOldRoot := v.provedTransferRoots oldIndex
  require (expectedOldRoot = oldRoot) (.oldRootMismatch oldIndex expectedOldRoot oldRoot)
  let expectedHashChain := v.reservedHashChains newIndex
  require (expectedHashChain ≠ 0) (.reserveHashChainNotFound newIndex)
  require (expectedHashChain = newHashChain)
    (.newHashChainMismatch newIndex expectedHashChain newHashChain)
  let existingRoot := v.provedTransferRoots newIndex
  if existingRoot ≠ 0 ∧ existingRoot ≠ newRoot then
    -- two proofs of one index disagree
    let v ← v.pause
    return v.emit (.emergencyTriggered newIndex existingRoot newRoot)
  else
    return { v with
      provedTransferRoots := Function.update v.provedTransferRoots newIndex newRoot
      latestProvedIndex := if newIndex > v.latestProvedIndex then newIndex
        else v.latestProvedIndex }.emit (.transferRootProved newIndex newRoot)

/-! ## Teleports -/

/-- What a withdraw proof claims: `totalValue` for `recipient` under `transferRoot`. -/
structure Claim where
  isGlobal : Bool
  transferRoot : ℕ
  recipient : ℕ
  value : ℕ
  deriving DecidableEq

/-- The proof checks of `teleport`. -/
def teleportClaim (d : Deciders) (isGlobal : Bool) (proof : WithdrawProof) :
    Except VerifierError Claim := do
  let transferRoot := (proof 1).val
  let recipient := (proof 2).val
  require ((proof 3).val = 0) (.invalidInitialLastLeafIndex (proof 3).val)
  require ((proof 4).val = 0) (.invalidInitialTotalValue (proof 4).val)
  require ((proof 5).val = transferRoot) (.finalTransferRootMismatch (proof 5).val transferRoot)
  require ((proof 6).val = recipient) (.finalRecipientMismatch (proof 6).val recipient)
  let totalValue := (proof 8).val
  require (d.withdrawDecider isGlobal proof = true) .invalidProof
  return { isGlobal, transferRoot, recipient, value := totalValue }

/-- The proof checks of `singleTeleport`. -/
def singleTeleportClaim (d : Deciders) (isGlobal : Bool) (proof : SingleProof) :
    Except VerifierError Claim := do
  let transferRoot := (proof.pubSignals 0).val
  let recipient := (proof.pubSignals 1).val
  let value := (proof.pubSignals 2).val
  require (d.singleWithdrawVerifier isGlobal proof = true) .invalidProof
  return { isGlobal, transferRoot, recipient, value }

/-- `address(uint160(uint256(gr.recipient)))`. -/
def recipientAddr (gr : GeneralRecipient) : Address :=
  ⟨gr.recipient.val % 2 ^ 160, Nat.mod_lt _ (Nat.two_pow_pos 160)⟩

/-- `_teleport` up to the call of `zERC20.teleport`: the new totals and the amount to mint. -/
def teleportInternal (h : Hashes) (chainId : ℕ) (v : Verifier) (rootHint : ℕ)
    (gr : GeneralRecipient) (c : Claim) : Except VerifierError (Verifier × ℕ) := do
  let expectedRoot :=
    if c.isGlobal then v.globalTransferRoots rootHint else v.provedTransferRoots rootHint
  require (expectedRoot ≠ 0) (.expectedRootZero rootHint)
  require (expectedRoot = c.transferRoot) (.transferRootMismatch expectedRoot c.transferRoot)
  let expectedRecipient := gr.hash h
  require (c.recipient = expectedRecipient) (.recipientMismatch expectedRecipient c.recipient)
  let localChainId := uint64 chainId
  require (gr.chainId.val = localChainId)
    (.invalidRecipientChainId gr.chainId.val localChainId)
  let currentTotal := v.totalTeleported c.recipient
  require (c.value > currentTotal) (.nothingToWithdraw currentTotal c.value)
  let diff := c.value - currentTotal
  return ({ v with
    totalTeleported := Function.update v.totalTeleported c.recipient (currentTotal + diff) }, diff)

/-! ## LayerZero -/

/-- `relayTransferRoot` up to `_lzSend`: the payload that is sent to the Hub. -/
def relayPayload (v : Verifier) : Except VerifierError (ℕ × ℕ) := do
  v.whenNotPaused
  let index := v.latestProvedIndex
  let root := v.provedTransferRoots index
  require (root ≠ 0) .noProvedRoot
  return (root, index)

/-- `relayTransferRoot` after `_lzSend` returned. -/
def relayDone (v : Verifier) (root index : ℕ) : Verifier :=
  { v.emit (.transferRootRelayed index root) with latestRelayedIndex := index }

/-- `_lzReceive`. -/
def lzReceiveInternal (v : Verifier) (srcEid : ℕ) (payload : Payload) :
    Except VerifierError Verifier := do
  require (srcEid = v.hubEid) (.invalidHubSource srcEid)
  require (payload.2.val < 2 ^ 64) .malformedPayload
  let globalRoot := payload.1.val
  let aggSeq := payload.2.val
  let v := if v.globalTransferRoots aggSeq = 0 then
      { v with
        globalTransferRoots := Function.update v.globalTransferRoots aggSeq globalRoot }.emit
          (.globalRootSaved aggSeq globalRoot)
    else v
  return if aggSeq > v.latestAggSeq then { v with latestAggSeq := aggSeq } else v

/-- `OAppReceiverUpgradeable.lzReceive`. -/
def lzReceive (v : Verifier) (sender : Address) (srcEid : ℕ) (originSender : Word)
    (payload : Payload) : Except VerifierError Verifier := do
  require (v.endpoint = sender) (.onlyEndpoint sender)
  require (v.peers srcEid ≠ 0) (.noPeer srcEid)
  require (v.peers srcEid = originSender.val) (.onlyPeer srcEid originSender.val)
  v.lzReceiveInternal srcEid payload

/-! ## Administration -/

def setPeer (v : Verifier) (sender : Address) (eid : ℕ) (peer : Word) :
    Except VerifierError Verifier := do
  v.onlyOwner sender
  return { v with peers := Function.update v.peers eid peer.val }

def activateEmergency (v : Verifier) (sender : Address) : Except VerifierError Verifier := do
  v.onlyOwner sender
  v.pause

def deactivateEmergency (v : Verifier) (sender : Address) : Except VerifierError Verifier := do
  v.onlyOwner sender
  let v ← v.unpause
  return v.emit .deactivateEmergency

/-- `setVerifiers` rotates all five contracts at once. -/
def setVerifiers (v : Verifier) (sender : Address) (verifiers : Verifiers) :
    Except VerifierError Verifier := do
  v.onlyOwner sender
  require (verifiers.rootDecider ≠ 0 ∧ verifiers.withdrawGlobalDecider ≠ 0
    ∧ verifiers.withdrawLocalDecider ≠ 0 ∧ verifiers.singleWithdrawGlobalVerifier ≠ 0
    ∧ verifiers.singleWithdrawLocalVerifier ≠ 0) .zeroAddress
  return { v with verifiers }.emit (.verifiersSet verifiers)

/-- `OwnableUpgradeable.transferOwnership`. -/
def transferOwnership (v : Verifier) (sender newOwner : Address) :
    Except VerifierError Verifier := do
  v.onlyOwner sender
  require (newOwner ≠ 0) (.reverted "Ownable: new owner is the zero address")
  return { v with owner := newOwner }

/-- `OwnableUpgradeable.renounceOwnership`: no further call of the owner is accepted. -/
def renounceOwnership (v : Verifier) (sender : Address) : Except VerifierError Verifier := do
  v.onlyOwner sender
  return { v with owner := 0 }

/-! ## Frames -/

/-- None of the tables changes, and no emergency is logged. -/
structure SameTables (v v' : Verifier) : Prop where
  reserved : v'.reservedHashChains = v.reservedHashChains
  proved : v'.provedTransferRoots = v.provedTransferRoots
  global : v'.globalTransferRoots = v.globalTransferRoots
  teleported : v'.totalTeleported = v.totalTeleported
  latestProved : v'.latestProvedIndex = v.latestProvedIndex
  calm : ∀ i r₁ r₂, .emergencyTriggered i r₁ r₂ ∈ v'.log → .emergencyTriggered i r₁ r₂ ∈ v.log

theorem SameTables.refl (v : Verifier) : v.SameTables v :=
  ⟨rfl, rfl, rfl, rfl, rfl, fun _ _ _ hmem => hmem⟩

/-- A step that logs another event triggers no emergency. -/
theorem calm_of_log {v v' : Verifier} (e : VerifierEvent)
    (he : ∀ i r₁ r₂, e ≠ .emergencyTriggered i r₁ r₂) (hlog : v'.log = v.log ++ [e])
    {i r₁ r₂ : ℕ} (hmem : .emergencyTriggered i r₁ r₂ ∈ v'.log) :
    .emergencyTriggered i r₁ r₂ ∈ v.log := by
  rw [hlog, List.mem_append, List.mem_singleton] at hmem
  rcases hmem with hmem | hmem
  · exact hmem
  · exact absurd hmem.symm (he i r₁ r₂)

/-- So a step that writes none of the tables keeps them. -/
theorem sameTables_of_log {v v' : Verifier} (e : VerifierEvent)
    (he : ∀ i r₁ r₂, e ≠ .emergencyTriggered i r₁ r₂)
    (hreserved : v'.reservedHashChains = v.reservedHashChains)
    (hproved : v'.provedTransferRoots = v.provedTransferRoots)
    (hglobal : v'.globalTransferRoots = v.globalTransferRoots)
    (hteleported : v'.totalTeleported = v.totalTeleported)
    (hlatest : v'.latestProvedIndex = v.latestProvedIndex)
    (hlog : v'.log = v.log ++ [e]) : v.SameTables v' :=
  ⟨hreserved, hproved, hglobal, hteleported, hlatest, fun _ _ _ => calm_of_log e he hlog⟩

/-- An accepted message stores its root unless the sequence number has one. -/
theorem lzReceive_cases {v v' : Verifier} {sender : Address} {srcEid : ℕ}
    {originSender : Word} {payload : Payload}
    (hok : v.lzReceive sender srcEid originSender payload = .ok v') :
    (v.endpoint = sender ∧ v.peers srcEid ≠ 0 ∧ v.peers srcEid = originSender.val
      ∧ srcEid = v.hubEid ∧ payload.2.val < 2 ^ 64)
      ∧ (v.globalTransferRoots payload.2.val = 0
          ∧ v' = { v with
              globalTransferRoots :=
                Function.update v.globalTransferRoots payload.2.val payload.1.val
              latestAggSeq := max v.latestAggSeq payload.2.val }.emit
                (.globalRootSaved payload.2.val payload.1.val)
        ∨ v.globalTransferRoots payload.2.val ≠ 0
          ∧ v' = { v with latestAggSeq := max v.latestAggSeq payload.2.val }) := by
  unfold lzReceive lzReceiveInternal at hok
  simp only [bind_eq_ok, require_eq_ok, exists_const] at hok
  obtain ⟨hsender, hpeer, horigin, hsrc, hlt, hret⟩ := hok
  refine ⟨⟨hsender, hpeer, horigin, hsrc, hlt⟩, ?_⟩
  have hseq : ∀ x : Verifier, (if payload.2.val > x.latestAggSeq
      then { x with latestAggSeq := payload.2.val } else x)
      = { x with latestAggSeq := max x.latestAggSeq payload.2.val } := by
    intro x
    rw [max_def_lt]
    split <;> rfl
  cases hret
  rw [hseq]
  -- a number that has a root keeps it; the message is accepted all the same
  by_cases hfresh : v.globalTransferRoots payload.2.val = 0
  · rw [if_pos hfresh]
    exact Or.inl ⟨hfresh, rfl⟩
  · rw [if_neg hfresh]
    exact Or.inr ⟨hfresh, rfl⟩

/-- What a delivery does: it writes the global root of its sequence number, unless one is there. -/
theorem lzReceive_eq_ok {v v' : Verifier} {sender : Address} {srcEid : ℕ}
    {originSender : Word} {payload : Payload}
    (hok : v.lzReceive sender srcEid originSender payload = .ok v') :
    v.endpoint = sender ∧ v.peers srcEid ≠ 0 ∧ v.peers srcEid = originSender.val
      ∧ srcEid = v.hubEid ∧ payload.2.val < 2 ^ 64
      ∧ ((v.globalTransferRoots payload.2.val = 0
          ∧ v'.globalTransferRoots
            = Function.update v.globalTransferRoots payload.2.val payload.1.val
          ∧ v'.log = v.log ++ [.globalRootSaved payload.2.val payload.1.val]
        ∨ v.globalTransferRoots payload.2.val ≠ 0
          ∧ v'.globalTransferRoots = v.globalTransferRoots ∧ v'.log = v.log)
      ∧ v'.reservedHashChains = v.reservedHashChains
      ∧ v'.provedTransferRoots = v.provedTransferRoots
      ∧ v'.totalTeleported = v.totalTeleported) := by
  obtain ⟨⟨hsender, hpeer, horigin, hsrc, hlt⟩, hcase⟩ := lzReceive_cases hok
  refine ⟨hsender, hpeer, horigin, hsrc, hlt, ?_⟩
  rcases hcase with ⟨hfresh, rfl⟩ | ⟨hstored, rfl⟩
  · exact ⟨Or.inl ⟨hfresh, rfl, rfl⟩, rfl, rfl, rfl⟩
  · exact ⟨Or.inr ⟨hstored, rfl, rfl⟩, rfl, rfl, rfl⟩

/-- What an accepted `proveTransferRoot` call checked and did. Two roots for one index: the contract
pauses and stores neither. -/
theorem proveTransferRoot_cases {d : Deciders} {v v' : Verifier} {p : RootProof}
    (hok : v.proveTransferRoot d p = .ok v') :
    (d.rootDecider p = true ∧ (p 3).val ≠ 0
      ∧ v.provedTransferRoots (uint64 (p 1)) = (p 3).val
      ∧ v.reservedHashChains (uint64 (p 4)) ≠ 0
      ∧ v.reservedHashChains (uint64 (p 4)) = (p 5).val)
      ∧ (v.provedTransferRoots (uint64 (p 4)) ≠ 0
          ∧ v.provedTransferRoots (uint64 (p 4)) ≠ (p 6).val
          ∧ v' = { v with paused := true }.emit (.emergencyTriggered (uint64 (p 4))
              (v.provedTransferRoots (uint64 (p 4))) (p 6).val)
        ∨ (v.provedTransferRoots (uint64 (p 4)) = 0
            ∨ v.provedTransferRoots (uint64 (p 4)) = (p 6).val)
          ∧ v' = { v with
              provedTransferRoots :=
                Function.update v.provedTransferRoots (uint64 (p 4)) (p 6).val
              latestProvedIndex := max v.latestProvedIndex (uint64 (p 4)) }.emit
                (.transferRootProved (uint64 (p 4)) (p 6).val)) := by
  unfold proveTransferRoot pause at hok
  simp only [bind_eq_ok, require_eq_ok, exists_const] at hok
  obtain ⟨_, -, hdecider, hne, hold, hreserved, hchain, hrest⟩ := hok
  refine ⟨⟨hdecider, hne, hold, hreserved, hchain⟩, ?_⟩
  split at hrest
  -- a second root for the index: the contract pauses itself
  · rename_i hconflict
    simp only [bind_eq_ok] at hrest
    obtain ⟨v₁, ⟨_, -, hret⟩, hret'⟩ := hrest
    cases hret
    cases hret'
    exact Or.inl ⟨hconflict.1, hconflict.2, rfl⟩
  -- the index is free, or has this root already
  · rename_i hagree
    cases hrest
    rw [max_def_lt]
    refine Or.inr ⟨?_, rfl⟩
    by_contra hnot
    exact hagree (not_or.mp hnot)

/-- What a root proof does: from a proved root to a reserved hash chain, either it is new and
written, or it disputes the one that is there. -/
theorem proveTransferRoot_eq_ok {d : Deciders} {v v' : Verifier} {p : RootProof}
    (hok : v.proveTransferRoot d p = .ok v') :
    d.rootDecider p = true ∧ (p 3).val ≠ 0
      ∧ v.provedTransferRoots (uint64 (p 1)) = (p 3).val
      ∧ v.reservedHashChains (uint64 (p 4)) ≠ 0
      ∧ v.reservedHashChains (uint64 (p 4)) = (p 5).val
      ∧ v'.reservedHashChains = v.reservedHashChains
      ∧ v'.globalTransferRoots = v.globalTransferRoots
      ∧ v'.totalTeleported = v.totalTeleported
      ∧ (v.provedTransferRoots (uint64 (p 4)) ≠ 0
          ∧ v.provedTransferRoots (uint64 (p 4)) ≠ (p 6).val
          ∧ v'.provedTransferRoots = v.provedTransferRoots
        ∨ (v.provedTransferRoots (uint64 (p 4)) = 0
            ∨ v.provedTransferRoots (uint64 (p 4)) = (p 6).val)
          ∧ v'.provedTransferRoots
            = Function.update v.provedTransferRoots (uint64 (p 4)) (p 6).val
          ∧ v'.log = v.log ++ [.transferRootProved (uint64 (p 4)) (p 6).val]) := by
  obtain ⟨⟨hdecider, hne, hold, hreserved, hchain⟩, hcase⟩ := proveTransferRoot_cases hok
  refine ⟨hdecider, hne, hold, hreserved, hchain, ?_⟩
  rcases hcase with ⟨hstored, hconflict, rfl⟩ | ⟨hagree, rfl⟩
  · exact ⟨rfl, rfl, rfl, Or.inl ⟨hstored, hconflict, rfl⟩⟩
  · exact ⟨rfl, rfl, rfl, Or.inr ⟨hagree, rfl, rfl⟩⟩

/-- A proof of a root that no stored one contradicts. -/
theorem proveTransferRoot_ok_iff {d : Deciders} {v v' : Verifier} {p : RootProof}
    (hagree : v.provedTransferRoots (uint64 (p 4)) ≠ 0 →
      v.provedTransferRoots (uint64 (p 4)) = (p 6).val) :
    v.proveTransferRoot d p = .ok v'
      ↔ v.paused = false ∧ d.rootDecider p = true ∧ (p 3).val ≠ 0
        ∧ v.provedTransferRoots (uint64 (p 1)) = (p 3).val
        ∧ v.reservedHashChains (uint64 (p 4)) ≠ 0
        ∧ v.reservedHashChains (uint64 (p 4)) = (p 5).val
        ∧ { v with
            provedTransferRoots := Function.update v.provedTransferRoots (uint64 (p 4)) (p 6).val
            latestProvedIndex := max v.latestProvedIndex (uint64 (p 4)) }.emit
          (.transferRootProved (uint64 (p 4)) (p 6).val) = v' := by
  have hconflict : ¬ (v.provedTransferRoots (uint64 (p 4)) ≠ 0
      ∧ v.provedTransferRoots (uint64 (p 4)) ≠ (p 6).val) := fun ⟨hne, hdiffers⟩ =>
    hdiffers (hagree hne)
  have hmax : (if uint64 (p 4) > v.latestProvedIndex then uint64 (p 4) else v.latestProvedIndex)
      = max v.latestProvedIndex (uint64 (p 4)) := (max_def_lt _ _).symm
  unfold proveTransferRoot whenNotPaused
  simp only [bind_eq_ok, require_eq_ok, exists_const, if_neg hconflict, hmax, pure, Except.pure,
    Except.ok.injEq]

/-! ## Wiring and word sizes -/

/-- Where messages come from. -/
def wiring (v : Verifier) : Address × (ℕ → ℕ) × ℕ := (v.endpoint, v.peers, v.hubEid)

theorem proveTransferRoot_wiring {d : Deciders} {v v' : Verifier} {p : RootProof}
    (hok : v.proveTransferRoot d p = .ok v') : v'.wiring = v.wiring := by
  rcases (proveTransferRoot_cases hok).2 with ⟨-, -, rfl⟩ | ⟨-, rfl⟩
  · rfl
  · rfl

theorem lzReceive_wiring {v v' : Verifier} {sender : Address} {srcEid : ℕ}
    {originSender : Word} {payload : Payload}
    (hok : v.lzReceive sender srcEid originSender payload = .ok v') :
    v'.wiring = v.wiring ∧ v'.latestProvedIndex = v.latestProvedIndex := by
  rcases (lzReceive_cases hok).2 with ⟨-, rfl⟩ | ⟨-, rfl⟩
  · exact ⟨rfl, rfl⟩
  · exact ⟨rfl, rfl⟩

/-- Stored roots are 256-bit words and indices are 64-bit. -/
structure Bounded (v : Verifier) : Prop where
  root_lt : ∀ i, v.provedTransferRoots i < 2 ^ 256
  index_lt : v.latestProvedIndex < 2 ^ 64

theorem uint64_lt (x : ℕ) : uint64 x < 2 ^ 64 := Nat.mod_lt _ (Nat.two_pow_pos 64)

/-- The counters stay in their types, as they are written from such. -/
theorem proveTransferRoot_bounded {d : Deciders} {v v' : Verifier} {p : RootProof}
    (hv : v.Bounded) (hok : v.proveTransferRoot d p = .ok v') : v'.Bounded := by
  rcases (proveTransferRoot_cases hok).2 with ⟨-, -, rfl⟩ | ⟨-, rfl⟩
  · exact ⟨hv.root_lt, hv.index_lt⟩
  · refine ⟨?_, max_lt hv.index_lt (uint64_lt _)⟩
    intro i
    by_cases hi : i = uint64 (p 4)
    · subst hi
      simp only [emit, Function.update_self]
      exact (p 6).isLt
    · simp only [emit, Function.update_of_ne hi]
      exact hv.root_lt i

/-- Proved roots are write-once: a stored root is only ever overwritten by itself. -/
theorem proveTransferRoot_persist {d : Deciders} {v v' : Verifier} {p : RootProof}
    (hok : v.proveTransferRoot d p = .ok v') {i : ℕ} (hne : v.provedTransferRoots i ≠ 0) :
    v'.provedTransferRoots i = v.provedTransferRoots i := by
  obtain ⟨-, -, -, -, -, -, -, -, ⟨-, -, heq⟩ | ⟨hsame, heq, -⟩⟩ := proveTransferRoot_eq_ok hok
  · rw [heq]
  · rw [heq]
    by_cases hi : i = uint64 (p 4)
    · subst hi
      rcases hsame with hzero | hsame
      · exact absurd hzero hne
      · rw [Function.update_self, hsame]
    · rw [Function.update_of_ne hi]

end Verifier

end Zerc20
