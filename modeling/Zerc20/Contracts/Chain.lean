import Zerc20.Contracts.Verifier

/-!
# The contracts of one chain

One chain runs a zERC20 token, its Verifier and its Minter (`contracts/src/Minter.sol`).
`Chain.exec` is one transaction: the external call and the calls the contracts make to each
other, refused as a whole when any of them reverts. A contract never originates a transaction,
so the external sender is never the Verifier or the Minter.

`withdrawNative` pays its caller last, after the burn, so what the caller does when it
receives the payment is an ordinary transaction that follows; a failed payment reverts
everything. The underlying ERC20 moves exact amounts.

`records` is a ghost: the accepted teleports, each with its proof and the amount it minted.
-/

namespace Zerc20

open Machine

inductive MinterError where
  | nativeDisabled
  | tokenDisabled
  | zeroAmount
  | nativeTransferFailed
  | insufficientNativeLiquidity (available requested : ℕ)
  | insufficientTokenLiquidity (available requested : ℕ)
  | underlyingTransferFailed
  deriving DecidableEq

inductive ChainError where
  | token (e : TokenError)
  | verifier (e : VerifierError)
  | minter (e : MinterError)
  | contractSender
  deriving DecidableEq

/-- The proof behind a teleport. -/
inductive Evidence where
  | batch (proof : WithdrawProof)
  | single (proof : SingleProof)
  deriving DecidableEq

/-- The claim was read off the proof, and the proof was accepted. -/
def Evidence.Claims (d : Deciders) (e : Evidence) (c : Verifier.Claim) : Prop :=
  match e with
  | .batch p => Verifier.teleportClaim d c.isGlobal p = .ok c
  | .single p => Verifier.singleTeleportClaim d c.isGlobal p = .ok c

structure TeleportRecord where
  rootHint : ℕ
  gr : GeneralRecipient
  claim : Verifier.Claim
  minted : ℕ
  /-- The index of the mint among the token's events. -/
  mintIndex : ℕ
  evidence : Evidence
  deriving DecidableEq

structure Chain where
  chainId : ℕ
  token : Token
  verifier : Verifier
  verifierAddr : Address
  minterAddr : Address
  /-- The underlying token of the Minter, `0` for the native currency. -/
  tokenAddress : Address
  nativeBalance : ℕ
  underlying : Address → ℕ
  records : List TeleportRecord

inductive ChainAction where
  | token (c : TokenCall)
  | reserveHashChain
  | proveTransferRoot (proof : RootProof)
  | teleport (isGlobal : Bool) (rootHint : Fin (2 ^ 64)) (gr : GeneralRecipient)
      (proof : WithdrawProof)
  | singleTeleport (isGlobal : Bool) (rootHint : Fin (2 ^ 64)) (gr : GeneralRecipient)
      (proof : SingleProof)
  | relayTransferRoot
  | lzReceive (sender : Address) (srcEid : ℕ) (originSender : Word) (payload : Payload)
  | setPeer (sender : Address) (eid : ℕ) (peer : Word)
  | activateEmergency (sender : Address)
  | deactivateEmergency (sender : Address)
  /-- `setVerifiers`, `transferOwnership` and `renounceOwnership` of the Verifier. -/
  | setVerifiers (sender : Address) (verifiers : Verifiers)
  | transferOwnership (sender newOwner : Address)
  | renounceOwnership (sender : Address)
  | depositNative (sender : Address) (value : Word)
  | depositToken (sender : Address) (amount : Word)
  | withdrawNative (sender : Address) (amount : Word) (success : Bool)
  | withdrawToken (sender : Address) (amount : Word)
  | underlyingTransfer (sender dst : Address) (amount : Word)
  | forceNative (value : Word)

namespace Chain

variable (h : Hashes) (d : DeciderSets)

/-- A fresh deployment, wired up by the owner. -/
def initial (chainId : ℕ) (owner endpoint verifierAddr minterAddr tokenAddress : Address)
    (hubEid : ℕ) (verifiers : Verifiers) (underlying : Address → ℕ) : Chain where
  chainId := chainId
  token := { Token.initial owner with verifier := verifierAddr, minter := minterAddr }
  verifier := Verifier.initial owner endpoint hubEid verifiers
  verifierAddr := verifierAddr
  minterAddr := minterAddr
  tokenAddress := tokenAddress
  nativeBalance := 0
  underlying := underlying
  records := []

def liftToken {α : Type} (r : Except TokenError α) : Except ChainError α :=
  r.mapError .token

def liftVerifier {α : Type} (r : Except VerifierError α) : Except ChainError α :=
  r.mapError .verifier

def externalSender (c : Chain) (sender : Address) : Except ChainError Unit :=
  require (sender ≠ c.verifierAddr ∧ sender ≠ c.minterAddr) .contractSender

/-! ## Teleports -/

/-- `_teleport`, with the mint. -/
def finishTeleport (c : Chain) (rootHint : ℕ) (gr : GeneralRecipient) (claim : Verifier.Claim)
    (evidence : Evidence) : Except ChainError Chain := do
  let (v, diff) ← liftVerifier (c.verifier.teleportInternal h c.chainId rootHint gr claim)
  let dst := Verifier.recipientAddr gr
  let t ← liftToken (c.token.teleport h c.verifierAddr dst diff)
  return { c with
    token := t
    verifier := v.emit (.teleport dst diff)
    records := c.records ++ [{
      rootHint, gr, claim, minted := diff, mintIndex := c.token.index, evidence }] }

def teleport (c : Chain) (isGlobal : Bool) (rootHint : ℕ) (gr : GeneralRecipient)
    (proof : WithdrawProof) : Except ChainError Chain := do
  liftVerifier c.verifier.whenNotPaused
  let claim ← liftVerifier (Verifier.teleportClaim (d c.verifier.verifiers) isGlobal proof)
  c.finishTeleport h rootHint gr claim (.batch proof)

def singleTeleport (c : Chain) (isGlobal : Bool) (rootHint : ℕ) (gr : GeneralRecipient)
    (proof : SingleProof) : Except ChainError Chain := do
  liftVerifier c.verifier.whenNotPaused
  let claim ← liftVerifier (Verifier.singleTeleportClaim (d c.verifier.verifiers) isGlobal proof)
  c.finishTeleport h rootHint gr claim (.single proof)

/-! ## The Minter -/

def requireMinter (p : Prop) [Decidable p] (e : MinterError) : Except ChainError Unit :=
  require p (.minter e)

def depositNative (c : Chain) (sender : Address) (amount : ℕ) : Except ChainError Chain := do
  c.externalSender sender
  requireMinter (c.tokenAddress = 0) .nativeDisabled
  requireMinter (amount ≠ 0) .zeroAmount
  let t ← liftToken (c.token.mint h c.minterAddr sender amount)
  return { c with token := t, nativeBalance := c.nativeBalance + amount }

/-- The underlying token's `transferFrom`, for an approved amount. -/
def moveUnderlying (c : Chain) (src dst : Address) (amount : ℕ) : Except ChainError Chain := do
  requireMinter (amount ≤ c.underlying src) .underlyingTransferFailed
  let underlying := Function.update c.underlying src (c.underlying src - amount)
  return { c with underlying := Function.update underlying dst (underlying dst + amount) }

def depositToken (c : Chain) (sender : Address) (amount : ℕ) : Except ChainError Chain := do
  c.externalSender sender
  requireMinter (c.tokenAddress ≠ 0) .tokenDisabled
  requireMinter (amount ≠ 0) .zeroAmount
  let c ← c.moveUnderlying sender c.minterAddr amount
  let t ← liftToken (c.token.mint h c.minterAddr sender amount)
  return { c with token := t }

def withdrawNative (c : Chain) (sender : Address) (amount : ℕ) (success : Bool) :
    Except ChainError Chain := do
  c.externalSender sender
  requireMinter (c.tokenAddress = 0) .nativeDisabled
  requireMinter (amount ≠ 0) .zeroAmount
  let available := c.nativeBalance
  requireMinter (amount ≤ available) (.insufficientNativeLiquidity available amount)
  let t ← liftToken (c.token.burn h c.minterAddr sender amount)
  requireMinter (success = true) .nativeTransferFailed
  return { c with token := t, nativeBalance := c.nativeBalance - amount }

def withdrawToken (c : Chain) (sender : Address) (amount : ℕ) : Except ChainError Chain := do
  c.externalSender sender
  requireMinter (c.tokenAddress ≠ 0) .tokenDisabled
  requireMinter (amount ≠ 0) .zeroAmount
  let available := c.underlying c.minterAddr
  requireMinter (amount ≤ available) (.insufficientTokenLiquidity available amount)
  let t ← liftToken (c.token.burn h c.minterAddr sender amount)
  { c with token := t }.moveUnderlying c.minterAddr sender amount

/-! ## Transactions -/

def withVerifier (c : Chain) (r : Except VerifierError Verifier) : Except ChainError Chain := do
  let v ← liftVerifier r
  return { c with verifier := v }

def exec (c : Chain) : ChainAction → Except ChainError Chain
  | .token call => do
    c.externalSender call.sender
    let t ← liftToken (c.token.call h call)
    return { c with token := t }
  | .reserveHashChain => c.withVerifier (.ok (c.verifier.reserveHashChain c.token))
  | .proveTransferRoot proof =>
    c.withVerifier (c.verifier.proveTransferRoot (d c.verifier.verifiers) proof)
  | .teleport isGlobal rootHint gr proof => c.teleport h d isGlobal rootHint.val gr proof
  | .singleTeleport isGlobal rootHint gr proof =>
    c.singleTeleport h d isGlobal rootHint.val gr proof
  -- the message itself is sent by the module that has the network
  | .relayTransferRoot => c.withVerifier do
    let (root, index) ← c.verifier.relayPayload
    return c.verifier.relayDone root index
  | .lzReceive sender srcEid originSender payload =>
    c.withVerifier (c.verifier.lzReceive sender srcEid originSender payload)
  | .setPeer sender eid peer => c.withVerifier (c.verifier.setPeer sender eid peer)
  | .activateEmergency sender => c.withVerifier (c.verifier.activateEmergency sender)
  | .deactivateEmergency sender => c.withVerifier (c.verifier.deactivateEmergency sender)
  | .setVerifiers sender verifiers => c.withVerifier (c.verifier.setVerifiers sender verifiers)
  | .transferOwnership sender newOwner =>
    c.withVerifier (c.verifier.transferOwnership sender newOwner)
  | .renounceOwnership sender => c.withVerifier (c.verifier.renounceOwnership sender)
  | .depositNative sender value => c.depositNative h sender value.val
  | .depositToken sender amount => c.depositToken h sender amount.val
  | .withdrawNative sender amount success => c.withdrawNative h sender amount.val success
  | .withdrawToken sender amount => c.withdrawToken h sender amount.val
  | .underlyingTransfer sender dst amount => do
    c.externalSender sender
    c.moveUnderlying sender dst amount.val
  -- a transfer that no contract can refuse, such as a block reward
  | .forceNative value => .ok { c with nativeBalance := c.nativeBalance + value.val }

def step (c : Chain) (a : ChainAction) : Chain := commit c (c.exec h d a)

/-! ## What a transaction can do -/

/-- A call of the token succeeds within a chain when it succeeds. -/
@[simp] theorem liftToken_eq_ok {α : Type} {r : Except TokenError α} {x : α} :
    liftToken r = .ok x ↔ r = .ok x := by
  cases r <;> simp [liftToken, Except.mapError]

@[simp] theorem liftVerifier_eq_ok {α : Type} {r : Except VerifierError α} {x : α} :
    liftVerifier r = .ok x ↔ r = .ok x := by
  cases r <;> simp [liftVerifier, Except.mapError]

/-- Such a call changes the Verifier only. -/
theorem withVerifier_eq_ok {c c' : Chain} {r : Except VerifierError Verifier} :
    c.withVerifier r = .ok c' ↔ ∃ v, r = .ok v ∧ c' = { c with verifier := v } := by
  unfold withVerifier
  rw [bind_eq_ok]
  refine exists_congr fun v => and_congr liftVerifier_eq_ok ?_
  exact ⟨fun heq => (Except.ok.inj heq).symm, fun heq => congrArg Except.ok heq.symm⟩

/-- An accepted teleport claimed a stored root for the hash of `gr`, on this chain, and minted
the part of the claimed total that was not yet teleported. -/
structure Teleported (c c' : Chain) (r : TeleportRecord) : Prop where
  root_ne : r.claim.transferRoot ≠ 0
  root_eq : r.claim.transferRoot = if r.claim.isGlobal
    then c.verifier.globalTransferRoots r.rootHint else c.verifier.provedTransferRoots r.rootHint
  recipient_eq : r.claim.recipient = r.gr.hash h
  chainId_eq : r.gr.chainId.val = uint64 c.chainId
  total_lt : c.verifier.totalTeleported r.claim.recipient < r.claim.value
  minted_eq : r.minted = r.claim.value - c.verifier.totalTeleported r.claim.recipient
  mintIndex_eq : r.mintIndex = c.token.index
  mint_ok : c.token.teleport h c.verifierAddr (Verifier.recipientAddr r.gr) r.minted
    = .ok c'.token
  result : c' = { c with
    token := c'.token
    verifier := { c.verifier with
      totalTeleported := Function.update c.verifier.totalTeleported r.claim.recipient
        r.claim.value }.emit (.teleport (Verifier.recipientAddr r.gr) r.minted)
    records := c.records ++ [r] }

/-- A teleport that goes through leaves its record: the claim, the evidence and the mint that it was
paid with. -/
theorem finishTeleport_eq_ok {c c' : Chain} {rootHint : ℕ} {gr : GeneralRecipient}
    {claim : Verifier.Claim} {evidence : Evidence}
    (hok : c.finishTeleport h rootHint gr claim evidence = .ok c') :
    ∃ r : TeleportRecord, r.claim = claim ∧ r.evidence = evidence ∧ c.Teleported h c' r := by
  unfold finishTeleport Verifier.teleportInternal at hok
  simp only [bind_eq_ok, liftToken_eq_ok, liftVerifier_eq_ok, require_eq_ok, exists_const, pure,
    Except.pure, Except.ok.injEq] at hok
  obtain ⟨⟨v, diff⟩, ⟨hne, hroot, hrecipient, hchain, hlt, hpair⟩, t, hmint, rfl⟩ := hok
  rw [Prod.mk.injEq] at hpair
  obtain ⟨rfl, rfl⟩ := hpair
  refine ⟨⟨rootHint, gr, claim, claim.value - c.verifier.totalTeleported claim.recipient,
    c.token.index, evidence⟩, rfl, rfl, ?_⟩
  refine ⟨by rw [← hroot]; exact hne, hroot.symm, hrecipient, hchain, hlt, rfl, rfl, hmint, ?_⟩
  have hsum : c.verifier.totalTeleported claim.recipient
      + (claim.value - c.verifier.totalTeleported claim.recipient) = claim.value :=
    Nat.add_sub_cancel' hlt.le
  rw [hsum]

/-- What the evidence claims is what was paid. -/
theorem finishTeleport_claims {c c' : Chain} {rootHint : ℕ} {gr : GeneralRecipient}
    {claim : Verifier.Claim} {evidence : Evidence} {d : Deciders}
    (hclaims : evidence.Claims d claim)
    (hok : c.finishTeleport h rootHint gr claim evidence = .ok c') :
    ∃ r : TeleportRecord, r.evidence.Claims d r.claim ∧ c.Teleported h c' r := by
  obtain ⟨r, hr, hevidence, hteleported⟩ := finishTeleport_eq_ok h hok
  rw [← hr, ← hevidence] at hclaims
  exact ⟨r, hclaims, hteleported⟩

/-- A claim for a stored root, for more than was teleported, mints the difference. -/
theorem finishTeleport_ok {c : Chain} (rootHint : ℕ) (gr : GeneralRecipient)
    (claim : Verifier.Claim) (evidence : Evidence) {t : Token}
    (hne : claim.transferRoot ≠ 0)
    (hroot : (if claim.isGlobal then c.verifier.globalTransferRoots rootHint
      else c.verifier.provedTransferRoots rootHint) = claim.transferRoot)
    (hrecipient : claim.recipient = gr.hash h) (hchain : gr.chainId.val = uint64 c.chainId)
    (hlt : c.verifier.totalTeleported claim.recipient < claim.value)
    (hmint : c.token.teleport h c.verifierAddr (Verifier.recipientAddr gr)
      (claim.value - c.verifier.totalTeleported claim.recipient) = .ok t) :
    ∃ c', c.finishTeleport h rootHint gr claim evidence = .ok c' ∧ c'.token = t
      ∧ c'.verifier.totalTeleported
        = Function.update c.verifier.totalTeleported claim.recipient claim.value := by
  have hsum : c.verifier.totalTeleported claim.recipient
      + (claim.value - c.verifier.totalTeleported claim.recipient) = claim.value :=
    Nat.add_sub_cancel' hlt.le
  unfold finishTeleport Verifier.teleportInternal
  simp only [bind_eq_ok, liftToken_eq_ok, liftVerifier_eq_ok, require_eq_ok, exists_const, pure,
    Except.pure, Except.ok.injEq]
  refine ⟨_, ⟨(_, _), ⟨by rw [hroot]; exact hne, hroot, hrecipient, hchain, hlt, rfl⟩, t, hmint, rfl⟩,
    rfl, ?_⟩
  show Function.update _ _ _ = _
  rw [hsum]

/-- How a transaction changes the token: not at all, by an external call, by a teleport, or by a
deposit or withdrawal of the Minter. -/
inductive TokenCause (c : Chain) (t' : Token) : Prop where
  | none (heq : t' = c.token)
  | external (call : TokenCall) (hverifier : call.sender ≠ c.verifierAddr)
      (hminter : call.sender ≠ c.minterAddr) (hok : c.token.call h call = .ok t')
  | teleport (dst : Address) (value : ℕ)
      (hok : c.token.teleport h c.verifierAddr dst value = .ok t')
  | mint (dst : Address) (value : ℕ) (hok : c.token.mint h c.minterAddr dst value = .ok t')
  | burn (src : Address) (value : ℕ) (hok : c.token.burn h c.minterAddr src value = .ok t')

/-- The underlying token moves from one account to another. -/
theorem moveUnderlying_eq_ok {c c' : Chain} {src dst : Address} {amount : ℕ}
    (hok : c.moveUnderlying src dst amount = .ok c') :
    amount ≤ c.underlying src ∧ c' = { c with
      underlying := Function.update (Function.update c.underlying src (c.underlying src - amount))
        dst ((Function.update c.underlying src (c.underlying src - amount)) dst + amount) } := by
  unfold moveUnderlying requireMinter at hok
  simp only [bind_eq_ok, require_eq_ok, exists_const] at hok
  obtain ⟨hle, hret⟩ := hok
  exact ⟨hle, (Except.ok.inj hret).symm⟩

/-- A native deposit is added to the Minter's balance and minted. -/
theorem depositNative_eq_ok {c c' : Chain} {sender : Address} {amount : ℕ}
    (hok : c.depositNative h sender amount = .ok c') :
    sender ≠ c.minterAddr ∧ c.tokenAddress = 0
      ∧ ∃ t, c.token.mint h c.minterAddr sender amount = .ok t
        ∧ c' = { c with token := t, nativeBalance := c.nativeBalance + amount } := by
  unfold depositNative externalSender requireMinter at hok
  simp only [bind_eq_ok, require_eq_ok, exists_const, liftToken_eq_ok] at hok
  obtain ⟨hsender, hnative, -, t, hmint, hret⟩ := hok
  exact ⟨hsender.2, hnative, t, hmint, (Except.ok.inj hret).symm⟩

/-- A deposit of the underlying token moves it to the Minter and is minted. -/
theorem depositToken_eq_ok {c c' : Chain} {sender : Address} {amount : ℕ}
    (hok : c.depositToken h sender amount = .ok c') :
    sender ≠ c.minterAddr ∧ c.tokenAddress ≠ 0
      ∧ ∃ c₁ t, c.moveUnderlying sender c.minterAddr amount = .ok c₁
        ∧ c.token.mint h c.minterAddr sender amount = .ok t ∧ c' = { c₁ with token := t } := by
  unfold depositToken externalSender requireMinter at hok
  simp only [bind_eq_ok, require_eq_ok, exists_const, liftToken_eq_ok] at hok
  obtain ⟨hsender, htoken, -, c₁, hmove, t, hmint, hret⟩ := hok
  obtain ⟨-, rfl⟩ := moveUnderlying_eq_ok hmove
  exact ⟨hsender.2, htoken, _, t, hmove, hmint, (Except.ok.inj hret).symm⟩

/-- A native withdrawal is burned and paid out. -/
theorem withdrawNative_eq_ok {c c' : Chain} {sender : Address} {amount : ℕ} {success : Bool}
    (hok : c.withdrawNative h sender amount success = .ok c') :
    c.tokenAddress = 0 ∧ amount ≤ c.nativeBalance
      ∧ ∃ t, c.token.burn h c.minterAddr sender amount = .ok t
        ∧ c' = { c with token := t, nativeBalance := c.nativeBalance - amount } := by
  unfold withdrawNative externalSender requireMinter at hok
  simp only [bind_eq_ok, require_eq_ok, exists_const, liftToken_eq_ok] at hok
  obtain ⟨-, hnative, -, hle, t, hburn, -, hret⟩ := hok
  exact ⟨hnative, hle, t, hburn, (Except.ok.inj hret).symm⟩

theorem withdrawToken_eq_ok {c c' : Chain} {sender : Address} {amount : ℕ}
    (hok : c.withdrawToken h sender amount = .ok c') :
    sender ≠ c.minterAddr ∧ c.tokenAddress ≠ 0
      ∧ ∃ t, c.token.burn h c.minterAddr sender amount = .ok t
        ∧ { c with token := t }.moveUnderlying c.minterAddr sender amount = .ok c' := by
  unfold withdrawToken externalSender requireMinter at hok
  simp only [bind_eq_ok, require_eq_ok, exists_const, liftToken_eq_ok] at hok
  obtain ⟨hsender, htoken, -, -, t, hburn, hmove⟩ := hok
  exact ⟨hsender.2, htoken, t, hburn, hmove⟩

/-- A batch teleport checks its proof against the root that the flag and the hint name. -/
theorem teleport_eq_ok {c c' : Chain} {isGlobal : Bool} {rootHint : ℕ} {gr : GeneralRecipient}
    {proof : WithdrawProof} (hok : c.teleport h d isGlobal rootHint gr proof = .ok c') :
    ∃ r : TeleportRecord, r.evidence.Claims (d c.verifier.verifiers) r.claim
      ∧ c.Teleported h c' r := by
  unfold teleport at hok
  simp only [bind_eq_ok, liftVerifier_eq_ok] at hok
  obtain ⟨_, -, claim, hclaim, hfinish⟩ := hok
  refine finishTeleport_claims h ?_ hfinish
  have hglobal : claim.isGlobal = isGlobal := by
    simp only [Verifier.teleportClaim, bind_eq_ok] at hclaim
    obtain ⟨_, -, _, -, _, -, _, -, _, -, hret⟩ := hclaim
    cases hret
    rfl
  rw [Evidence.Claims, hglobal]
  exact hclaim

/-- A single teleport checks its own proof in the same way. -/
theorem singleTeleport_eq_ok {c c' : Chain} {isGlobal : Bool} {rootHint : ℕ}
    {gr : GeneralRecipient} {proof : SingleProof}
    (hok : c.singleTeleport h d isGlobal rootHint gr proof = .ok c') :
    ∃ r : TeleportRecord, r.evidence.Claims (d c.verifier.verifiers) r.claim
      ∧ c.Teleported h c' r := by
  unfold singleTeleport at hok
  simp only [bind_eq_ok, liftVerifier_eq_ok] at hok
  obtain ⟨_, -, claim, hclaim, hfinish⟩ := hok
  refine finishTeleport_claims h ?_ hfinish
  have hglobal : claim.isGlobal = isGlobal := by
    simp only [Verifier.singleTeleportClaim, bind_eq_ok] at hclaim
    obtain ⟨_, -, hret⟩ := hclaim
    cases hret
    rfl
  rw [Evidence.Claims, hglobal]
  exact hclaim

/-- What any action does to the token: nothing, a call of its own, a mint or a burn by the Minter,
or a mint by the Verifier. -/
theorem exec_tokenCause {c c' : Chain} {a : ChainAction} (hok : c.exec h d a = .ok c') :
    c.TokenCause h c'.token := by
  cases a with
  | token call =>
    simp only [exec, externalSender, bind_eq_ok, require_eq_ok, exists_const,
      liftToken_eq_ok] at hok
    obtain ⟨hsender, t, hcall, hret⟩ := hok
    cases hret
    exact .external call hsender.1 hsender.2 hcall
  -- both kinds of redemption mint
  | teleport isGlobal rootHint gr proof =>
    obtain ⟨r, -, hr⟩ := teleport_eq_ok h d hok
    exact .teleport _ _ hr.mint_ok
  | singleTeleport isGlobal rootHint gr proof =>
    obtain ⟨r, -, hr⟩ := singleTeleport_eq_ok h d hok
    exact .teleport _ _ hr.mint_ok
  -- wrapping mints, unwrapping burns
  | depositNative sender value =>
    obtain ⟨-, -, t, hmint, rfl⟩ := depositNative_eq_ok h hok
    exact .mint _ _ hmint
  | depositToken sender amount =>
    obtain ⟨-, -, c₁, t, -, hmint, rfl⟩ := depositToken_eq_ok h hok
    exact .mint _ _ hmint
  | withdrawNative sender amount success =>
    obtain ⟨-, -, t, hburn, rfl⟩ := withdrawNative_eq_ok h hok
    exact .burn _ _ hburn
  | withdrawToken sender amount =>
    obtain ⟨-, -, t, hburn, hmove⟩ := withdrawToken_eq_ok h hok
    obtain ⟨-, rfl⟩ := moveUnderlying_eq_ok hmove
    exact .burn _ _ hburn
  | underlyingTransfer sender dst amount =>
    obtain ⟨_, -, hmove⟩ := bind_eq_ok.mp hok
    obtain ⟨-, rfl⟩ := moveUnderlying_eq_ok hmove
    exact .none rfl
  | forceNative value =>
    cases hok
    exact .none rfl
  | _ =>
    obtain ⟨v, -, rfl⟩ := withVerifier_eq_ok.mp hok
    exact .none rfl

/-- How a transaction changes the Verifier and the list of accepted teleports. -/
inductive VerifierCause (c : Chain) (a : ChainAction) (c' : Chain) : Prop where
  | tables (htables : c.verifier.SameTables c'.verifier) (hrecords : c'.records = c.records)
  | reserve (heq : c'.verifier = c.verifier.reserveHashChain c.token)
      (hrecords : c'.records = c.records)
  | prove (p : RootProof) (ha : a = .proveTransferRoot p)
      (hok : c.verifier.proveTransferRoot (d c.verifier.verifiers) p = .ok c'.verifier)
      (hrecords : c'.records = c.records)
  | receive (sender : Address) (srcEid : ℕ) (originSender : Word) (payload : Payload)
      (ha : a = .lzReceive sender srcEid originSender payload)
      (hok : c.verifier.lzReceive sender srcEid originSender payload = .ok c'.verifier)
      (hrecords : c'.records = c.records)
  | teleport (r : TeleportRecord) (hclaims : r.evidence.Claims (d c.verifier.verifiers) r.claim)
      (hr : c.Teleported h c' r)

/-- The transactions that do not call the Verifier. -/
def SparesVerifier : ChainAction → Prop
  | .token _ | .depositNative _ _ | .depositToken _ _ | .withdrawNative _ _ _
  | .withdrawToken _ _ | .underlyingTransfer _ _ _ | .forceNative _ => True
  | _ => False

/-- The actions of the token and the Minter leave the Verifier alone. -/
theorem exec_sparesVerifier {c c' : Chain} {a : ChainAction} (hok : c.exec h d a = .ok c')
    (hspares : SparesVerifier a) : c'.verifier = c.verifier ∧ c'.records = c.records := by
  cases a with
  | token call =>
    simp only [exec, bind_eq_ok] at hok
    obtain ⟨_, -, t, -, hret⟩ := hok
    cases hret
    exact ⟨rfl, rfl⟩
  | depositNative sender value =>
    obtain ⟨-, -, t, -, rfl⟩ := depositNative_eq_ok h hok
    exact ⟨rfl, rfl⟩
  | depositToken sender amount =>
    obtain ⟨-, -, c₁, t, hmove, -, rfl⟩ := depositToken_eq_ok h hok
    obtain ⟨-, rfl⟩ := moveUnderlying_eq_ok hmove
    exact ⟨rfl, rfl⟩
  | withdrawNative sender amount success =>
    obtain ⟨-, -, t, -, rfl⟩ := withdrawNative_eq_ok h hok
    exact ⟨rfl, rfl⟩
  | withdrawToken sender amount =>
    obtain ⟨-, -, t, -, hmove⟩ := withdrawToken_eq_ok h hok
    obtain ⟨-, rfl⟩ := moveUnderlying_eq_ok hmove
    exact ⟨rfl, rfl⟩
  | underlyingTransfer sender dst amount =>
    obtain ⟨_, -, hmove⟩ := bind_eq_ok.mp hok
    obtain ⟨-, rfl⟩ := moveUnderlying_eq_ok hmove
    exact ⟨rfl, rfl⟩
  | forceNative value =>
    cases hok
    exact ⟨rfl, rfl⟩
  | _ => exact hspares.elim

/-- The transactions that the Verifier takes from its owner alone. -/
def ByOwner : ChainAction → Prop
  | .setPeer _ _ _ | .activateEmergency _ | .deactivateEmergency _ | .setVerifiers _ _
  | .transferOwnership _ _ | .renounceOwnership _ => True
  | _ => False

/-- What the owner leaves alone: everything that proofs and messages lead to. -/
structure OwnerEffect (c : Chain) (a : ChainAction) (c' : Chain) : Prop where
  tables : c.verifier.SameTables c'.verifier
  latestRelayed : c'.verifier.latestRelayedIndex = c.verifier.latestRelayedIndex
  latestAggSeq : c'.verifier.latestAggSeq = c.verifier.latestAggSeq
  records : c'.records = c.records
  /-- Only `setPeer` rewires the Verifier. -/
  wiring : (∀ sender eid peer, a ≠ .setPeer sender eid peer) →
    c'.verifier.wiring = c.verifier.wiring

/-- The owner's actions are refused to everybody else, and set what they name. -/
theorem exec_byOwner {c c' : Chain} {a : ChainAction} (hok : c.exec h d a = .ok c')
    (howner : ByOwner a) : c.OwnerEffect a c' := by
  cases a with
  | setPeer sender eid peer =>
    obtain ⟨v, hv, rfl⟩ := withVerifier_eq_ok.mp hok
    obtain ⟨_, -, hret⟩ := bind_eq_ok.mp hv
    cases hret
    exact ⟨⟨rfl, rfl, rfl, rfl, rfl, fun _ _ _ hmem => hmem⟩, rfl, rfl, rfl,
      fun hpeer => absurd rfl (hpeer sender eid peer)⟩
  | activateEmergency sender =>
    obtain ⟨v, hv, rfl⟩ := withVerifier_eq_ok.mp hok
    simp only [Verifier.activateEmergency, Verifier.pause, bind_eq_ok] at hv
    obtain ⟨_, -, _, -, hret⟩ := hv
    cases hret
    exact ⟨⟨rfl, rfl, rfl, rfl, rfl, fun _ _ _ hmem => hmem⟩, rfl, rfl, rfl, fun _ => rfl⟩
  | deactivateEmergency sender =>
    obtain ⟨v, hv, rfl⟩ := withVerifier_eq_ok.mp hok
    simp only [Verifier.deactivateEmergency, Verifier.unpause, bind_eq_ok] at hv
    obtain ⟨_, -, v₁, ⟨_, -, hret⟩, hret'⟩ := hv
    cases hret
    cases hret'
    exact ⟨Verifier.sameTables_of_log .deactivateEmergency (by simp) rfl rfl rfl rfl rfl rfl,
      rfl, rfl, rfl, fun _ => rfl⟩
  | setVerifiers sender verifiers =>
    obtain ⟨v, hv, rfl⟩ := withVerifier_eq_ok.mp hok
    obtain ⟨_, -, hret⟩ := bind_eq_ok.mp hv
    obtain ⟨_, -, hret⟩ := bind_eq_ok.mp hret
    cases hret
    exact ⟨Verifier.sameTables_of_log (.verifiersSet verifiers) (by simp) rfl rfl rfl rfl rfl rfl,
      rfl, rfl, rfl, fun _ => rfl⟩
  | transferOwnership sender newOwner =>
    obtain ⟨v, hv, rfl⟩ := withVerifier_eq_ok.mp hok
    obtain ⟨_, -, hret⟩ := bind_eq_ok.mp hv
    obtain ⟨_, -, hret⟩ := bind_eq_ok.mp hret
    cases hret
    exact ⟨⟨rfl, rfl, rfl, rfl, rfl, fun _ _ _ hmem => hmem⟩, rfl, rfl, rfl, fun _ => rfl⟩
  | renounceOwnership sender =>
    obtain ⟨v, hv, rfl⟩ := withVerifier_eq_ok.mp hok
    obtain ⟨_, -, hret⟩ := bind_eq_ok.mp hv
    cases hret
    exact ⟨⟨rfl, rfl, rfl, rfl, rfl, fun _ _ _ hmem => hmem⟩, rfl, rfl, rfl, fun _ => rfl⟩
  | _ => exact howner.elim

/-- What any action does to the Verifier. -/
theorem exec_verifierCause {c c' : Chain} {a : ChainAction} (hok : c.exec h d a = .ok c') :
    c.VerifierCause h d a c' := by
  cases a with
  | reserveHashChain =>
    obtain ⟨v, hv, rfl⟩ := withVerifier_eq_ok.mp hok
    exact .reserve (Except.ok.inj hv).symm rfl
  | proveTransferRoot p =>
    obtain ⟨v, hv, rfl⟩ := withVerifier_eq_ok.mp hok
    exact .prove p rfl hv rfl
  | teleport isGlobal rootHint gr proof =>
    obtain ⟨r, hclaims, hr⟩ := teleport_eq_ok h d hok
    exact .teleport r hclaims hr
  | singleTeleport isGlobal rootHint gr proof =>
    obtain ⟨r, hclaims, hr⟩ := singleTeleport_eq_ok h d hok
    exact .teleport r hclaims hr
  | relayTransferRoot =>
    obtain ⟨v, hv, rfl⟩ := withVerifier_eq_ok.mp hok
    obtain ⟨⟨root, index⟩, -, hret⟩ := bind_eq_ok.mp hv
    cases hret
    exact .tables (Verifier.sameTables_of_log (.transferRootRelayed index root) (by simp)
      rfl rfl rfl rfl rfl rfl) rfl
  | lzReceive sender srcEid originSender payload =>
    obtain ⟨v, hv, rfl⟩ := withVerifier_eq_ok.mp hok
    exact .receive sender srcEid originSender payload rfl hv rfl
  | setPeer | activateEmergency | deactivateEmergency | setVerifiers | transferOwnership
  | renounceOwnership =>
    have hadmin := exec_byOwner h d hok trivial
    exact .tables hadmin.tables hadmin.records
  | _ =>
    -- the transactions that spare the Verifier
    obtain ⟨hverifier, hrecords⟩ := exec_sparesVerifier h d hok trivial
    refine .tables ?_ hrecords
    rw [hverifier]
    exact Verifier.SameTables.refl _

/-- The addresses of a deployment. -/
def config (c : Chain) : ℕ × Address × Address × Address :=
  (c.chainId, c.verifierAddr, c.minterAddr, c.tokenAddress)

/-- The wiring of a chain is fixed at deployment. -/
theorem exec_config {c c' : Chain} {a : ChainAction} (hok : c.exec h d a = .ok c') :
    c'.config = c.config := by
  cases a with
  | token call =>
    simp only [exec, bind_eq_ok] at hok
    obtain ⟨_, -, t, -, hret⟩ := hok
    cases hret
    rfl
  | teleport isGlobal rootHint gr proof =>
    obtain ⟨r, -, hr⟩ := teleport_eq_ok h d hok
    rw [hr.result]
    rfl
  | singleTeleport isGlobal rootHint gr proof =>
    obtain ⟨r, -, hr⟩ := singleTeleport_eq_ok h d hok
    rw [hr.result]
    rfl
  | depositNative sender value =>
    obtain ⟨-, -, t, -, rfl⟩ := depositNative_eq_ok h hok
    rfl
  -- what moves the underlying token keeps the configuration
  | depositToken sender amount =>
    obtain ⟨-, -, c₁, t, hmove, -, rfl⟩ := depositToken_eq_ok h hok
    obtain ⟨-, rfl⟩ := moveUnderlying_eq_ok hmove
    rfl
  | withdrawNative sender amount success =>
    obtain ⟨-, -, t, -, rfl⟩ := withdrawNative_eq_ok h hok
    rfl
  | withdrawToken sender amount =>
    obtain ⟨-, -, t, -, hmove⟩ := withdrawToken_eq_ok h hok
    obtain ⟨-, rfl⟩ := moveUnderlying_eq_ok hmove
    rfl
  | underlyingTransfer sender dst amount =>
    obtain ⟨_, -, hmove⟩ := bind_eq_ok.mp hok
    obtain ⟨-, rfl⟩ := moveUnderlying_eq_ok hmove
    rfl
  | forceNative value =>
    cases hok
    rfl
  | _ =>
    obtain ⟨v, -, rfl⟩ := withVerifier_eq_ok.mp hok
    rfl

theorem step_config (c : Chain) (a : ChainAction) : (c.step h d a).config = c.config := by
  rcases commit_cases c (c.exec h d a) with ⟨-, heq⟩ | hok
  · rw [step, heq]
  · exact exec_config h d hok

/-- A refused transaction changes nothing, so every step has a cause. -/
theorem step_verifierCause (c : Chain) (a : ChainAction) :
    c.VerifierCause h d a (c.step h d a) := by
  rcases commit_cases c (c.exec h d a) with ⟨-, heq⟩ | hok
  · rw [step, heq]
    exact .tables (Verifier.SameTables.refl _) rfl
  · exact exec_verifierCause h d hok

/-- Proved roots are write-once on every chain. -/
theorem step_proved_persist (c : Chain) (a : ChainAction) {i : ℕ}
    (hne : c.verifier.provedTransferRoots i ≠ 0) :
    (c.step h d a).verifier.provedTransferRoots i = c.verifier.provedTransferRoots i := by
  cases step_verifierCause h d c a with
  | tables htables hrecords => rw [htables.proved]
  | reserve heq hrecords =>
    rw [heq]
    rfl
  | prove p hp hok hrecords => exact Verifier.proveTransferRoot_persist hok hne
  | receive sender srcEid originSender payload ha hok hrecords =>
    obtain ⟨-, -, -, -, -, -, -, hproved, -⟩ := Verifier.lzReceive_eq_ok hok
    rw [hproved]
  | teleport r hclaims hr =>
    rw [hr.result]
    rfl

theorem step_bounded {c : Chain} (hc : c.verifier.Bounded) (a : ChainAction) :
    (c.step h d a).verifier.Bounded := by
  cases step_verifierCause h d c a with
  | tables htables hrecords =>
    refine ⟨?_, ?_⟩
    · rw [htables.proved]
      exact hc.root_lt
    · rw [htables.latestProved]
      exact hc.index_lt
  | reserve heq hrecords =>
    rw [heq]
    exact ⟨hc.root_lt, hc.index_lt⟩
  | prove p hp hok hrecords => exact Verifier.proveTransferRoot_bounded hc hok
  | receive sender srcEid originSender payload ha hok hrecords =>
    obtain ⟨-, -, -, -, -, -, -, hproved, -⟩ := Verifier.lzReceive_eq_ok hok
    exact ⟨by rw [hproved]; exact hc.root_lt,
      by rw [(Verifier.lzReceive_wiring hok).2]; exact hc.index_lt⟩
  | teleport r hclaims hr =>
    rw [hr.result]
    exact ⟨hc.root_lt, hc.index_lt⟩

/-- Only `setPeer` rewires a Verifier. -/
theorem exec_wiring {c c' : Chain} {a : ChainAction} (hok : c.exec h d a = .ok c')
    (hpeer : ∀ sender eid peer, a ≠ .setPeer sender eid peer) :
    c'.verifier.wiring = c.verifier.wiring := by
  cases a with
  | setPeer sender eid peer => exact absurd rfl (hpeer sender eid peer)
  | reserveHashChain =>
    obtain ⟨v, hv, rfl⟩ := withVerifier_eq_ok.mp hok
    cases hv
    rfl
  | proveTransferRoot p =>
    obtain ⟨v, hv, rfl⟩ := withVerifier_eq_ok.mp hok
    exact Verifier.proveTransferRoot_wiring hv
  | teleport isGlobal rootHint gr proof =>
    obtain ⟨r, -, hr⟩ := teleport_eq_ok h d hok
    rw [hr.result]
    rfl
  | singleTeleport isGlobal rootHint gr proof =>
    obtain ⟨r, -, hr⟩ := singleTeleport_eq_ok h d hok
    rw [hr.result]
    rfl
  -- the payload is returned, not stored
  | relayTransferRoot =>
    obtain ⟨v, hv, rfl⟩ := withVerifier_eq_ok.mp hok
    obtain ⟨⟨root, index⟩, -, hret⟩ := bind_eq_ok.mp hv
    cases hret
    rfl
  | lzReceive sender srcEid originSender payload =>
    obtain ⟨v, hv, rfl⟩ := withVerifier_eq_ok.mp hok
    exact (Verifier.lzReceive_wiring hv).1
  -- of what the owner can do only `setPeer` rewires, and it is excluded
  | activateEmergency | deactivateEmergency | setVerifiers | transferOwnership
  | renounceOwnership => exact (exec_byOwner h d hok trivial).wiring hpeer
  | _ => rw [(exec_sparesVerifier h d hok trivial).1]

/-- Every cause is one call of the token by some sender. -/
theorem TokenCause.effect {c : Chain} {t' : Token} (hcause : c.TokenCause h t') :
    ∃ sender, Token.Effect h sender c.token t' := by
  cases hcause with
  | none heq =>
    rw [heq]
    exact ⟨0, .admin (Token.SameLedger.refl _)⟩
  | external call hverifier hminter hok => exact ⟨_, Token.call_effect h hok⟩
  | teleport dst value hok =>
    obtain ⟨_, hrole, hmint⟩ := bind_eq_ok.mp hok
    exact ⟨_, .mint dst value (Or.inl (require_eq_ok.mp hrole)) hmint⟩
  | mint dst value hok =>
    obtain ⟨_, hrole, hmint⟩ := bind_eq_ok.mp hok
    exact ⟨_, .mint dst value (Or.inr (require_eq_ok.mp hrole)) hmint⟩
  | burn src value hok =>
    obtain ⟨_, hrole, hburn⟩ := bind_eq_ok.mp hok
    exact ⟨_, .burn src value (require_eq_ok.mp hrole) hburn⟩

/-- So is every step of the chain, seen from the token. -/
theorem step_tokenEffect (c : Chain) (a : ChainAction) :
    ∃ sender, Token.Effect h sender c.token (c.step h d a).token := by
  rcases commit_cases c (c.exec h d a) with ⟨-, heq⟩ | hok
  · rw [step, heq]
    exact ⟨0, .admin (Token.SameLedger.refl _)⟩
  · exact (exec_tokenCause h d hok).effect h

/-- The history of a chain only grows. -/
theorem step_events_grow (c : Chain) (a : ChainAction) :
    c.token.events <+: (c.step h d a).token.events := by
  obtain ⟨sender, heff⟩ := step_tokenEffect h d c a
  rcases heff.history h with ⟨hevents, -, -⟩ | ⟨tr, hevents, -, -⟩
  · rw [hevents]
  · rw [hevents]
    exact List.prefix_append _ _

/-- So the token's hash chain stays that of its events. -/
theorem step_historyInv {c : Chain} (hinv : c.token.HistoryInv h) (a : ChainAction) :
    (c.step h d a).token.HistoryInv h := by
  obtain ⟨sender, heff⟩ := step_tokenEffect h d c a
  exact heff.historyInv h hinv

end Chain

end Zerc20
