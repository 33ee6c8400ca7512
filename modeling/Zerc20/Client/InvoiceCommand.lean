import Zerc20.Client.Batch
import Zerc20.Client.Invoice
import Zerc20.Lib.Text
import Mathlib.Data.FinEnum

/-!
# Issuing and receiving an invoice

The commands of `cli/src/commands/invoice.rs`. `issue` derives the burn addresses of an invoice
from the issuer's key, for a recipient of the issuer's choice; `receive` derives them again from
the key of whoever runs it, for the chain of its own argument.

* `issue_inv` — what an issued invoice consists of.
* `shared_address` — two derivations have an address in common only if they have the same seed and
  chain, or collide.
* `issued_received_iff` — an issued invoice can be received by its issuer, for its chain.

The signatures of the wallet and the storage canister are parameters.
-/

namespace Zerc20

namespace Client

open Machine Radix

/-! ## Invoice ids (`client-common/src/payment/invoice.rs`) -/

def SINGLE_FLAG_MASK : UInt8 := 0x80

/-- `random_invoice_id`; `random` is what `OsRng` fills the bytes with. -/
def randomInvoiceId (random : Word) (single : Bool) (chainId : Fin (2 ^ 64)) : Word :=
  let bytes := bytesBE 32 random.val
  let first := if single then bytes.headD 0 ||| SINGLE_FLAG_MASK
    else bytes.headD 0 &&& ~~~SINGLE_FLAG_MASK
  Fin.ofNat _ (ofBytesBE ([first] ++ bytesBE 8 chainId.val ++ bytes.drop 9))

def isSingle (invoiceId : Word) : Bool :=
  (bytesBE 32 invoiceId.val).headD 0 &&& SINGLE_FLAG_MASK != 0

def extractChainId (invoiceId : Word) : Fin (2 ^ 64) :=
  Fin.ofNat _ (ofBytesBE (FullBurnAddress.slice (bytesBE 32 invoiceId.val) 1 9))

theorem bytesBE_fin_ofNat {bytes : List UInt8} (hlength : bytes.length = 32) :
    bytesBE 32 (Fin.ofNat (2 ^ 256) (ofBytesBE bytes)).val = bytes := by
  have hlt := ofBytesBE_lt bytes
  have hback := bytesBE_ofBytesBE bytes
  rw [hlength] at hlt hback
  rw [Fin.val_ofNat, Nat.mod_eq_of_lt (Nat.lt_of_lt_of_eq hlt (by norm_num)), hback]

section

variable (random : Word) (single : Bool) (chainId : Fin (2 ^ 64))

/-- The random id has its flag in the first byte, the chain id behind it and random bytes in the
rest. -/
theorem bytesBE_randomInvoiceId : bytesBE 32 (randomInvoiceId random single chainId).val
    = [if single then (bytesBE 32 random.val).headD 0 ||| SINGLE_FLAG_MASK
        else (bytesBE 32 random.val).headD 0 &&& ~~~SINGLE_FLAG_MASK]
      ++ bytesBE 8 chainId.val ++ (bytesBE 32 random.val).drop 9 :=
  bytesBE_fin_ofNat (by simp)

theorem or_flag (b : UInt8) : (b ||| SINGLE_FLAG_MASK) &&& SINGLE_FLAG_MASK != 0 := by
  revert b
  decide +kernel

theorem and_not_flag (b : UInt8) :
    ((b &&& ~~~SINGLE_FLAG_MASK) &&& SINGLE_FLAG_MASK != 0) = false := by
  revert b
  decide +kernel

/-- The id says in which mode it was issued. -/
theorem isSingle_randomInvoiceId : isSingle (randomInvoiceId random single chainId) = single := by
  rw [isSingle, bytesBE_randomInvoiceId]
  cases single with
  | true => exact or_flag _
  | false => exact and_not_flag _

/-- The id says for which chain it was issued. -/
theorem extractChainId_randomInvoiceId :
    extractChainId (randomInvoiceId random single chainId) = chainId := by
  rw [extractChainId, bytesBE_randomInvoiceId,
    FullBurnAddress.slice_append _ _ _ (by simp) (by simp)]
  exact FullBurnAddress.fin_ofNat_bytesBE (by norm_num) chainId

end

/-! ## The commands -/

/-- `SEED_MESSAGE` of `client-common/src/payment/seed.rs`. -/
def SEED_MESSAGE : String :=
  "zERC20 | Seed Derivation\n\nYou are signing to derive a private seed used ONLY to generate\n" ++
  "one-time burn receiving addresses for zERC20.\n\nFacts:\n- Not a transaction; no gas or " ++
  "approvals.\n- Cannot move funds or grant permissions.\n- If this signature is exposed, " ++
  "privacy may be reduced\n  (burn addresses may become linkable). Funds remain safe.\n" ++
  "- Keep this signature private.\n\nDetails:\n- App: zERC20\n" ++
  "- Purpose: Seed for burn address derivation\n- Version: 1"

/-- The keys of the wallets, by `alloy` and `k256`: `signMessage` is `none` at an invalid key. -/
structure Wallets where
  signMessage : (privateKey : Word) → (message : List UInt8) → Option (List UInt8)
  address : (privateKey : Word) → Address
  signInvoice : (privateKey invoiceId : Word) → Option (List UInt8)

structure InvoiceSubmission where
  invoiceId : List UInt8
  signature : List UInt8

/-- The storage canister. -/
structure StealthClient where
  listInvoices : Address → Except String (List (List UInt8))
  submitInvoice : InvoiceSubmission → Except String Unit

structure TokenEntry where
  label : String
  chainId : Fin (2 ^ 64)

structure InvoiceIssueArgs where
  chainId : Fin (2 ^ 64)
  recipient : Option Address
  batch : Bool

structure InvoiceReceiveArgs where
  chainId : Fin (2 ^ 64)
  invoiceId : Word

inductive InvoiceError where
  | noTokens (chainId : Fin (2 ^ 64))
  | multipleTokens (chainId : Fin (2 ^ 64))
  | hubRequired
  | seed
  | listInvoices (recipient : Address) (message : String)
  | invoiceIdLength (got : ℕ)
  | signature
  | submitInvoice (label message : String)
  | proofOfWork (e : Zkp.BurnAddressError)
  /-- Not an error of the source: a search is still running. -/
  | unfinished
  deriving DecidableEq

/-- What `issue` prints. -/
structure IssuedInvoice where
  recipient : Address
  recipientChainId : Fin (2 ^ 64)
  batch : Bool
  invoiceId : Word
  burnAddresses : List Address
  deriving DecidableEq

def decodeInvoiceId (bytes : List UInt8) : Except InvoiceError Word := do
  require (bytes.length = 32) (.invoiceIdLength bytes.length)
  return Fin.ofNat _ (ofBytesBE bytes)

/-- The loop over `random_invoice_id`: the first of the ids that the draws give and that is new. -/
def freshInvoiceId (draws : List Word) (single : Bool) (chainId : Fin (2 ^ 64))
    (existing : List Word) : Option Word :=
  (draws.map fun random => randomInvoiceId random single chainId).find? fun id => id ∉ existing

section

variable (h : Hashes) (keccak256 : List UInt8 → Word) (W : Wallets)

def computeSeedFromSignature (privateKey : Word) : Except InvoiceError Word := do
  let signature ← okOr (W.signMessage privateKey (Text.asBytes SEED_MESSAGE)) .seed
  return keccak256 signature

/-- The burn address of a derivation, with what it was derived from. -/
def burnOf (derive : Fin (2 ^ 64) → Address → Option SecretAndTweak) (chainId : Fin (2 ^ 64))
    (address : Address) : Except InvoiceError (Address × SecretAndTweak) := do
  let secretAndTweak ← okOr (derive chainId address) .unfinished
  let burnPayload ← (FullBurnAddress.new h chainId address secretAndTweak).mapError .proofOfWork
  let burnAddress ← (burnPayload.burnAddress h).mapError .proofOfWork
  return (burnAddress, secretAndTweak)

/-- The two branches of both commands: one address, or one for each sub id. -/
def invoiceBurns (single : Bool) (invoiceId seed : Word) (chainId : Fin (2 ^ 64))
    (address : Address) : Except InvoiceError (List (Address × SecretAndTweak)) := do
  if single then
    let burn ← burnOf h (singleInvoice h keccak256 invoiceId seed) chainId address
    return [burn]
  else
    (List.range NUM_BATCH_INVOICES).mapM fun subId =>
      burnOf h (batchInvoice h keccak256 invoiceId (Fin.ofNat _ subId) seed) chainId address

def issue (client : StealthClient) (draws : List Word) (args : InvoiceIssueArgs)
    (tokens : List TokenEntry) (privateKey : Word) : Except InvoiceError IssuedInvoice := do
  let entry ← findTokenByChain TokenEntry.chainId .noTokens .multipleTokens tokens args.chainId
  let seed ← computeSeedFromSignature keccak256 W privateKey
  let recipient := args.recipient.getD (W.address privateKey)
  let recipientChainId := entry.chainId
  let raw ← (client.listInvoices recipient).mapError (.listInvoices recipient)
  let existing ← raw.mapM decodeInvoiceId
  let invoiceId ← okOr (freshInvoiceId draws (!args.batch) entry.chainId existing) .unfinished
  let signature ← okOr (W.signInvoice privateKey invoiceId) .signature
  (client.submitInvoice ⟨bytesBE 32 invoiceId.val, signature⟩).mapError (.submitInvoice entry.label)
  let burns ← invoiceBurns h keccak256 (!args.batch) invoiceId seed recipientChainId recipient
  return ⟨recipient, recipientChainId, args.batch, invoiceId, burns.map Prod.fst⟩

/-- `build_invoice_receive_context` up to the map from burn addresses, as the list of its
insertions. -/
def receiveBurns (args : InvoiceReceiveArgs) (tokens : List TokenEntry) (hub : Bool)
    (privateKey : Word) : Except InvoiceError (List (Address × SecretAndTweak)) := do
  require (hub = true) .hubRequired
  let _ ← findTokenByChain TokenEntry.chainId .noTokens .multipleTokens tokens args.chainId
  let seed ← computeSeedFromSignature keccak256 W privateKey
  let recipientAddress := W.address privateKey
  let recipientChainId := args.chainId
  invoiceBurns h keccak256 (isSingle args.invoiceId) args.invoiceId seed recipientChainId
    recipientAddress

end

/-! ## Two derivations of one invoice -/

/-- What the burn addresses of an invoice are derived from. -/
structure Derivation where
  seed : Word
  chainId : Fin (2 ^ 64)
  address : Address

namespace Derivation

section

variable (h : Hashes) (keccak256 : List UInt8 → Word) (single : Bool) (invoiceId : Word)

def tweak (d : Derivation) : Word :=
  keccak256 (INVOICE_TWEAK_DOMAIN ++ bytesBE 32 d.seed.val ++ bytesBE 32 invoiceId.val)

def gr (d : Derivation) : GeneralRecipient :=
  newEvm d.chainId d.address (d.tweak keccak256 invoiceId)

def burns (d : Derivation) : Except InvoiceError (List (Address × SecretAndTweak)) :=
  invoiceBurns h keccak256 single invoiceId d.seed d.chainId d.address

/-- A burn address of both, of different recipients or secrets. -/
def BurnsCollide (d d' : Derivation) : Prop :=
  ∃ burns burns', d.burns h keccak256 single invoiceId = .ok burns
    ∧ d'.burns h keccak256 single invoiceId = .ok burns'
    ∧ ∃ x ∈ burns, ∃ x' ∈ burns', x.1 = x'.1
      ∧ ((d.gr keccak256 invoiceId).toFr h, b256ToFr x.2.secret)
        ≠ ((d'.gr keccak256 invoiceId).toFr h, b256ToFr x'.2.secret)

/-- Keccak on the tweaks, SHA-256 on the recipients or Poseidon on the burn addresses. -/
def Collide (d d' : Derivation) : Prop :=
  (d.seed ≠ d'.seed ∧ d.tweak keccak256 invoiceId = d'.tweak keccak256 invoiceId)
  ∨ (d.gr keccak256 invoiceId).Collide h (d'.gr keccak256 invoiceId)
  ∨ BurnsCollide h keccak256 single invoiceId d d'

end

section

variable {h : Hashes} {keccak256 : List UInt8 → Word} {single : Bool} {invoiceId : Word}
  {d d' : Derivation} {burns burns' : List (Address × SecretAndTweak)}

/-- Every mode has an address. -/
theorem burns_ne_nil (hburns : d.burns h keccak256 single invoiceId = .ok burns) : burns ≠ [] := by
  cases single with
  | true =>
    obtain ⟨burn, -, hret⟩ := bind_eq_ok.mp hburns
    cases Except.ok.inj hret
    exact List.cons_ne_nil _ _
  | false =>
    rintro rfl
    have hlength := mapM_length hburns
    rw [List.length_range] at hlength
    exact absurd hlength (by decide)

/-- **A shared address**: the same seed and chain, or a collision. -/
theorem shared_address (hburns : d.burns h keccak256 single invoiceId = .ok burns)
    (hburns' : d'.burns h keccak256 single invoiceId = .ok burns') {a : Address}
    (ha : a ∈ burns.map Prod.fst) (ha' : a ∈ burns'.map Prod.fst) :
    (d.seed = d'.seed ∧ d.chainId = d'.chainId) ∨ Collide h keccak256 single invoiceId d d' := by
  obtain ⟨x, hx, hxa⟩ := List.mem_map.mp ha
  obtain ⟨x', hx', hxa'⟩ := List.mem_map.mp ha'
  -- the preimages of the address differ: a collision of the burn hash
  by_cases hpair : ((d.gr keccak256 invoiceId).toFr h, b256ToFr x.2.secret)
      = ((d'.gr keccak256 invoiceId).toFr h, b256ToFr x'.2.secret)
  swap
  · refine Or.inr (Or.inr (Or.inr ⟨burns, burns', hburns, hburns', x, hx, x', hx', ?_, hpair⟩))
    rw [hxa, hxa']
  have hhash : (d.gr keccak256 invoiceId).hash h = (d'.gr keccak256 invoiceId).hash h := by
    rw [← GeneralRecipient.toFr_val, ← GeneralRecipient.toFr_val]
    exact congrArg (fun p : Fr × Fr => p.1.val) hpair
  -- or those of the recipient
  by_cases hgr : d.gr keccak256 invoiceId = d'.gr keccak256 invoiceId
  swap
  · exact Or.inr (Or.inr (Or.inl ⟨hgr, hhash⟩))
  have hchain : d.chainId = d'.chainId := congrArg GeneralRecipient.chainId hgr
  have htweak : d.tweak keccak256 invoiceId = d'.tweak keccak256 invoiceId :=
    congrArg GeneralRecipient.tweak hgr
  -- or the seeds of the tweak
  by_cases hseed : d.seed = d'.seed
  · exact Or.inl ⟨hseed, hchain⟩
  · exact Or.inr (Or.inl ⟨hseed, htweak⟩)

end

end Derivation

/-! ## Issued and received -/

/-- Two keys with one seed, or a collision of the derivations of two seeds. -/
def InvoiceCollision (h : Hashes) (keccak256 : List UInt8 → Word) (W : Wallets) (single : Bool)
    (invoiceId : Word) (address : Address) (key key' : Word) (chainId chainId' : Fin (2 ^ 64)) :
    Prop :=
  (key ≠ key' ∧ computeSeedFromSignature keccak256 W key
    = computeSeedFromSignature keccak256 W key')
  ∨ ∃ seed seed', computeSeedFromSignature keccak256 W key = .ok seed
    ∧ computeSeedFromSignature keccak256 W key' = .ok seed'
    ∧ Derivation.Collide h keccak256 single invoiceId ⟨seed, chainId, address⟩
      ⟨seed', chainId', address⟩

section

variable {h : Hashes} {keccak256 : List UInt8 → Word} {W : Wallets} {client : StealthClient}
  {draws : List Word} {args : InvoiceIssueArgs} {tokens : List TokenEntry} {privateKey : Word}
  {issued : IssuedInvoice}

/-- What an issued invoice consists of. -/
theorem issue_inv (hissue : issue h keccak256 W client draws args tokens privateKey = .ok issued) :
    isSingle issued.invoiceId = !args.batch ∧ extractChainId issued.invoiceId = args.chainId
    ∧ ∃ seed burns, computeSeedFromSignature keccak256 W privateKey = .ok seed
      ∧ Derivation.burns h keccak256 (!args.batch) issued.invoiceId
        ⟨seed, args.chainId, issued.recipient⟩ = .ok burns
      ∧ issued.burnAddresses = burns.map Prod.fst := by
  -- the steps of the command in their order
  obtain ⟨entry, hentry, hissue⟩ := bind_eq_ok.mp hissue
  obtain ⟨seed, hseed, hissue⟩ := bind_eq_ok.mp hissue
  obtain ⟨raw, -, hissue⟩ := bind_eq_ok.mp hissue
  obtain ⟨existing, -, hissue⟩ := bind_eq_ok.mp hissue
  obtain ⟨invoiceId, hid, hissue⟩ := bind_eq_ok.mp hissue
  obtain ⟨signature, -, hissue⟩ := bind_eq_ok.mp hissue
  obtain ⟨_, -, hissue⟩ := bind_eq_ok.mp hissue
  obtain ⟨burns, hburns, hret⟩ := bind_eq_ok.mp hissue
  cases Except.ok.inj hret
  have hchain := (findTokenByChain_mem hentry).2
  obtain ⟨random, -, rfl⟩ := List.mem_map.mp (List.mem_of_find?_eq_some (okOr_eq_ok.mp hid))
  refine ⟨isSingle_randomInvoiceId _ _ _, ?_, seed, burns, hseed, ?_, rfl⟩
  · rw [extractChainId_randomInvoiceId, hchain]
  · rw [← hchain]
    exact hburns

/-- What a command that goes through has derived. -/
theorem receive_inv {args : InvoiceReceiveArgs} {hub : Bool}
    {burns : List (Address × SecretAndTweak)}
    (hreceive : receiveBurns h keccak256 W args tokens hub privateKey = .ok burns) :
    ∃ seed, computeSeedFromSignature keccak256 W privateKey = .ok seed
      ∧ Derivation.burns h keccak256 (isSingle args.invoiceId) args.invoiceId
        ⟨seed, args.chainId, W.address privateKey⟩ = .ok burns := by
  obtain ⟨_, -, hreceive⟩ := bind_eq_ok.mp hreceive
  obtain ⟨_, -, hreceive⟩ := bind_eq_ok.mp hreceive
  obtain ⟨seed, hseed, hburns⟩ := bind_eq_ok.mp hreceive
  exact ⟨seed, hseed, hburns⟩

/-- **An issued invoice can be received** by the owner of the recipient if and only if the owner is
the issuer and runs `receive` for the chain of the invoice. -/
theorem issued_received_iff
    (hissue : issue h keccak256 W client draws args tokens privateKey = .ok issued)
    {receiver : Word} (hreceiver : W.address receiver = issued.recipient)
    {tokens' : List TokenEntry} {hub : Bool} {chainId : Fin (2 ^ 64)}
    {burns : List (Address × SecretAndTweak)}
    (hreceive : receiveBurns h keccak256 W ⟨chainId, issued.invoiceId⟩ tokens' hub receiver
      = .ok burns) :
    isSingle issued.invoiceId = !args.batch ∧ extractChainId issued.invoiceId = args.chainId
    ∧ (receiver = privateKey ∧ chainId = args.chainId →
      ∀ a, a ∈ issued.burnAddresses ↔ a ∈ burns.map Prod.fst)
    ∧ (((∀ a, a ∈ issued.burnAddresses ↔ a ∈ burns.map Prod.fst)
        ↔ receiver = privateKey ∧ chainId = args.chainId)
      ∨ InvoiceCollision h keccak256 W (!args.batch) issued.invoiceId issued.recipient privateKey
        receiver args.chainId chainId) := by
  obtain ⟨hsingle, hchain, seed, printed, hseed, hprinted, haddresses⟩ := issue_inv hissue
  obtain ⟨seed', hseed', hburns⟩ := receive_inv hreceive
  rw [hsingle, hreceiver] at hburns
  -- the issuer derives the same addresses again
  have hown : receiver = privateKey ∧ chainId = args.chainId →
      ∀ a, a ∈ issued.burnAddresses ↔ a ∈ burns.map Prod.fst := by
    rintro ⟨rfl, rfl⟩ a
    rw [haddresses]
    rw [hseed] at hseed'
    cases hseed'
    rw [hprinted] at hburns
    cases hburns
    exact Iff.rfl
  refine ⟨hsingle, hchain, hown, ?_⟩
  by_cases hcollision : InvoiceCollision h keccak256 W (!args.batch) issued.invoiceId
      issued.recipient privateKey receiver args.chainId chainId
  · exact Or.inr hcollision
  refine Or.inl ⟨?_, hown⟩
  -- nobody else does, without a collision
  rw [haddresses]
  intro hsame
  obtain ⟨a, ha⟩ := List.exists_mem_of_ne_nil _
    (List.map_eq_nil_iff.not.mpr (Derivation.burns_ne_nil hprinted))
  rcases Derivation.shared_address hprinted hburns ha ((hsame a).mp ha) with ⟨hseeds, hchains⟩ | hc
  · refine ⟨?_, hchains.symm⟩
    by_contra hne
    refine hcollision (Or.inl ⟨Ne.symm hne, ?_⟩)
    rw [hseed, hseed']
    exact congrArg Except.ok hseeds
  · exact absurd (Or.inr ⟨seed, seed', hseed, hseed', hc⟩) hcollision

end

namespace InvoiceExample

/-- The address of the private key 2. -/
def otherAddress : Address := 0x2b5ad5c4795c026514f8317c7a215e218dccd6cf

def otherInvoiceId : Word :=
  0x8000000000000000010000000000000000000000000000000000000000004deb

/-- The wallets of the private keys 1 and 2, with the signatures that they make here. -/
def wallets : Wallets where
  signMessage privateKey _ :=
    if privateKey = 1 then some (bytesBE 65
      (0x9370ec5b04b57604fbf849afd28450f962ed84acad8736ac1a2cb5d21058d47e * 2 ^ 264
      + 0x232825f32433a12376539ecd9d833aad697da601eb48d699c08c4fa066660d681b))
    else if privateKey = 2 then some (bytesBE 65
      (0xcb5680325835f85a92aedf15d4998a1628bef66e5824653835ee92d34b598bb7 * 2 ^ 264
      + 0x7f1be050668e1bf17c8ad3aa693063f4bb942cc5edc5fe815adb67be413372311b))
    else none
  address privateKey := if privateKey = 1 then address else otherAddress
  signInvoice _ id :=
    some (bytesBE 65 (if id = invoiceId then
      (0x91ce93d40ff6092c264dc44c0fbf3acccd0cea77b3606e8f573aa860b4cd1e76 * 2 ^ 264
      + 0x429df4662cd2ce04d8c6f7ce7ba59a37275017d5acdfb2f7d2add2e404c6ab5f1b)
      else (0x34c1a1e36ff76d8e4d87b4405906357a2c6a8303fd7d9ab04e09b2fabff5c154 * 2 ^ 264
      + 0x6da6b2f4d95af1dc7b31730f093adf20b2e64ed2dcc5b0188983dbfe4a4a5a911c)))

def client : StealthClient where
  listInvoices _ := .ok []
  submitInvoice _ := .ok ()

def tokens : List TokenEntry := [⟨"ethereum", 1⟩]

def issued : IssuedInvoice where
  recipient := address
  recipientChainId := 1
  batch := false
  invoiceId := invoiceId
  burnAddresses := [0x79d53abc200b352b17a29123628db4a33db481af]

/-- An invoice of the private key 1 for the address of the private key 2. -/
def issuedForOther : IssuedInvoice where
  recipient := otherAddress
  recipientChainId := 1
  batch := false
  invoiceId := otherInvoiceId
  burnAddresses := [0x2f18e269af763d49a3eaf4a79f61ba7f434efda]

set_option maxRecDepth 10000 in
/-- The invoice that the owner of the key issues. -/
theorem issue_issued : issue realHashes Keccak.hash wallets client [invoiceId] ⟨1, none, false⟩
    tokens 1 = .ok issued := by
  decide +kernel

set_option maxRecDepth 10000 in
/-- Its burn address is received with the same key. -/
theorem receive_issued : receiveBurns realHashes Keccak.hash wallets ⟨1, invoiceId⟩ tokens true 1
    = .ok [(0x79d53abc200b352b17a29123628db4a33db481af, secretAndTweak)] := by
  decide +kernel

set_option maxRecDepth 10000 in
/-- The invoice issued for somebody else. -/
theorem issue_issuedForOther : issue realHashes Keccak.hash wallets client [otherInvoiceId]
    ⟨1, some otherAddress, false⟩ tokens 1 = .ok issuedForOther := by
  decide +kernel

set_option maxRecDepth 10000 in
/-- Their key derives another burn address for it. -/
theorem receive_issuedForOther : receiveBurns realHashes Keccak.hash wallets ⟨1, otherInvoiceId⟩
    tokens true 2 = .ok [(0xa5ce122a0840920ae74b930d5a3c5869510bf3e,
      ⟨0x2cc8738ae595503412a30bf05bc2830f8827c8747c591feb748627d731e73e71,
        0xda98f57b1ec76f0cd12cf22ddefc82c2189559447c9279efec376a67f5f9a6f8⟩)] := by
  decide +kernel

end InvoiceExample

theorem issued_received_own :
    ∃ burns, receiveBurns realHashes Keccak.hash InvoiceExample.wallets
        ⟨1, InvoiceExample.issued.invoiceId⟩ InvoiceExample.tokens true 1 = .ok burns
      ∧ (((∀ a, a ∈ InvoiceExample.issued.burnAddresses ↔ a ∈ burns.map Prod.fst)
          ↔ (1 : Word) = 1 ∧ (1 : Fin (2 ^ 64)) = 1)
        ∨ InvoiceCollision realHashes Keccak.hash InvoiceExample.wallets true
          InvoiceExample.issued.invoiceId InvoiceExample.issued.recipient 1 1 1 1) :=
  ⟨_, InvoiceExample.receive_issued, (issued_received_iff InvoiceExample.issue_issued
    (rfl : InvoiceExample.wallets.address 1 = _) InvoiceExample.receive_issued).2.2.2⟩

/-- An invoice issued for another's address: its owner derives another burn address. -/
theorem issued_lost :
    issue realHashes Keccak.hash InvoiceExample.wallets InvoiceExample.client
        [InvoiceExample.otherInvoiceId] ⟨1, some InvoiceExample.otherAddress, false⟩
        InvoiceExample.tokens 1 = .ok InvoiceExample.issuedForOther
      ∧ InvoiceExample.wallets.address 2 = InvoiceExample.issuedForOther.recipient
      ∧ ∃ burns, receiveBurns realHashes Keccak.hash InvoiceExample.wallets
          ⟨1, InvoiceExample.issuedForOther.invoiceId⟩ InvoiceExample.tokens true 2 = .ok burns
        ∧ ¬ ∀ a, a ∈ InvoiceExample.issuedForOther.burnAddresses ↔ a ∈ burns.map Prod.fst := by
  refine ⟨InvoiceExample.issue_issuedForOther, rfl, _, InvoiceExample.receive_issuedForOther, ?_⟩
  intro hsame
  have hprinted := (hsame 0x2f18e269af763d49a3eaf4a79f61ba7f434efda).mp (List.mem_singleton_self _)
  exact absurd (List.mem_singleton.mp hprinted) (by decide)

end Client

end Zerc20
