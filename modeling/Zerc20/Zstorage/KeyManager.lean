import Zerc20.Zstorage.Authorization
import Zerc20.Lib.Machine

/-!
# The key manager canister

`zstorage/backend/key_manager/src/lib.rs`. A canister runs one message at a time, and a call
that awaits another canister is two messages: `requestStart` is `request_encrypted_view_key` up
to its `vetkd_derive_key` call, and the reply of the management canister ends it. Other messages
may come in between. A message that returns an `Err` keeps what it has written. An upgrade
saves `STATE` to stable memory and restores it.

`derived` and `finished` are ghosts: the calls that reached `vetkd_derive_key`, in that order,
and the calls that ended, with the nonces before and after the call wrote to them.
-/

namespace Zerc20

namespace Zstorage

open Machine

/-- `max_nonce_by_address`. -/
abbrev Nonces := EthAddress → Option U64

structure Config where
  keyIdName : String
  deriving DecidableEq

structure State where
  config : Config
  maxNonceByAddress : Nonces

structure EncryptedViewKeyRequest where
  address : List UInt8
  transportPublicKey : List UInt8
  expiryNs : U64
  nonce : U64
  signature : List UInt8
  deriving DecidableEq

inductive RequestError where
  | addressLength
  | notInitialized
  | expired
  | nonceReuse
  | authorization (e : AuthorizationError)
  | signatureMismatch
  | deriveKey (e : String)
  deriving DecidableEq

def RequestError.text : RequestError → String
  | .addressLength => "address must be 20 bytes"
  | .notInitialized => "key manager not initialized"
  | .expired => "authorization expired"
  | .nonceReuse => "nonce reuse detected"
  | .authorization e => e.text
  | .signatureMismatch => "signature does not match address"
  | .deriveKey e => e

inductive VetKDCurve where
  | bls12_381_G2
  deriving DecidableEq

structure VetKDKeyId where
  curve : VetKDCurve
  name : String
  deriving DecidableEq

structure VetKDDeriveKeyArgs where
  context : List UInt8
  input : List UInt8
  keyId : VetKDKeyId
  transportPublicKey : List UInt8
  deriving DecidableEq

def CONTEXT_BASE : List UInt8 := Text.asBytes "icp-stealth-announcement-v1"

def contextForAddress (address : EthAddress) : List UInt8 := CONTEXT_BASE ++ address.toList

def toAddress (bytes : List UInt8) : Except RequestError EthAddress :=
  if hlen : bytes.length = 20 then .ok ⟨bytes, hlen⟩ else .error .addressLength

/-- What `get_max_nonce` reads, and the nonce a request has to exceed. -/
def State.maxNonce (s : State) (address : EthAddress) : U64 :=
  (s.maxNonceByAddress address).getD 0

/-- The block that checks and takes the nonce; `entry(..).or_default()` leaves an entry also
when the nonce is refused. -/
def State.takeNonce (s : State) (address : EthAddress) (nonce : U64) :
    State × Except RequestError Unit :=
  let entry := s.maxNonce address
  if nonce ≤ entry then
    ({ s with maxNonceByAddress := Function.update s.maxNonceByAddress address (some entry) },
      .error .nonceReuse)
  else
    ({ s with maxNonceByAddress := Function.update s.maxNonceByAddress address (some nonce) },
      .ok ())

section

variable {Principal : Type} (E : Encodings Principal) (K : Crypto) (canister : Principal)

/-- The signature of a request recovers to `address` over the request's own fields. -/
def SignedBy (request : EncryptedViewKeyRequest) (address : EthAddress) : Prop :=
  recoverAddressFromSignature K (authorizationMessage E canister address request.transportPublicKey
    request.expiryNs request.nonce) request.signature = .ok address

instance (request : EncryptedViewKeyRequest) (address : EthAddress) :
    Decidable (SignedBy E K canister request address) :=
  match hrec : recoverAddressFromSignature K (authorizationMessage E canister address
      request.transportPublicKey request.expiryNs request.nonce) request.signature with
  | .error e => isFalse (by rw [SignedBy, hrec]; exact nofun)
  | .ok a =>
    if heq : a = address then isTrue (by rw [SignedBy, hrec, heq])
    else isFalse (by rw [SignedBy, hrec]; exact fun hok => heq (Except.ok.inj hok))

def verifySignature (request : EncryptedViewKeyRequest) (address : EthAddress) :
    Except RequestError Unit :=
  let message := authorizationMessage E canister address request.transportPublicKey request.expiryNs
    request.nonce
  match recoverAddressFromSignature K message request.signature with
  | .error e => .error (.authorization e)
  | .ok recovered => if recovered ≠ address then .error .signatureMismatch else .ok ()

def deriveKeyArgs (config : Config) (request : EncryptedViewKeyRequest) (address : EthAddress) :
    VetKDDeriveKeyArgs where
  context := contextForAddress address
  input := []
  keyId := { curve := .bls12_381_G2, name := config.keyIdName }
  transportPublicKey := request.transportPublicKey

/-- `request_encrypted_view_key` up to the `vetkd_derive_key` call. -/
def requestStart (state : Option State) (now : U64) (request : EncryptedViewKeyRequest) :
    Option State × Except RequestError (EthAddress × VetKDDeriveKeyArgs) :=
  match toAddress request.address with
  | .error e => (state, .error e)
  | .ok address =>
    match state with
    | none => (state, .error .notInitialized)
    | some s =>
      if request.expiryNs < now then (state, .error .expired)
      else
        match s.takeNonce address request.nonce with
        | (s', .error e) => (some s', .error e)
        | (s', .ok ()) =>
          match verifySignature E K canister request address with
          | .error e => (some s', .error e)
          | .ok () => (some s', .ok (address, deriveKeyArgs s.config request address))

end

def getMaxNonce (state : Option State) (address : List UInt8) : Except RequestError U64 :=
  match toAddress address with
  | .error e => .error e
  | .ok address =>
    match state with
    | none => .error .notInitialized
    | some s => .ok (s.maxNonce address)

/-! ## Messages -/

/-- A call that waits for its key. -/
structure Call where
  now : U64
  request : EncryptedViewKeyRequest
  address : EthAddress
  args : VetKDDeriveKeyArgs
  before : Nonces
  after : Nonces

structure Finished where
  request : EncryptedViewKeyRequest
  before : Nonces
  after : Nonces
  result : Except RequestError (List UInt8)

structure KeyManager where
  state : Option State
  stable : Option (Option State)
  pending : List Call
  derived : List Call
  finished : List Finished

inductive KeyManagerAction where
  | requestEncryptedViewKey (now : U64) (request : EncryptedViewKeyRequest)
  | reply (i : ℕ) (result : Except String (List UInt8))
  | getMaxNonce (address : List UInt8)
  | upgrade

namespace KeyManager

/-- `init`. -/
def init (keyIdName : String) : KeyManager where
  state := some { config := { keyIdName }, maxNonceByAddress := fun _ => none }
  stable := none
  pending := []
  derived := []
  finished := []

def nonces (c : KeyManager) : Nonces := fun a => c.state.bind fun s => s.maxNonceByAddress a

def preUpgrade (c : KeyManager) : KeyManager := { c with stable := some c.state }

/-- `post_upgrade`; without a saved state it traps. -/
def postUpgrade (c : KeyManager) : KeyManager :=
  match c.stable with
  | none => c
  | some saved => { c with state := saved }

/-- The end of a call. -/
def reply (c : KeyManager) (i : ℕ) (result : Except String (List UInt8)) : KeyManager :=
  match c.pending[i]? with
  | none => c
  | some call => { c with
    pending := c.pending.eraseIdx i
    finished := c.finished ++ [{
      request := call.request
      before := call.before
      after := call.after
      result := result.mapError .deriveKey }] }

section

variable {Principal : Type} (E : Encodings Principal) (K : Crypto) (canister : Principal)

def requestEncryptedViewKey (c : KeyManager) (now : U64) (request : EncryptedViewKeyRequest) :
    KeyManager :=
  match requestStart E K canister c.state now request with
  | (state, .error e) =>
    let c' := { c with state }
    { c' with finished := c.finished ++ [{
      request, before := c.nonces, after := c'.nonces, result := .error e }] }
  | (state, .ok (address, args)) =>
    let c' := { c with state }
    let call : Call := { now, request, address, args, before := c.nonces, after := c'.nonces }
    { c' with pending := c.pending ++ [call], derived := c.derived ++ [call] }

def step (c : KeyManager) : KeyManagerAction → KeyManager
  | .requestEncryptedViewKey now request => c.requestEncryptedViewKey E K canister now request
  | .reply i result => c.reply i result
  | .getMaxNonce _ => c
  | .upgrade => c.preUpgrade.postUpgrade

end

end KeyManager

/-! ## What a request does -/

section

variable {Principal : Type} {E : Encodings Principal} {K : Crypto} {canister : Principal}

/-- An address is read from its 20 bytes only. -/
theorem toAddress_eq_ok {bytes : List UInt8} {a : EthAddress} :
    toAddress bytes = .ok a ↔ bytes = a.toList := by
  unfold toAddress
  constructor
  · intro hok
    split at hok
    · cases hok
      rfl
    · cases hok
  · rintro rfl
    exact dif_pos a.2

/-- The check accepts exactly what the address has signed. -/
theorem verifySignature_eq_ok {request : EncryptedViewKeyRequest} {a : EthAddress} :
    verifySignature E K canister request a = .ok () ↔ SignedBy E K canister request a := by
  unfold verifySignature SignedBy
  dsimp only
  cases recoverAddressFromSignature K (authorizationMessage E canister a request.transportPublicKey
    request.expiryNs request.nonce) request.signature with
  | error e => simp
  | ok recovered => by_cases heq : recovered = a <;> simp [heq]

/-- A request is refused before it touches the nonces, or it is refused for its nonce, or it
takes the nonce and is then refused for its signature or accepted. -/
inductive RequestCase (E : Encodings Principal) (K : Crypto) (canister : Principal) (now : U64)
    (request : EncryptedViewKeyRequest) :
    Option State → Option State → Except RequestError (EthAddress × VetKDDeriveKeyArgs) → Prop
  | early {state : Option State} (e : RequestError) (he : e ≠ .nonceReuse) :
      RequestCase E K canister now request state state (.error e)
  | reused {s : State} (a : EthAddress) (haddress : request.address = a.toList)
      (hexpiry : ¬ request.expiryNs < now) (hle : request.nonce ≤ s.maxNonce a) :
      RequestCase E K canister now request (some s) (some { s with
        maxNonceByAddress := Function.update s.maxNonceByAddress a (some (s.maxNonce a)) })
        (.error .nonceReuse)
  | unsigned {s : State} (a : EthAddress) (e : RequestError) (haddress : request.address = a.toList)
      (hexpiry : ¬ request.expiryNs < now) (hlt : s.maxNonce a < request.nonce)
      (hsigned : ¬ SignedBy E K canister request a) (he : e ≠ .nonceReuse) :
      RequestCase E K canister now request (some s) (some { s with
        maxNonceByAddress := Function.update s.maxNonceByAddress a (some request.nonce) })
        (.error e)
  | accepted {s : State} (a : EthAddress) (haddress : request.address = a.toList)
      (hexpiry : ¬ request.expiryNs < now) (hlt : s.maxNonce a < request.nonce)
      (hsigned : SignedBy E K canister request a) :
      RequestCase E K canister now request (some s) (some { s with
        maxNonceByAddress := Function.update s.maxNonceByAddress a (some request.nonce) })
        (.ok (a, deriveKeyArgs s.config request a))

theorem verifySignature_error {request : EncryptedViewKeyRequest} {a : EthAddress}
    {e : RequestError} (herror : verifySignature E K canister request a = .error e) :
    ¬ SignedBy E K canister request a ∧ e ≠ .nonceReuse := by
  refine ⟨fun hsigned => ?_, ?_⟩
  · rw [verifySignature_eq_ok.mpr hsigned] at herror
    cases herror
  · unfold verifySignature at herror
    dsimp only at herror
    split at herror
    · cases herror
      exact nofun
    · split at herror <;> cases herror
      exact nofun

variable (E K canister) in
/-- The first part of a request, by how it ends: an early refusal, or the nonce is stored and then
the signature decides. -/
theorem requestStart_case (state : Option State) (now : U64) (request : EncryptedViewKeyRequest) :
    RequestCase E K canister now request state (requestStart E K canister state now request).1
      (requestStart E K canister state now request).2 := by
  unfold requestStart
  cases haddress : toAddress request.address with
  | error e =>
    refine .early e ?_
    unfold toAddress at haddress
    split at haddress <;> cases haddress
    exact nofun
  | ok a =>
    replace haddress := toAddress_eq_ok.mp haddress
    cases state with
    | none => exact .early _ nofun
    | some s =>
      by_cases hexpiry : request.expiryNs < now
      · simp only [if_pos hexpiry]
        exact .early _ nofun
      · simp only [if_neg hexpiry]
        -- the entry is written even when the nonce is refused, and before the signature is checked
        by_cases hle : request.nonce ≤ s.maxNonce a
        · simp only [State.takeNonce, if_pos hle]
          exact .reused a haddress hexpiry hle
        · simp only [State.takeNonce, if_neg hle]
          replace hle := Fin.not_le.mp hle
          cases hverify : verifySignature E K canister request a with
          | error e =>
            obtain ⟨hsigned, he⟩ := verifySignature_error hverify
            exact .unsigned a e haddress hexpiry hle hsigned he
          | ok _ => exact .accepted a haddress hexpiry hle (verifySignature_eq_ok.mp hverify)

end

end Zstorage

end Zerc20
