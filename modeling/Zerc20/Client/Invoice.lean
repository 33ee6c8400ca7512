import Zerc20.Client.Encodings
import Zerc20.Hash.Keccak
import Zerc20.Hash.Sha256

/-!
# Invoices and payment advices

`client-common/src/payment/invoice.rs` and `FullBurnAddress::new`: a wallet derives a secret and a
tweak from its seed and an id, and searches for a nonce that gives the secret its proof of work
(`find_pow_nonce` of `zkp/src/circuits/burn_address.rs`).

`Derived` says what a derivation returns, whichever of the three it is. `burn_addresses_agree`:
the burn address of a derived secret is the one that the circuit computes. Keccak is a parameter.
-/

namespace Zerc20

namespace Client

open Radix Zkp

/-! ## Field elements, words and addresses (`convertion.rs`) -/

def b256ToFr (x : Word) : Fr := u256ToFr x.val

def frToB256 (x : Fr) : Word := Fin.ofNat (2 ^ 256) (frToU256 x)

/-- `Address::into_word`, zeros in front. -/
def addressIntoWord (a : Address) : Word := Fin.castLE (by norm_num) a

theorem frToB256_val (x : Fr) : (frToB256 x).val = x.val := by
  rw [frToB256, frToU256_eq, Fin.val_ofNat]
  exact Nat.mod_eq_of_lt (Nat.lt_of_lt_of_eq (val_lt_bytes x) (by norm_num))

/-- A field element survives the way through 32 bytes. -/
theorem b256ToFr_frToB256 (x : Fr) : b256ToFr (frToB256 x) = x := by
  rw [b256ToFr, u256ToFr, frToB256_val, ZMod.natCast_zmod_val]

/-! ## The proof of work -/

section

variable (h : Hashes) (recipient seed : Fr)

def secretFromNonce (seed : Fr) (nonce : ℕ) : Fr := seed + (nonce : Fr)

def findPowNonceFrom : ℕ → ℕ → Option ℕ
  | 0, _ => none
  | fuel + 1, nonce =>
    match computeBurnAddressFromSecret h recipient (secretFromNonce seed nonce) with
    | .ok _ => some nonce
    | .error _ => findPowNonceFrom fuel (nonce + 1)

/-- `find_pow_nonce` over the nonces of 64 bits; `none` stands for a search that finds none. -/
def findPowNonce : Option ℕ := findPowNonceFrom h recipient seed (2 ^ 64) 0

variable {h recipient seed}

/-- The nonce that the search returns has a proof of work. -/
theorem findPowNonceFrom_works {fuel start nonce : ℕ}
    (hfound : findPowNonceFrom h recipient seed fuel start = some nonce) :
    ∃ a, computeBurnAddressFromSecret h recipient (secretFromNonce seed nonce) = .ok a := by
  induction fuel generalizing start with
  | zero => cases hfound
  | succ fuel ih =>
    rw [findPowNonceFrom] at hfound
    split at hfound
    · rename_i a hok
      cases hfound
      exact ⟨a, hok⟩
    · exact ih hfound

/-- The search finds a nonce if there is one. -/
theorem findPowNonceFrom_finds {fuel start nonce : ℕ} (hstart : start ≤ nonce)
    (hlt : nonce < start + fuel)
    (hworks : ∃ a, computeBurnAddressFromSecret h recipient (secretFromNonce seed nonce) = .ok a) :
    ∃ found, findPowNonceFrom h recipient seed fuel start = some found := by
  induction fuel generalizing start with
  | zero => omega
  | succ fuel ih =>
    rw [findPowNonceFrom]
    split
    · exact ⟨start, rfl⟩
    · rename_i e hfail
      have hne : start ≠ nonce := by
        rintro rfl
        obtain ⟨a, ha⟩ := hworks
        rw [hfail] at ha
        cases ha
      exact ih (by omega) (by omega)

end

/-! ## Secrets and tweaks -/

structure SecretAndTweak where
  secret : Word
  tweak : Word
  deriving DecidableEq

/-- `b"isec"`. -/
def INVOICE_SECRET_DOMAIN : List UInt8 := [0x69, 0x73, 0x65, 0x63]

/-- `b"itwk"`. -/
def INVOICE_TWEAK_DOMAIN : List UInt8 := [0x69, 0x74, 0x77, 0x6b]

/-- `b"psec"`. -/
def PAYMENT_ADVICE_SECRET_DOMAIN : List UInt8 := [0x70, 0x73, 0x65, 0x63]

/-- `b"ptwk"`. -/
def PAYMENT_ADVICE_TWEAK_DOMAIN : List UInt8 := [0x70, 0x74, 0x77, 0x6b]

/-- `GeneralRecipient::new_evm`. -/
def newEvm (chainId : Fin (2 ^ 64)) (address : Address) (tweak : Word) : GeneralRecipient :=
  ⟨chainId, addressIntoWord address, tweak⟩

section

variable (h : Hashes) (keccak256 : List UInt8 → Word)

def powAdjustedSecret (baseSecret tweak : Word) (recipientChainId : Fin (2 ^ 64))
    (recipientAddress : Address) : Option Word := do
  let gr := newEvm recipientChainId recipientAddress tweak
  let recipientFr := gr.toFr h
  let secretSeedFr := b256ToFr baseSecret
  let nonce ← findPowNonce h recipientFr secretSeedFr
  return frToB256 (secretFromNonce secretSeedFr nonce)

/-- The three derivations: two hashes, and the search for a nonce. -/
def secretAndTweak (secretPreimage tweakPreimage : List UInt8) (recipientChainId : Fin (2 ^ 64))
    (recipientAddress : Address) : Option SecretAndTweak := do
  let baseSecret := keccak256 secretPreimage
  let tweak := keccak256 tweakPreimage
  let secret ← powAdjustedSecret h baseSecret tweak recipientChainId recipientAddress
  return ⟨secret, tweak⟩

def singleInvoice (invoiceId seed : Word) : Fin (2 ^ 64) → Address → Option SecretAndTweak :=
  secretAndTweak h keccak256
    (INVOICE_SECRET_DOMAIN ++ bytesBE 32 seed.val ++ bytesBE 32 invoiceId.val)
    (INVOICE_TWEAK_DOMAIN ++ bytesBE 32 seed.val ++ bytesBE 32 invoiceId.val)

/-- The tweak does not depend on the sub id. -/
def batchInvoice (invoiceId : Word) (subId : Fin (2 ^ 32)) (seed : Word) :
    Fin (2 ^ 64) → Address → Option SecretAndTweak :=
  secretAndTweak h keccak256
    (INVOICE_SECRET_DOMAIN ++ bytesBE 32 seed.val ++ bytesBE 32 invoiceId.val
      ++ bytesBE 4 subId.val)
    (INVOICE_TWEAK_DOMAIN ++ bytesBE 32 seed.val ++ bytesBE 32 invoiceId.val)

def paymentAdvice (paymentAdviceId seed : Word) :
    Fin (2 ^ 64) → Address → Option SecretAndTweak :=
  secretAndTweak h keccak256
    (PAYMENT_ADVICE_SECRET_DOMAIN ++ bytesBE 32 seed.val ++ bytesBE 32 paymentAdviceId.val)
    (PAYMENT_ADVICE_TWEAK_DOMAIN ++ bytesBE 32 seed.val ++ bytesBE 32 paymentAdviceId.val)

/-- `FullBurnAddress::new`. -/
def FullBurnAddress.new (recipientChainId : Fin (2 ^ 64)) (recipientAddress : Address)
    (st : SecretAndTweak) : Except BurnAddressError FullBurnAddress := do
  let gr := newEvm recipientChainId recipientAddress st.tweak
  let _ ← computeBurnAddressFromSecret h (gr.toFr h) (b256ToFr st.secret)
  return ⟨gr, st.secret⟩

end

/-! ## What a derivation returns -/

/-- The secret is a canonical word with a proof of work for the recipient of the tweak. -/
structure Derived (h : Hashes) (chainId : Fin (2 ^ 64)) (address : Address)
    (st : SecretAndTweak) : Prop where
  canonical : frToB256 (b256ToFr st.secret) = st.secret
  works : ∃ a, computeBurnAddressFromSecret h ((newEvm chainId address st.tweak).toFr h)
    (b256ToFr st.secret) = .ok a

section

variable {h : Hashes} {keccak256 : List UInt8 → Word} {chainId : Fin (2 ^ 64)}
  {address : Address} {st : SecretAndTweak}

/-- The secret after the search for the proof of work is still derived from the base secret. -/
theorem powAdjustedSecret_derived {baseSecret tweak secret : Word}
    (hsecret : powAdjustedSecret h baseSecret tweak chainId address = some secret) :
    Derived h chainId address ⟨secret, tweak⟩ := by
  simp only [powAdjustedSecret, Option.bind_eq_bind, Option.bind_eq_some_iff, Option.pure_def,
    Option.some.injEq] at hsecret
  obtain ⟨nonce, hnonce, rfl⟩ := hsecret
  obtain ⟨a, ha⟩ := findPowNonceFrom_works hnonce
  constructor
  · rw [b256ToFr_frToB256]
  · rw [b256ToFr_frToB256]
    exact ⟨a, ha⟩

/-- **Every derivation that returns** gives its secret a proof of work. -/
theorem secretAndTweak_derived {secretPreimage tweakPreimage : List UInt8}
    (hst : secretAndTweak h keccak256 secretPreimage tweakPreimage chainId address = some st) :
    Derived h chainId address st := by
  simp only [secretAndTweak, Option.bind_eq_bind, Option.bind_eq_some_iff, Option.pure_def,
    Option.some.injEq] at hst
  obtain ⟨secret, hsecret, rfl⟩ := hst
  exact powAdjustedSecret_derived hsecret

/-- A derivation returns if some nonce has a proof of work. -/
theorem exists_secretAndTweak {secretPreimage tweakPreimage : List UInt8} {nonce : ℕ}
    (hlt : nonce < 2 ^ 64)
    (hworks : ∃ a, computeBurnAddressFromSecret h
      ((newEvm chainId address (keccak256 tweakPreimage)).toFr h)
      (secretFromNonce (b256ToFr (keccak256 secretPreimage)) nonce) = .ok a) :
    ∃ st, secretAndTweak h keccak256 secretPreimage tweakPreimage chainId address = some st := by
  obtain ⟨found, hfound⟩ := findPowNonceFrom_finds (Nat.zero_le nonce)
    (hlt.trans_eq (Nat.zero_add _).symm) hworks
  have hsecret : powAdjustedSecret h (keccak256 secretPreimage) (keccak256 tweakPreimage) chainId
      address = some (frToB256 (secretFromNonce (b256ToFr (keccak256 secretPreimage)) found)) :=
    Option.bind_eq_some_iff.mpr ⟨found, hfound, rfl⟩
  exact ⟨_, Option.bind_eq_some_iff.mpr ⟨_, hsecret, rfl⟩⟩

/-- The wallet's burn address of a derived secret, as the circuit has it. -/
theorem Derived.burnAddress (hst : Derived h chainId address st) :
    ∃ a : Address, FullBurnAddress.new h chainId address st
        = .ok ⟨newEvm chainId address st.tweak, st.secret⟩
      ∧ FullBurnAddress.burnAddress h ⟨newEvm chainId address st.tweak, st.secret⟩ = .ok a
      ∧ burnAddressVar h ((newEvm chainId address st.tweak).toFr h) (b256ToFr st.secret) true
        = some (addressToFr a) := by
  obtain ⟨x, hx⟩ := hst.works
  have hwallet : FullBurnAddress.burnAddress h ⟨newEvm chainId address st.tweak, st.secret⟩
      = .ok (frToAddress x) := by
    rw [FullBurnAddress.burnAddress, ← GeneralRecipient.toFr_eq]
    show (computeBurnAddressFromSecret h _ (b256ToFr st.secret) >>= _) = _
    rw [hx]
    rfl
  refine ⟨frToAddress x, ?_, hwallet, ?_⟩
  · rw [FullBurnAddress.new, hx]
    rfl
  · rw [burnAddressVar_true_eq_some, GeneralRecipient.toFr_eq]
    rw [FullBurnAddress.burnAddress_eq_ok] at hwallet
    exact hwallet

end

/-! ## Host, circuit and wallet -/

/-- A burn address is the lower 160 bits of the hash. -/
theorem computeBurnAddressFromSecret_val {h : Hashes} {recipient secret a : Fr}
    (ha : computeBurnAddressFromSecret h recipient secret = .ok a) :
    a.val = (h.poseidon2 recipient secret).val % 2 ^ 160 := by
  rw [computeBurnAddressFromSecret] at ha
  split at ha
  · cases ha
  · rw [← Except.ok.inj ha, Nat.and_two_pow_sub_one_eq_mod, ADDRESS_BIT_LENGTH]
    exact val_natCast_of_lt_two_pow (n := 160) (by omega) (Nat.mod_lt _ (by positivity))

/-- Without the constraint the circuit returns the low 160 bits of the hash. -/
theorem burnAddressVar_false_eq (h : Hashes) (recipient secret : Fr) :
    burnAddressVar h recipient secret false
      = some (((h.poseidon2 recipient secret).val % 2 ^ 160 : ℕ) : Fr) := by
  refine (enforce_bind_eq_some _ _ _).mpr ⟨fun bit _ => mul_zero _, ?_⟩
  rw [leBitsToFp_address, Nat.and_two_pow_sub_one_eq_mod, ADDRESS_BIT_LENGTH]
  rfl

/-- **Host, circuit and wallet agree on burn addresses.** -/
theorem burn_addresses_agree (h : Hashes) (keccak256 : List UInt8 → Word) :
    (∀ recipient secret : Fr,
      (∀ a, burnAddressVar h recipient secret true = some a
        ↔ computeBurnAddressFromSecret h recipient secret = .ok a)
      ∧ (∀ a, computeBurnAddressFromSecret h recipient secret = .ok a → a.val < 2 ^ 160)
      ∧ burnAddressVar h recipient secret false
        = some (((h.poseidon2 recipient secret).val % 2 ^ 160 : ℕ) : Fr))
    ∧ (∀ s : Fr, b256ToFr (frToB256 s) = s)
    ∧ ∀ (seed id : Word) (subId : Fin (2 ^ 32)) (chainId : Fin (2 ^ 64)) (address : Address)
        (st : SecretAndTweak),
      singleInvoice h keccak256 id seed chainId address = some st
        ∨ batchInvoice h keccak256 id subId seed chainId address = some st
        ∨ paymentAdvice h keccak256 id seed chainId address = some st →
      frToB256 (b256ToFr st.secret) = st.secret
      ∧ ∃ (burn : FullBurnAddress) (a : Address),
        FullBurnAddress.new h chainId address st = .ok burn
        ∧ burn.burnAddress h = .ok a
        ∧ burnAddressVar h ((newEvm chainId address st.tweak).toFr h) (b256ToFr st.secret) true
          = some (addressToFr a) := by
  refine ⟨fun recipient secret => ⟨fun a => burnAddressVar_true_eq_some h, fun a ha => ?_,
    burnAddressVar_false_eq h recipient secret⟩, b256ToFr_frToB256, ?_⟩
  · rw [computeBurnAddressFromSecret_val ha]
    exact Nat.mod_lt _ (by positivity)
  · intro seed id subId chainId address st hst
    -- the three kinds of seed end in the same derivation
    have hderived : Derived h chainId address st := by
      rcases hst with hsingle | hbatch | hadvice
      · exact secretAndTweak_derived hsingle
      · exact secretAndTweak_derived hbatch
      · exact secretAndTweak_derived hadvice
    obtain ⟨a, hnew, hburn, hcircuit⟩ := hderived.burnAddress
    exact ⟨hderived.canonical, _, a, hnew, hburn, hcircuit⟩

namespace InvoiceExample

/-- The seed of the private key 1: the hash of its signature of the seed message. -/
def seed : Word := 0x489cd31db1e0e49dcd80d8ace48da88d57cbed5fad8302a44f85a575400ab88f

/-- The address of the private key 1. -/
def address : Address := 0x7e5f4552091a69125d5dfcb7b8c2659029395bdf

/-- A single invoice for chain 1. -/
def invoiceId : Word := 0x800000000000000001000000000000000000000000000000000000000000092d

def secretAndTweak : SecretAndTweak where
  secret := 0x14f6123cb8c9397f04814a0352654f69cfdac17ecd2902655dbb12a4d3fc39b5
  tweak := 0x4b938cf47f10018d11730d1fe29a9de866d0d34031814f2e01fdb38f4e924bed

set_option maxRecDepth 10000 in
theorem singleInvoice_eq :
    singleInvoice realHashes Keccak.hash invoiceId seed 1 address = some secretAndTweak := by
  decide +kernel

end InvoiceExample

theorem burn_addresses_agree_single :
    singleInvoice realHashes Keccak.hash InvoiceExample.invoiceId InvoiceExample.seed 1
        InvoiceExample.address = some InvoiceExample.secretAndTweak
      ∧ ∃ (burn : FullBurnAddress) (a : Address),
        FullBurnAddress.new realHashes 1 InvoiceExample.address InvoiceExample.secretAndTweak
          = .ok burn
        ∧ burn.burnAddress realHashes = .ok a
        ∧ burnAddressVar realHashes
            ((newEvm 1 InvoiceExample.address InvoiceExample.secretAndTweak.tweak).toFr realHashes)
            (b256ToFr InvoiceExample.secretAndTweak.secret) true = some (addressToFr a) :=
  ⟨InvoiceExample.singleInvoice_eq,
    ((burn_addresses_agree realHashes Keccak.hash).2.2 InvoiceExample.seed
      InvoiceExample.invoiceId 0 1 InvoiceExample.address InvoiceExample.secretAndTweak
      (Or.inl InvoiceExample.singleInvoice_eq)).2⟩

end Client

end Zerc20
