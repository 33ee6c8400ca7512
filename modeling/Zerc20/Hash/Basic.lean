import Zerc20.Lib.Radix
import Mathlib.Data.ZMod.Basic

/-!
# Field elements, addresses and the two hash functions

The circuits work over the scalar field of BN254, the contracts over 256-bit words. This
module fixes both, the conversions of `zkp/src/utils/convertion.rs`, and the two hash
functions every other module takes as a parameter.

`Hashes` bundles the Poseidon two-to-one hash (`poseidon2`, the same function as
`PoseidonT3.hash` on reduced inputs) and SHA-256. The model never assumes anything about
them beyond the digest length: every statement that rests on the strength of a hash names
the colliding inputs instead. `Zerc20.Hash.Poseidon` and `Zerc20.Hash.Sha256` hold the real
functions.
-/

namespace Zerc20

open Radix

/-- The order of the BN254 scalar field. -/
def scalarModulus : ℕ :=
  21888242871839275222246405745257275088548364400416034343698204186575808495617

abbrev Fr := ZMod scalarModulus

abbrev Address := Fin (2 ^ 160)

instance : NeZero scalarModulus := ⟨by decide⟩

instance : Fact (1 < scalarModulus) := ⟨by decide⟩

structure Hashes where
  poseidon2 : Fr → Fr → Fr
  sha256 : List UInt8 → List UInt8
  sha256_length : ∀ m, (sha256 m).length = 32

/-! ## Conversions -/

def addressToFr (a : Address) : Fr := (a.val : Fr)

def u256ToFr (x : ℕ) : Fr := (x : Fr)

theorem two_pow_lt_scalarModulus {n : ℕ} (h : n ≤ 253) : 2 ^ n < scalarModulus :=
  Nat.lt_of_le_of_lt (Nat.pow_le_pow_right (by omega) h) (by decide)

/-- A number of at most 253 bits survives the way into the field. -/
theorem val_natCast_of_lt_two_pow {x n : ℕ} (hn : n ≤ 253) (hx : x < 2 ^ n) :
    ((x : Fr)).val = x :=
  ZMod.val_natCast_of_lt (Nat.lt_trans hx (two_pow_lt_scalarModulus hn))

@[simp] theorem addressToFr_val (a : Address) : (addressToFr a).val = a.val :=
  val_natCast_of_lt_two_pow (n := 160) (by omega) a.isLt

theorem val_lt_two_pow_254 (x : Fr) : x.val < 2 ^ 254 :=
  Nat.lt_trans (ZMod.val_lt x) (by decide)

theorem val_lt_two_pow_256 (x : Fr) : x.val < 2 ^ 256 :=
  (val_lt_two_pow_254 x).trans (by decide)

theorem fr_eq_of_val_eq {x y : Fr} (h : x.val = y.val) : x = y :=
  ZMod.val_injective scalarModulus h

/-! ## The transfer hash chain and the recipient hash

`ShaHashChainLib.compute` and `GeneralRecipientLib.hash` both mask a SHA-256 digest to its
lower 248 bits; the latter puts the version byte on top. -/

/-- `0x00FF…FF`, the mask that drops the most significant byte of a word. -/
def lower248Mask : ℕ := 2 ^ 248 - 1

/-- `abi.encodePacked(uint256 prev, address addr, uint256 value)`. -/
def packTransfer (prev addr value : ℕ) : List UInt8 :=
  bytesBE 32 prev ++ bytesBE 20 addr ++ bytesBE 32 value

/-- `ShaHashChainLib.compute`. -/
def hashChain (h : Hashes) (prev addr value : ℕ) : ℕ :=
  ofBytesBE (h.sha256 (packTransfer prev addr value)) &&& lower248Mask

structure GeneralRecipient where
  chainId : Fin (2 ^ 64)
  recipient : Fin (2 ^ 256)
  tweak : Fin (2 ^ 256)
  deriving DecidableEq

/-- `abi.encodePacked(uint64 chainId, bytes32 recipient, bytes32 tweak)`. -/
def GeneralRecipient.pack (gr : GeneralRecipient) : List UInt8 :=
  bytesBE 8 gr.chainId.val ++ bytesBE 32 gr.recipient.val ++ bytesBE 32 gr.tweak.val

/-- `GeneralRecipientLib.VERSION`. -/
def recipientVersion : ℕ := 1

def GeneralRecipient.hash (h : Hashes) (gr : GeneralRecipient) : ℕ :=
  (ofBytesBE (h.sha256 gr.pack) &&& lower248Mask) ||| (recipientVersion <<< 248)

/-- The hash of a recipient is in the field, as its first byte is the version 1. -/
theorem GeneralRecipient.hash_lt (h : Hashes) (gr : GeneralRecipient) : gr.hash h < 2 ^ 249 :=
  Nat.or_lt_two_pow (Nat.lt_of_le_of_lt Nat.and_le_right (by decide)) (by decide)

theorem hashChain_lt (h : Hashes) (prev addr value : ℕ) :
    hashChain h prev addr value < 2 ^ 248 :=
  Nat.lt_of_le_of_lt Nat.and_le_right (by decide)

/-- Dropping the first byte of the digest is taking it modulo 2^248. -/
theorem hashChain_eq_mod (h : Hashes) (prev addr value : ℕ) :
    hashChain h prev addr value
      = ofBytesBE (h.sha256 (packTransfer prev addr value)) % 2 ^ 248 := by
  rw [hashChain, lower248Mask, Nat.and_two_pow_sub_one_eq_mod]

end Zerc20
