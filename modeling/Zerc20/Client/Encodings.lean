import Zerc20.Client.BurnAddress
import Zerc20.Indexer.PlainTree

/-!
# One value, three encodings

A hash chain entry and a recipient are hashed on the host (`hash_chain.rs`,
`general_recipient.rs`), in a circuit (`hash_chain_var`) and on chain (`ShaHashChainLib`,
`GeneralRecipientLib`). The host writes the first byte of the digest, the contracts mask the
word, the circuit drops a byte and packs the bits of the rest.

* `hashChainVar_iff_host` — the circuit is satisfied on words that fit, and returns the host's
  hash chain, bit for bit.
* `toU256_eq_hash` — the host's recipient hash is the contract's.
* `frToU256_toFr` — the field loses nothing of it.
* `hashes_agree` — the three of them.
-/

namespace Zerc20

open Radix Indexer Zkp

/-! ## Field elements and words (`convertion.rs`) -/

/-- `fr_to_u256`: the 32 bytes of the canonical representative. -/
def frToU256 (x : Fr) : ℕ := ofBytesBE (bytesBE 32 x.val)

theorem frToU256_eq (x : Fr) : frToU256 x = x.val := by
  rw [frToU256, ofBytesBE_bytesBE, Nat.mod_eq_of_lt (val_lt_bytes x)]

/-- A number below the modulus survives the way through the field. -/
theorem frToU256_u256ToFr {x : ℕ} (hx : x < scalarModulus) : frToU256 (u256ToFr x) = x := by
  rw [frToU256_eq, u256ToFr, ZMod.val_natCast_of_lt hx]

/-! ## Digests with a chosen first byte -/

/-- Writing the first of 32 bytes keeps the lower 248 bits and sets the upper eight. -/
theorem ofBytesBE_set_first {digest : List UInt8} (hlength : digest.length = 32) (b : UInt8) :
    ofBytesBE (digest.set 0 b) = (ofBytesBE digest &&& lower248Mask) ||| (b.toNat <<< 248) := by
  have hlow : ofBytesBE digest &&& lower248Mask = ofBytesBE digest.tail := by
    rw [lower248Mask, Nat.and_two_pow_sub_one_eq_mod, ofBytesBE_tail, hlength]
    norm_num
  have htail : ofBytesBE digest.tail < 2 ^ 248 := by
    have hlt := ofBytesBE_lt digest.tail
    rw [List.length_tail, hlength] at hlt
    exact Nat.lt_of_lt_of_eq hlt (by norm_num)
  rw [hlow, Nat.lor_comm, Nat.shiftLeft_eq, Nat.mul_comm, ← Nat.two_pow_add_eq_or_of_lt htail]
  cases digest with
  | nil => exact absurd hlength (by simp)
  | cons first rest =>
    have hrest : rest.length = 31 := by simpa using hlength
    simp only [List.set_cons_zero, List.tail_cons, ofBytesBE, hrest]
    norm_num [Nat.mul_comm]

/-! ## The recipient -/

namespace GeneralRecipient

/-- `GeneralRecipient::version`. -/
def version : UInt8 := 1

/-- What `to_u256` hashes: `[chain_id.to_be_bytes(), address, tweak].concat()`. -/
def preimage (gr : GeneralRecipient) : List UInt8 :=
  [bytesBE 8 gr.chainId.val, bytesBE 32 gr.recipient.val, bytesBE 32 gr.tweak.val].flatten

/-- `GeneralRecipient::to_u256`: `digest[0] = version`. -/
def toU256 (h : Hashes) (gr : GeneralRecipient) : ℕ :=
  ofBytesBE ((h.sha256 gr.preimage).set 0 version)

/-- `GeneralRecipient::to_fr`. -/
def toFr (h : Hashes) (gr : GeneralRecipient) : Fr := u256ToFr (gr.toU256 h)

variable (h : Hashes) (gr : GeneralRecipient)

omit h in
/-- The host concatenates what `abi.encodePacked` does. -/
theorem preimage_eq_pack : gr.preimage = gr.pack := by
  rw [preimage, pack, List.flatten_cons, List.flatten_cons, List.flatten_cons, List.flatten_nil,
    List.append_nil, List.append_assoc]

/-- The clients' hash of a recipient is the contract's. -/
theorem toU256_eq_hash : gr.toU256 h = gr.hash h := by
  rw [toU256, preimage_eq_pack]
  exact ofBytesBE_set_first (h.sha256_length gr.pack) version

theorem toFr_eq : gr.toFr h = Client.toFr h gr := congrArg u256ToFr (toU256_eq_hash h gr)

theorem hash_lt_scalarModulus : gr.hash h < scalarModulus :=
  Nat.lt_trans (hash_lt h gr) (two_pow_lt_scalarModulus (by omega))

/-- And its field element is that number. -/
theorem frToU256_toFr : frToU256 (gr.toFr h) = gr.toU256 h := by
  rw [toFr]
  exact frToU256_u256ToFr (toU256_eq_hash h gr ▸ hash_lt_scalarModulus h gr)

theorem toFr_val : (gr.toFr h).val = gr.hash h := by
  rw [← frToU256_eq, frToU256_toFr, toU256_eq_hash]

/-- Two recipients of one hash. -/
def Collide (gr gr' : GeneralRecipient) : Prop := gr ≠ gr' ∧ gr.hash h = gr'.hash h

end GeneralRecipient

/-! ## The hash chain -/

/-- **The circuit computes the host's hash chain**, on inputs that fit and on no others. -/
theorem hashChainVar_iff_host (h : Hashes) {prev address value out : Fr} :
    hashChainVar h prev address value = some out
      ↔ (prev.val < 2 ^ 248 ∧ address.val < 2 ^ 160 ∧ value.val < 2 ^ 248)
        ∧ frToU256 out
          = hashChainHost h (frToU256 prev) (Client.frToAddress address) (frToU256 value) := by
  rw [hashChainVar_eq_some, and_assoc, and_assoc]
  refine and_congr_right fun _ => and_congr_right fun haddress => and_congr_right fun _ => ?_
  have hchain : frToU256 ((hashChain h prev.val address.val value.val : ℕ) : Fr)
      = hashChain h prev.val address.val value.val :=
    frToU256_u256ToFr (Nat.lt_trans (hashChain_lt h _ _ _) (two_pow_lt_scalarModulus (by omega)))
  -- the host reads the address as 20 bytes, which it fits
  have hhost : hashChainHost h (frToU256 prev) (Client.frToAddress address) (frToU256 value)
      = hashChain h prev.val address.val value.val := by
    rw [hashChainHost_eq, frToU256_eq, frToU256_eq, Client.frToAddress, Fin.val_ofNat,
      Nat.mod_eq_of_lt haddress]
  rw [hhost]
  constructor
  · rintro rfl
    exact hchain
  · intro hout
    apply fr_eq_of_val_eq
    rw [← frToU256_eq, ← frToU256_eq, hout, hchain]

/-- **Rust, the circuits and Solidity hash alike**: transfers and recipients. -/
theorem hashes_agree (h : Hashes) :
    (∀ prev address value out : Fr,
      hashChainVar h prev address value = some out
        ↔ (prev.val < 2 ^ 248 ∧ address.val < 2 ^ 160 ∧ value.val < 2 ^ 248)
          ∧ frToU256 out
            = hashChainHost h (frToU256 prev) (Client.frToAddress address) (frToU256 value))
    ∧ (∀ prev address value : Fr,
      (∃ out, hashChainVar h prev address value = some out
          ∧ frToU256 out
            = hashChainHost h (frToU256 prev) (Client.frToAddress address) (frToU256 value))
        ↔ prev.val < 2 ^ 248 ∧ address.val < 2 ^ 160 ∧ value.val < 2 ^ 248)
    ∧ (∀ (prev value : Fin (2 ^ 256)) (address : Address),
      hashChainHost h prev.val address value.val = hashChain h prev.val address.val value.val)
    ∧ ∀ gr : GeneralRecipient,
      gr.toU256 h = gr.hash h ∧ gr.hash h < scalarModulus ∧ frToU256 (gr.toFr h) = gr.toU256 h := by
  refine ⟨fun _ _ _ _ => hashChainVar_iff_host h, fun prev address value => ⟨?_, ?_⟩,
    fun prev value address => ?_, fun gr => ?_⟩
  · rintro ⟨out, hout, -⟩
    exact ((hashChainVar_iff_host h).mp hout).1
  · -- on words that fit the gadget has an output
    rintro ⟨hprev, haddress, hvalue⟩
    have hout := (hashChainVar_eq_some h).mpr ⟨hprev, haddress, hvalue, rfl⟩
    exact ⟨_, hout, ((hashChainVar_iff_host h).mp hout).2⟩
  · exact hashChainHost_eq h prev.val address value.val
  · exact ⟨gr.toU256_eq_hash h, gr.hash_lt_scalarModulus h, gr.frToU256_toFr h⟩

end Zerc20
