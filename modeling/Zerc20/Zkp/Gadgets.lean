import Zerc20.Hash.Basic
import Zerc20.Lib.HashTree
import Mathlib.Data.FinEnum

/-!
# Circuit gadgets

The constraint gadgets of `zkp/src/utils/tree/gadgets` and `zkp/src/circuits/burn_address.rs`.
A gadget is embedded as a function of the assigned values in `Option`: it is `none` exactly
when one of its constraints is violated, and otherwise returns the value of its output
variable. All intermediate variables are functions of the inputs (`to_bits_le` is the unique
decomposition into 254 bits), so nothing is left for a prover to choose.

Each gadget has one lemma `…_eq_some` saying when it is satisfied and what it returns; the
circuits above only use these.
-/

namespace Zerc20.Zkp

open Radix HashTree

def ADDRESS_BIT_LENGTH : ℕ := 160
def BYTES31_BIT_LENGTH : ℕ := 248
def POW_DIFFICULTY : ℕ := 12

/-! ## Constraints -/

def enforce (p : Prop) [Decidable p] : Option Unit := if p then some () else none

/-- A constraint is satisfied when its condition holds. -/
@[simp] theorem enforce_eq_some (p : Prop) [Decidable p] (u : Unit) :
    enforce p = some u ↔ p := by
  unfold enforce
  split <;> simp_all

/-- A constraint followed by the rest of the circuit. -/
theorem enforce_bind_eq_some {α : Type} (p : Prop) [Decidable p] (k : Unit → Option α) (a : α) :
    (enforce p >>= k) = some a ↔ p ∧ k () = some a := by
  unfold enforce
  split <;> simp_all

def boolToFp (b : Bool) : Fr := if b then 1 else 0

/-- `FpVar::to_bits_le`. -/
def toBitsLe (x : Fr) : List Bool := bitsLE 254 x.val

/-- `FpVar::to_bytes_le`. -/
def toBytesLe (x : Fr) : List UInt8 := (bytesBE 32 x.val).reverse

/-- `Boolean::le_bits_to_fp`. -/
def leBitsToFp (bits : List Bool) : Fr := (ofBitsLE bits : ℕ)

/-! ## Range checks (`merkle.rs`) -/

def toBitsLeLimited (value : Fr) (numBits : ℕ) : Option (List Bool) := do
  let bits := toBitsLe value
  enforce (∀ b ∈ bits.drop numBits, b = false)
  return bits.take numBits

def enforceBitLength (value : Fr) (numBits : ℕ) : Option Unit := do
  let _ ← toBitsLeLimited value numBits

/-- `left + 2^numBits - right` sets bit `numBits` iff `left >= right`. -/
def enforceStrictLessThan (left right : Fr) (numBits : ℕ) : Option Unit := do
  enforceBitLength left numBits
  enforceBitLength right numBits
  let offset : Fr := (fun x => x + x)^[numBits] 1
  let adjusted := left + offset - right
  let bit ← (toBitsLe adjusted)[numBits]?
  enforce (bit = false)

/-- With at most 254 bits the decomposition is unique: those of the number. -/
theorem toBitsLeLimited_eq_some {value : Fr} {numBits : ℕ} (hn : numBits ≤ 254) (bits : List Bool) :
    toBitsLeLimited value numBits = some bits
      ↔ value.val < 2 ^ numBits ∧ bits = bitsLE numBits value.val := by
  unfold toBitsLeLimited
  rw [enforce_bind_eq_some, toBitsLe, bitsLE_drop_false_iff (val_lt_two_pow_254 value),
    bitsLE_take hn]
  exact and_congr_right fun _ => by simp [eq_comm]

@[simp] theorem enforceBitLength_eq_some {value : Fr} {numBits : ℕ} (u : Unit) :
    enforceBitLength value numBits = some u ↔ value.val < 2 ^ numBits := by
  unfold enforceBitLength toBitsLeLimited
  simp only [Option.bind_eq_bind, Option.bind_eq_some_iff, enforce_eq_some, toBitsLe,
    bitsLE_drop_false_iff (val_lt_two_pow_254 value)]
  simp

/-- Doubling `n` times is multiplying by the power of two. -/
theorem iterate_double (n : ℕ) : (fun x : Fr => x + x)^[n] 1 = ((2 ^ n : ℕ) : Fr) := by
  induction n with
  | zero => simp
  | succ n ih =>
    rw [Function.iterate_succ_apply', ih]
    push_cast
    ring

/-- The comparison by the carry bit is that of the numbers. -/
theorem enforceStrictLessThan_eq_some {left right : Fr} {numBits : ℕ} (hn : numBits + 1 ≤ 253)
    (u : Unit) :
    enforceStrictLessThan left right numBits = some u
      ↔ left.val < 2 ^ numBits ∧ right.val < 2 ^ numBits ∧ left.val < right.val := by
  unfold enforceStrictLessThan
  simp only [Option.bind_eq_bind, Option.bind_eq_some_iff, enforceBitLength_eq_some, exists_const,
    enforce_eq_some]
  refine and_congr_right fun hl => and_congr_right fun hr => ?_
  -- without wrap-around the adjusted value is the integer `left + 2^numBits - right`
  have hadj : (left + (fun x : Fr => x + x)^[numBits] 1 - right).val
      = left.val + 2 ^ numBits - right.val := by
    have hcast : left + (fun x : Fr => x + x)^[numBits] 1 - right
        = ((left.val + 2 ^ numBits - right.val : ℕ) : Fr) := by
      rw [iterate_double, Nat.cast_sub (by omega), Nat.cast_add, ZMod.natCast_zmod_val,
        ZMod.natCast_zmod_val]
    rw [hcast]
    refine val_natCast_of_lt_two_pow hn ?_
    rw [Nat.pow_succ]
    omega
  have hbit : (toBitsLe (left + (fun x : Fr => x + x)^[numBits] 1 - right))[numBits]?
      = some (decide (2 ^ numBits ≤ left.val + 2 ^ numBits - right.val)) := by
    rw [toBitsLe, bitsLE, List.getElem?_map, List.getElem?_range (by omega), hadj, Option.map_some,
      Nat.testBit_eq_decide_div_mod_eq]
    congr 2
    have hdiv : (left.val + 2 ^ numBits - right.val) / 2 ^ numBits
        = if 2 ^ numBits ≤ left.val + 2 ^ numBits - right.val then 1 else 0 := by
      split
      · exact Nat.div_eq_of_lt_le (by omega) (by omega)
      · exact Nat.div_eq_of_lt (by omega)
    rw [hdiv]
    split <;> simp_all
  simp only [hbit, Option.some.injEq, exists_eq_left', decide_eq_false_iff_not]
  omega

/-! ## Merkle path (`merkle.rs`) -/

variable (h : Hashes)

def merkleStep (current : Fr) (bs : Bool × Fr) : Fr :=
  let bitFp := boolToFp bs.1
  let oneMinusBit := 1 - bitFp
  let left := current * oneMinusBit + bs.2 * bitFp
  let right := current * bitFp + bs.2 * oneMinusBit
  h.poseidon2 left right

def merkleRootFromLeaf (leaf : Fr) (indexBits : List Bool) (siblings : List Fr) : Option Fr := do
  enforce (indexBits.length = siblings.length)
  return (indexBits.zip siblings).foldl (merkleStep h) leaf

/-- A step of the Merkle gadget is a step of the climb. -/
theorem merkleStep_eq (current : Fr) (bs : Bool × Fr) :
    merkleStep h current bs = Function.uncurry h.poseidon2 (join bs.1 current bs.2) := by
  obtain ⟨b, s⟩ := bs
  cases b <;> simp [merkleStep, boolToFp, join]

theorem foldl_merkleStep (leaf : Fr) (l : List (Bool × Fr)) :
    l.foldl (merkleStep h) leaf = climb h.poseidon2 leaf l := by
  induction l generalizing leaf with
  | nil => rfl
  | cons bs l ih => rw [List.foldl_cons, ih, merkleStep_eq, climb]

/-- It gives the root of the path, if the path has the length of the index. -/
theorem merkleRootFromLeaf_eq_some {leaf root : Fr} {indexBits : List Bool} {siblings : List Fr} :
    merkleRootFromLeaf h leaf indexBits siblings = some root
      ↔ indexBits.length = siblings.length
        ∧ root = climb h.poseidon2 leaf (indexBits.zip siblings) := by
  unfold merkleRootFromLeaf
  rw [enforce_bind_eq_some, foldl_merkleStep]
  exact and_congr_right fun _ => by simp [eq_comm]

/-! ## Leaf hash and hash chain (`leaf_hash.rs`, `hash_chain.rs`) -/

def leafHashVar (addr amount : Fr) : Fr := h.poseidon2 addr amount

/-- The big-endian bytes of `var`, split so that the second part has `targetLen` bytes. -/
def fpVarBeBytes (var : Fr) (targetLen : ℕ) : List UInt8 × List UInt8 :=
  let bytesBe := (toBytesLe var).reverse
  let bytesBe := List.replicate (targetLen - bytesBe.length) 0 ++ bytesBe
  bytesBe.splitAt (bytesBe.length - targetLen)

def enforceZeroBytes (bytes : List UInt8) : Option Unit := enforce (∀ b ∈ bytes, b = 0)

def hashChainVar (prevHashChain address value : Fr) : Option Fr := do
  let (prevPrefix, prevBytes) := fpVarBeBytes prevHashChain 32
  enforceZeroBytes prevPrefix
  enforceZeroBytes (prevBytes.take 1)
  let (addressPrefix, addressBytes) := fpVarBeBytes address 20
  enforceZeroBytes addressPrefix
  let (valuePrefix, valueBytes) := fpVarBeBytes value 32
  enforceZeroBytes valuePrefix
  enforceZeroBytes (valueBytes.take 1)
  let digestBytes := h.sha256 (prevBytes ++ addressBytes ++ valueBytes)
  let truncated := digestBytes.drop 1
  return leBitsToFp (truncated.reverse.flatMap fun byte => bitsLE 8 byte.toNat)

/-- The bytes of an element, cut at the length asked for. -/
theorem fpVarBeBytes_eq (var : Fr) {targetLen : ℕ} (ht : targetLen ≤ 32) :
    fpVarBeBytes var targetLen
      = (bytesBE (32 - targetLen) (var.val / 256 ^ targetLen), bytesBE targetLen var.val) := by
  unfold fpVarBeBytes toBytesLe
  have hsplit := bytesBE_add (32 - targetLen) targetLen var.val
  rw [show 32 - targetLen + targetLen = 32 from by omega] at hsplit
  simp only [List.reverse_reverse, bytesBE_length, Nat.sub_eq_zero_of_le ht, List.replicate_zero,
    List.nil_append, List.splitAt_eq]
  rw [hsplit, List.take_append_of_le_length (by simp), List.drop_append_of_le_length (by simp)]
  simp

/-- The cut bytes are zero when the number fits the others. -/
theorem enforceZeroBytes_high {x w : ℕ} (hw : x < 256 ^ 32) (ht : w ≤ 32) (u : Unit) :
    enforceZeroBytes (bytesBE (32 - w) (x / 256 ^ w)) = some u ↔ x < 256 ^ w := by
  have hdiv : x / 256 ^ w < 256 ^ (32 - w) := by
    rw [Nat.div_lt_iff_lt_mul (by positivity), ← Nat.pow_add]
    rwa [show 32 - w + w = 32 from by omega]
  rw [enforceZeroBytes, enforce_eq_some, bytesBE_eq_zero_iff hdiv, Nat.div_eq_zero_iff]
  constructor
  · rintro (h0 | hlt)
    · exact absurd h0 (by positivity)
    · exact hlt
  · exact Or.inr

/-- The first byte of 32 is what is above the other 31. -/
theorem take_one_bytesBE (x : ℕ) : (bytesBE 32 x).take 1 = bytesBE (32 - 31) (x / 256 ^ 31) := by
  rw [show (32 : ℕ) = 1 + 31 from rfl, bytesBE_add, List.take_append_of_le_length (by simp)]
  simp

theorem val_lt_bytes (x : Fr) : x.val < 256 ^ 32 :=
  Nat.lt_trans (ZMod.val_lt x) (by decide)

/-- The gadget of the hash chain is satisfied by numbers in their ranges only, and gives the hash of
the host. -/
theorem hashChainVar_eq_some {prev address value out : Fr} :
    hashChainVar h prev address value = some out
      ↔ prev.val < 2 ^ 248 ∧ address.val < 2 ^ 160 ∧ value.val < 2 ^ 248
        ∧ out = (hashChain h prev.val address.val value.val : ℕ) := by
  unfold hashChainVar
  simp only [fpVarBeBytes_eq _ (le_refl 32), fpVarBeBytes_eq address (show 20 ≤ 32 by omega),
    take_one_bytesBE, Option.bind_eq_bind, Option.bind_eq_some_iff, exists_const,
    enforceZeroBytes_high (val_lt_bytes prev) (le_refl 32),
    enforceZeroBytes_high (val_lt_bytes prev) (show 31 ≤ 32 by omega),
    enforceZeroBytes_high (val_lt_bytes address) (show 20 ≤ 32 by omega),
    enforceZeroBytes_high (val_lt_bytes value) (le_refl 32),
    enforceZeroBytes_high (val_lt_bytes value) (show 31 ≤ 32 by omega)]
  have hpow : (256 : ℕ) ^ 31 = 2 ^ 248 := by norm_num
  have hpow' : (256 : ℕ) ^ 20 = 2 ^ 160 := by norm_num
  -- the truncated digest is the digest modulo `2 ^ 248`
  have hdigest : leBitsToFp ((h.sha256 (bytesBE 32 prev.val ++ bytesBE 20 address.val
        ++ bytesBE 32 value.val)).drop 1 |>.reverse.flatMap fun byte => bitsLE 8 byte.toNat)
      = (hashChain h prev.val address.val value.val : ℕ) := by
    rw [leBitsToFp, ofBitsLE_bytes, List.drop_one, ofBytesBE_tail, h.sha256_length,
      hashChain_eq_mod, packTransfer, hpow]
  rw [hdigest, hpow, hpow']
  have hprev := val_lt_bytes prev
  have hvalue := val_lt_bytes value
  simp only [hprev, hvalue, true_and, pure, Option.some.injEq]
  exact and_congr_right fun _ => and_congr_right fun _ => and_congr_right fun _ => eq_comm

/-! ## Burn address (`burn_address.rs`) -/

inductive BurnAddressError where
  | powDifficultyUnsatisfied (difficulty : ℕ)
  deriving DecidableEq

/-- The `POW_DIFFICULTY` bits above the address bits. -/
def powBits (x : Fr) : List Bool := ((toBitsLe x).drop ADDRESS_BIT_LENGTH).take POW_DIFFICULTY

def computeBurnAddressFromSecret (recipient secret : Fr) : Except BurnAddressError Fr :=
  let hash := h.poseidon2 recipient secret
  if (powBits hash).any id then .error (.powDifficultyUnsatisfied POW_DIFFICULTY)
  else .ok ((hash.val &&& (2 ^ ADDRESS_BIT_LENGTH - 1) : ℕ) : Fr)

def burnAddressVar (recipient secret : Fr) (isConstrained : Bool) : Option Fr := do
  let poseidon := h.poseidon2 recipient secret
  let poseidonBits := toBitsLe poseidon
  enforce (∀ bit ∈ (poseidonBits.drop ADDRESS_BIT_LENGTH).take POW_DIFFICULTY,
    boolToFp bit * boolToFp isConstrained = 0)
  return leBitsToFp (poseidonBits.take ADDRESS_BIT_LENGTH)

/-- The lower 160 bits are the number masked to an address. -/
theorem leBitsToFp_address (x : Fr) :
    leBitsToFp ((toBitsLe x).take ADDRESS_BIT_LENGTH)
      = ((x.val &&& (2 ^ ADDRESS_BIT_LENGTH - 1) : ℕ) : Fr) := by
  rw [toBitsLe, ADDRESS_BIT_LENGTH, bitsLE_take (by omega), leBitsToFp, ofBitsLE_bitsLE,
    Nat.and_two_pow_sub_one_eq_mod]

/-- A constrained burn address is exactly the one the host computes. -/
theorem burnAddressVar_true_eq_some {recipient secret a : Fr} :
    burnAddressVar h recipient secret true = some a
      ↔ computeBurnAddressFromSecret h recipient secret = .ok a := by
  unfold burnAddressVar computeBurnAddressFromSecret
  rw [enforce_bind_eq_some, leBitsToFp_address, ← powBits]
  have hbits : (∀ bit ∈ powBits (h.poseidon2 recipient secret),
      boolToFp bit * boolToFp true = 0) ↔ ¬ (powBits (h.poseidon2 recipient secret)).any id := by
    simp [boolToFp]
  rw [hbits]
  by_cases hpow : (powBits (h.poseidon2 recipient secret)).any id
  · simp [hpow]
  · simp [hpow]

/-- An unconstrained burn address needs no proof of work. -/
theorem burnAddressVar_false (recipient secret : Fr) :
    ∃ a, burnAddressVar h recipient secret false = some a := by
  refine ⟨_, (enforce_bind_eq_some _ _ _).mpr ⟨?_, rfl⟩⟩
  intro bit _
  exact mul_zero _

end Zerc20.Zkp
