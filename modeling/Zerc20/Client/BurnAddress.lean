import Zerc20.Zkp.Gadgets
import Zerc20.Lib.Machine

/-!
# Full burn addresses

The payload of an announcement, `client-common/src/payment/burn_address.rs`: the recipient of a
burn and the secret that its burn address is made of. `fromBytes_eq_ok` says that the decoder
accepts the encodings and nothing else.
-/

namespace Zerc20

namespace Client

open Machine Radix Zkp

/-- `GeneralRecipient::to_fr`. -/
def toFr (h : Hashes) (gr : GeneralRecipient) : Fr := u256ToFr (gr.hash h)

/-- `fr_to_address`, the low 20 bytes. -/
def frToAddress (x : Fr) : Address := Fin.ofNat (2 ^ 160) x.val

/-- `Address::from_word`, the low 20 bytes. -/
def addressFromWord (word : Fin (2 ^ 256)) : Address := Fin.ofNat (2 ^ 160) word.val

structure FullBurnAddress where
  gr : GeneralRecipient
  secret : Fin (2 ^ 256)
  deriving DecidableEq

inductive FullBurnAddressError where
  | length (got : ℕ)
  | version (got : UInt8)
  deriving DecidableEq

def FULL_BURN_ADDRESS_VERSION : UInt8 := 1

def FULL_BURN_ADDRESS_SERIALIZED_LEN : ℕ := 1 + 8 + 32 + 32 + 32

def FullBurnAddressError.text : FullBurnAddressError → String
  | .length got => "FullBurnAddress expects 105 bytes, got " ++ toString got
  | .version got => "unsupported FullBurnAddress version " ++ toString got.toNat

namespace FullBurnAddress

def burnAddress (h : Hashes) (b : FullBurnAddress) : Except BurnAddressError Address := do
  let burnAddressFr ← computeBurnAddressFromSecret h (toFr h b.gr) (u256ToFr b.secret.val)
  return frToAddress burnAddressFr

def toBytes (b : FullBurnAddress) : List UInt8 :=
  [FULL_BURN_ADDRESS_VERSION] ++ bytesBE 8 b.gr.chainId.val ++ bytesBE 32 b.gr.recipient.val
    ++ bytesBE 32 b.gr.tweak.val ++ bytesBE 32 b.secret.val

/-- `bytes[from..to]`. -/
def slice (bytes : List UInt8) (start stop : ℕ) : List UInt8 := (bytes.drop start).take (stop - start)

def fromBytes (bytes : List UInt8) : Except FullBurnAddressError FullBurnAddress := do
  require (bytes.length = FULL_BURN_ADDRESS_SERIALIZED_LEN) (.length bytes.length)
  require (bytes.headD 0 = FULL_BURN_ADDRESS_VERSION) (.version (bytes.headD 0))
  return {
    gr := {
      chainId := Fin.ofNat _ (ofBytesBE (slice bytes 1 9))
      recipient := Fin.ofNat _ (ofBytesBE (slice bytes 9 41))
      tweak := Fin.ofNat _ (ofBytesBE (slice bytes 41 73)) }
    secret := Fin.ofNat _ (ofBytesBE (slice bytes 73 105)) }

/-! ## The format -/

/-- Reading a slice and writing it gives the slice. -/
theorem bytesBE_slice {bytes : List UInt8} (start width : ℕ)
    (hlength : start + width ≤ bytes.length) {m : ℕ} [NeZero m] (hm : m = 256 ^ width) :
    bytesBE width (Fin.ofNat m (ofBytesBE (slice bytes start (start + width)))).val
      = slice bytes start (start + width) := by
  have hslice : (slice bytes start (start + width)).length = width := by
    rw [slice, List.length_take, List.length_drop]
    omega
  have hlt := ofBytesBE_lt (slice bytes start (start + width))
  rw [hslice] at hlt
  rw [Fin.val_ofNat, Nat.mod_eq_of_lt (by rw [hm]; exact hlt)]
  have hback := bytesBE_ofBytesBE (slice bytes start (start + width))
  rwa [hslice] at hback

theorem slice_append (xs ys zs : List UInt8) {start stop : ℕ} (hstart : xs.length = start)
    (hstop : xs.length + ys.length = stop) : slice (xs ++ ys ++ zs) start stop = ys := by
  subst hstart hstop
  rw [slice, List.append_assoc, List.drop_left, Nat.add_sub_cancel_left, List.take_left]

theorem slice_append_drop (bytes : List UInt8) {start stop : ℕ} (hle : start ≤ stop) :
    slice bytes start stop ++ bytes.drop stop = bytes.drop start := by
  have hsplit := List.take_append_drop (stop - start) (bytes.drop start)
  rwa [List.drop_drop, Nat.add_sub_cancel' hle] at hsplit

/-- Writing a number and reading it gives the number. -/
theorem fin_ofNat_bytesBE {width : ℕ} {m : ℕ} [NeZero m] (hm : m = 256 ^ width) (x : Fin m) :
    Fin.ofNat m (ofBytesBE (bytesBE width x.val)) = x := by
  refine Fin.ext ?_
  rw [Fin.val_ofNat, ofBytesBE_bytesBE, ← hm, Nat.mod_mod, Nat.mod_eq_of_lt x.isLt]

theorem toBytes_length (b : FullBurnAddress) :
    b.toBytes.length = FULL_BURN_ADDRESS_SERIALIZED_LEN := by
  simp [toBytes, FULL_BURN_ADDRESS_SERIALIZED_LEN]

theorem fromBytes_toBytes (b : FullBurnAddress) : fromBytes b.toBytes = .ok b := by
  have hchain : slice b.toBytes 1 9 = bytesBE 8 b.gr.chainId.val := by
    rw [toBytes, List.append_assoc, List.append_assoc]
    exact slice_append [FULL_BURN_ADDRESS_VERSION] _ _ rfl rfl
  have hrecipient : slice b.toBytes 9 41 = bytesBE 32 b.gr.recipient.val := by
    rw [toBytes, List.append_assoc]
    exact slice_append _ _ _ (by simp) (by simp)
  have htweak : slice b.toBytes 41 73 = bytesBE 32 b.gr.tweak.val := by
    rw [toBytes]
    exact slice_append _ _ _ (by simp) (by simp)
  have hsecret : slice b.toBytes 73 105 = bytesBE 32 b.secret.val := by
    rw [toBytes, ← List.append_nil (_ ++ bytesBE 32 b.secret.val)]
    exact slice_append _ _ _ (by simp) (by simp)
  rw [fromBytes, hchain, hrecipient, htweak, hsecret, fin_ofNat_bytesBE (by norm_num),
    fin_ofNat_bytesBE (by norm_num), fin_ofNat_bytesBE (by norm_num),
    fin_ofNat_bytesBE (by norm_num), require_of (toBytes_length b),
    require_of (show b.toBytes.headD 0 = FULL_BURN_ADDRESS_VERSION from rfl)]
  rfl

/-- **The decoder accepts the encodings**, and decodes them. -/
theorem fromBytes_eq_ok {bytes : List UInt8} {b : FullBurnAddress} :
    fromBytes bytes = .ok b ↔ bytes = b.toBytes := by
  constructor
  · intro hok
    obtain ⟨_, hlength, hok⟩ := bind_eq_ok.mp hok
    obtain ⟨_, hversion, hret⟩ := bind_eq_ok.mp hok
    have hlen : bytes.length = 105 := require_eq_ok.mp hlength
    cases Except.ok.inj hret
    -- the version byte, and then the four fields up to the end
    have hhead : bytes = [FULL_BURN_ADDRESS_VERSION] ++ bytes.drop 1 := by
      cases bytes with
      | nil => exact absurd hlen (by decide)
      | cons byte rest =>
        rw [← show byte = FULL_BURN_ADDRESS_VERSION from require_eq_ok.mp hversion]
        rfl
    have hlast : slice bytes 73 105 = bytes.drop 73 := by
      rw [← slice_append_drop bytes (show 73 ≤ 105 by omega), List.drop_of_length_le hlen.le,
        List.append_nil]
    rw [toBytes]
    show bytes = _ ++ bytesBE 8 _ ++ bytesBE 32 _ ++ bytesBE 32 _ ++ bytesBE 32 _
    rw [bytesBE_slice 1 8 (by omega) (by norm_num),
      bytesBE_slice 9 32 (by omega) (by norm_num),
      bytesBE_slice 41 32 (by omega) (by norm_num),
      bytesBE_slice 73 32 (by omega) (by norm_num)]
    show bytes = _ ++ slice bytes 1 9 ++ slice bytes 9 41 ++ slice bytes 41 73 ++ slice bytes 73 105
    rw [hlast, List.append_assoc, slice_append_drop bytes (by omega), List.append_assoc,
      slice_append_drop bytes (by omega), List.append_assoc, slice_append_drop bytes (by omega)]
    exact hhead
  · rintro rfl
    exact fromBytes_toBytes b

/-! ## The burn address -/

/-- An address survives the way through the field. -/
theorem frToAddress_addressToFr (a : Address) : frToAddress (addressToFr a) = a := by
  refine Fin.ext ?_
  rw [frToAddress, Fin.val_ofNat, addressToFr_val, Nat.mod_eq_of_lt a.isLt]

/-- The burn address is the one that the circuit computes. -/
theorem burnAddress_eq_ok {h : Hashes} {b : FullBurnAddress} {a : Address} :
    b.burnAddress h = .ok a
      ↔ computeBurnAddressFromSecret h (toFr h b.gr) (u256ToFr b.secret.val)
        = .ok (addressToFr a) := by
  rw [burnAddress, bind_eq_ok]
  constructor
  · rintro ⟨x, hx, hret⟩
    rw [hx, ← Except.ok.inj hret]
    congr 1
    rw [computeBurnAddressFromSecret] at hx
    split at hx
    · cases hx
    -- the mask leaves the low 160 bits
    · rw [← Except.ok.inj hx, Nat.and_two_pow_sub_one_eq_mod, ADDRESS_BIT_LENGTH]
      have hlt : (h.poseidon2 (toFr h b.gr) (u256ToFr b.secret.val)).val % 2 ^ 160 < 2 ^ 160 :=
        Nat.mod_lt _ (by positivity)
      refine fr_eq_of_val_eq ?_
      rw [addressToFr_val, frToAddress, Fin.val_ofNat,
        val_natCast_of_lt_two_pow (n := 160) (by omega) hlt, Nat.mod_eq_of_lt hlt]
  · intro hok
    exact ⟨_, hok, congrArg Except.ok (frToAddress_addressToFr a)⟩

end FullBurnAddress

end Client

end Zerc20
