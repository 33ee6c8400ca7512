import Zerc20.Client.Invoice
import Zerc20.Zstorage.Scan

/-!
# Redeeming an announced payment

What the two clients submit for a payment that their scan accepted. The Rust client
(`cli/src/commands/receive_transfer.rs`) submits the recipient of the payload. The browser gets
its recipient from `general_recipient_to_js` of `wasm/src/lib.rs`, an address of 20 bytes, and
pads it to a word again (`padRecipient` of `ScanReceivingsPanel.tsx`); the proof is made for the
recipient of the payload.

* `fromBytes_ok_iff` — the payloads that decode.
* `padRecipient_eq_iff` — the words that survive the detour over 20 bytes.
* `payment_redeemable_iff` — the payments that the contract accepts from both clients.
-/

namespace Zerc20

namespace Zstorage

open Machine Radix Client Client.FullBurnAddress

/-! ## What is submitted -/

/-- The recipient tuple of a teleport, and the recipient that its proof was made for. -/
structure Submitted where
  gr : GeneralRecipient
  recipientFr : Fr

/-- `_teleport` does not revert with `RecipientMismatch`. -/
def Submitted.Matches (h : Hashes) (s : Submitted) : Prop := s.recipientFr.val = s.gr.hash h

structure JsGeneralRecipient where
  chainId : Fin (2 ^ 64)
  address : Address
  tweak : Word
  fr : Fr
  u256 : Word

def padRecipient (address : Address) : Word := addressIntoWord address

section

variable (h : Hashes) (toValue : BurnArtifacts → Except String Unit)

def generalRecipientToJs (gr : GeneralRecipient) : JsGeneralRecipient :=
  let frValue := gr.toFr h
  { chainId := gr.chainId
    address := addressFromWord gr.recipient
    tweak := gr.tweak
    fr := frValue
    u256 := frToB256 frValue }

/-- `receive_transfer.rs`: the payload of the scan is decoded again. -/
def cliSubmits (saved : ScannedTransfer) : Except FullBurnAddressError Submitted := do
  let burnPayload ← fromBytes saved.fullBurnAddress
  return ⟨burnPayload.gr, burnPayload.gr.toFr h⟩

/-- `redeemAnnouncement` of the panel. -/
def browserSubmits (announcement : ScannedAnnouncement) : Except String Submitted := do
  let burn ← decodeFullBurnAddress h toValue announcement.fullBurnAddress
  let generalRecipient := generalRecipientToJs h burn.generalRecipient
  return {
    gr := {
      chainId := generalRecipient.chainId
      recipient := padRecipient generalRecipient.address
      tweak := generalRecipient.tweak }
    recipientFr := generalRecipient.fr }

/-- Each client whose scan accepts the payment submits a recipient that its proof is for. -/
def Redeemable (account : Address) (item : DecryptedAnnouncement) : Prop :=
  (∀ saved, rustItem h account item = .keep saved →
    ∃ s, cliSubmits h saved = .ok s ∧ s.Matches h)
  ∧ ∀ scanned, tsItem h toValue item = .keep scanned →
    ∃ s, browserSubmits h toValue scanned = .ok s ∧ s.Matches h

end

/-! ## The payload -/

/-- **The payloads that decode**: their length and their first byte. -/
theorem fromBytes_ok_iff (bytes : List UInt8) :
    (∃ b, fromBytes bytes = .ok b)
      ↔ bytes.length = FULL_BURN_ADDRESS_SERIALIZED_LEN
        ∧ bytes.headD 0 = FULL_BURN_ADDRESS_VERSION := by
  constructor
  · rintro ⟨b, hb⟩
    rw [fromBytes_eq_ok.mp hb]
    exact ⟨b.toBytes_length, rfl⟩
  · rintro ⟨hlength, hversion⟩
    rw [fromBytes, require_of hlength, require_of hversion]
    exact ⟨_, rfl⟩

/-- The upper 12 bytes of the recipient, in the payload. -/
theorem recipientPrefix_zero_iff (b : FullBurnAddress) :
    (∀ byte ∈ slice b.toBytes 9 21, byte = 0) ↔ b.gr.recipient.val < 2 ^ 160 := by
  have hleading : slice b.toBytes 9 21 = bytesBE 12 (b.gr.recipient.val / 256 ^ 20) := by
    rw [toBytes, show (32 : ℕ) = 12 + 20 from rfl, bytesBE_add 12 20 b.gr.recipient.val]
    simp only [List.append_assoc]
    rw [← List.append_assoc [FULL_BURN_ADDRESS_VERSION], ← List.append_assoc (_ ++ _)]
    exact slice_append _ _ _ (by simp) (by simp)
  have hsmall : b.gr.recipient.val / 256 ^ 20 < 256 ^ 12 := by
    rw [Nat.div_lt_iff_lt_mul (by positivity)]
    exact Nat.lt_of_lt_of_eq b.gr.recipient.isLt (by norm_num)
  rw [hleading, bytesBE_eq_zero_iff hsmall, Nat.div_eq_zero_iff]
  norm_num

/-! ## The detour over 20 bytes -/

/-- The browser keeps the lower 160 bits of the recipient. -/
theorem padRecipient_val (word : Word) :
    (padRecipient (addressFromWord word)).val = word.val % 2 ^ 160 := by
  rw [padRecipient, addressIntoWord, Fin.val_castLE, addressFromWord, Fin.val_ofNat]

/-- **Only words below `2 ^ 160` come back.** -/
theorem padRecipient_eq_iff (word : Word) :
    padRecipient (addressFromWord word) = word ↔ word.val < 2 ^ 160 := by
  rw [Fin.ext_iff, padRecipient_val]
  constructor
  · intro heq
    rw [← heq]
    exact Nat.mod_lt _ (by positivity)
  · exact Nat.mod_eq_of_lt

/-- What the browser makes of a recipient. -/
def padded (gr : GeneralRecipient) : GeneralRecipient :=
  { gr with recipient := padRecipient (addressFromWord gr.recipient) }

/-- So it changes nothing for an address. -/
theorem padded_eq_iff (gr : GeneralRecipient) : padded gr = gr ↔ gr.recipient.val < 2 ^ 160 := by
  rw [← padRecipient_eq_iff]
  constructor
  · exact congrArg GeneralRecipient.recipient
  · intro heq
    rw [padded, heq]

/-! ## The two clients -/

section

variable {h : Hashes} {toValue : BurnArtifacts → Except String Unit} {account : Address}
  {item : DecryptedAnnouncement}

/-- The Verifier compares the hashes of the two recipients. -/
theorem matches_iff (gr gr' : GeneralRecipient) :
    Submitted.Matches h ⟨gr, gr'.toFr h⟩ ↔ gr'.hash h = gr.hash h := by
  rw [Submitted.Matches, GeneralRecipient.toFr_val]

/-- The Rust client saves the payload, and submits the recipient in it. -/
theorem cli_submits {saved : ScannedTransfer} (hsaved : rustItem h account item = .keep saved) :
    ∃ s, cliSubmits h saved = .ok s ∧ s.Matches h := by
  rw [rustItem] at hsaved
  split at hsaved
  · cases hsaved
  · rename_i burn hdecode
    split at hsaved
    · cases hsaved
    · split at hsaved
      · cases hsaved
      · cases hsaved
        refine ⟨⟨burn.gr, burn.gr.toFr h⟩, ?_, (matches_iff _ _).mpr rfl⟩
        rw [cliSubmits, hdecode]
        rfl

/-- The browser keeps a payment that decodes to artifacts of the payload. -/
theorem tsItem_keep {scanned : ScannedAnnouncement} (hkeep : tsItem h toValue item = .keep scanned) :
    ∃ b x, fromBytes item.plaintext = .ok b ∧ scanned.fullBurnAddress = b.toBytes
      ∧ decodeFullBurnAddress h toValue b.toBytes = .ok (artifactsOf b x) := by
  rw [tsItem] at hkeep
  cases hdecode : fromBytes item.plaintext with
  -- neither a malformed payload nor one without work is kept
  | error e =>
    obtain ⟨message, habort⟩ := tsItem_malformed h toValue item hdecode
    rw [tsItem] at habort
    rw [habort] at hkeep
    cases hkeep
  | ok b =>
    cases hburn : b.burnAddress h with
    | error e =>
      have hskip : tsItem h toValue item = .skip := tsItem_noWork item hdecode hburn
      rw [tsItem] at hskip
      rw [hskip] at hkeep
      cases hkeep
    | ok x =>
      have hwork : tsItem h toValue item = _ := tsItem_work item hdecode hburn
      rw [tsItem] at hwork
      rw [hwork] at hkeep
      cases hvalue : toValue (artifactsOf b x) with
      | error message =>
        rw [hvalue] at hkeep
        dsimp only at hkeep
        split at hkeep <;> cases hkeep
      | ok _ =>
        rw [hvalue] at hkeep
        cases hkeep
        refine ⟨b, x, rfl, rfl, ?_⟩
        have hartifacts : buildBurnArtifacts h b = .ok (artifactsOf b x) := by
          rw [buildBurnArtifacts, hburn]
          rfl
        rw [decodeFullBurnAddress, fromBytes_toBytes]
        simp only [Except.mapError, bind, Except.bind]
        rw [hartifacts]
        simp only [hvalue]
        rfl

/-- The browser submits the padded recipient, with a proof for the recipient of the payload. -/
theorem browser_submits {scanned : ScannedAnnouncement}
    (hkeep : tsItem h toValue item = .keep scanned) :
    ∃ b, fromBytes item.plaintext = .ok b
      ∧ browserSubmits h toValue scanned = .ok ⟨padded b.gr, b.gr.toFr h⟩ := by
  obtain ⟨b, x, hdecode, hpayload, hartifacts⟩ := tsItem_keep hkeep
  refine ⟨b, hdecode, ?_⟩
  rw [browserSubmits, hpayload, hartifacts]
  rfl

end

/-- **When an accepted payment can be redeemed**: if the browser accepts it, the upper 12 bytes of
its recipient are zero. The payloads are exactly the encodings, and the Rust client redeems all. -/
theorem payment_redeemable_iff (h : Hashes) (toValue : BurnArtifacts → Except String Unit)
    (account : Address) (item : DecryptedAnnouncement) :
    (∀ bytes b, fromBytes bytes = .ok b ↔ bytes = b.toBytes)
    ∧ (∀ bytes, (∃ b, fromBytes bytes = .ok b)
      ↔ bytes.length = FULL_BURN_ADDRESS_SERIALIZED_LEN
        ∧ bytes.headD 0 = FULL_BURN_ADDRESS_VERSION)
    ∧ ((Redeemable h toValue account item
        ↔ ((∃ scanned, tsItem h toValue item = .keep scanned) →
          ∀ byte ∈ slice item.plaintext 9 21, byte = 0))
      ∨ ∃ b, fromBytes item.plaintext = .ok b ∧ GeneralRecipient.Collide h (padded b.gr) b.gr) := by
  refine ⟨fun bytes b => fromBytes_eq_ok, fromBytes_ok_iff, ?_⟩
  -- a payment that the browser does not list asks for nothing
  by_cases hscanned : ∃ scanned, tsItem h toValue item = .keep scanned
  swap
  · left
    constructor
    · exact fun _ hkeep => absurd hkeep hscanned
    · intro _
      refine ⟨fun saved => cli_submits, fun scanned hkeep => ?_⟩
      exact absurd ⟨scanned, hkeep⟩ hscanned
  obtain ⟨scanned, hkeep⟩ := hscanned
  obtain ⟨b, hdecode, hsubmits⟩ := browser_submits hkeep
  -- the twelve bytes that the browser fills with zeros
  have hleading : (∀ byte ∈ slice item.plaintext 9 21, byte = 0) ↔ padded b.gr = b.gr := by
    rw [fromBytes_eq_ok.mp hdecode, recipientPrefix_zero_iff, padded_eq_iff]
  by_cases hcollision : GeneralRecipient.Collide h (padded b.gr) b.gr
  · exact Or.inr ⟨b, hdecode, hcollision⟩
  left
  constructor
  · intro hredeem _
    obtain ⟨s, hs, hmatches⟩ := hredeem.2 scanned hkeep
    rw [hsubmits] at hs
    cases hs
    rw [matches_iff] at hmatches
    rw [hleading]
    by_contra hne
    exact hcollision ⟨hne, hmatches.symm⟩
  · intro hzero
    refine ⟨fun saved => cli_submits, fun scanned' hkeep' => ?_⟩
    rw [hkeep] at hkeep'
    cases hkeep'
    refine ⟨_, hsubmits, ?_⟩
    rw [matches_iff, hleading.mp (hzero ⟨scanned, hkeep⟩)]

namespace ScanExample

/-- The recipient is the account with a bit above its 20 bytes; the proof of work is real. -/
def wideBurn : FullBurnAddress := ⟨⟨1, 2 ^ 160 + 7, 0⟩, 3155⟩

def widePayment : DecryptedAnnouncement := ⟨0, wideBurn.toBytes, 5⟩

theorem burnAddress_wideBurn : wideBurn.burnAddress realHashes
    = .ok 1378744003252881956933491972113649184231566549378 := by
  decide +kernel

/-- A recipient wider than an address is changed, and its hash with it. -/
theorem hash_padded_wideBurn :
    wideBurn.gr.hash realHashes ≠ (padded wideBurn.gr).hash realHashes := by
  decide +kernel

/-- Its payment is found by the scan all the same. -/
theorem widePayment_kept : tsItem realHashes toValue widePayment
    = .keep ⟨0, 1378744003252881956933491972113649184231566549378, wideBurn.toBytes, 5, 1⟩ := by
  rw [tsItem_work widePayment (fromBytes_toBytes wideBurn) burnAddress_wideBurn]
  rfl

end ScanExample

/-- Both clients accept the payment, and the browser's teleport is rejected. -/
theorem payment_lost : isRecipient ScanExample.wideBurn ScanExample.account = true
    ∧ ¬ Redeemable realHashes ScanExample.toValue ScanExample.account
      ScanExample.widePayment := by
  refine ⟨by decide +kernel, fun hredeem => ?_⟩
  obtain ⟨b, hdecode, hsubmits⟩ := browser_submits ScanExample.widePayment_kept
  obtain ⟨s, hs, hmatches⟩ := hredeem.2 _ ScanExample.widePayment_kept
  rw [show ScanExample.widePayment.plaintext = ScanExample.wideBurn.toBytes from rfl,
    fromBytes_toBytes] at hdecode
  have hb : b = ScanExample.wideBurn := (Except.ok.inj hdecode).symm
  rw [hsubmits] at hs
  cases hs
  rw [matches_iff, hb] at hmatches
  exact ScanExample.hash_padded_wideBurn hmatches

end Zstorage

end Zerc20
