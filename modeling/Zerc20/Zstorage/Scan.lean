import Zerc20.Client.BurnAddress
import Zerc20.Hash.Sha256
import Zerc20.Lib.Text
import Zerc20.Zstorage.Announcements

/-!
# Scanning for announcements of an account

What the two clients do with a page of announcements: they try to decrypt each of them with the
account's view key and decode what they get. The TypeScript client is `scanReceivings` of
`frontend/src/services/sdk/operations/scanner.ts` over `storage/encryption.ts`, the Rust client the
loop of `cli/src/commands/scan_receive_transfers.rs` over `zstorage/frontend/src/encryption.rs`.

Anyone may submit announcements, so every failure of an item has to be a skip. `scan_survives_iff`
says for which announcements both clients finish with the same result.
-/

namespace Zerc20

namespace Zstorage

open Machine Client

/-! ## Decryption -/

/-- The libraries of the clients: identity-based encryption and AES-GCM. -/
structure StealthCrypto (VetKey IbeCiphertext : Type) where
  deserialize : List UInt8 → Option IbeCiphertext
  decrypt : IbeCiphertext → VetKey → Option (List UInt8)
  aesGcmDecrypt : (sessionKey nonce ciphertext : List UInt8) → Option (List UInt8)

structure DecryptedAnnouncement where
  id : ℕ
  plaintext : List UInt8
  createdAtNs : ℕ

inductive StealthError where
  | announcementIgnored (reason : String)
  | thrown (message : String)

def SESSION_KEY_LEN : ℕ := 32

def NONCE_LEN : ℕ := 12

section

variable {VetKey IbeCiphertext : Type} (crypto : StealthCrypto VetKey IbeCiphertext) (vetKey : VetKey)

/-- `decrypt_announcement`, with the errors of its first two steps. -/
def decryptWith (invalidIbe mismatch : StealthError) (a : Announcement) :
    Except StealthError DecryptedAnnouncement := do
  let ibe ← okOr (crypto.deserialize a.ibeCiphertext) invalidIbe
  let sessionKey ← okOr (crypto.decrypt ibe vetKey) mismatch
  require (sessionKey.length = SESSION_KEY_LEN)
    (.announcementIgnored "unexpected session key length")
  require (a.nonce.length = NONCE_LEN) (.announcementIgnored "invalid nonce length")
  let plaintext ← okOr (crypto.aesGcmDecrypt sessionKey a.nonce a.ciphertext)
    (.announcementIgnored "ciphertext authentication failed")
  return ⟨a.id, plaintext, a.createdAtNs⟩

/-- `decryptAnnouncement` of the TypeScript client: the first step stands outside the `try`. -/
def tsDecryptAnnouncement : Announcement → Except StealthError DecryptedAnnouncement :=
  decryptWith crypto vetKey (.thrown "invalid IBE ciphertext")
    (.announcementIgnored "vet key mismatch or invalid ciphertext")

/-- `decrypt_announcement` of the Rust client. -/
def rustDecryptAnnouncement : Announcement → Except StealthError DecryptedAnnouncement :=
  decryptWith crypto vetKey (.announcementIgnored "invalid IBE ciphertext")
    (.announcementIgnored "vet key mismatch")

end

/-- `catch` of the two `scanAnnouncements`. -/
def handleDecrypted : Except StealthError DecryptedAnnouncement →
    Handled StealthError DecryptedAnnouncement
  | .ok result => .keep result
  | .error (.announcementIgnored _) => .skip
  | .error e => .abort e

def scanAnnouncements
    (decryptAnnouncement : Announcement → Except StealthError DecryptedAnnouncement) :
    List Announcement → Except StealthError (List DecryptedAnnouncement) :=
  sift fun a => handleDecrypted (decryptAnnouncement a)

/-! ## The TypeScript client -/

/-- `JsBurnArtifacts`; what it derives from the recipient is left out. -/
structure BurnArtifacts where
  burnAddress : Address
  fullBurnAddress : List UInt8
  generalRecipient : GeneralRecipient
  secret : Fin (2 ^ 256)

structure ScannedAnnouncement where
  id : ℕ
  burnAddress : Address
  fullBurnAddress : List UInt8
  createdAtNs : ℕ
  recipientChainId : Fin (2 ^ 64)

/-- The bytes of `normalizeHex(hexFromBytes(…))`: an empty payload becomes a zero byte. -/
def normalizePayload (plaintext : List UInt8) : List UInt8 :=
  if plaintext = [] then [0] else plaintext

/-- `lower.includes('pow') || lower.includes('derive burn address')`. -/
def powMessage (message : String) : Bool :=
  let lower := message.toList.map Char.toLower
  decide ("pow".toList <:+: lower ∨ "derive burn address".toList <:+: lower)

section

variable (h : Hashes) (toValue : BurnArtifacts → Except String Unit)

/-- `build_burn_artifacts`. -/
def buildBurnArtifacts (b : FullBurnAddress) : Except String BurnArtifacts :=
  match b.burnAddress h with
  | .ok burnAddress => .ok ⟨burnAddress, b.toBytes, b.gr, b.secret⟩
  | .error _ => .error "failed to derive burn address from payload"

/-- `decode_full_burn_address`; `toValue` is the serializer that makes a JavaScript object. -/
def decodeFullBurnAddress (bytes : List UInt8) : Except String BurnArtifacts := do
  let burn ← (FullBurnAddress.fromBytes bytes).mapError FullBurnAddressError.text
  let artifacts ← buildBurnArtifacts h burn
  toValue artifacts
  return artifacts

/-- The body of the inner loop of `scanReceivings`. -/
def tsItem (item : DecryptedAnnouncement) : Handled StealthError ScannedAnnouncement :=
  match decodeFullBurnAddress h toValue (normalizePayload item.plaintext) with
  | .ok artifacts =>
    .keep {
      id := item.id
      burnAddress := artifacts.burnAddress
      fullBurnAddress := artifacts.fullBurnAddress
      createdAtNs := item.createdAtNs
      recipientChainId := artifacts.generalRecipient.chainId }
  | .error message => if powMessage message then .skip else .abort (.thrown message)

variable {VetKey IbeCiphertext : Type} (crypto : StealthCrypto VetKey IbeCiphertext) (vetKey : VetKey)

def tsPage (page : List Announcement) : Except StealthError (List ScannedAnnouncement) := do
  let decrypted ← scanAnnouncements (tsDecryptAnnouncement crypto vetKey) page
  sift (tsItem h toValue) decrypted

end

/-! ## The Rust client -/

structure ScannedTransfer where
  id : ℕ
  recipientChainId : Fin (2 ^ 64)
  recipientAddress : Address
  burnAddress : Address
  fullBurnAddress : List UInt8
  createdAtNs : ℕ

def recipientAddressFromPayload (burn : FullBurnAddress) : Address :=
  addressFromWord burn.gr.recipient

def isRecipient (burn : FullBurnAddress) (recipient : Address) : Bool :=
  recipientAddressFromPayload burn = recipient

section

variable (h : Hashes) (account : Address)

/-- The body of the inner loop of `scan_receive_transfers`. -/
def rustItem (entry : DecryptedAnnouncement) : Handled StealthError ScannedTransfer :=
  match FullBurnAddress.fromBytes entry.plaintext with
  | .error _ => .skip
  | .ok burn =>
    if ¬ isRecipient burn account then .skip
    else
      match burn.burnAddress h with
      | .error _ => .skip
      | .ok burnAddress =>
        .keep {
          id := entry.id
          recipientChainId := burn.gr.chainId
          recipientAddress := recipientAddressFromPayload burn
          burnAddress := burnAddress
          fullBurnAddress := entry.plaintext
          createdAtNs := entry.createdAtNs }

variable {VetKey IbeCiphertext : Type} (crypto : StealthCrypto VetKey IbeCiphertext) (vetKey : VetKey)

def rustPage (page : List Announcement) : Except StealthError (List ScannedTransfer) := do
  let decrypted ← scanAnnouncements (rustDecryptAnnouncement crypto vetKey) page
  sift (rustItem h account) decrypted

end

/-! ## Error texts -/

/-- The message of a failed derivation is one that the scan takes for missing proof of work. -/
theorem powMessage_derive : powMessage "failed to derive burn address from payload" = true := by
  decide

theorem toLower_of_isDigit {c : Char} (hc : c.isDigit) : c.toLower = c := by
  rw [Char.isDigit_iff_toNat] at hc
  unfold Char.toLower
  split
  · rename_i hupper
    have hle : 'A'.toNat ≤ c.toNat := UInt32.le_iff_toNat_le.mp hupper.1
    have h9 : '9'.toNat < 'A'.toNat := by decide
    omega
  · rfl

/-- What does not stand in a text that ends in a number, by some letters of both. -/
theorem not_infix_number {pattern : List Char} {p : Char → Bool}
    (hdigit : ∀ c : Char, c.isDigit → p c = false) {text : String}
    (hfilter : ¬ (pattern.filter p).Sublist ((text.toList.map Char.toLower).filter p)) (n : ℕ) :
    ¬ pattern <:+: (text ++ toString n).toList.map Char.toLower := by
  intro hinfix
  have hnumber : ((toString n).toList.map Char.toLower).filter p = [] := by
    rw [List.filter_eq_nil_iff]
    intro c hc
    obtain ⟨d, hd, rfl⟩ := List.mem_map.mp hc
    have hisDigit := Text.isDigit_of_mem_toString hd
    rw [toLower_of_isDigit hisDigit, hdigit d hisDigit]
    exact Bool.false_ne_true
  have hsub := hinfix.sublist.filter p
  rw [String.toList_append, List.map_append, List.filter_append, hnumber, List.append_nil] at hsub
  exact hfilter hsub

/-- No decoding error reads like missing proof of work, so that a malformed payload is not skipped
by its message. -/
theorem powMessage_decode (e : FullBurnAddressError) : powMessage e.text = false := by
  rw [powMessage, decide_eq_false_iff_not, not_or]
  -- the letters that decide: no `w` in either text, and no `v` before a `b`
  have hw : ∀ c : Char, c.isDigit → (c == 'w') = false := by
    intro c hc
    rw [beq_eq_false_iff_ne]
    rintro rfl
    exact absurd hc (by decide)
  have hvb : ∀ c : Char, c.isDigit → (c == 'v' || c == 'b') = false := by
    intro c hc
    rw [Bool.or_eq_false_iff, beq_eq_false_iff_ne, beq_eq_false_iff_ne]
    constructor
    · rintro rfl
      exact absurd hc (by decide)
    · rintro rfl
      exact absurd hc (by decide)
  cases e with
  | length got =>
    exact ⟨not_infix_number hw (by decide +kernel) got, not_infix_number hvb (by decide +kernel) got⟩
  | version got =>
    exact ⟨not_infix_number hw (by decide +kernel) got.toNat,
      not_infix_number hvb (by decide +kernel) got.toNat⟩

/-! ## Items -/

section

variable {VetKey IbeCiphertext : Type} (crypto : StealthCrypto VetKey IbeCiphertext)
  (vetKey : VetKey)

/-- What the account's key makes of an announcement. -/
def opened (a : Announcement) : Option (List UInt8) := do
  let ibe ← crypto.deserialize a.ibeCiphertext
  let sessionKey ← crypto.decrypt ibe vetKey
  if sessionKey.length = SESSION_KEY_LEN ∧ a.nonce.length = NONCE_LEN then
    crypto.aesGcmDecrypt sessionKey a.nonce a.ciphertext
  else none

end

section

variable {VetKey IbeCiphertext : Type} {crypto : StealthCrypto VetKey IbeCiphertext}
  {vetKey : VetKey} {h : Hashes} {toValue : BurnArtifacts → Except String Unit}
  {account : Address}

/-- What was opened had been deserialized. -/
theorem deserializes_of_opened {a : Announcement} {plaintext : List UInt8}
    (hopened : opened crypto vetKey a = some plaintext) :
    crypto.deserialize a.ibeCiphertext ≠ none := by
  intro hnone
  rw [opened, hnone] at hopened
  cases hopened

/-- Only what the first step throws can stop the scan. -/
theorem handleDecrypted_decryptWith (invalidIbe : StealthError) (reason : String)
    (a : Announcement) :
    handleDecrypted (decryptWith crypto vetKey invalidIbe (.announcementIgnored reason) a)
      = if crypto.deserialize a.ibeCiphertext = none then handleDecrypted (.error invalidIbe)
        else match opened crypto vetKey a with
          | some plaintext => .keep ⟨a.id, plaintext, a.createdAtNs⟩
          | none => .skip := by
  unfold decryptWith opened
  cases hibe : crypto.deserialize a.ibeCiphertext with
  | none => rfl
  | some ibe =>
    rw [if_neg (Option.some_ne_none ibe)]
    simp only [okOr, bind, Except.bind, Option.bind]
    cases crypto.decrypt ibe vetKey with
    | none => rfl
    | some sessionKey =>
      by_cases hkey : sessionKey.length = SESSION_KEY_LEN
      · by_cases hnonce : a.nonce.length = NONCE_LEN
        · simp only [require, if_pos hkey, if_pos hnonce, if_pos (And.intro hkey hnonce)]
          cases crypto.aesGcmDecrypt sessionKey a.nonce a.ciphertext <;> rfl
        · simp only [require, if_pos hkey, if_neg hnonce,
            if_neg (fun hboth : _ ∧ _ => hnonce hboth.2)]
          rfl
      · simp only [require, if_neg hkey, if_neg (fun hboth : _ ∧ _ => hkey hboth.1)]
        rfl

/-- Normalizing the payload changes nothing that the decoder looks at. -/
theorem fromBytes_normalizePayload {plaintext : List UInt8} {b : FullBurnAddress} :
    FullBurnAddress.fromBytes (normalizePayload plaintext) = .ok b
      ↔ FullBurnAddress.fromBytes plaintext = .ok b := by
  unfold normalizePayload
  split
  · rename_i hempty
    rw [hempty, FullBurnAddress.fromBytes_eq_ok, FullBurnAddress.fromBytes_eq_ok]
    have hlength := b.toBytes_length
    constructor
    · intro hbytes
      rw [← hbytes] at hlength
      exact absurd hlength (by decide)
    · intro hbytes
      rw [← hbytes] at hlength
      exact absurd hlength (by decide)
  · rfl

/-- The serializer's own errors are not those that the scan skips. -/
def SerializerErrors (toValue : BurnArtifacts → Except String Unit) : Prop :=
  ∀ artifacts message, toValue artifacts = .error message → powMessage message = false

/-- What a burn with a valid proof of work is made into. -/
def artifactsOf (b : FullBurnAddress) (burnAddress : Address) : BurnArtifacts :=
  ⟨burnAddress, b.toBytes, b.gr, b.secret⟩

/-- Both steps of the TypeScript client at an announcement. -/
def tsHandled (h : Hashes) (toValue : BurnArtifacts → Except String Unit)
    (crypto : StealthCrypto VetKey IbeCiphertext) (vetKey : VetKey) (a : Announcement) :
    Handled StealthError ScannedAnnouncement :=
  (handleDecrypted (tsDecryptAnnouncement crypto vetKey a)).andThen (tsItem h toValue)

/-- Both steps of the Rust client at an announcement. -/
def rustHandled (h : Hashes) (account : Address) (crypto : StealthCrypto VetKey IbeCiphertext)
    (vetKey : VetKey) (a : Announcement) : Handled StealthError ScannedTransfer :=
  (handleDecrypted (rustDecryptAnnouncement crypto vetKey a)).andThen (rustItem h account)

/-- The announcement decrypts to the well-formed burn `b`, whose burn address is valid. -/
def Announces (h : Hashes) (crypto : StealthCrypto VetKey IbeCiphertext) (vetKey : VetKey)
    (a : Announcement) (b : FullBurnAddress) (burnAddress : Address) : Prop :=
  ∃ plaintext, opened crypto vetKey a = some plaintext
    ∧ FullBurnAddress.fromBytes plaintext = .ok b ∧ b.burnAddress h = .ok burnAddress

/-- An announcement that stops no client, and that they agree on. -/
structure Harmless (h : Hashes) (toValue : BurnArtifacts → Except String Unit) (account : Address)
    (crypto : StealthCrypto VetKey IbeCiphertext) (vetKey : VetKey) (a : Announcement) : Prop where
  deserializes : crypto.deserialize a.ibeCiphertext ≠ none
  wellFormed : ∀ plaintext, opened crypto vetKey a = some plaintext →
    ∃ b, FullBurnAddress.fromBytes plaintext = .ok b
  addressed : ∀ b burnAddress, Announces h crypto vetKey a b burnAddress →
    isRecipient b account = true ∧ toValue (artifactsOf b burnAddress) = .ok ()

/-- An announcement announces one address. -/
theorem Announces.unique {a : Announcement} {b b' : FullBurnAddress} {x x' : Address}
    (hb : Announces h crypto vetKey a b x) (hb' : Announces h crypto vetKey a b' x') :
    b = b' ∧ x = x' := by
  obtain ⟨plaintext, hopened, hdecode, hburn⟩ := hb
  obtain ⟨plaintext', hopened', hdecode', hburn'⟩ := hb'
  rw [hopened] at hopened'
  cases hopened'
  rw [hdecode] at hdecode'
  cases hdecode'
  rw [hburn] at hburn'
  cases hburn'
  exact ⟨rfl, rfl⟩

/-! ## The TypeScript client at an announcement -/

/-- The ways through `scanAnnouncements` and the inner loop of `scanReceivings`. -/
inductive TsCase (h : Hashes) (toValue : BurnArtifacts → Except String Unit)
    (crypto : StealthCrypto VetKey IbeCiphertext) (vetKey : VetKey) (a : Announcement) :
    Handled StealthError ScannedAnnouncement → Prop where
  | invalidIbe (e : StealthError) (hibe : crypto.deserialize a.ibeCiphertext = none) :
      TsCase h toValue crypto vetKey a (.abort e)
  | closed (hibe : crypto.deserialize a.ibeCiphertext ≠ none)
      (hopened : opened crypto vetKey a = none) : TsCase h toValue crypto vetKey a .skip
  | malformed (e : StealthError) (plaintext : List UInt8)
      (hopened : opened crypto vetKey a = some plaintext)
      (hdecode : ∀ b, FullBurnAddress.fromBytes plaintext ≠ .ok b) :
      TsCase h toValue crypto vetKey a (.abort e)
  | noWork (plaintext : List UInt8) (b : FullBurnAddress)
      (hopened : opened crypto vetKey a = some plaintext)
      (hdecode : FullBurnAddress.fromBytes plaintext = .ok b)
      (hburn : ∀ x, b.burnAddress h ≠ .ok x) : TsCase h toValue crypto vetKey a .skip
  | refused (e : StealthError) (b : FullBurnAddress) (x : Address)
      (hb : Announces h crypto vetKey a b x) (hvalue : toValue (artifactsOf b x) ≠ .ok ()) :
      TsCase h toValue crypto vetKey a (.abort e)
  | found (b : FullBurnAddress) (x : Address) (scanned : ScannedAnnouncement)
      (hb : Announces h crypto vetKey a b x) (hvalue : toValue (artifactsOf b x) = .ok ())
      (hid : scanned.id = a.id) : TsCase h toValue crypto vetKey a (.keep scanned)

/-- A payload that does not decode aborts the browser's scan. -/
theorem tsItem_malformed (h : Hashes) (toValue : BurnArtifacts → Except String Unit)
    (item : DecryptedAnnouncement) {e : FullBurnAddressError}
    (hdecode : FullBurnAddress.fromBytes item.plaintext = .error e) :
    ∃ message, tsItem h toValue item = .abort (.thrown message) := by
  cases hnormal : FullBurnAddress.fromBytes (normalizePayload item.plaintext) with
  | error e' =>
    refine ⟨e'.text, ?_⟩
    rw [tsItem, decodeFullBurnAddress, hnormal]
    show (if powMessage e'.text then _ else _) = _
    rw [powMessage_decode]
    rfl
  | ok b =>
    rw [fromBytes_normalizePayload, hdecode] at hnormal
    cases hnormal

/-- One without the proof of work is skipped. -/
theorem tsItem_noWork (item : DecryptedAnnouncement) {b : FullBurnAddress}
    (hdecode : FullBurnAddress.fromBytes item.plaintext = .ok b) {e : Zkp.BurnAddressError}
    (hburn : b.burnAddress h = .error e) : tsItem h toValue item = .skip := by
  have hartifacts : buildBurnArtifacts h b
      = .error "failed to derive burn address from payload" := by rw [buildBurnArtifacts, hburn]
  rw [tsItem, decodeFullBurnAddress, fromBytes_normalizePayload.mpr hdecode]
  simp only [Except.mapError, bind, Except.bind]
  rw [hartifacts]
  show (if powMessage _ then _ else _) = _
  rw [powMessage_derive]
  rfl

/-- One with it is handed to the serializer. -/
theorem tsItem_work (item : DecryptedAnnouncement) {b : FullBurnAddress} {x : Address}
    (hdecode : FullBurnAddress.fromBytes item.plaintext = .ok b)
    (hburn : b.burnAddress h = .ok x) :
    tsItem h toValue item = match toValue (artifactsOf b x) with
      | .ok _ => .keep ⟨item.id, x, b.toBytes, item.createdAtNs, b.gr.chainId⟩
      | .error message => if powMessage message then .skip else .abort (.thrown message) := by
  have hartifacts : buildBurnArtifacts h b = .ok (artifactsOf b x) := by
    rw [buildBurnArtifacts, hburn]
    rfl
  rw [tsItem, decodeFullBurnAddress, fromBytes_normalizePayload.mpr hdecode]
  simp only [Except.mapError, bind, Except.bind]
  rw [hartifacts]
  cases hvalue : toValue (artifactsOf b x) with
  | error message => simp only [hvalue]
  | ok _ =>
    simp only [hvalue]
    rfl

/-- What the browser does with an announcement, by what is in it. -/
theorem tsHandled_cases (h : Hashes) (crypto : StealthCrypto VetKey IbeCiphertext)
    (vetKey : VetKey) (hserializer : SerializerErrors toValue) (a : Announcement) :
    TsCase h toValue crypto vetKey a (tsHandled h toValue crypto vetKey a) := by
  rw [tsHandled, tsDecryptAnnouncement, handleDecrypted_decryptWith]
  -- in the order of the client's checks
  by_cases hibe : crypto.deserialize a.ibeCiphertext = none
  · rw [if_pos hibe]
    exact .invalidIbe _ hibe
  rw [if_neg hibe]
  cases hopened : opened crypto vetKey a with
  | none => exact .closed hibe hopened
  | some plaintext =>
    show TsCase h toValue crypto vetKey a (tsItem h toValue ⟨a.id, plaintext, a.createdAtNs⟩)
    cases hdecode : FullBurnAddress.fromBytes plaintext with
    | error e =>
      obtain ⟨message, habort⟩ :=
        tsItem_malformed h toValue ⟨a.id, plaintext, a.createdAtNs⟩ hdecode
      rw [habort]
      exact .malformed _ plaintext hopened (by rw [hdecode]; exact nofun)
    | ok b =>
      cases hburn : b.burnAddress h with
      | error e =>
        rw [tsItem_noWork ⟨a.id, plaintext, a.createdAtNs⟩ hdecode hburn]
        exact .noWork plaintext b hopened hdecode (by rw [hburn]; exact nofun)
      | ok x =>
        rw [tsItem_work ⟨a.id, plaintext, a.createdAtNs⟩ hdecode hburn]
        have hb : Announces h crypto vetKey a b x := ⟨plaintext, hopened, hdecode, hburn⟩
        cases hvalue : toValue (artifactsOf b x) with
        | error message =>
          show TsCase h toValue crypto vetKey a (if powMessage message then _ else _)
          rw [hserializer _ _ hvalue]
          exact .refused _ b x hb (by rw [hvalue]; exact nofun)
        | ok _ => exact .found b x _ hb hvalue rfl

/-- What an announcement must be for the TypeScript client to go on. -/
theorem ts_fine_iff (hserializer : SerializerErrors toValue) (a : Announcement) :
    (∀ e, tsHandled h toValue crypto vetKey a ≠ .abort e)
      ↔ crypto.deserialize a.ibeCiphertext ≠ none
        ∧ (∀ plaintext, opened crypto vetKey a = some plaintext →
          ∃ b, FullBurnAddress.fromBytes plaintext = .ok b)
        ∧ ∀ b x, Announces h crypto vetKey a b x → toValue (artifactsOf b x) = .ok () := by
  have hcases := tsHandled_cases h crypto vetKey hserializer a
  generalize tsHandled h toValue crypto vetKey a = handled at hcases ⊢
  cases hcases with
  | invalidIbe e hibe =>
    exact ⟨fun hall => absurd rfl (hall e), fun hfine => absurd hibe hfine.1⟩
  | closed hibe hopened =>
    refine ⟨fun _ => ⟨hibe, ?_, ?_⟩, fun _ => nofun⟩
    · intro plaintext hsome
      rw [hopened] at hsome
      cases hsome
    · rintro b x ⟨plaintext, hsome, -⟩
      rw [hopened] at hsome
      cases hsome
  | malformed e plaintext hopened hdecode =>
    refine ⟨fun hall => absurd rfl (hall e), fun hfine => ?_⟩
    obtain ⟨b, hb⟩ := hfine.2.1 plaintext hopened
    exact absurd hb (hdecode b)
  -- without work the item is skipped, so the scan goes on
  | noWork plaintext b hopened hdecode hburn =>
    refine ⟨fun _ => ⟨deserializes_of_opened hopened, ?_, ?_⟩, fun _ => nofun⟩
    · intro other hother
      rw [hopened] at hother
      cases hother
      exact ⟨b, hdecode⟩
    · rintro b' x ⟨other, hother, hdecode', hburn'⟩
      rw [hopened] at hother
      cases hother
      rw [hdecode] at hdecode'
      cases hdecode'
      exact absurd hburn' (hburn x)
  | refused e b x hb hvalue =>
    exact ⟨fun hall => absurd rfl (hall e), fun hfine => absurd (hfine.2.2 b x hb) hvalue⟩
  | found b x scanned hb hvalue hid =>
    obtain ⟨plaintext, hopened, hdecode, hburn⟩ := hb
    refine ⟨fun _ => ⟨deserializes_of_opened hopened, ?_, ?_⟩, fun _ => nofun⟩
    · intro other hother
      rw [hopened] at hother
      cases hother
      exact ⟨b, hdecode⟩
    · intro b' x' hb'
      obtain ⟨rfl, rfl⟩ := Announces.unique ⟨plaintext, hopened, hdecode, hburn⟩ hb'
      exact hvalue

/-- What the TypeScript client keeps, when it goes on. -/
theorem ts_kept_iff (hserializer : SerializerErrors toValue) {a : Announcement}
    (hfine : ∀ e, tsHandled h toValue crypto vetKey a ≠ .abort e) (id : ℕ) :
    (∃ scanned, (tsHandled h toValue crypto vetKey a).kept = some scanned ∧ scanned.id = id)
      ↔ a.id = id ∧ ∃ b x, Announces h crypto vetKey a b x := by
  have hcases := tsHandled_cases h crypto vetKey hserializer a
  generalize tsHandled h toValue crypto vetKey a = handled at hcases hfine ⊢
  cases hcases with
  | invalidIbe e hibe => exact absurd rfl (hfine e)
  | closed hibe hopened =>
    refine ⟨fun ⟨_, hsome, _⟩ => (nomatch hsome), ?_⟩
    rintro ⟨-, b, x, plaintext, hsome, -⟩
    rw [hopened] at hsome
    cases hsome
  | malformed e plaintext hopened hdecode => exact absurd rfl (hfine e)
  | noWork plaintext b hopened hdecode hburn =>
    refine ⟨fun ⟨_, hsome, _⟩ => (nomatch hsome), ?_⟩
    rintro ⟨-, b', x, other, hother, hdecode', hburn'⟩
    rw [hopened] at hother
    cases hother
    rw [hdecode] at hdecode'
    cases hdecode'
    exact absurd hburn' (hburn x)
  | refused e b x hb hvalue => exact absurd rfl (hfine e)
  -- only an announcement that opens and has work is kept
  | found b x scanned hb hvalue hid =>
    constructor
    · rintro ⟨other, hsome, hother⟩
      cases hsome
      exact ⟨hid ▸ hother, b, x, hb⟩
    · rintro ⟨rfl, -⟩
      exact ⟨scanned, rfl, hid⟩

/-! ## The Rust client at an announcement -/

/-- The command line never aborts on an announcement. -/
theorem rust_fine (a : Announcement) (e : StealthError) :
    rustHandled h account crypto vetKey a ≠ .abort e := by
  rw [rustHandled, rustDecryptAnnouncement, handleDecrypted_decryptWith]
  split
  · exact nofun
  · split
    · show rustItem h account _ ≠ _
      unfold rustItem
      split
      · exact nofun
      · split
        · exact nofun
        · split
          · exact nofun
          · exact nofun
    · exact nofun

/-- It keeps exactly the announcements of the account. -/
theorem rust_kept_iff (account : Address) (a : Announcement) (id : ℕ) :
    (∃ saved, (rustHandled h account crypto vetKey a).kept = some saved ∧ saved.id = id)
      ↔ a.id = id ∧ ∃ b x, Announces h crypto vetKey a b x ∧ isRecipient b account = true := by
  rw [rustHandled, rustDecryptAnnouncement, handleDecrypted_decryptWith]
  cases hopened : opened crypto vetKey a with
  | none =>
    have hnone : (Handled.andThen (if crypto.deserialize a.ibeCiphertext = none
        then handleDecrypted (.error (.announcementIgnored "invalid IBE ciphertext"))
        else (.skip : Handled StealthError DecryptedAnnouncement)) (rustItem h account)).kept
        = none := by
      split <;> rfl
    refine ⟨fun ⟨saved, hsome, _⟩ => ?_, ?_⟩
    · rw [hnone] at hsome
      cases hsome
    · rintro ⟨-, b, x, ⟨plaintext, hsome, -⟩, -⟩
      rw [hopened] at hsome
      cases hsome
  | some plaintext =>
    rw [if_neg (deserializes_of_opened hopened)]
    show (∃ saved, (rustItem h account ⟨a.id, plaintext, a.createdAtNs⟩).kept = some saved
      ∧ saved.id = id) ↔ _
    -- the plaintext is the one that opens
    have hannounces : (∃ b x, Announces h crypto vetKey a b x ∧ isRecipient b account = true)
        ↔ ∃ b x, FullBurnAddress.fromBytes plaintext = .ok b ∧ b.burnAddress h = .ok x
          ∧ isRecipient b account = true := by
      constructor
      · rintro ⟨b, x, ⟨other, hother, hdecode, hburn⟩, hrecipient⟩
        rw [hopened] at hother
        cases hother
        exact ⟨b, x, hdecode, hburn, hrecipient⟩
      · rintro ⟨b, x, hdecode, hburn, hrecipient⟩
        exact ⟨b, x, ⟨plaintext, hopened, hdecode, hburn⟩, hrecipient⟩
    rw [hannounces, rustItem]
    cases hdecode : FullBurnAddress.fromBytes plaintext with
    | error e => simp [Handled.kept]
    | ok b =>
      by_cases hrecipient : isRecipient b account = true
      · cases hburn : b.burnAddress h with
        | error e => simp [Handled.kept, hrecipient, hburn]
        | ok x => simp [Handled.kept, hrecipient, hburn]
      · simp [Handled.kept, hrecipient]

end

/-! ## The two scans -/

section

variable {VetKey IbeCiphertext : Type} (h : Hashes) (toValue : BurnArtifacts → Except String Unit)
  (account : Address) (crypto : StealthCrypto VetKey IbeCiphertext) (vetKey : VetKey)

/-- Both scans of the announcements end well and return the same ids, among them that of every
announcement of a burn to the account. -/
def Survives (xs : List Submission) (tsPageSize rustPageSize : ℕ) : Prop :=
  ∃ n found m saved,
    tsLoop (fun _ => Storage.after xs) tsPageSize (tsPage h toValue crypto vetKey) none n
        = some (.ok found)
      ∧ rustLoop (fun _ => Storage.after xs) rustPageSize (rustPage h account crypto vetKey) m
        = some (.ok saved)
      ∧ (∀ a ∈ (Storage.after xs).announcements, ∀ b x, Announces h crypto vetKey a b x →
        isRecipient b account = true → a.id ∈ found.map ScannedAnnouncement.id)
      ∧ ∀ id, id ∈ found.map ScannedAnnouncement.id ↔ id ∈ saved.map ScannedTransfer.id

end

section

variable {VetKey IbeCiphertext : Type} {h : Hashes} {toValue : BurnArtifacts → Except String Unit}
  {account : Address} {crypto : StealthCrypto VetKey IbeCiphertext} {vetKey : VetKey}
  {xs : List Submission} {tsPageSize rustPageSize : ℕ}

/-- A storage that nobody writes to is growing. -/
theorem growing_const (xs : List Submission) : Growing fun _ => Storage.after xs :=
  growing_after (fun _ => List.prefix_refl _) ⟨0, fun _ _ => rfl⟩

/-- A page of the browser goes through when none of its announcements aborts. -/
theorem tsPage_eq_ok {page : List Announcement} {items : List ScannedAnnouncement} :
    tsPage h toValue crypto vetKey page = .ok items
      ↔ (∀ a ∈ page, ∀ e, tsHandled h toValue crypto vetKey a ≠ .abort e)
        ∧ items = page.filterMap fun a => (tsHandled h toValue crypto vetKey a).kept :=
  sift_bind_eq_ok

/-- The same for a page of the command line. -/
theorem rustPage_eq_ok {page : List Announcement} {items : List ScannedTransfer} :
    rustPage h account crypto vetKey page = .ok items
      ↔ (∀ a ∈ page, ∀ e, rustHandled h account crypto vetKey a ≠ .abort e)
        ∧ items = page.filterMap fun a => (rustHandled h account crypto vetKey a).kept :=
  sift_bind_eq_ok

/-- The result of the TypeScript scan. -/
theorem tsScan_ok_iff (hsize : 1 ≤ tsPageSize) {found : List ScannedAnnouncement} :
    (∃ n, tsLoop (fun _ => Storage.after xs) tsPageSize (tsPage h toValue crypto vetKey) none n
        = some (.ok found))
      ↔ ¬ (tsPageSize = 1 ∧ 2 ≤ (Storage.after xs).announcements.length)
        ∧ (∀ a ∈ (Storage.after xs).announcements, ∀ e,
          tsHandled h toValue crypto vetKey a ≠ .abort e)
        ∧ found = (Storage.after xs).announcements.filterMap fun a =>
          (tsHandled h toValue crypto vetKey a).kept := by
  have hS := growing_const xs
  -- pages of one never end when there are two announcements
  by_cases hstuck : tsPageSize = 1 ∧ 2 ≤ (Storage.after xs).announcements.length
  · refine ⟨?_, fun hnot => absurd hstuck hnot.1⟩
    rintro ⟨n, hok⟩
    obtain ⟨rfl, hmany⟩ := hstuck
    obtain ⟨m, pages, -, hfetch⟩ := fetches_of_ok hok
    have hdone : scanLoop (fun _ => Storage.after xs) 1 tsCursor processAll m 0 0 [] = _ :=
      hfetch.scanLoop_eq le_rfl []
    rw [tsLoop_stuck hS hmany] at hdone
    cases hdone
  · have hfront : (none : Option ℕ) ≠ some 0 := nofun
    obtain ⟨n, pages, hfetch, hflat⟩ := ts_fetches hS hsize hfront fun hsmall => hstuck hsmall.2
    have hall : pages.flatten = (Storage.after xs).announcements := hflat
    rw [and_iff_right hstuck, ← hall]
    exact hfetch.scanLoop_ok_iff fun _ _ => tsPage_eq_ok

/-- The result of the Rust scan. -/
theorem rustScan_ok_iff (hsize : 1 ≤ rustPageSize) {saved : List ScannedTransfer} :
    (∃ m, rustLoop (fun _ => Storage.after xs) rustPageSize (rustPage h account crypto vetKey) m
        = some (.ok saved))
      ↔ saved = (Storage.after xs).announcements.filterMap fun a =>
        (rustHandled h account crypto vetKey a).kept := by
  obtain ⟨n, pages, hfetch, hflat⟩ := rust_fetches (growing_const xs) hsize
  have hall : pages.flatten = (Storage.after xs).announcements := hflat
  rw [← hall]
  exact (hfetch.scanLoop_ok_iff fun _ _ => rustPage_eq_ok).trans
    (and_iff_right fun a _ => rust_fine a)

/-- Without an abort the browser finds the announcements of an address. -/
theorem mem_found_iff (hserializer : SerializerErrors toValue)
    (hfine : ∀ a ∈ (Storage.after xs).announcements, ∀ e,
      tsHandled h toValue crypto vetKey a ≠ .abort e) {id : ℕ} :
    id ∈ ((Storage.after xs).announcements.filterMap fun a =>
        (tsHandled h toValue crypto vetKey a).kept).map ScannedAnnouncement.id
      ↔ ∃ a ∈ (Storage.after xs).announcements, a.id = id
        ∧ ∃ b x, Announces h crypto vetKey a b x := by
  simp only [List.mem_map, List.mem_filterMap]
  constructor
  · rintro ⟨scanned, ⟨a, ha, hkept⟩, hid⟩
    exact ⟨a, ha, (ts_kept_iff hserializer (hfine a ha) id).mp ⟨scanned, hkept, hid⟩⟩
  · rintro ⟨a, ha, hann⟩
    obtain ⟨scanned, hkept, hid⟩ := (ts_kept_iff hserializer (hfine a ha) id).mpr hann
    exact ⟨scanned, ⟨a, ha, hkept⟩, hid⟩

/-- The command line saves those of the account. -/
theorem mem_saved_iff {id : ℕ} :
    id ∈ ((Storage.after xs).announcements.filterMap fun a =>
        (rustHandled h account crypto vetKey a).kept).map ScannedTransfer.id
      ↔ ∃ a ∈ (Storage.after xs).announcements, a.id = id
        ∧ ∃ b x, Announces h crypto vetKey a b x ∧ isRecipient b account = true := by
  simp only [List.mem_map, List.mem_filterMap]
  constructor
  · rintro ⟨saved, ⟨a, ha, hkept⟩, hid⟩
    exact ⟨a, ha, (rust_kept_iff account a id).mp ⟨saved, hkept, hid⟩⟩
  · rintro ⟨a, ha, hann⟩
    obtain ⟨saved, hkept, hid⟩ := (rust_kept_iff account a id).mpr hann
    exact ⟨saved, ⟨a, ha, hkept⟩, hid⟩

theorem Storage.Indexed.id_injective {s : Storage} (hs : s.Indexed) {a a' : Announcement}
    (ha : a ∈ s.announcements) (ha' : a' ∈ s.announcements) (hid : a.id = a'.id) : a = a' := by
  have hnodup : (s.announcements.map Announcement.id).Nodup := by
    rw [hs.ids]
    exact List.nodup_range
  exact List.inj_on_of_nodup_map hnodup ha ha' hid

/-- **When a scan survives what is announced.** Every announcement has to be harmless, and the
TypeScript client must not read more than one of them one at a time. -/
theorem scan_survives_iff (h : Hashes) (toValue : BurnArtifacts → Except String Unit)
    (hserializer : SerializerErrors toValue) (account : Address)
    (crypto : StealthCrypto VetKey IbeCiphertext) (vetKey : VetKey) (xs : List Submission)
    (tsPageSize rustPageSize : ℕ) (htsSize : 1 ≤ tsPageSize) (hrustSize : 1 ≤ rustPageSize) :
    Survives h toValue account crypto vetKey xs tsPageSize rustPageSize
      ↔ (∀ a ∈ (Storage.after xs).announcements, Harmless h toValue account crypto vetKey a)
        ∧ ¬ (tsPageSize = 1 ∧ 2 ≤ (Storage.after xs).announcements.length) := by
  constructor
  · rintro ⟨n, found, m, saved, hts, hrust, -, hsame⟩
    obtain ⟨hsize, hfine, rfl⟩ := (tsScan_ok_iff htsSize).mp ⟨n, hts⟩
    obtain rfl := (rustScan_ok_iff hrustSize).mp ⟨m, hrust⟩
    refine ⟨fun a ha => ?_, hsize⟩
    obtain ⟨hibe, hwell, hvalue⟩ := (ts_fine_iff hserializer a).mp (hfine a ha)
    refine ⟨hibe, hwell, fun b x hb => ⟨?_, hvalue b x hb⟩⟩
    -- the Rust client has it too, so the burn is to the account
    have hfound := (mem_found_iff hserializer hfine).mpr ⟨a, ha, rfl, b, x, hb⟩
    obtain ⟨a', ha', hid, b', x', hb', hrecipient⟩ := mem_saved_iff.mp ((hsame a.id).mp hfound)
    obtain rfl := (Storage.after_indexed xs).id_injective ha' ha hid
    obtain ⟨rfl, -⟩ := hb.unique hb'
    exact hrecipient
  · rintro ⟨hall, hsize⟩
    have hfine : ∀ a ∈ (Storage.after xs).announcements, ∀ e,
        tsHandled h toValue crypto vetKey a ≠ .abort e := by
      intro a ha
      exact (ts_fine_iff hserializer a).mpr ⟨(hall a ha).deserializes, (hall a ha).wellFormed,
        fun b x hb => ((hall a ha).addressed b x hb).2⟩
    obtain ⟨n, hts⟩ := (tsScan_ok_iff htsSize).mpr ⟨hsize, hfine, rfl⟩
    obtain ⟨m, hrust⟩ : ∃ m, rustLoop (fun _ => Storage.after xs) rustPageSize
        (rustPage h account crypto vetKey) m = some (.ok _) := (rustScan_ok_iff hrustSize).mpr rfl
    refine ⟨n, _, m, _, hts, hrust, ?_, ?_⟩
    · intro a ha b x hb _
      exact (mem_found_iff hserializer hfine).mpr ⟨a, ha, rfl, b, x, hb⟩
    · intro id
      rw [mem_found_iff hserializer hfine, mem_saved_iff]
      constructor
      · rintro ⟨a, ha, hid, b, x, hb⟩
        exact ⟨a, ha, hid, b, x, hb, ((hall a ha).addressed b x hb).1⟩
      · rintro ⟨a, ha, hid, b, x, hb, -⟩
        exact ⟨a, ha, hid, b, x, hb⟩

end

namespace ScanExample

/-- A stand-in for the libraries: the header of a ciphertext is 136 bytes, its tag 16. -/
def crypto : StealthCrypto Unit (List UInt8) where
  deserialize bytes := if bytes.length < 136 then none else some bytes
  decrypt ibe _ := some (ibe.drop 136)
  aesGcmDecrypt _ _ ciphertext :=
    if ciphertext.length < 16 then none else some (ciphertext.take (ciphertext.length - 16))

def toValue (artifacts : BurnArtifacts) : Except String Unit :=
  if artifacts.generalRecipient.chainId.val < 2 ^ 53 then .ok ()
  else .error "the chain id can't be represented as a JavaScript number"

/-- The serializer of the example fails with its own messages only. -/
theorem serializerErrors : SerializerErrors toValue := by
  intro artifacts message herror
  rw [toValue] at herror
  split at herror
  · cases herror
  · cases herror
    decide +kernel

def account : Address := 7

def burn : FullBurnAddress := ⟨⟨1, 7, 0⟩, 3296⟩

def payment : Submission :=
  ⟨⟨List.replicate 168 0, burn.toBytes ++ List.replicate 16 0, List.replicate 12 0⟩, 5⟩

/-- An announcement to somebody else: its IBE ciphertext is one, and the key that it gives opens
nothing. -/
def foreign : Submission := ⟨⟨List.replicate 168 1, [2], List.replicate 12 0⟩, 6⟩

def hostile : Submission := ⟨⟨[1], [2], List.replicate 12 0⟩, 6⟩

/-- The address of the example's payload. -/
theorem burnAddress_burn : burn.burnAddress realHashes
    = .ok 934694219138595297167599639506619957095103547814 := by
  decide +kernel

def announced : Announcement :=
  ⟨0, payment.input.ibeCiphertext, payment.input.ciphertext, payment.input.nonce, 5⟩

/-- The announcement of the example opens to that payload. -/
theorem opened_announced : opened crypto () announced = some burn.toBytes := by
  decide +kernel

def foreignAnnounced : Announcement :=
  ⟨1, foreign.input.ibeCiphertext, foreign.input.ciphertext, foreign.input.nonce, 6⟩

theorem opened_foreign : opened crypto () foreignAnnounced = none := by
  decide +kernel

end ScanExample

/-- The scan gets over an announcement that it cannot decrypt, and finds its payment. -/
theorem scan_survives_payment :
    Survives realHashes ScanExample.toValue ScanExample.account ScanExample.crypto ()
        [ScanExample.payment, ScanExample.foreign] 100 100
      ∧ opened ScanExample.crypto () ScanExample.foreignAnnounced = none
      ∧ (Storage.after [ScanExample.payment, ScanExample.foreign]).announcements
        = [ScanExample.announced, ScanExample.foreignAnnounced]
      ∧ ∃ b x, Announces realHashes ScanExample.crypto () ScanExample.announced b x
        ∧ isRecipient b ScanExample.account = true := by
  have hafter : (Storage.after [ScanExample.payment, ScanExample.foreign]).announcements
      = [ScanExample.announced, ScanExample.foreignAnnounced] := by decide +kernel
  refine ⟨(scan_survives_iff realHashes ScanExample.toValue ScanExample.serializerErrors
    ScanExample.account ScanExample.crypto () [ScanExample.payment, ScanExample.foreign] 100 100
    (by decide) (by decide)).mpr ⟨fun a ha => ?_, fun hone => absurd hone.1 (by decide)⟩,
    ScanExample.opened_foreign, hafter, ?_⟩
  · rw [hafter] at ha
    rcases List.mem_cons.mp ha with rfl | hlast
    · refine ⟨by decide +kernel, ?_, ?_⟩
      · intro plaintext hopened
        rw [ScanExample.opened_announced] at hopened
        cases hopened
        exact ⟨_, FullBurnAddress.fromBytes_toBytes _⟩
      · rintro b x ⟨plaintext, hopened, hdecode, -⟩
        rw [ScanExample.opened_announced] at hopened
        cases hopened
        rw [FullBurnAddress.fromBytes_toBytes] at hdecode
        cases hdecode
        exact ⟨by decide, by rfl⟩
    · -- nothing comes out of the other one
      obtain rfl := List.mem_singleton.mp hlast
      refine ⟨by decide +kernel, ?_, ?_⟩
      · intro plaintext hopened
        rw [ScanExample.opened_foreign] at hopened
        cases hopened
      · rintro b x ⟨plaintext, hopened, -, -⟩
        rw [ScanExample.opened_foreign] at hopened
        cases hopened
  · exact ⟨ScanExample.burn, _, ⟨_, ScanExample.opened_announced,
      FullBurnAddress.fromBytes_toBytes _, ScanExample.burnAddress_burn⟩, by decide⟩

/-- One announcement with a byte for a ciphertext stops the scan of the TypeScript client. -/
theorem scan_stopped : ¬ Survives realHashes ScanExample.toValue ScanExample.account
    ScanExample.crypto () [ScanExample.payment, ScanExample.hostile] 100 100 := by
  rintro ⟨n, found, m, saved, hts, -⟩
  obtain ⟨-, hfine, -⟩ := (tsScan_ok_iff (by decide)).mp ⟨n, hts⟩
  have hlast : (⟨1, [1], [2], List.replicate 12 0, 6⟩ : Announcement)
      ∈ (Storage.after [ScanExample.payment, ScanExample.hostile]).announcements := by
    decide +kernel
  exact hfine _ hlast (.thrown "invalid IBE ciphertext") rfl

end Zstorage

end Zerc20
