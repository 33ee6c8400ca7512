import Zerc20.Hash.Basic
import Zerc20.Lib.Text
import Mathlib.Data.Vector.Defs

/-!
# Signed messages of the storage canisters

`zstorage/backend/key_manager/src/authorization.rs` and `invoice_signature_message` of
`zstorage/backend/storage/src/lib.rs`: the texts a wallet signs, and the recovery of the signer.

The libraries behind them are parameters. `Encodings` has the text formats (`Principal::to_text`,
`hex::encode` and `eip191_message`), `Crypto` has Keccak and the secp256k1 recovery.
`Encodings.Documented` is what the formats are documented to do; it makes the signed bytes
unambiguous (`authorizationMessage_injective`) and keeps the two purposes apart
(`authorizationMessage_ne_invoice`).
-/

namespace Zerc20

namespace Zstorage

/-- `[u8; 20]`. -/
abbrev EthAddress := List.Vector UInt8 20

/-- `[u8; 32]`. -/
abbrev InvoiceId := List.Vector UInt8 32

abbrev U64 := Fin (2 ^ 64)

structure Encodings (Principal : Type) where
  toText : Principal → String
  hexEncode : List UInt8 → String
  eip191Message : List UInt8 → List UInt8

structure Crypto where
  Signature : Type
  fromRaw : List UInt8 → Option Signature
  keccak256 : List UInt8 → List UInt8
  recoverAddressFromPrehash : Signature → List UInt8 → Option EthAddress

inductive AuthorizationError where
  | invalidLength
  | invalidSignature
  | recoveryFailed
  deriving DecidableEq

def AuthorizationError.text : AuthorizationError → String
  | .invalidLength => "signature must be 65 bytes (r||s||v)"
  | .invalidSignature => "invalid signature"
  | .recoveryFailed => "failed to recover signer"

section

variable {Principal : Type} (E : Encodings Principal)

/-- The text of `authorization_message`. -/
def authorizationText (canisterId : Principal) (address : EthAddress)
    (transportPublicKey : List UInt8) (expiryNs nonce : U64) : String :=
  "ICP Stealth Authorization:\naddress: 0x" ++ E.hexEncode address.toList
    ++ "\ncanister: " ++ E.toText canisterId ++ "\ntransport: 0x" ++ E.hexEncode transportPublicKey
    ++ "\nexpiry_ns:" ++ toString expiryNs.val ++ "\nnonce:" ++ toString nonce.val

def authorizationMessage (canisterId : Principal) (address : EthAddress)
    (transportPublicKey : List UInt8) (expiryNs nonce : U64) : List UInt8 :=
  E.eip191Message
    (Text.asBytes (authorizationText E canisterId address transportPublicKey expiryNs nonce))

/-- The text of `invoice_signature_message`. -/
def invoiceSignatureText (invoiceId : InvoiceId) : String :=
  "ICP Stealth Invoice Submission:\ninvoice_id: 0x" ++ E.hexEncode invoiceId.toList

def invoiceSignatureMessage (invoiceId : InvoiceId) : List UInt8 :=
  E.eip191Message (Text.asBytes (invoiceSignatureText E invoiceId))

end

def recoverAddressFromSignature (K : Crypto) (message signature : List UInt8) :
    Except AuthorizationError EthAddress :=
  match K.fromRaw signature with
  | none => .error .invalidSignature
  | some signature =>
    match K.recoverAddressFromPrehash signature (K.keccak256 message) with
    | none => .error .recoveryFailed
    | some address => .ok address

/-! ## Unambiguity -/

def principalAlphabet : List Char := "abcdefghijklmnopqrstuvwxyz234567-".toList

/-- What the text formats are documented to do. -/
structure Encodings.Documented {Principal : Type} (E : Encodings Principal) : Prop where
  toText_injective : Function.Injective E.toText
  toText_alphabet : ∀ p, ∀ c ∈ (E.toText p).toList, c ∈ principalAlphabet
  hexEncode_eq : ∀ bs, E.hexEncode bs = Text.hex bs
  eip191Message_eq : ∀ m, E.eip191Message m
    = Text.asBytes "\x19Ethereum Signed Message:\n" ++ Text.asBytes (toString m.length) ++ m

section

variable {Principal : Type} {E : Encodings Principal}

/-- A signed text that does not start with a digit can be read off the signed bytes. -/
theorem eip191Message_injective (hE : E.Documented) {s t : String}
    (hs : ∀ c ∈ s.toList.head?, ¬ c.isDigit = true)
    (ht : ∀ c ∈ t.toList.head?, ¬ c.isDigit = true)
    (heq : E.eip191Message (Text.asBytes s) = E.eip191Message (Text.asBytes t)) : s = t := by
  rw [hE.eip191Message_eq, hE.eip191Message_eq, List.append_assoc, List.append_assoc] at heq
  replace heq := List.append_cancel_left heq
  rw [← Text.asBytes_append, ← Text.asBytes_append] at heq
  have htext := congrArg String.toList (Text.asBytes_injective heq)
  rw [String.toList_append, String.toList_append] at htext
  obtain ⟨-, hrest⟩ := Text.append_inj_of_forall
    (fun c => Text.isDigit_of_mem_toString) (fun c => Text.isDigit_of_mem_toString) hs ht htext
  exact String.toList_inj.mp hrest

/-- A field up to the end of its line. -/
theorem line_inj {a b x y : List Char} (ha : '\n' ∉ a) (hb : '\n' ∉ b)
    (heq : a ++ '\n' :: x = b ++ '\n' :: y) : a = b ∧ x = y := by
  obtain ⟨hfield, hrest⟩ := Text.append_inj_of_forall (p := fun c => c ≠ '\n')
    (fun c hc hnl => ha (hnl ▸ hc)) (fun c hc hnl => hb (hnl ▸ hc))
    (by simp) (by simp) heq
  exact ⟨hfield, (List.cons.inj hrest).2⟩

theorem newline_notMem_hex (hE : E.Documented) (bs : List UInt8) :
    '\n' ∉ (E.hexEncode bs).toList := by
  intro hmem
  rw [hE.hexEncode_eq] at hmem
  exact absurd (Text.isAlphanum_of_mem_hex hmem) (by decide)

theorem newline_notMem_toText (hE : E.Documented) (p : Principal) :
    '\n' ∉ (E.toText p).toList :=
  fun hmem => absurd (hE.toText_alphabet p _ hmem) (by decide)

theorem newline_notMem_toString (n : ℕ) : '\n' ∉ (toString n).toList :=
  fun hmem => absurd (Text.isDigit_of_mem_toString hmem) (by decide)

/-- The lines of an authorization. -/
theorem authorizationText_toList (canisterId : Principal) (address : EthAddress)
    (transportPublicKey : List UInt8) (expiryNs nonce : U64) :
    (authorizationText E canisterId address transportPublicKey expiryNs nonce).toList
      = "ICP Stealth Authorization:\naddress: 0x".toList
        ++ ((E.hexEncode address.toList).toList
        ++ '\n' :: ("canister: ".toList ++ ((E.toText canisterId).toList
        ++ '\n' :: ("transport: 0x".toList ++ ((E.hexEncode transportPublicKey).toList
        ++ '\n' :: ("expiry_ns:".toList ++ ((toString expiryNs.val).toList
        ++ '\n' :: ("nonce:".toList ++ (toString nonce.val).toList)))))))) := by
  have hcanister : "\ncanister: ".toList = '\n' :: "canister: ".toList := by decide
  have htransport : "\ntransport: 0x".toList = '\n' :: "transport: 0x".toList := by decide
  have hexpiry : "\nexpiry_ns:".toList = '\n' :: "expiry_ns:".toList := by decide
  have hnonce : "\nnonce:".toList = '\n' :: "nonce:".toList := by decide
  unfold authorizationText
  rw [String.toList_append, String.toList_append, String.toList_append, String.toList_append,
    String.toList_append, String.toList_append, String.toList_append, String.toList_append,
    String.toList_append, hcanister, htransport, hexpiry, hnonce]
  simp only [List.append_assoc, List.cons_append]

/-- What follows a number in the message does not start with a digit. -/
theorem not_isDigit_head {s : String} {rest : List Char} (hs : s.toList.head? = some 'I') :
    ∀ c ∈ (s.toList ++ rest).head?, ¬ c.isDigit = true := by
  intro c hc
  rw [List.head?_append, hs] at hc
  cases hc
  decide

/-- So all the fields can be read off the message. -/
theorem authorizationMessage_injective (hE : E.Documented) {p p' : Principal}
    {a a' : EthAddress} {t t' : List UInt8} {e e' n n' : U64}
    (heq : authorizationMessage E p a t e n = authorizationMessage E p' a' t' e' n') :
    p = p' ∧ a = a' ∧ t = t' ∧ e = e' ∧ n = n' := by
  have htext := eip191Message_injective hE
    (by rw [authorizationText_toList]; exact not_isDigit_head (by decide))
    (by rw [authorizationText_toList]; exact not_isDigit_head (by decide)) heq
  replace htext := congrArg String.toList htext
  rw [authorizationText_toList, authorizationText_toList] at htext
  -- read the fields off, line by line
  obtain ⟨haddress, hcanister⟩ := line_inj (newline_notMem_hex hE _) (newline_notMem_hex hE _)
    (List.append_cancel_left htext)
  obtain ⟨hprincipal, htransport⟩ := line_inj (newline_notMem_toText hE _)
    (newline_notMem_toText hE _) (List.append_cancel_left hcanister)
  obtain ⟨hkey, hexpiry⟩ := line_inj (newline_notMem_hex hE _) (newline_notMem_hex hE _)
    (List.append_cancel_left htransport)
  obtain ⟨hexpiryNs, hnonce⟩ := line_inj (newline_notMem_toString _) (newline_notMem_toString _)
    (List.append_cancel_left hexpiry)
  rw [hE.hexEncode_eq, hE.hexEncode_eq] at haddress hkey
  refine ⟨hE.toText_injective (String.toList_inj.mp hprincipal), ?_, Text.hex_injective hkey,
    Fin.ext (Text.toString_injective hexpiryNs),
    Fin.ext (Text.toString_injective (List.append_cancel_left hnonce))⟩
  exact List.Vector.eq _ _ (Text.hex_injective haddress)

/-- No authorization is an invoice submission: the texts differ in their thirteenth character. -/
theorem authorizationMessage_ne_invoice (hE : E.Documented) (p : Principal) (a : EthAddress)
    (t : List UInt8) (e n : U64) (invoiceId : InvoiceId) :
    authorizationMessage E p a t e n ≠ invoiceSignatureMessage E invoiceId := by
  intro heq
  have hinvoice : (invoiceSignatureText E invoiceId).toList
      = "ICP Stealth Invoice Submission:\ninvoice_id: 0x".toList
        ++ (E.hexEncode invoiceId.toList).toList := String.toList_append
  have htext := eip191Message_injective hE
    (by rw [authorizationText_toList]; exact not_isDigit_head (by decide))
    (by rw [hinvoice]; exact not_isDigit_head (by decide)) heq
  replace htext := congrArg (fun s : String => s.toList[12]?) htext
  simp only [authorizationText_toList, hinvoice] at htext
  rw [List.getElem?_append_left (by decide), List.getElem?_append_left (by decide)] at htext
  exact absurd htext (by decide)

end

end Zstorage

end Zerc20
