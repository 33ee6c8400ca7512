import Zerc20.Zstorage.KeyManager
import Mathlib.Order.Fin.Basic

/-!
# Nonces of the key manager

Two properties of every run of the canister. Replays are kept out: a nonce is taken before the
key is asked for, so no pair of address and nonce reaches `vetkd_derive_key` twice, upgrades and
suspended calls included (`replay_protected`). Nonces of an address belong to it only as long as
nobody else sends requests in its name: the nonce is taken before the signature is checked
(`nonces_owned`, and `nonces_not_owned` for a run that breaks it).
-/

namespace Zerc20

namespace Zstorage

open Machine

variable {Principal : Type} (E : Encodings Principal) (K : Crypto) (canister : Principal)

namespace KeyManager

variable {E K canister} {c : KeyManager} {now : U64} {request : EncryptedViewKeyRequest}

/-! ## The parts of a step -/

/-- The state after a request is that of its first part, before the await. -/
theorem request_state : (c.requestEncryptedViewKey E K canister now request).state
    = (requestStart E K canister c.state now request).1 := by
  unfold requestEncryptedViewKey
  split <;> rename_i heq <;> rw [heq]

theorem request_error {e : RequestError}
    (hr : (requestStart E K canister c.state now request).2 = .error e) :
    (c.requestEncryptedViewKey E K canister now request).derived = c.derived
      ∧ (c.requestEncryptedViewKey E K canister now request).pending = c.pending
      ∧ (c.requestEncryptedViewKey E K canister now request).finished = c.finished ++ [{
        request
        before := c.nonces
        after := (c.requestEncryptedViewKey E K canister now request).nonces
        result := .error e }] := by
  unfold requestEncryptedViewKey
  split
  · rename_i heq
    rw [heq] at hr
    cases hr
    exact ⟨rfl, rfl, rfl⟩
  · rename_i heq
    rw [heq] at hr
    cases hr

/-- An accepted one derives the key of its address and is remembered as a call. -/
theorem request_ok {a : EthAddress} {args : VetKDDeriveKeyArgs}
    (hr : (requestStart E K canister c.state now request).2 = .ok (a, args)) :
    ∃ call : Call, call.now = now ∧ call.request = request ∧ call.address = a ∧ call.args = args
      ∧ (c.requestEncryptedViewKey E K canister now request).derived = c.derived ++ [call]
      ∧ (c.requestEncryptedViewKey E K canister now request).pending = c.pending ++ [call]
      ∧ (c.requestEncryptedViewKey E K canister now request).finished = c.finished := by
  unfold requestEncryptedViewKey
  split
  · rename_i heq
    rw [heq] at hr
    cases hr
  · rename_i heq
    rw [heq] at hr
    cases hr
    exact ⟨_, rfl, rfl, rfl, rfl, rfl, rfl, rfl⟩

/-- A reply changes no nonce and derives nothing. -/
theorem reply_state (i : ℕ) (result : Except String (List UInt8)) :
    (c.reply i result).state = c.state ∧ (c.reply i result).derived = c.derived := by
  unfold reply
  split <;> exact ⟨rfl, rfl⟩

end KeyManager

/-! ## Replay protection -/

/-- A call that reached `vetkd_derive_key` was authorized by its address. -/
structure Call.Authorized (call : Call) : Prop where
  context : call.args.context = contextForAddress call.address
  transport : call.args.transportPublicKey = call.request.transportPublicKey
  expiry : ¬ call.request.expiryNs < call.now
  signed : SignedBy E K canister call.request call.address

structure ReplayProtected (keyIdName : String) (acts : List KeyManagerAction) : Prop where
  once : (((run (KeyManager.step E K canister) (.init keyIdName) acts).derived.map
    fun call => (call.address, call.request.nonce))).Nodup
  increasing : ∀ a, (((run (KeyManager.step E K canister) (.init keyIdName) acts).derived.filter
    fun call => call.address = a).map fun call => call.request.nonce).Pairwise (· < ·)
  authorized : ∀ call ∈ (run (KeyManager.step E K canister) (.init keyIdName) acts).derived,
    .requestEncryptedViewKey call.now call.request ∈ acts ∧ call.Authorized E K canister
  unambiguous : ∀ p a t e n p' a' t' e' n',
    authorizationMessage E p a t e n = authorizationMessage E p' a' t' e' n' →
      p = p' ∧ a = a' ∧ t = t' ∧ e = e' ∧ n = n'
  separate : ∀ p a t e n invoiceId,
    authorizationMessage E p a t e n ≠ invoiceSignatureMessage E invoiceId

/-- The nonces of an address that were used are at most the stored one. -/
structure ReplayInv (c : KeyManager) : Prop where
  used : ∃ s, c.state = some s ∧ ∀ call ∈ c.derived, call.request.nonce ≤ s.maxNonce call.address
  increasing : c.derived.Pairwise fun x y => x.address = y.address →
    x.request.nonce < y.request.nonce
  authorized : ∀ call ∈ c.derived, call.Authorized E K canister

/-- Storing a nonce changes that of its own address. -/
theorem maxNonce_update (s : State) (a b : EthAddress) (nonce : U64) :
    { s with maxNonceByAddress := Function.update s.maxNonceByAddress a (some nonce) }.maxNonce b
      = if b = a then nonce else s.maxNonce b := by
  unfold State.maxNonce
  by_cases heq : b = a
  · subst heq
    simp
  · simp [heq]

variable {E K canister}

/-- Taking a higher nonce keeps what is known of the used ones. -/
theorem used_takeNonce {s : State} {a : EthAddress} {nonce : U64} {calls : List Call}
    (hle : s.maxNonce a ≤ nonce)
    (hused : ∀ call ∈ calls, call.request.nonce ≤ s.maxNonce call.address) :
    ∀ call ∈ calls, call.request.nonce ≤ State.maxNonce { s with
      maxNonceByAddress := Function.update s.maxNonceByAddress a (some nonce) } call.address := by
  intro call hcall
  rw [maxNonce_update]
  split
  · rename_i heq
    exact (heq ▸ hused call hcall).trans hle
  · exact hused call hcall

/-- A request keeps the invariant: it is accepted above the stored nonce only, and then stores its
own. -/
theorem ReplayInv.request {c : KeyManager} (hinv : ReplayInv E K canister c) (now : U64)
    (request : EncryptedViewKeyRequest) :
    ReplayInv E K canister (c.requestEncryptedViewKey E K canister now request) := by
  obtain ⟨s, hs, hused⟩ := hinv.used
  have hcase := requestStart_case E K canister c.state now request
  have hstate : (c.requestEncryptedViewKey E K canister now request).state
      = (requestStart E K canister c.state now request).1 := KeyManager.request_state
  rw [← hstate] at hcase
  -- one case per way that the request can end; only an accepted one derives a key
  generalize hr : (requestStart E K canister c.state now request).2 = r at hcase
  rw [hs] at hcase
  generalize hs' : (c.requestEncryptedViewKey E K canister now request).state = state' at hcase
  cases hcase with
  | early e he =>
    obtain ⟨hderived, -, -⟩ := KeyManager.request_error hr
    exact ⟨⟨s, hs', hderived ▸ hused⟩, hderived ▸ hinv.increasing, hderived ▸ hinv.authorized⟩
  | reused a haddress hexpiry hle =>
    obtain ⟨hderived, -, -⟩ := KeyManager.request_error hr
    refine ⟨⟨_, hs', ?_⟩, hderived ▸ hinv.increasing, hderived ▸ hinv.authorized⟩
    rw [hderived]
    exact used_takeNonce le_rfl hused
  | unsigned a e haddress hexpiry hlt hsigned he =>
    obtain ⟨hderived, -, -⟩ := KeyManager.request_error hr
    refine ⟨⟨_, hs', ?_⟩, hderived ▸ hinv.increasing, hderived ▸ hinv.authorized⟩
    rw [hderived]
    exact used_takeNonce hlt.le hused
  | accepted a haddress hexpiry hlt hsigned =>
    obtain ⟨call, hnow, hrequest, hcalladdr, hargs, hderived, -, -⟩ := KeyManager.request_ok hr
    refine ⟨⟨_, hs', ?_⟩, ?_, ?_⟩
    · rw [hderived]
      intro x hx
      rw [List.mem_append, List.mem_singleton] at hx
      rcases hx with hx | rfl
      · exact used_takeNonce hlt.le hused x hx
      · rw [maxNonce_update, if_pos hcalladdr, hrequest]
    · rw [hderived, List.pairwise_append]
      refine ⟨hinv.increasing, List.pairwise_singleton _ _, ?_⟩
      intro x hx y hy hxy
      rw [List.mem_singleton] at hy
      subst hy
      rw [hrequest]
      -- the stored maximum bounds every nonce used before, and the new one is above it
      refine lt_of_le_of_lt (hused x hx) ?_
      rw [hxy, hcalladdr]
      exact hlt
    · rw [hderived]
      intro x hx
      rw [List.mem_append, List.mem_singleton] at hx
      rcases hx with hx | rfl
      · exact hinv.authorized x hx
      · refine ⟨?_, ?_, ?_, ?_⟩
        · rw [hargs, hcalladdr]
          rfl
        · rw [hargs, hrequest]
          rfl
        · rw [hrequest, hnow]
          exact hexpiry
        · rw [hrequest, hcalladdr]
          exact hsigned

/-- So does every action, an upgrade included. -/
theorem ReplayInv.step (c : KeyManager) (action : KeyManagerAction)
    (hinv : ReplayInv E K canister c) : ReplayInv E K canister (c.step E K canister action) := by
  cases action with
  | requestEncryptedViewKey now request => exact hinv.request now request
  | reply i result =>
    obtain ⟨hstate, hderived⟩ := KeyManager.reply_state (c := c) i result
    refine ⟨?_, ?_, ?_⟩
    · show ∃ s, (c.reply i result).state = some s ∧ ∀ call ∈ (c.reply i result).derived, _
      rw [hstate, hderived]
      exact hinv.used
    · show (c.reply i result).derived.Pairwise _
      rw [hderived]
      exact hinv.increasing
    · show ∀ call ∈ (c.reply i result).derived, _
      rw [hderived]
      exact hinv.authorized
  | getMaxNonce address => exact hinv
  | upgrade => exact ⟨hinv.used, hinv.increasing, hinv.authorized⟩

/-- What reaches `vetkd_derive_key` was requested. -/
theorem step_derived (c : KeyManager) (action : KeyManagerAction) {call : Call}
    (hcall : call ∈ (c.step E K canister action).derived) :
    call ∈ c.derived ∨ action = .requestEncryptedViewKey call.now call.request := by
  -- only a request can derive, and only its own key
  cases action with
  | requestEncryptedViewKey now request =>
    change call ∈ (c.requestEncryptedViewKey E K canister now request).derived at hcall
    cases hr : (requestStart E K canister c.state now request).2 with
    | error e =>
      rw [(KeyManager.request_error hr).1] at hcall
      exact Or.inl hcall
    | ok x =>
      obtain ⟨call', hnow, hrequest, -, -, hderived, -, -⟩ := KeyManager.request_ok hr
      rw [hderived, List.mem_append, List.mem_singleton] at hcall
      rcases hcall with hcall | rfl
      · exact Or.inl hcall
      · exact Or.inr (by rw [hnow, hrequest])
  | reply i result =>
    rw [KeyManager.step, (KeyManager.reply_state i result).2] at hcall
    exact Or.inl hcall
  | getMaxNonce address => exact Or.inl hcall
  | upgrade => exact Or.inl hcall

/-- Every derived key comes from a request of the run. -/
theorem run_derived (keyIdName : String) (acts : List KeyManagerAction) {call : Call}
    (hcall : call ∈ (run (KeyManager.step E K canister) (.init keyIdName) acts).derived) :
    .requestEncryptedViewKey call.now call.request ∈ acts := by
  induction acts using List.reverseRecOn with
  | nil => cases hcall
  | append_singleton acts action ih =>
    rw [run_concat] at hcall
    rcases step_derived _ action hcall with hold | rfl
    · exact List.mem_append_left _ (ih hold)
    · exact List.mem_append_right _ (List.mem_singleton_self _)

theorem init_replayInv (keyIdName : String) : ReplayInv E K canister (.init keyIdName) :=
  ⟨⟨_, rfl, nofun⟩, List.Pairwise.nil, nofun⟩

/-- So the invariant holds after every run. -/
theorem run_replayInv (keyIdName : String) (acts : List KeyManagerAction) :
    ReplayInv E K canister (run (KeyManager.step E K canister) (.init keyIdName) acts) :=
  run_induction (init_replayInv keyIdName) ReplayInv.step acts

variable (E K canister)

/-- **Replay protection.** In every run of requests, replies, queries and upgrades. -/
theorem replay_protected (hE : E.Documented) (keyIdName : String)
    (acts : List KeyManagerAction) : ReplayProtected E K canister keyIdName acts := by
  have hinv : ReplayInv E K canister _ := run_replayInv keyIdName acts
  refine ⟨?_, ?_, ?_, ?_, ?_⟩
  · rw [List.Nodup, List.pairwise_map]
    refine hinv.increasing.imp fun hlt heq => ?_
    rw [Prod.mk.injEq] at heq
    exact absurd heq.2 (hlt heq.1).ne
  · intro a
    rw [List.pairwise_map]
    refine (hinv.increasing.filter _).imp_of_mem ?_
    intro x y hx hy hlt
    rw [List.mem_filter, decide_eq_true_eq] at hx hy
    exact hlt (hx.2.trans hy.2.symm)
  · exact fun call hcall => ⟨run_derived keyIdName acts hcall, hinv.authorized call hcall⟩
  · exact fun _ _ _ _ _ _ _ _ _ _ heq => authorizationMessage_injective hE heq
  · exact fun p a t e n invoiceId => authorizationMessage_ne_invoice hE p a t e n invoiceId

namespace Demo

/-- Two canisters and the documented formats. -/
def encodings : Encodings Bool where
  toText b := if b then "ryjl3-tyaaa-aaaaa-aaaba-cai" else "rrkah-fqaaa-aaaaa-aaaaq-cai"
  hexEncode := Text.hex
  eip191Message m :=
    Text.asBytes "\x19Ethereum Signed Message:\n" ++ Text.asBytes (toString m.length) ++ m

/-- The encodings of the example are as documented. -/
theorem encodings_documented : encodings.Documented where
  toText_injective a b := by revert a b; decide
  toText_alphabet p c hc := by
    have hall : (encodings.toText p).toList.all (fun c => c ∈ principalAlphabet) = true := by
      cases p <;> decide
    exact of_decide_eq_true (List.all_eq_true.mp hall c hc)
  hexEncode_eq _ := rfl
  eip191Message_eq _ := rfl

/-- The address of the private key 1. -/
def signer : EthAddress :=
  ⟨[126, 95, 69, 82, 9, 26, 105, 18, 93, 93, 252, 183, 184, 194, 101, 144, 41, 57, 91, 223], rfl⟩

/-- A request that the private key 1 signed. -/
def request : EncryptedViewKeyRequest where
  address := signer.toList
  transportPublicKey := [1, 2, 3]
  expiryNs := 1000
  nonce := 1
  signature := [187, 80, 226, 216, 154, 78, 215, 6, 99, 208, 128, 101, 159, 224, 173, 75, 155, 195,
    224, 108, 23, 162, 39, 67, 57, 102, 203, 89, 206, 238, 2, 13, 39, 146, 89, 168, 11, 200, 136,
    163, 208, 36, 221, 222, 96, 218, 173, 30, 229, 30, 119, 46, 13, 74, 213, 139, 224, 142, 152,
    155, 20, 36, 180, 208, 27]

def digest : List UInt8 :=
  [49, 7, 211, 1, 227, 18, 219, 241, 140, 91, 32, 144, 129, 76, 218, 128, 70, 103, 179, 7, 214,
    249, 114, 26, 108, 220, 103, 151, 108, 216, 95, 31]

/-- Keccak and the recovery, on that request. -/
def crypto : Crypto where
  Signature := List UInt8
  fromRaw bytes := if bytes.length = 65 then some bytes else none
  keccak256 m := if m = authorizationMessage encodings false signer [1, 2, 3] 1000 1 then digest
    else []
  recoverAddressFromPrehash signature hash :=
    if signature = request.signature ∧ hash = digest then some signer else none

end Demo

/-- The request is replayed after an upgrade, and reaches `vetkd_derive_key` once. -/
theorem replay_protected_upgrade :
    (run (KeyManager.step Demo.encodings Demo.crypto false) (.init "key_1")
      [.requestEncryptedViewKey 0 Demo.request, .upgrade, .requestEncryptedViewKey 0 Demo.request,
        .reply 0 (.ok [])]).derived.length = 1
      ∧ ReplayProtected Demo.encodings Demo.crypto false "key_1"
        [.requestEncryptedViewKey 0 Demo.request, .upgrade,
          .requestEncryptedViewKey 0 Demo.request, .reply 0 (.ok [])] :=
  ⟨by decide +kernel, replay_protected _ _ _ Demo.encodings_documented _ _⟩

/-! ## Whose nonces change -/

/-- The action is a request of `a`, signed by `a`. -/
def KeyManagerAction.SignedBy (a : EthAddress) (action : KeyManagerAction) : Prop :=
  ∃ now request, action = .requestEncryptedViewKey now request ∧ request.address = a.toList
    ∧ Zstorage.SignedBy E K canister request a

/-- The nonces of every address belong to it. -/
structure NoncesOwned (keyIdName : String) (acts : List KeyManagerAction) : Prop where
  /-- Only a request signed by `a` changes the entry of `a`. -/
  changed : ∀ before action after a, acts = before ++ action :: after →
    (run (KeyManager.step E K canister) (.init keyIdName) (before ++ [action])).nonces a
      ≠ (run (KeyManager.step E K canister) (.init keyIdName) before).nonces a →
    action.SignedBy E K canister a
  /-- A call that ends in an error has left the map as it was. -/
  rejected : ∀ f ∈ (run (KeyManager.step E K canister) (.init keyIdName) acts).finished,
    ∀ e, f.result = .error e → f.after = f.before
  /-- Nobody else can spoil a nonce that `a` has read. -/
  fresh : ∀ before after a m now request, acts = before ++ after →
    (∀ action ∈ after, ¬ action.SignedBy E K canister a) →
    getMaxNonce (run (KeyManager.step E K canister) (.init keyIdName) before).state a.toList
      = .ok m →
    request.address = a.toList → request.nonce.val = m.val + 1 → ¬ request.expiryNs < now →
    SignedBy E K canister request a →
    (requestStart E K canister (run (KeyManager.step E K canister) (.init keyIdName) acts).state
      now request).2 ≠ .error .nonceReuse
  /-- What `get_max_nonce` returns was signed by `a`, if it is not `0`. -/
  owned : ∀ a m, getMaxNonce (run (KeyManager.step E K canister) (.init keyIdName) acts).state
    a.toList = .ok m → m = 0 ∨ ∃ now request, .requestEncryptedViewKey now request ∈ acts
      ∧ request.address = a.toList ∧ SignedBy E K canister request a ∧ request.nonce = m

/-- A request that gets as far as the nonces is refused for its nonce by an entry that exists, or
is signed by its address. -/
def OwnNonce (c : KeyManager) : KeyManagerAction → Prop
  | .requestEncryptedViewKey now request => ∀ a s, c.state = some s →
    request.address = a.toList → ¬ request.expiryNs < now →
    (∃ m, s.maxNonceByAddress a = some m ∧ request.nonce ≤ m)
      ∨ (s.maxNonce a < request.nonce ∧ SignedBy E K canister request a)
  | _ => True

variable {E K canister}

/-- What a request under `OwnNonce` can do: nothing, or take a nonce that its address signed. -/
theorem ownNonce_request {c : KeyManager} {now : U64} {request : EncryptedViewKeyRequest}
    (hown : OwnNonce E K canister c (.requestEncryptedViewKey now request)) :
    (∃ e, (requestStart E K canister c.state now request).2 = .error e
        ∧ (c.requestEncryptedViewKey E K canister now request).state = c.state)
      ∨ ∃ a s, c.state = some s ∧ request.address = a.toList ∧ SignedBy E K canister request a
        ∧ (∃ x, (requestStart E K canister c.state now request).2 = .ok x)
        ∧ (c.requestEncryptedViewKey E K canister now request).state = some { s with
          maxNonceByAddress := Function.update s.maxNonceByAddress a (some request.nonce) } := by
  have hcase := requestStart_case E K canister c.state now request
  rw [← KeyManager.request_state] at hcase
  generalize (requestStart E K canister c.state now request).2 = r at hcase
  generalize hs' : (c.requestEncryptedViewKey E K canister now request).state = s' at hcase
  generalize hs : c.state = state at hcase
  cases hcase with
  | early e he => exact Or.inl ⟨e, rfl, rfl⟩
  | reused a haddress hexpiry hle =>
    rename_i s
    refine Or.inl ⟨_, rfl, ?_⟩
    rcases hown a s hs haddress hexpiry with ⟨m, hm, hlem⟩ | ⟨hlt, -⟩
    -- the maximum is written again as it was
    · have hmax : s.maxNonce a = m := by rw [State.maxNonce, hm, Option.getD_some]
      rw [hmax, ← hm, Function.update_eq_self]
    · exact absurd hlt (not_lt.mpr hle)
  | unsigned a e haddress hexpiry hlt hsigned he =>
    rename_i s
    rcases hown a s hs haddress hexpiry with ⟨m, hm, hlem⟩ | ⟨-, hsigned'⟩
    · have hmax : s.maxNonce a = m := by rw [State.maxNonce, hm, Option.getD_some]
      exact absurd hlem (not_le.mpr (hmax ▸ hlt))
    · exact absurd hsigned' hsigned
  | accepted a haddress hexpiry hlt hsigned =>
    exact Or.inr ⟨a, _, rfl, haddress, hsigned, ⟨_, rfl⟩, rfl⟩

/-- Under the condition a request either changes no state or stores the nonce that its address
signed. -/
theorem ownNonce_step {c : KeyManager} {action : KeyManagerAction}
    (hown : OwnNonce E K canister c action) :
    (c.step E K canister action).state = c.state
      ∨ ∃ now request a s, action = .requestEncryptedViewKey now request ∧ c.state = some s
        ∧ request.address = a.toList ∧ SignedBy E K canister request a
        ∧ (c.step E K canister action).state = some { s with
          maxNonceByAddress := Function.update s.maxNonceByAddress a (some request.nonce) } := by
  cases action with
  | requestEncryptedViewKey now request =>
    rcases ownNonce_request hown with ⟨e, -, hsame⟩ | ⟨a, s, hs, haddress, hsigned, -, hnew⟩
    · exact Or.inl hsame
    · exact Or.inr ⟨now, request, a, s, rfl, hs, haddress, hsigned, hnew⟩
  | reply i result => exact Or.inl (KeyManager.reply_state i result).1
  | getMaxNonce address => exact Or.inl rfl
  | upgrade => exact Or.inl rfl

/-- So the nonce of an address is moved by its own signed requests. -/
theorem ownNonce_step_nonces {c : KeyManager} {action : KeyManagerAction} {a : EthAddress}
    (hown : OwnNonce E K canister c action) :
    (c.step E K canister action).nonces a = c.nonces a
      ∨ ∃ now request, action = .requestEncryptedViewKey now request
        ∧ request.address = a.toList ∧ SignedBy E K canister request a
        ∧ (c.step E K canister action).nonces a = some request.nonce := by
  unfold KeyManager.nonces
  rcases ownNonce_step hown with hsame | ⟨now, request, b, s, rfl, hs, haddress, hsigned, hnew⟩
  · exact Or.inl (by rw [hsame])
  · by_cases hab : a = b
    · subst hab
      exact Or.inr ⟨now, request, rfl, haddress, hsigned, by rw [hnew]; simp⟩
    · exact Or.inl (by rw [hnew, hs]; simp [hab])

theorem getMaxNonce_eq_ok {state : Option State} {a : EthAddress} {m : U64}
    (hok : getMaxNonce state a.toList = .ok m) :
    ∃ s, state = some s ∧ s.maxNonce a = m := by
  unfold getMaxNonce at hok
  rw [toAddress_eq_ok.mpr rfl] at hok
  cases state with
  | none => cases hok
  | some s => exact ⟨s, rfl, Except.ok.inj hok⟩

theorem KeyManager.nonces_getD {c : KeyManager} {s : State} (hs : c.state = some s)
    (a : EthAddress) : (c.nonces a).getD 0 = s.maxNonce a := by
  rw [KeyManager.nonces, hs, Option.bind_some, State.maxNonce]

/-- A run without requests signed by `a` leaves the entry of `a` alone. -/
theorem run_nonces_eq {c : KeyManager} {acts : List KeyManagerAction} {a : EthAddress}
    (hacts : Along (KeyManager.step E K canister) (OwnNonce E K canister) c acts)
    (hothers : ∀ action ∈ acts, ¬ action.SignedBy E K canister a) :
    (run (KeyManager.step E K canister) c acts).nonces a = c.nonces a := by
  induction acts generalizing c with
  | nil => rfl
  | cons action acts ih =>
    rw [run_cons, ih hacts.2 fun x hx => hothers x (List.mem_cons_of_mem _ hx)]
    rcases ownNonce_step_nonces (a := a) hacts.1 with
      hsame | ⟨now, request, heq, haddress, hsigned, -⟩
    · exact hsame
    · exact absurd ⟨now, request, heq, haddress, hsigned⟩ (hothers action List.mem_cons_self)

/-- Every entry is a nonce that its address signed. -/
theorem run_nonces_signed {keyIdName : String} {acts : List KeyManagerAction} {a : EthAddress}
    {m : U64} (hacts : Along (KeyManager.step E K canister) (OwnNonce E K canister)
      (.init keyIdName) acts)
    (hm : (run (KeyManager.step E K canister) (.init keyIdName) acts).nonces a = some m) :
    ∃ now request, .requestEncryptedViewKey now request ∈ acts ∧ request.address = a.toList
      ∧ SignedBy E K canister request a ∧ request.nonce = m := by
  induction acts using List.reverseRecOn with
  | nil => cases hm
  | append_singleton acts action ih =>
    rw [Along.append] at hacts
    rw [run_concat] at hm
    rcases ownNonce_step_nonces (a := a) hacts.2.1 with
      hsame | ⟨now, request, rfl, haddress, hsigned, hnew⟩
    · rw [hsame] at hm
      obtain ⟨now, request, hmem, hrest⟩ := ih hacts.1 hm
      exact ⟨now, request, List.mem_append_left _ hmem, hrest⟩
    · rw [hnew, Option.some.injEq] at hm
      exact ⟨now, request, List.mem_append_right _ (List.mem_singleton_self _), haddress, hsigned,
        hm⟩

/-- A rejected call has written nothing. -/
theorem run_rejected {keyIdName : String} {acts : List KeyManagerAction}
    (hacts : Along (KeyManager.step E K canister) (OwnNonce E K canister) (.init keyIdName) acts)
    (hreplies : ∀ i e, .reply i (.error e) ∉ acts) :
    ∀ f ∈ (run (KeyManager.step E K canister) (.init keyIdName) acts).finished,
      ∀ e, f.result = .error e → f.after = f.before := by
  induction acts using List.reverseRecOn with
  | nil => exact nofun
  | append_singleton acts action ih =>
    rw [Along.append] at hacts
    replace ih := ih hacts.1 fun i e hmem => hreplies i e (List.mem_append_left _ hmem)
    have hown := hacts.2.1
    rw [run_concat]
    generalize run (KeyManager.step E K canister) (.init keyIdName) acts = c at ih hown ⊢
    cases action with
    | requestEncryptedViewKey now request =>
      intro f hf e he
      change f ∈ (c.requestEncryptedViewKey E K canister now request).finished at hf
      rcases ownNonce_request hown with ⟨e', herror, hsame⟩ | ⟨_, _, -, -, -, ⟨x, hx⟩, -⟩
      · rw [(KeyManager.request_error herror).2.2, List.mem_append, List.mem_singleton] at hf
        rcases hf with hf | rfl
        · exact ih f hf e he
        · unfold KeyManager.nonces
          rw [hsame]
      · obtain ⟨_, -, -, -, -, -, -, hfinished⟩ := KeyManager.request_ok hx
        rw [hfinished] at hf
        exact ih f hf e he
    | reply i result =>
      intro f hf e he
      change f ∈ (c.reply i result).finished at hf
      unfold KeyManager.reply at hf
      split at hf
      · exact ih f hf e he
      · rw [List.mem_append, List.mem_singleton] at hf
        rcases hf with hf | rfl
        · exact ih f hf e he
        · cases result with
          | error err =>
            -- no derivation fails
            exact absurd (List.mem_append_right _ (List.mem_singleton_self _)) (hreplies i err)
          | ok key => cases he
    | getMaxNonce address => exact ih
    | upgrade => exact ih

variable (E K canister)

/-- **Nonces belong to their owner**, in every run in which nobody else gets as far as the
nonces of an address, and no key derivation fails. -/
theorem nonces_owned (keyIdName : String) (acts : List KeyManagerAction)
    (hacts : Along (KeyManager.step E K canister) (OwnNonce E K canister) (.init keyIdName) acts)
    (hreplies : ∀ i e, .reply i (.error e) ∉ acts) :
    NoncesOwned E K canister keyIdName acts := by
  refine ⟨?_, run_rejected hacts hreplies, ?_, ?_⟩
  · intro before action after a heq hchanged
    rw [heq, Along.append] at hacts
    rw [run_concat] at hchanged
    rcases ownNonce_step_nonces (a := a) hacts.2.1 with
      hsame | ⟨now, request, hact, haddress, hsigned, -⟩
    · exact absurd hsame hchanged
    · exact ⟨now, request, hact, haddress, hsigned⟩
  · intro before after a m now request heq hothers hmax haddress hnonce hexpiry hsigned
    obtain ⟨s, hs, hm⟩ := getMaxNonce_eq_ok hmax
    rw [heq, Along.append] at hacts
    have hentry := run_nonces_eq hacts.2 hothers
    rw [← run_append, ← heq] at hentry
    have hinv : ReplayInv E K canister _ := run_replayInv keyIdName acts
    obtain ⟨s', hs', -⟩ := hinv.used
    have hm' : s'.maxNonce a = m := by
      rw [← KeyManager.nonces_getD hs', hentry, KeyManager.nonces_getD hs, hm]
    rw [hs']
    -- by what the request can be refused for
    have hcase := requestStart_case E K canister (some s') now request
    intro hreuse
    rw [hreuse] at hcase
    generalize (requestStart E K canister (some s') now request).1 = s'' at hcase
    cases hcase with
    | early e he => exact he rfl
    | reused b hb _ hle =>
      have hab : a = b := List.Vector.eq _ _ (haddress.symm.trans hb)
      rw [← hab, hm', Fin.le_def] at hle
      omega
    | unsigned b e _ _ _ _ he => exact he rfl
  · intro a m hmax
    obtain ⟨s, hs, hm⟩ := getMaxNonce_eq_ok hmax
    -- no entry is the answer zero
    cases hentry : (run (KeyManager.step E K canister) (.init keyIdName) acts).nonces a with
    | none =>
      have hzero := KeyManager.nonces_getD hs a
      rw [hentry, Option.getD_none, hm] at hzero
      exact Or.inl hzero.symm
    | some m' =>
      have heq := KeyManager.nonces_getD hs a
      rw [hentry, Option.getD_some, hm] at heq
      obtain ⟨now, request, hmem, haddress, hsigned, hnonce⟩ := run_nonces_signed hacts hentry
      exact Or.inr ⟨now, request, hmem, haddress, hsigned, hnonce.trans heq⟩

/-- The owner's request, and then the same one again. -/
theorem nonces_owned_request :
    NoncesOwned Demo.encodings Demo.crypto false "key_1"
      [.requestEncryptedViewKey 0 Demo.request, .reply 0 (.ok []),
        .requestEncryptedViewKey 0 Demo.request] := by
  have hsigned : SignedBy Demo.encodings Demo.crypto false Demo.request Demo.signer := by
    decide +kernel
  refine nonces_owned _ _ _ _ _ ⟨?_, trivial, ?_, trivial⟩ ?_
  · intro a s hs haddress _
    cases hs
    have ha : a = Demo.signer := List.Vector.eq _ _ haddress.symm
    subst ha
    exact Or.inr ⟨by decide, hsigned⟩
  · intro a s hs haddress _
    have ha : a = Demo.signer := List.Vector.eq _ _ haddress.symm
    subst ha
    have hentry : (run (KeyManager.step Demo.encodings Demo.crypto false) (.init "key_1")
        [.requestEncryptedViewKey 0 Demo.request, .reply 0 (.ok [])]).state.map
          (fun s => s.maxNonceByAddress Demo.signer) = some (some 1) := by decide +kernel
    rw [run_cons, run_cons, run_nil, hs] at hentry
    exact Or.inl ⟨1, Option.some.inj hentry, le_rfl⟩
  · simp

/-- Anyone can use up the nonces of an address: the request is rejected for its signature, and
the nonce stays taken. -/
theorem nonces_not_owned :
    ¬ NoncesOwned Demo.encodings Demo.crypto false "key_1"
      [.requestEncryptedViewKey 0 { Demo.request with nonce := Fin.last _, signature := [] }] := by
  intro howned
  obtain ⟨now, request, heq, haddress, hsigned⟩ :=
    howned.changed [] _ [] Demo.signer rfl (by decide +kernel)
  cases heq
  exact absurd hsigned (by decide +kernel)

end Zstorage

end Zerc20
