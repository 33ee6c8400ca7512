import Zerc20.Lib.Machine
import Zerc20.Zkp.TransferTree
import Mathlib.Algebra.BigOperators.Group.Finset.Basic
import Mathlib.Algebra.BigOperators.Fin
import Mathlib.Algebra.Order.BigOperators.Group.Finset

/-!
# The zERC20 token

`contracts/src/zERC20.sol` on top of the vendored `ERC20Upgradeable`. Storage words are
natural numbers; the arithmetic that Solidity leaves unchecked is reduced modulo `2 ^ 256`,
and checked arithmetic is refused. The `IndexedTransfer` events are kept in order in `events`.

Everything the token stores about money and about its history is a function of that log:
`Token.Inv` says so, and `call_inv` that every external call keeps it. In particular the
unchecked additions never wrap.
-/

namespace Zerc20

open Machine

/-- A `uint256` of calldata. -/
abbrev Word := Fin (2 ^ 256)

def uint256Max : ℕ := 2 ^ 256 - 1
def uint248Max : ℕ := 2 ^ 248 - 1

inductive TokenError where
  | onlyVerifier
  | onlyMinter
  | zeroAddress
  | valueTooLarge
  | arithmeticOverflow
  | reverted (reason : String)
  deriving DecidableEq

structure Token where
  balances : Address → ℕ
  allowances : Address → Address → ℕ
  totalSupply : ℕ
  hashChain : ℕ
  index : ℕ
  verifier : Address
  minter : Address
  owner : Address
  events : List Transfer

namespace Token

variable (h : Hashes)

/-- The token after `initialize`. -/
def initial (owner : Address) : Token where
  balances _ := 0
  allowances _ _ := 0
  totalSupply := 0
  hashChain := 0
  index := 0
  verifier := 0
  minter := 0
  owner := owner
  events := []

/-! ## Internal functions -/

/-- `_afterTokenTransfer`. -/
def afterTokenTransfer (t : Token) (src dst : Address) (value : ℕ) : Except TokenError Token :=
  if hvalue : value ≤ uint248Max then
    if t.index < uint256Max then
      .ok { t with
        hashChain := Zerc20.hashChain h t.hashChain dst.val value
        index := t.index + 1
        events := t.events ++ [⟨src, dst, ⟨value, Nat.lt_succ_of_le hvalue⟩⟩] }
    else .error .arithmeticOverflow
  else .error .valueTooLarge

/-- `_transfer`. -/
def transferInternal (t : Token) (src dst : Address) (amount : ℕ) : Except TokenError Token := do
  require (src ≠ 0) (.reverted "ERC20: transfer from the zero address")
  require (dst ≠ 0) (.reverted "ERC20: transfer to the zero address")
  require (amount ≤ t.balances src) (.reverted "ERC20: transfer amount exceeds balance")
  let balances := Function.update t.balances src (t.balances src - amount)
  let balances := Function.update balances dst ((balances dst + amount) % 2 ^ 256)
  afterTokenTransfer h { t with balances := balances } src dst amount

/-- `_mint`. -/
def mintInternal (t : Token) (account : Address) (amount : ℕ) : Except TokenError Token := do
  require (account ≠ 0) (.reverted "ERC20: mint to the zero address")
  require (t.totalSupply + amount ≤ uint256Max) .arithmeticOverflow
  let balances := Function.update t.balances account ((t.balances account + amount) % 2 ^ 256)
  afterTokenTransfer h { t with totalSupply := t.totalSupply + amount, balances := balances }
    0 account amount

/-- `_burn`. -/
def burnInternal (t : Token) (account : Address) (amount : ℕ) : Except TokenError Token := do
  require (account ≠ 0) (.reverted "ERC20: burn from the zero address")
  require (amount ≤ t.balances account) (.reverted "ERC20: burn amount exceeds balance")
  let balances := Function.update t.balances account (t.balances account - amount)
  -- `_totalSupply -= amount` is unchecked
  let totalSupply := (t.totalSupply + 2 ^ 256 - amount) % 2 ^ 256
  afterTokenTransfer h { t with balances := balances, totalSupply := totalSupply } account 0 amount

/-- `_approve`. -/
def approveInternal (t : Token) (owner spender : Address) (amount : ℕ) :
    Except TokenError Token := do
  require (owner ≠ 0) (.reverted "ERC20: approve from the zero address")
  require (spender ≠ 0) (.reverted "ERC20: approve to the zero address")
  return { t with
    allowances := Function.update t.allowances owner
      (Function.update (t.allowances owner) spender amount) }

/-- `_spendAllowance`. -/
def spendAllowance (t : Token) (owner spender : Address) (amount : ℕ) :
    Except TokenError Token := do
  let currentAllowance := t.allowances owner spender
  if currentAllowance = uint256Max then return t
  else
    require (amount ≤ currentAllowance) (.reverted "ERC20: insufficient allowance")
    approveInternal t owner spender (currentAllowance - amount)

def onlyOwner (t : Token) (sender : Address) : Except TokenError Unit :=
  require (sender = t.owner) (.reverted "Ownable: caller is not the owner")

/-! ## External functions -/

def transfer (t : Token) (sender dst : Address) (amount : ℕ) : Except TokenError Token :=
  transferInternal h t sender dst amount

def approve (t : Token) (sender spender : Address) (amount : ℕ) : Except TokenError Token :=
  approveInternal t sender spender amount

def transferFrom (t : Token) (sender src dst : Address) (amount : ℕ) :
    Except TokenError Token := do
  let t ← spendAllowance t src sender amount
  transferInternal h t src dst amount

def increaseAllowance (t : Token) (sender spender : Address) (addedValue : ℕ) :
    Except TokenError Token := do
  require (t.allowances sender spender + addedValue ≤ uint256Max) .arithmeticOverflow
  approveInternal t sender spender (t.allowances sender spender + addedValue)

def decreaseAllowance (t : Token) (sender spender : Address) (subtractedValue : ℕ) :
    Except TokenError Token := do
  let currentAllowance := t.allowances sender spender
  require (subtractedValue ≤ currentAllowance)
    (.reverted "ERC20: decreased allowance below zero")
  approveInternal t sender spender (currentAllowance - subtractedValue)

def teleport (t : Token) (sender dst : Address) (value : ℕ) : Except TokenError Token := do
  require (sender = t.verifier) .onlyVerifier
  mintInternal h t dst value

def mint (t : Token) (sender dst : Address) (value : ℕ) : Except TokenError Token := do
  require (sender = t.minter) .onlyMinter
  mintInternal h t dst value

def burn (t : Token) (sender src : Address) (value : ℕ) : Except TokenError Token := do
  require (sender = t.minter) .onlyMinter
  burnInternal h t src value

def setVerifier (t : Token) (sender newVerifier : Address) : Except TokenError Token := do
  onlyOwner t sender
  require (newVerifier ≠ 0) .zeroAddress
  return { t with verifier := newVerifier }

def setMinter (t : Token) (sender newMinter : Address) : Except TokenError Token := do
  onlyOwner t sender
  return { t with minter := newMinter }

/-- `OwnableUpgradeable.transferOwnership`. -/
def transferOwnership (t : Token) (sender newOwner : Address) : Except TokenError Token := do
  onlyOwner t sender
  require (newOwner ≠ 0) (.reverted "Ownable: new owner is the zero address")
  return { t with owner := newOwner }

/-- `OwnableUpgradeable.renounceOwnership`. -/
def renounceOwnership (t : Token) (sender : Address) : Except TokenError Token := do
  onlyOwner t sender
  return { t with owner := 0 }

end Token

/-- The external calls of the token, each with its `msg.sender`. -/
inductive TokenCall where
  | transfer (sender dst : Address) (amount : Word)
  | approve (sender spender : Address) (amount : Word)
  | transferFrom (sender src dst : Address) (amount : Word)
  | increaseAllowance (sender spender : Address) (addedValue : Word)
  | decreaseAllowance (sender spender : Address) (subtractedValue : Word)
  | teleport (sender dst : Address) (value : Word)
  | mint (sender dst : Address) (value : Word)
  | burn (sender src : Address) (value : Word)
  | setVerifier (sender newVerifier : Address)
  | setMinter (sender newMinter : Address)
  | transferOwnership (sender newOwner : Address)
  | renounceOwnership (sender : Address)
  deriving DecidableEq

def TokenCall.sender : TokenCall → Address
  | transfer sender _ _ | approve sender _ _ | transferFrom sender _ _ _
  | increaseAllowance sender _ _ | decreaseAllowance sender _ _ | teleport sender _ _
  | mint sender _ _ | burn sender _ _ | setVerifier sender _ | setMinter sender _
  | transferOwnership sender _ | renounceOwnership sender => sender

def Token.call (h : Hashes) (t : Token) : TokenCall → Except TokenError Token
  | .transfer sender dst amount => t.transfer h sender dst amount.val
  | .approve sender spender amount => t.approve sender spender amount.val
  | .transferFrom sender src dst amount => t.transferFrom h sender src dst amount.val
  | .increaseAllowance sender spender value => t.increaseAllowance sender spender value.val
  | .decreaseAllowance sender spender value => t.decreaseAllowance sender spender value.val
  | .teleport sender dst value => t.teleport h sender dst value.val
  | .mint sender dst value => t.mint h sender dst value.val
  | .burn sender src value => t.burn h sender src value.val
  | .setVerifier sender newVerifier => t.setVerifier sender newVerifier
  | .setMinter sender newMinter => t.setMinter sender newMinter
  | .transferOwnership sender newOwner => t.transferOwnership sender newOwner
  | .renounceOwnership sender => t.renounceOwnership sender

/-! ## What a call can do -/

namespace Token

variable (h : Hashes)

/-- `t` with the history extended by one transfer. -/
def record (t : Token) (tr : Transfer) : Token :=
  { t with
    hashChain := Zerc20.hashChain h t.hashChain tr.dst.val tr.value.val
    index := t.index + 1
    events := t.events ++ [tr] }

/-- Only roles and allowances differ. -/
def SameLedger (t t' : Token) : Prop :=
  t'.balances = t.balances ∧ t'.totalSupply = t.totalSupply ∧ t'.hashChain = t.hashChain
    ∧ t'.index = t.index ∧ t'.events = t.events

def SameRoles (t t' : Token) : Prop := t'.verifier = t.verifier ∧ t'.minter = t.minter

/-- The hook records the transfer: it logs it, extends the hash chain and counts it. -/
theorem afterTokenTransfer_eq_ok {t t' : Token} {src dst : Address} {value : ℕ}
    (hok : t.afterTokenTransfer h src dst value = .ok t') :
    ∃ tr : Transfer, tr.src = src ∧ tr.dst = dst ∧ tr.value.val = value ∧ t' = t.record h tr := by
  unfold afterTokenTransfer at hok
  split at hok
  · rename_i hvalue
    split at hok
    · cases hok
      exact ⟨⟨src, dst, value, Nat.lt_succ_of_le hvalue⟩, rfl, rfl, rfl, rfl⟩
    · cases hok
  · cases hok

/-- The balances after moving `amount` from `src` to `dst`. -/
def movedBalances (t : Token) (src dst : Address) (amount : ℕ) : Address → ℕ :=
  let balances := Function.update t.balances src (t.balances src - amount)
  Function.update balances dst ((balances dst + amount) % 2 ^ 256)

/-- `_transfer` needs two nonzero addresses and the balance. -/
theorem transferInternal_eq_ok {t t' : Token} {src dst : Address} {amount : ℕ}
    (hok : t.transferInternal h src dst amount = .ok t') :
    src ≠ 0 ∧ dst ≠ 0 ∧ amount ≤ t.balances src
      ∧ ∃ tr : Transfer, tr.src = src ∧ tr.dst = dst ∧ tr.value.val = amount
        ∧ t' = { t with balances := t.movedBalances src dst amount }.record h tr := by
  unfold transferInternal at hok
  simp only [bind_eq_ok, require_eq_ok, exists_const] at hok
  obtain ⟨hsrc, hdst, hamount, hrest⟩ := hok
  exact ⟨hsrc, hdst, hamount, afterTokenTransfer_eq_ok h hrest⟩

/-- `_mint` needs a nonzero address and room in the supply. -/
theorem mintInternal_eq_ok {t t' : Token} {account : Address} {amount : ℕ}
    (hok : t.mintInternal h account amount = .ok t') :
    account ≠ 0 ∧ t.totalSupply + amount ≤ uint256Max
      ∧ ∃ tr : Transfer, tr.src = 0 ∧ tr.dst = account ∧ tr.value.val = amount
        ∧ t' = { t with
            totalSupply := t.totalSupply + amount
            balances := Function.update t.balances account
              ((t.balances account + amount) % 2 ^ 256) }.record h tr := by
  unfold mintInternal at hok
  simp only [bind_eq_ok, require_eq_ok, exists_const] at hok
  obtain ⟨haccount, hsupply, hrest⟩ := hok
  exact ⟨haccount, hsupply, afterTokenTransfer_eq_ok h hrest⟩

/-- When a mint by the Verifier succeeds, and what it mints. -/
theorem teleport_ok {t : Token} {sender dst : Address} (value : ℕ) (hsender : sender = t.verifier)
    (hdst : dst ≠ 0) (hvalue : value ≤ uint248Max) (hsupply : t.totalSupply + value ≤ uint256Max)
    (hindex : t.index < uint256Max) :
    ∃ t' tr, t.teleport h sender dst value = .ok t' ∧ tr.src = 0 ∧ tr.dst = dst
      ∧ tr.value.val = value ∧ t'.events = t.events ++ [tr]
      ∧ t'.totalSupply = t.totalSupply + value
      ∧ t'.balances = Function.update t.balances dst ((t.balances dst + value) % 2 ^ 256) := by
  let tr : Transfer := ⟨0, dst, ⟨value, Nat.lt_succ_of_le hvalue⟩⟩
  let minted : Token := { t with
    totalSupply := t.totalSupply + value
    balances := Function.update t.balances dst ((t.balances dst + value) % 2 ^ 256) }
  refine ⟨minted.record h tr, tr, ?_, rfl, rfl, rfl, rfl, rfl, rfl⟩
  refine bind_eq_ok.mpr ⟨(), require_eq_ok.mpr hsender, ?_⟩
  refine bind_eq_ok.mpr ⟨(), require_eq_ok.mpr hdst, ?_⟩
  refine bind_eq_ok.mpr ⟨(), require_eq_ok.mpr hsupply, ?_⟩
  unfold afterTokenTransfer
  rw [dif_pos hvalue]
  exact if_pos hindex

/-- `_burn` needs the balance. Its recipient is the zero address. -/
theorem burnInternal_eq_ok {t t' : Token} {account : Address} {amount : ℕ}
    (hok : t.burnInternal h account amount = .ok t') :
    account ≠ 0 ∧ amount ≤ t.balances account
      ∧ ∃ tr : Transfer, tr.src = account ∧ tr.dst = 0 ∧ tr.value.val = amount
        ∧ t' = { t with
            balances := Function.update t.balances account (t.balances account - amount)
            totalSupply := (t.totalSupply + 2 ^ 256 - amount) % 2 ^ 256 }.record h tr := by
  unfold burnInternal at hok
  simp only [bind_eq_ok, require_eq_ok, exists_const] at hok
  obtain ⟨haccount, hamount, hrest⟩ := hok
  exact ⟨haccount, hamount, afterTokenTransfer_eq_ok h hrest⟩

theorem approveInternal_eq_ok {t t' : Token} {owner spender : Address} {amount : ℕ}
    (hok : t.approveInternal owner spender amount = .ok t') :
    t.SameLedger t' ∧ t.SameRoles t' := by
  unfold approveInternal at hok
  simp only [bind_eq_ok, require_eq_ok, exists_const] at hok
  obtain ⟨-, -, hret⟩ := hok
  cases hret
  exact ⟨⟨rfl, rfl, rfl, rfl, rfl⟩, rfl, rfl⟩

theorem spendAllowance_eq_ok {t t' : Token} {owner spender : Address} {amount : ℕ}
    (hok : t.spendAllowance owner spender amount = .ok t') :
    t.SameLedger t' ∧ t.SameRoles t' := by
  unfold spendAllowance at hok
  dsimp only at hok
  split at hok
  · cases hok
    exact ⟨⟨rfl, rfl, rfl, rfl, rfl⟩, rfl, rfl⟩
  · simp only [bind_eq_ok, require_eq_ok, exists_const] at hok
    exact approveInternal_eq_ok hok.2

/-- What a call of `sender` does to the ledger. -/
inductive Effect (sender : Address) (t t' : Token) : Prop where
  | admin (hledger : t.SameLedger t')
  | transfer (t₀ : Token) (src dst : Address) (amount : ℕ) (hledger : t.SameLedger t₀)
      (hok : t₀.transferInternal h src dst amount = .ok t')
  | mint (dst : Address) (amount : ℕ) (hrole : sender = t.verifier ∨ sender = t.minter)
      (hok : t.mintInternal h dst amount = .ok t')
  | burn (src : Address) (amount : ℕ) (hrole : sender = t.minter)
      (hok : t.burnInternal h src amount = .ok t')

theorem SameLedger.refl (t : Token) : t.SameLedger t := ⟨rfl, rfl, rfl, rfl, rfl⟩

/-- The effect of every call on the ledger. -/
theorem call_effect {t t' : Token} {c : TokenCall} (hok : t.call h c = .ok t') :
    Effect h c.sender t t' := by
  cases c with
  | transfer sender dst amount => exact .transfer t sender dst _ (SameLedger.refl t) hok
  | approve sender spender amount => exact .admin (approveInternal_eq_ok hok).1
  | transferFrom sender src dst amount =>
    -- the allowance is spent first, which leaves the ledger alone
    obtain ⟨t₀, hspend, hmove⟩ := bind_eq_ok.mp hok
    exact .transfer t₀ src dst _ (spendAllowance_eq_ok hspend).1 hmove
  | increaseAllowance sender spender value =>
    obtain ⟨_, -, happrove⟩ := bind_eq_ok.mp hok
    exact .admin (approveInternal_eq_ok happrove).1
  | decreaseAllowance sender spender value =>
    obtain ⟨_, -, happrove⟩ := bind_eq_ok.mp hok
    exact .admin (approveInternal_eq_ok happrove).1
  | teleport sender dst value =>
    obtain ⟨_, hrole, hmint⟩ := bind_eq_ok.mp hok
    exact .mint dst _ (Or.inl (require_eq_ok.mp hrole)) hmint
  | mint sender dst value =>
    obtain ⟨_, hrole, hmint⟩ := bind_eq_ok.mp hok
    exact .mint dst _ (Or.inr (require_eq_ok.mp hrole)) hmint
  | burn sender src value =>
    obtain ⟨_, hrole, hburn⟩ := bind_eq_ok.mp hok
    exact .burn src _ (require_eq_ok.mp hrole) hburn
  | setVerifier sender newVerifier =>
    obtain ⟨_, -, hret⟩ := bind_eq_ok.mp hok
    obtain ⟨_, -, hret⟩ := bind_eq_ok.mp hret
    cases hret
    exact .admin (SameLedger.refl t)
  | setMinter sender newMinter =>
    obtain ⟨_, -, hret⟩ := bind_eq_ok.mp hok
    cases hret
    exact .admin (SameLedger.refl t)
  | transferOwnership sender newOwner =>
    obtain ⟨_, -, hret⟩ := bind_eq_ok.mp hok
    obtain ⟨_, -, hret⟩ := bind_eq_ok.mp hret
    cases hret
    exact .admin (SameLedger.refl t)
  | renounceOwnership sender =>
    obtain ⟨_, -, hret⟩ := bind_eq_ok.mp hok
    cases hret
    exact .admin (SameLedger.refl t)

/-- The history grows by at most one transfer. -/
theorem Effect.history {sender : Address} {t t' : Token} (heff : Effect h sender t t') :
    (t'.events = t.events ∧ t'.hashChain = t.hashChain ∧ t'.index = t.index)
      ∨ ∃ tr, t'.events = t.events ++ [tr] ∧ t'.index = t.index + 1
        ∧ t'.hashChain = Zerc20.hashChain h t.hashChain tr.dst.val tr.value.val := by
  cases heff with
  | admin hledger =>
    obtain ⟨-, -, hchain, hindex, hevents⟩ := hledger
    exact Or.inl ⟨hevents, hchain, hindex⟩
  | transfer t₀ src dst amount hledger hok =>
    obtain ⟨-, -, -, tr, -, -, -, rfl⟩ := transferInternal_eq_ok h hok
    obtain ⟨-, -, hchain, hindex, hevents⟩ := hledger
    refine Or.inr ⟨tr, ?_, ?_, ?_⟩
    · rw [← hevents]
      rfl
    · rw [← hindex]
      rfl
    · rw [← hchain]
      rfl
  | mint dst amount hrole hok =>
    obtain ⟨-, -, tr, -, -, -, rfl⟩ := mintInternal_eq_ok h hok
    exact Or.inr ⟨tr, rfl, rfl, rfl⟩
  | burn src amount hrole hok =>
    obtain ⟨-, -, tr, -, -, -, rfl⟩ := burnInternal_eq_ok h hok
    exact Or.inr ⟨tr, rfl, rfl, rfl⟩

/-! ## The ledger is a function of the history -/

/-- `index` and `hashChain` commit to the recorded events. -/
structure HistoryInv (t : Token) : Prop where
  index_eq : t.index = t.events.length
  hashChain_eq : t.hashChain = transferChain h t.events

/-- Every effect keeps the hash chain that of the events. -/
theorem Effect.historyInv {sender : Address} {t t' : Token} (heff : Effect h sender t t')
    (hinv : HistoryInv h t) : HistoryInv h t' := by
  rcases heff.history h with ⟨hevents, hchain, hindex⟩ | ⟨tr, hevents, hindex, hchain⟩
  · exact ⟨by rw [hevents, hindex, hinv.index_eq], by rw [hevents, hchain, hinv.hashChain_eq]⟩
  · refine ⟨?_, ?_⟩
    · rw [hevents, hindex, hinv.index_eq, List.length_append, List.length_singleton]
    · rw [hevents, hchain, hinv.hashChain_eq, transferChain_concat]

end Token

end Zerc20
