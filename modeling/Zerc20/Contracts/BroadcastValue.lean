import Zerc20.Contracts.Network
import Zerc20.Lib.Sums

/-!
# The native value of a broadcast

`Hub.broadcast` is payable. Its value pays the endpoint for every target, and what is left goes back
to the caller. `_lzSend` compares each fee with the whole value (`_payNative`), which would let the
sends together spend other ether of the Hub; it is the sum of the quotes, taken before the first
send, that forbids it.

The model is the Hub with the native balances of its chain. A transaction is a stack of open calls
(`Zerc20.Lib.Frames`): the endpoint, and the caller that is refunded, run any code while a
`broadcast` is open, further calls of `broadcast` included, and any call may be reverted.
-/

namespace Zerc20

open Machine Frames Sums

/-! ## Ledgers -/

structure Payment where
  dst : Address
  value : ℕ
  deriving DecidableEq

/-- A call of `broadcast`: `msg.sender`, `msg.value`, and what it paid so far. -/
structure Broadcast where
  caller : Address
  value : ℕ
  payments : List Payment
  deriving DecidableEq

def Broadcast.paid (b : Broadcast) (p : Payment) : Broadcast :=
  { b with payments := b.payments ++ [p] }

/-- The Hub and the accounts of its chain. The Hub's own balance is in `hub`. -/
structure Ledger where
  hub : Hub
  balance : Address → ℕ
  /-- What was sent to the Hub outright. -/
  donated : ℕ
  /-- The broadcasts that returned, and were not reverted by a caller. -/
  completed : List Broadcast

/-- What an open call has left to do. -/
inductive OpenCall where
  | broadcast (b : Broadcast) (ctx : BroadcastContext) (sends : List (ℕ × ℕ)) (refund : ℕ)
  | other

structure LedgerState where
  ledger : Ledger
  frames : List (Frame Ledger OpenCall)

inductive LedgerError where
  | hub (e : HubError)
  | notEnoughNative (msgValue : ℕ)
  | insufficientBalance
  | noSuchCall
  deriving DecidableEq

/-- The calls of the Hub that change it, besides `broadcast`. -/
inductive HubEntry where
  | setPeer (sender : Address) (eid : ℕ) (peer : Word)
  | registerToken (sender : Address) (info : TokenInfo)
  | updateToken (sender : Address) (info : TokenInfo)
  | lzReceive (sender : Address) (srcEid : ℕ) (originSender : Word) (payload : Payload)

inductive LedgerAction where
  | transfer (src dst : Address) (value : ℕ)
  /-- A `selfdestruct` in favour of the Hub, or the value of a message to it. -/
  | donate (src : Address) (value : ℕ)
  | enter (entry : HubEntry)
  | broadcast (caller : Address) (value : ℕ) (targetEids : List ℕ) (quote : ℕ → MessagingFee)
  /-- A call of any other code. -/
  | call
  | send
  | refund
  | finish
  | revert

namespace Hub

def enter (u : Hub) : HubEntry → Except HubError Hub
  | .setPeer sender eid peer => u.setPeer sender eid peer
  | .registerToken sender info => u.registerToken sender info
  | .updateToken sender info => u.updateToken sender info
  | .lzReceive sender srcEid originSender payload => u.lzReceive sender srcEid originSender payload

/-- `_payNative`, as the Hub overrides it. -/
def payNative (msgValue nativeFee : ℕ) : Except LedgerError ℕ := do
  require (nativeFee ≤ msgValue) (.notEnoughNative msgValue)
  return nativeFee

end Hub

namespace Ledger

def transfer (l : Ledger) (src dst : Address) (value : ℕ) : Except LedgerError Ledger := do
  require (value ≤ l.balance src) .insufficientBalance
  let balance := Function.update l.balance src (l.balance src - value)
  return { l with balance := Function.update balance dst (balance dst + value) }

def donate (l : Ledger) (src : Address) (value : ℕ) : Except LedgerError Ledger := do
  require (value ≤ l.balance src) .insufficientBalance
  return { l with
    hub := { l.hub with nativeBalance := l.hub.nativeBalance + value }
    balance := Function.update l.balance src (l.balance src - value)
    donated := l.donated + value }

/-- After the Hub paid. -/
def spend (l : Ledger) (p : Payment) : Ledger := { l with
  hub := { l.hub with nativeBalance := l.hub.nativeBalance - p.value }
  balance := Function.update l.balance p.dst (l.balance p.dst + p.value) }

theorem spend_zero (l : Ledger) (dst : Address) : l.spend ⟨dst, 0⟩ = l := by
  rw [spend]
  simp

/-- Two payments to one address are one payment of their sum. -/
theorem spend_spend (l : Ledger) (dst : Address) (v w : ℕ) :
    (l.spend ⟨dst, v⟩).spend ⟨dst, w⟩ = l.spend ⟨dst, v + w⟩ := by
  simp only [spend, Function.update_self, Function.update_idem, Nat.sub_sub, Nat.add_assoc]

/-- A call with value that the Hub makes in `b`. -/
def pay (l : Ledger) (b : Broadcast) (p : Payment) : Except LedgerError (Ledger × Broadcast) := do
  require (p.value ≤ l.hub.nativeBalance) .insufficientBalance
  return (l.spend p, b.paid p)

/-- `_lzSend`. The endpoint keeps the value it is given. -/
def lzSend (l : Ledger) (b : Broadcast) (dstEid nativeFee : ℕ) :
    Except LedgerError (Ledger × Broadcast) := do
  let messageValue ← Hub.payNative b.value nativeFee
  require (l.hub.peers dstEid ≠ 0) (.hub (.noPeer dstEid))
  l.pay b ⟨l.hub.endpoint, messageValue⟩

/-- All the native value of the chain. -/
def total (l : Ledger) : ℕ := l.hub.nativeBalance + ∑ a, l.balance a

end Ledger

namespace LedgerState

variable (h : Hashes)

/-- An action inside the innermost open call. -/
def within (s : LedgerState) (r : Except LedgerError Ledger) : Except LedgerError LedgerState := do
  let l ← r
  return { s with ledger := l }

/-- `broadcast` up to the first send. -/
def broadcast (s : LedgerState) (caller : Address) (value : ℕ) (targetEids : List ℕ)
    (quote : ℕ → MessagingFee) : Except LedgerError LedgerState := do
  let l := s.ledger
  require (value ≤ l.balance caller) .insufficientBalance
  let (u, ctx, fees, refund) ←
    (l.hub.broadcastStart h value targetEids quote).mapError LedgerError.hub
  let balance := Function.update l.balance caller (l.balance caller - value)
  return ⟨{ l with hub := u, balance := balance },
    ⟨l, .broadcast ⟨caller, value, []⟩ ctx fees refund⟩ :: s.frames⟩

def send (s : LedgerState) : Except LedgerError LedgerState :=
  match s.frames with
  | ⟨checkpoint, .broadcast b ctx ((eid, fee) :: sends) refund⟩ :: fs => do
    let (l, b) ← s.ledger.lzSend b eid fee
    return ⟨l, ⟨checkpoint, .broadcast b ctx sends refund⟩ :: fs⟩
  | _ => .error .noSuchCall

/-- The call of `msg.sender`. One that fails is a `revert`, as the Hub reverts then. -/
def refund (s : LedgerState) : Except LedgerError LedgerState :=
  match s.frames with
  | ⟨checkpoint, .broadcast b ctx [] (refund + 1)⟩ :: fs => do
    let (l, b) ← s.ledger.pay b ⟨b.caller, refund + 1⟩
    return ⟨l, ⟨checkpoint, .broadcast b ctx [] 0⟩ :: fs⟩
  | _ => .error .noSuchCall

/-- The innermost call returns. -/
def finish (s : LedgerState) : Except LedgerError LedgerState :=
  match s.frames with
  | ⟨_, .broadcast b ctx [] 0⟩ :: fs =>
    .ok ⟨{ s.ledger with
      hub := s.ledger.hub.broadcastDone ctx
      completed := s.ledger.completed ++ [b] }, fs⟩
  | ⟨_, .other⟩ :: fs => .ok ⟨s.ledger, fs⟩
  | _ => .error .noSuchCall

def revert (s : LedgerState) : Except LedgerError LedgerState :=
  match s.frames with
  | f :: fs => .ok ⟨f.checkpoint, fs⟩
  | [] => .error .noSuchCall

def exec (s : LedgerState) : LedgerAction → Except LedgerError LedgerState
  | .transfer src dst value => s.within (s.ledger.transfer src dst value)
  | .donate src value => s.within (s.ledger.donate src value)
  | .enter entry => s.within do
    let u ← (s.ledger.hub.enter entry).mapError LedgerError.hub
    return { s.ledger with hub := u }
  | .broadcast caller value targetEids quote => s.broadcast h caller value targetEids quote
  | .call => .ok ⟨s.ledger, ⟨s.ledger, .other⟩ :: s.frames⟩
  | .send => s.send
  | .refund => s.refund
  | .finish => s.finish
  | .revert => s.revert

def step (s : LedgerState) (a : LedgerAction) : LedgerState := commit s (s.exec h a)

/-- The call that was opened over `n` calls is open before and after every action. -/
def StaysOpen (n : ℕ) : LedgerState → List LedgerAction → Prop
  | s, [] => n < s.frames.length
  | s, a :: acts => n < s.frames.length ∧ StaysOpen n (s.step h a) acts

instance StaysOpen.decidable (n : ℕ) :
    (s : LedgerState) → (acts : List LedgerAction) → Decidable (s.StaysOpen h n acts)
  | s, [] => inferInstanceAs (Decidable (n < s.frames.length))
  | s, a :: acts =>
    have := StaysOpen.decidable n (s.step h a) acts
    inferInstanceAs (Decidable (n < s.frames.length ∧ StaysOpen h n (s.step h a) acts))

end LedgerState

/-! ## What an open broadcast has still to pay -/

def refundPayments (caller : Address) (refund : ℕ) : List Payment :=
  if refund = 0 then [] else [⟨caller, refund⟩]

namespace OpenCall

def owed : OpenCall → ℕ
  | .broadcast _ _ sends refund => Hub.totalNativeFee sends + refund
  | .other => 0

/-- The fees and the refund are part of the value. -/
def Covered : OpenCall → Prop
  | .broadcast b _ sends refund => Hub.totalNativeFee sends + refund ≤ b.value
  | .other => True

/-- The broadcast, with the payments it will have made when it returns. -/
def outcome (endpoint : Address) : OpenCall → Option Broadcast
  | .broadcast b _ sends refund => some { b with
      payments := b.payments ++ sends.map (fun x => ⟨endpoint, x.2⟩)
        ++ refundPayments b.caller refund }
  | .other => none

end OpenCall

/-! ## What a step does -/

/-- What an accepted action did to the Hub's balance and to the stack. -/
inductive LedgerMove (s : LedgerState) : LedgerState → Prop where
  | within (l : Ledger) (value : ℕ) (hendpoint : l.hub.endpoint = s.ledger.hub.endpoint)
      (hnative : l.hub.nativeBalance = s.ledger.hub.nativeBalance + value)
      (hdonated : l.donated = s.ledger.donated + value) (htotal : l.total = s.ledger.total) :
      LedgerMove s ⟨l, s.frames⟩
  | opens (l : Ledger) (k : OpenCall) (hendpoint : l.hub.endpoint = s.ledger.hub.endpoint)
      (hnative : l.hub.nativeBalance = s.ledger.hub.nativeBalance + k.owed)
      (hdonated : l.donated = s.ledger.donated) (htotal : l.total = s.ledger.total)
      (hcovered : k.Covered) : LedgerMove s ⟨l, ⟨s.ledger, k⟩ :: s.frames⟩
  | pays (f : Frame Ledger OpenCall) (fs : List (Frame Ledger OpenCall)) (l : Ledger) (k : OpenCall)
      (hframes : s.frames = f :: fs) (hendpoint : l.hub.endpoint = s.ledger.hub.endpoint)
      (hnative : l.hub.nativeBalance + f.cont.owed = s.ledger.hub.nativeBalance + k.owed)
      (hdonated : l.donated = s.ledger.donated) (htotal : l.total = s.ledger.total)
      (hcovered : f.cont.Covered → k.Covered)
      (houtcome : k.outcome s.ledger.hub.endpoint = f.cont.outcome s.ledger.hub.endpoint) :
      LedgerMove s ⟨l, ⟨f.checkpoint, k⟩ :: fs⟩
  | returns (f : Frame Ledger OpenCall) (fs : List (Frame Ledger OpenCall)) (l : Ledger)
      (hframes : s.frames = f :: fs) (hendpoint : l.hub.endpoint = s.ledger.hub.endpoint)
      (hnative : l.hub.nativeBalance = s.ledger.hub.nativeBalance)
      (hdonated : l.donated = s.ledger.donated) (htotal : l.total = s.ledger.total)
      (howed : f.cont.owed = 0) : LedgerMove s ⟨l, fs⟩
  | reverts (f : Frame Ledger OpenCall) (fs : List (Frame Ledger OpenCall))
      (hframes : s.frames = f :: fs) : LedgerMove s ⟨f.checkpoint, fs⟩

/-- The other entries of the Hub touch neither its endpoint nor its balance. -/
theorem Hub.enter_keeps {u u' : Hub} {entry : HubEntry} (hok : u.enter entry = .ok u') :
    u'.endpoint = u.endpoint ∧ u'.nativeBalance = u.nativeBalance := by
  cases entry with
  | setPeer sender eid peer =>
    rw [setPeer_eq_ok hok]
    exact ⟨rfl, rfl⟩
  | registerToken sender info =>
    obtain ⟨-, -, rfl⟩ := registerToken_eq_ok hok
    exact ⟨rfl, rfl⟩
  | updateToken sender info =>
    obtain ⟨-, rfl⟩ := updateToken_eq_ok hok
    exact ⟨rfl, rfl⟩
  | lzReceive sender srcEid originSender payload =>
    obtain ⟨-, -, -, ⟨-, rfl⟩ | ⟨-, rfl⟩⟩ := lzReceive_eq_ok hok
    · exact ⟨rfl, rfl⟩
    · exact ⟨rfl, rfl⟩

section

variable {l l' : Ledger} {b b' : Broadcast} {p : Payment}

/-- A payment goes through when the Hub has the money. -/
theorem Ledger.pay_eq_ok : l.pay b p = .ok (l', b')
    ↔ p.value ≤ l.hub.nativeBalance ∧ l' = l.spend p ∧ b' = b.paid p := by
  simp only [Ledger.pay, bind_eq_ok, require_eq_ok, exists_const]
  constructor
  · rintro ⟨hfunds, hret⟩
    cases hret
    exact ⟨hfunds, rfl, rfl⟩
  · rintro ⟨hfunds, rfl, rfl⟩
    exact ⟨hfunds, rfl⟩

/-- A send goes through when its chain has a peer and its fee is covered, by the call's own value
and by the balance. -/
theorem Ledger.lzSend_eq_ok {dstEid nativeFee : ℕ} :
    l.lzSend b dstEid nativeFee = .ok (l', b') ↔ nativeFee ≤ b.value
      ∧ l.hub.peers dstEid ≠ 0 ∧ l.pay b ⟨l.hub.endpoint, nativeFee⟩ = .ok (l', b') := by
  simp only [Ledger.lzSend, Hub.payNative, bind_eq_ok, require_eq_ok, exists_const]
  constructor
  · rintro ⟨_, ⟨hfee, hret⟩, hpeer, hpay⟩
    cases hret
    exact ⟨hfee, hpeer, hpay⟩
  · rintro ⟨hfee, hpeer, hpay⟩
    exact ⟨nativeFee, ⟨hfee, rfl⟩, hpeer, hpay⟩

/-- A send does to the Hub what it does in the network, but for `_payNative`. -/
theorem Ledger.lzSend_hub_iff {D : Deployment} {w : World} {ctx : BroadcastContext}
    {dstEid nativeFee : ℕ} {u : Hub} (hhub : w.hub = l.hub) :
    (∃ l' b', l.lzSend b dstEid nativeFee = .ok (l', b') ∧ l'.hub = u)
      ↔ nativeFee ≤ b.value ∧ ∃ w', w.hubSend D ctx dstEid nativeFee = .ok w' ∧ w'.hub = u := by
  simp only [Ledger.lzSend_eq_ok, Ledger.pay_eq_ok, World.hubSend, bind_eq_ok, require_eq_ok,
    exists_const, hhub]
  constructor
  · rintro ⟨_, _, ⟨hfee, hpeer, hfunds, rfl, rfl⟩, rfl⟩
    exact ⟨hfee, _, ⟨hpeer, hfunds, rfl⟩, rfl⟩
  · rintro ⟨hfee, w', ⟨hpeer, hfunds, hret⟩, rfl⟩
    cases hret
    exact ⟨_, _, ⟨hfee, hpeer, hfunds, rfl, rfl⟩, rfl⟩

end

section

variable {h : Hashes} {s s' : LedgerState}

/-- A call within a frame changes the ledger and opens nothing. -/
theorem LedgerState.within_eq_ok {r : Except LedgerError Ledger} (hok : s.within r = .ok s') :
    ∃ l, r = .ok l ∧ s' = ⟨l, s.frames⟩ := by
  obtain ⟨l, hl, hret⟩ := bind_eq_ok.mp hok
  exact ⟨l, hl, (Except.ok.inj hret).symm⟩

/-- After a call of `broadcast` with value, up to the first send. -/
def Ledger.called (l : Ledger) (caller : Address) (value : ℕ) : Ledger := { l with
  hub := { l.hub with
    aggSeq := l.hub.aggSeq + 1
    nativeBalance := l.hub.nativeBalance + value }
  balance := Function.update l.balance caller (l.balance caller - value) }

/-! Whatever one account is debited, another one is credited. -/

theorem Ledger.total_transfer {l l' : Ledger} {src dst : Address} {value : ℕ}
    (hok : l.transfer src dst value = .ok l') : l'.total = l.total := by
  obtain ⟨_, hfunds, hret⟩ := bind_eq_ok.mp hok
  have hle : value ≤ l.balance src := require_eq_ok.mp hfunds
  cases hret
  have hsrc := sum_update l.balance src (l.balance src - value)
  have hdst := sum_update (Function.update l.balance src (l.balance src - value)) dst
    (Function.update l.balance src (l.balance src - value) dst + value)
  simp only [Ledger.total]
  omega

theorem Ledger.total_donate {l l' : Ledger} {src : Address} {value : ℕ}
    (hok : l.donate src value = .ok l') : l'.total = l.total := by
  obtain ⟨_, hfunds, hret⟩ := bind_eq_ok.mp hok
  have hle : value ≤ l.balance src := require_eq_ok.mp hfunds
  cases hret
  have hsrc := sum_update l.balance src (l.balance src - value)
  simp only [Ledger.total]
  omega

/-- A payment of the Hub arrives where it goes. -/
theorem Ledger.total_spend {l : Ledger} {p : Payment} (hfunds : p.value ≤ l.hub.nativeBalance) :
    (l.spend p).total = l.total := by
  have hdst := sum_update l.balance p.dst (l.balance p.dst + p.value)
  simp only [Ledger.total, Ledger.spend]
  omega

theorem Ledger.total_called {l : Ledger} {caller : Address} {value : ℕ}
    (hfunds : value ≤ l.balance caller) : (l.called caller value).total = l.total := by
  have hcaller := sum_update l.balance caller (l.balance caller - value)
  simp only [Ledger.total, Ledger.called]
  omega

/-- A broadcast opens its frame with the value credited. -/
theorem LedgerState.broadcast_eq_ok {caller : Address} {value : ℕ} {targetEids : List ℕ}
    {quote : ℕ → MessagingFee} (hok : s.broadcast h caller value targetEids quote = .ok s') :
    ∃ ctx fees refund, value ≤ s.ledger.balance caller
      ∧ (∀ eid ∈ targetEids, s.ledger.hub.eidToPosition eid ≠ 0
        ∧ s.ledger.hub.peers eid ≠ 0 ∧ (quote eid).lzTokenFee = 0)
      ∧ fees = targetEids.map (fun eid => (eid, (quote eid).nativeFee))
      ∧ Hub.totalNativeFee fees + refund = value
      ∧ s' = ⟨s.ledger.called caller value,
        ⟨s.ledger, .broadcast ⟨caller, value, []⟩ ctx fees refund⟩ :: s.frames⟩ := by
  obtain ⟨_, hfunds, hok⟩ := bind_eq_ok.mp hok
  obtain ⟨⟨u, ctx, fees, refund⟩, hstart, hret⟩ := bind_eq_ok.mp hok
  obtain ⟨-, -, hquote, hvalue, rfl⟩ := Hub.broadcastStart_eq_ok (mapError_eq_ok.mp hstart)
  obtain ⟨hall, hfees⟩ := Hub.quoteBroadcast_eq_ok.mp hquote
  exact ⟨ctx, fees, refund, require_eq_ok.mp hfunds, hall, hfees, hvalue,
    (Except.ok.inj hret).symm⟩

/-- Every action is one of the moves of the ledger. -/
theorem LedgerState.exec_move {a : LedgerAction} (hok : s.exec h a = .ok s') :
    LedgerMove s s' := by
  cases a with
  | transfer src dst value =>
    obtain ⟨l, hl, rfl⟩ := within_eq_ok hok
    have htotal := Ledger.total_transfer hl
    obtain ⟨_, -, hret⟩ := bind_eq_ok.mp hl
    cases hret
    exact .within _ 0 rfl rfl rfl htotal
  | donate src value =>
    obtain ⟨l, hl, rfl⟩ := within_eq_ok hok
    have htotal := Ledger.total_donate hl
    obtain ⟨_, -, hret⟩ := bind_eq_ok.mp hl
    cases hret
    exact .within _ value rfl rfl rfl htotal
  -- what re-enters the Hub moves no value
  | enter entry =>
    obtain ⟨l, hl, rfl⟩ := within_eq_ok hok
    obtain ⟨u, hu, hret⟩ := bind_eq_ok.mp hl
    cases hret
    obtain ⟨hendpoint, hnative⟩ := Hub.enter_keeps (mapError_eq_ok.mp hu)
    exact .within _ 0 hendpoint hnative rfl (congrArg (· + ∑ a, s.ledger.balance a) hnative)
  | broadcast caller value targetEids quote =>
    obtain ⟨ctx, fees, refund, hfunds, -, -, hvalue, rfl⟩ := broadcast_eq_ok hok
    refine .opens _ _ rfl ?_ rfl (Ledger.total_called hfunds) hvalue.le
    show s.ledger.hub.nativeBalance + value
      = s.ledger.hub.nativeBalance + (Hub.totalNativeFee fees + refund)
    rw [hvalue]
  | call =>
    cases hok
    exact .opens _ _ rfl rfl rfl rfl trivial
  | send =>
    simp only [exec, send] at hok
    split at hok
    · rename_i checkpoint b ctx eid fee sends refund fs hframes
      obtain ⟨⟨l, b'⟩, hsend, hret⟩ := bind_eq_ok.mp hok
      cases hret
      obtain ⟨-, -, hpay⟩ := Ledger.lzSend_eq_ok.mp hsend
      obtain ⟨hfunds, rfl, rfl⟩ := Ledger.pay_eq_ok.mp hpay
      replace hfunds : fee ≤ s.ledger.hub.nativeBalance := hfunds
      have htotal := Hub.totalNativeFee_cons eid fee sends
      -- one fee leaves the Hub and is no longer owed
      refine .pays _ _ _ _ hframes rfl ?_ rfl (Ledger.total_spend hfunds) ?_ ?_
      · show s.ledger.hub.nativeBalance - fee + (Hub.totalNativeFee ((eid, fee) :: sends) + refund)
          = s.ledger.hub.nativeBalance + (Hub.totalNativeFee sends + refund)
        omega
      · intro hcovered
        replace hcovered : Hub.totalNativeFee ((eid, fee) :: sends) + refund ≤ b.value := hcovered
        show Hub.totalNativeFee sends + refund ≤ b.value
        omega
      · simp [OpenCall.outcome, Broadcast.paid]
    · cases hok
  | refund =>
    simp only [exec, refund] at hok
    split at hok
    · rename_i checkpoint b ctx amount fs hframes
      obtain ⟨⟨l, b'⟩, hpay, hret⟩ := bind_eq_ok.mp hok
      cases hret
      obtain ⟨hfunds, rfl, rfl⟩ := Ledger.pay_eq_ok.mp hpay
      replace hfunds : amount + 1 ≤ s.ledger.hub.nativeBalance := hfunds
      -- and here the remainder
      refine .pays _ _ _ _ hframes rfl ?_ rfl (Ledger.total_spend hfunds)
        (fun _ => Nat.zero_le _) ?_
      · show s.ledger.hub.nativeBalance - (amount + 1) + (0 + (amount + 1))
          = s.ledger.hub.nativeBalance + (0 + 0)
        omega
      · simp [OpenCall.outcome, refundPayments, Broadcast.paid]
    · cases hok
  | finish =>
    simp only [exec, finish] at hok
    split at hok
    · rename_i checkpoint b ctx fs hframes
      cases hok
      exact .returns _ _ _ hframes rfl rfl rfl rfl rfl
    · rename_i checkpoint fs hframes
      cases hok
      exact .returns _ _ _ hframes rfl rfl rfl rfl rfl
    · cases hok
  | revert =>
    simp only [exec, revert] at hok
    split at hok
    · rename_i f fs hframes
      cases hok
      exact .reverts f fs hframes
    · cases hok

end

/-! ## Runs -/

/-- Since `l₀`, the Hub got what was sent to it outright and what its open calls have still to
pay. -/
structure Balanced (l₀ l : Ledger) (ks : List OpenCall) : Prop where
  endpoint : l.hub.endpoint = l₀.hub.endpoint
  donated : l₀.donated ≤ l.donated
  covered : ∀ k ∈ ks, k.Covered
  total : l.total = l₀.total
  native : l.hub.nativeBalance + l₀.donated
    = l₀.hub.nativeBalance + l.donated + (ks.map OpenCall.owed).sum

namespace LedgerState

variable {h : Hashes} {l₀ : Ledger} {s s' : LedgerState}

def Sound (l₀ : Ledger) (s : LedgerState) : Prop := Throughout (Balanced l₀) s.ledger s.frames

/-- **Step lemma.** -/
theorem Sound.move (hs : s.Sound l₀) (hmove : LedgerMove s s') : s'.Sound l₀ := by
  have hnow : Balanced l₀ s.ledger (conts s.frames) := Throughout.inv hs
  have htotal := hnow.native
  have hall := hnow.covered
  have hmore := hnow.donated
  cases hmove with
  -- nothing is owed more or less
  | within l value hendpoint hnative hdonated hsum =>
    refine Throughout.mono hs ⟨hendpoint.trans hnow.endpoint, ?_, hall, hsum.trans hnow.total, ?_⟩
    · show l₀.donated ≤ l.donated
      omega
    · show l.hub.nativeBalance + l₀.donated
        = l₀.hub.nativeBalance + l.donated + ((conts s.frames).map OpenCall.owed).sum
      omega
  -- the value that comes in is what the new frame owes
  | opens l k hendpoint hnative hdonated hsum hcovered =>
    refine Throughout.push hs ⟨hendpoint.trans hnow.endpoint, hmore.trans hdonated.ge, ?_,
      hsum.trans hnow.total, ?_⟩
    · exact List.forall_mem_cons.mpr ⟨hcovered, hall⟩
    · show l.hub.nativeBalance + l₀.donated = l₀.hub.nativeBalance + l.donated
        + (k.owed + ((conts s.frames).map OpenCall.owed).sum)
      omega
  -- what goes out is taken off what the innermost frame owes
  | pays f fs l k hframes hendpoint hnative hdonated hsum hcovered houtcome =>
    unfold Sound at hs
    rw [hframes] at hs htotal hall
    obtain ⟨hinner, hrest⟩ := List.forall_mem_cons.mp hall
    replace htotal : s.ledger.hub.nativeBalance + l₀.donated = l₀.hub.nativeBalance
      + s.ledger.donated + (f.cont.owed + ((conts fs).map OpenCall.owed).sum) := htotal
    refine Throughout.resume hs ⟨hendpoint.trans hnow.endpoint, hmore.trans hdonated.ge, ?_,
      hsum.trans hnow.total, ?_⟩
    · exact List.forall_mem_cons.mpr ⟨hcovered hinner, hrest⟩
    · show l.hub.nativeBalance + l₀.donated = l₀.hub.nativeBalance + l.donated
        + (k.owed + ((conts fs).map OpenCall.owed).sum)
      omega
  -- a frame that returns owes nothing
  | returns f fs l hframes hendpoint hnative hdonated hsum howed =>
    unfold Sound at hs
    rw [hframes] at hs htotal hall
    replace htotal : s.ledger.hub.nativeBalance + l₀.donated = l₀.hub.nativeBalance
      + s.ledger.donated + (f.cont.owed + ((conts fs).map OpenCall.owed).sum) := htotal
    refine Throughout.pop hs ⟨hendpoint.trans hnow.endpoint, hmore.trans hdonated.ge, ?_,
      hsum.trans hnow.total, ?_⟩
    · exact (List.forall_mem_cons.mp hall).2
    · show l.hub.nativeBalance + l₀.donated
        = l₀.hub.nativeBalance + l.donated + ((conts fs).map OpenCall.owed).sum
      omega
  | reverts f fs hframes =>
    unfold Sound at hs
    rw [hframes] at hs
    exact Throughout.revert hs

/-- A step is refused and changes nothing, or it is a move. -/
theorem step_cases (h : Hashes) (s : LedgerState) (a : LedgerAction) :
    s.step h a = s ∨ LedgerMove s (s.step h a) := by
  rcases commit_cases s (s.exec h a) with ⟨-, hsame⟩ | hok
  · exact Or.inl hsame
  · exact Or.inr (exec_move hok)

/-- Every step keeps the books: what the Hub has and what it paid add up to what it was given. -/
theorem step_sound (hs : s.Sound l₀) (a : LedgerAction) : (s.step h a).Sound l₀ := by
  rcases step_cases h s a with hsame | hmove
  · rw [hsame]
    exact hs
  · exact hs.move hmove

theorem initial_sound (l₀ : Ledger) : (⟨l₀, []⟩ : LedgerState).Sound l₀ :=
  ⟨rfl, le_rfl, nofun, rfl, rfl⟩

/-- Open calls keep what they will have paid. -/
theorem Sound.moves (hs : s.Sound l₀) (hmove : LedgerMove s s') :
    Moves (OpenCall.outcome l₀.hub.endpoint) s.frames s'.frames := by
  have hendpoint : s.ledger.hub.endpoint = l₀.hub.endpoint := (Throughout.inv hs).endpoint
  cases hmove with
  | within => exact .stay _
  | opens => exact .push _ _
  | pays f fs l k hframes _ _ _ _ _ houtcome =>
    rw [hframes]
    rw [hendpoint] at houtcome
    exact .resume f fs k houtcome
  | returns f fs l hframes =>
    rw [hframes]
    exact .pop f fs
  | reverts f fs hframes =>
    rw [hframes]
    exact .pop f fs

/-- **While a call is open** it keeps its checkpoint, what it will have paid, and the calls below
it. -/
theorem StaysOpen.openOver {l : Ledger} {x : Option Broadcast} {fs : List (Frame Ledger OpenCall)}
    {acts : List LedgerAction} (hs : s.Sound l₀) (hopen : s.StaysOpen h fs.length acts)
    (hover : OpenOver (OpenCall.outcome l₀.hub.endpoint) l x fs s.frames) :
    (run (step h) s acts).Sound l₀
      ∧ OpenOver (OpenCall.outcome l₀.hub.endpoint) l x fs (run (step h) s acts).frames := by
  induction acts generalizing s with
  | nil => exact ⟨hs, hover⟩
  | cons a acts ih =>
    obtain ⟨-, hrest⟩ := hopen
    have hlen : fs.length < (s.step h a).frames.length := by
      cases acts with
      | nil => exact hrest
      | cons a' acts => exact hrest.1
    refine ih (step_sound hs a) hrest ?_
    rcases step_cases h s a with hsame | hmove
    · rw [hsame]
      exact hover
    · exact hover.moves (hs.moves hmove) hlen

/-! ## The Hub can pay -/

section

variable {checkpoint : Ledger} {b : Broadcast} {ctx : BroadcastContext} {eid fee refund : ℕ}
  {sends : List (ℕ × ℕ)} {fs : List (Frame Ledger OpenCall)}

theorem send_ok
    (hframes : s.frames = ⟨checkpoint, .broadcast b ctx ((eid, fee) :: sends) refund⟩ :: fs)
    (hfee : fee ≤ b.value) (hpeer : s.ledger.hub.peers eid ≠ 0)
    (hfunds : fee ≤ s.ledger.hub.nativeBalance) :
    s.exec h .send = .ok ⟨s.ledger.spend ⟨s.ledger.hub.endpoint, fee⟩,
      ⟨checkpoint, .broadcast (b.paid ⟨s.ledger.hub.endpoint, fee⟩) ctx sends refund⟩ :: fs⟩ := by
  have hsend : s.ledger.lzSend b eid fee = .ok (s.ledger.spend ⟨s.ledger.hub.endpoint, fee⟩,
      b.paid ⟨s.ledger.hub.endpoint, fee⟩) :=
    Ledger.lzSend_eq_ok.mpr ⟨hfee, hpeer, Ledger.pay_eq_ok.mpr ⟨hfunds, rfl, rfl⟩⟩
  simp only [exec, send, hframes]
  exact bind_eq_ok.mpr ⟨_, hsend, rfl⟩

theorem refund_ok (hframes : s.frames = ⟨checkpoint, .broadcast b ctx [] (refund + 1)⟩ :: fs)
    (hfunds : refund + 1 ≤ s.ledger.hub.nativeBalance) :
    s.exec h .refund = .ok ⟨s.ledger.spend ⟨b.caller, refund + 1⟩,
      ⟨checkpoint, .broadcast (b.paid ⟨b.caller, refund + 1⟩) ctx [] 0⟩ :: fs⟩ := by
  have hpay : s.ledger.pay b ⟨b.caller, refund + 1⟩
      = .ok (s.ledger.spend ⟨b.caller, refund + 1⟩, b.paid ⟨b.caller, refund + 1⟩) :=
    Ledger.pay_eq_ok.mpr ⟨hfunds, rfl, rfl⟩
  simp only [exec, LedgerState.refund, hframes]
  exact bind_eq_ok.mpr ⟨_, hpay, rfl⟩

/-- What the open calls have still to pay is there. -/
theorem Sound.owed_le (hs : s.Sound l₀) :
    ((conts s.frames).map OpenCall.owed).sum ≤ s.ledger.hub.nativeBalance := by
  have hnow := Throughout.inv hs
  have hnative := hnow.native
  have hdonated := hnow.donated
  omega

/-- **The Hub can pay** whatever happened while the broadcast was open: a send fails for want of a
peer only, and the refund does not fail in the Hub. -/
theorem Sound.payments_ok (hs : s.Sound l₀)
    (hframes : s.frames = ⟨checkpoint, .broadcast b ctx sends refund⟩ :: fs) :
    (∀ eid fee rest, sends = (eid, fee) :: rest → s.ledger.hub.peers eid ≠ 0 →
      ∃ s', s.exec h .send = .ok s')
    ∧ (sends = [] → refund ≠ 0 → ∃ s', s.exec h .refund = .ok s') := by
  have hcovered := (Throughout.inv hs).covered
  have howed := hs.owed_le
  rw [hframes] at hcovered howed
  have hvalue : Hub.totalNativeFee sends + refund ≤ b.value := hcovered _ List.mem_cons_self
  replace howed : Hub.totalNativeFee sends + refund + ((conts fs).map OpenCall.owed).sum
      ≤ s.ledger.hub.nativeBalance := howed
  constructor
  · rintro eid fee rest rfl hpeer
    have htotal := Hub.totalNativeFee_cons eid fee rest
    exact ⟨_, send_ok hframes (by omega) hpeer (by omega)⟩
  · rintro rfl hne
    obtain ⟨amount, rfl⟩ := Nat.exists_eq_succ_of_ne_zero hne
    exact ⟨_, refund_ok hframes (by omega)⟩

end

/-! ## Conservation -/

/-- What an open broadcast pays is credited to the account that it names, and to nobody else: the
fees to the endpoint, the rest to the caller. -/
theorem exec_credits {a : LedgerAction} (ha : a = .send ∨ a = .refund)
    (hok : s.exec h a = .ok s') :
    ∃ checkpoint b p ctx sends sends' refund refund' fs,
      s.frames = ⟨checkpoint, .broadcast b ctx sends refund⟩ :: fs
      ∧ s'.frames = ⟨checkpoint, .broadcast (b.paid p) ctx sends' refund'⟩ :: fs
      ∧ (a = .send ∧ p.dst = s.ledger.hub.endpoint ∨ a = .refund ∧ p.dst = b.caller)
      ∧ s'.ledger.balance = Function.update s.ledger.balance p.dst
        (s.ledger.balance p.dst + p.value) := by
  -- a send credits the endpoint, the refund credits the caller
  rcases ha with rfl | rfl
  · simp only [exec, send] at hok
    split at hok
    · rename_i checkpoint b ctx eid fee sends refund fs hframes
      obtain ⟨⟨l, b'⟩, hsend, hret⟩ := bind_eq_ok.mp hok
      cases hret
      obtain ⟨-, -, hpay⟩ := Ledger.lzSend_eq_ok.mp hsend
      obtain ⟨-, rfl, rfl⟩ := Ledger.pay_eq_ok.mp hpay
      exact ⟨checkpoint, b, ⟨s.ledger.hub.endpoint, fee⟩, ctx, _, sends, refund, refund, fs,
        hframes, rfl, Or.inl ⟨rfl, rfl⟩, rfl⟩
    · cases hok
  · simp only [exec, refund] at hok
    split at hok
    · rename_i checkpoint b ctx amount fs hframes
      obtain ⟨⟨l, b'⟩, hpay, hret⟩ := bind_eq_ok.mp hok
      cases hret
      obtain ⟨-, rfl, rfl⟩ := Ledger.pay_eq_ok.mp hpay
      exact ⟨checkpoint, b, ⟨b.caller, amount + 1⟩, ctx, [], [], amount + 1, 0, fs, hframes, rfl,
        Or.inr ⟨rfl, rfl⟩, rfl⟩
    · cases hok

/-- Two states with the same open calls differ by what was sent outright. -/
theorem Sound.balance_eq (hs : s.Sound l₀) (hs' : s'.Sound l₀) (hframes : s'.frames = s.frames) :
    s'.ledger.hub.nativeBalance + s.ledger.donated
      = s.ledger.hub.nativeBalance + s'.ledger.donated := by
  have hbefore := (Throughout.inv hs).native
  have hafter := (Throughout.inv hs').native
  rw [hframes] at hafter
  omega

/-! ## One broadcast -/

variable {caller : Address} {value : ℕ} {targetEids : List ℕ} {quote : ℕ → MessagingFee}

/-- An unregistered target, a fee in LayerZero's token or too little value: the broadcast is
refused. -/
theorem broadcast_refused (caller : Address)
    (hbad : (∃ eid ∈ targetEids, s.ledger.hub.eidToPosition eid = 0 ∨ (quote eid).lzTokenFee ≠ 0)
      ∨ value < (targetEids.map fun eid => (quote eid).nativeFee).sum) :
    ∃ e, s.exec h (.broadcast caller value targetEids quote) = .error e := by
  cases hexec : s.exec h (.broadcast caller value targetEids quote) with
  | error e => exact ⟨e, rfl⟩
  | ok s' =>
    obtain ⟨ctx, fees, refund, -, hall, rfl, hvalue, -⟩ := broadcast_eq_ok hexec
    rw [Hub.totalNativeFee_quotes] at hvalue
    rcases hbad with ⟨eid, hmem, hposition | hfee⟩ | hshort
    · exact absurd hposition (hall eid hmem).1
    · exact absurd (hall eid hmem).2.2 hfee
    · rw [← hvalue] at hshort
      exact absurd hshort (Nat.not_lt.mpr (Nat.le_add_right _ _))

/-- What a broadcast pays. -/
def paidBy (endpoint caller : Address) (value : ℕ) (targetEids : List ℕ)
    (quote : ℕ → MessagingFee) : Broadcast where
  caller := caller
  value := value
  payments := targetEids.map (fun eid => ⟨endpoint, (quote eid).nativeFee⟩)
    ++ refundPayments caller (value - (targetEids.map fun eid => (quote eid).nativeFee).sum)

/-- An accepted `broadcast` is a call that will have paid its fees and its refund. -/
theorem broadcast_opens (endpoint : Address)
    (hok : s.exec h (.broadcast caller value targetEids quote) = .ok s') :
    (targetEids.map fun eid => (quote eid).nativeFee).sum ≤ value
      ∧ OpenOver (OpenCall.outcome endpoint) s.ledger
        (some (paidBy endpoint caller value targetEids quote)) s.frames s'.frames := by
  obtain ⟨ctx, fees, refund, -, -, rfl, hvalue, rfl⟩ := broadcast_eq_ok hok
  rw [Hub.totalNativeFee_quotes] at hvalue
  refine ⟨Nat.le.intro hvalue, [], _, rfl, rfl, ?_⟩
  have hrefund : value - (targetEids.map fun eid => (quote eid).nativeFee).sum = refund := by omega
  simp [OpenCall.outcome, paidBy, hrefund]

/-- A broadcast that is still open after `during`, with no call open above it. -/
theorem broadcast_innermost {during : List LedgerAction} (hs : s.Sound l₀)
    (hopen : (s.step h (.broadcast caller value targetEids quote)).StaysOpen h s.frames.length
      during) :
    let s₂ := run (step h) (s.step h (.broadcast caller value targetEids quote)) during
    s₂.Sound l₀ ∧ (s₂.frames.length = s.frames.length + 1 →
      (targetEids.map fun eid => (quote eid).nativeFee).sum ≤ value
        ∧ ∃ k, s₂.frames = ⟨s.ledger, k⟩ :: s.frames
          ∧ k.outcome l₀.hub.endpoint
            = some (paidBy l₀.hub.endpoint caller value targetEids quote)) := by
  intro s₂
  have hlen : s.frames.length
      < (s.step h (.broadcast caller value targetEids quote)).frames.length := by
    cases during with
    | nil => exact hopen
    | cons a acts => exact hopen.1
  -- so the call was accepted
  rcases commit_cases s (s.exec h (.broadcast caller value targetEids quote)) with
    ⟨-, hsame⟩ | hok
  · rw [step, hsame] at hlen
    exact absurd hlen (lt_irrefl _)
  · obtain ⟨hle, hover⟩ := broadcast_opens l₀.hub.endpoint hok
    obtain ⟨hsound, hover⟩ := hopen.openOver (step_sound hs _) hover
    exact ⟨hsound, fun hlength => ⟨hle, hover.innermost hlength⟩⟩

/-- What finishes is a frame whose work is done. -/
theorem finish_eq_ok {l : Ledger} {k : OpenCall} {fs : List (Frame Ledger OpenCall)}
    {b : Broadcast} {endpoint : Address} (hframes : s.frames = ⟨l, k⟩ :: fs)
    (houtcome : k.outcome endpoint = some b) (hok : s.exec h .finish = .ok s') :
    s'.frames = fs ∧ s'.ledger.completed = s.ledger.completed ++ [b] := by
  simp only [exec, finish, hframes] at hok
  split at hok
  · rename_i checkpoint b' ctx fs' heq
    cases heq
    cases hok
    simp only [OpenCall.outcome, refundPayments, Option.some.injEq] at houtcome
    rw [← houtcome]
    simp
  · rename_i heq
    cases heq
    cases houtcome
  · cases hok

/-! ## A broadcast with nothing in between -/

section

variable (h) (l checkpoint : Ledger) (b : Broadcast) (ctx : BroadcastContext) (refund : ℕ)
  (fs : List (Frame Ledger OpenCall))

/-- All the sends of a broadcast, one after the other. -/
theorem run_sends {sends : List (ℕ × ℕ)} (hfees : ∀ x ∈ sends, x.2 ≤ b.value ∧ l.hub.peers x.1 ≠ 0)
    (hfunds : Hub.totalNativeFee sends ≤ l.hub.nativeBalance) :
    ∃ b', b'.caller = b.caller
      ∧ run (step h) ⟨l, ⟨checkpoint, .broadcast b ctx sends refund⟩ :: fs⟩
          (sends.map fun _ => .send)
        = ⟨l.spend ⟨l.hub.endpoint, Hub.totalNativeFee sends⟩,
          ⟨checkpoint, .broadcast b' ctx [] refund⟩ :: fs⟩ := by
  -- each send leaves the balance that the rest needs
  induction sends generalizing l b with
  | nil =>
    refine ⟨b, rfl, ?_⟩
    show _ = (⟨l.spend ⟨l.hub.endpoint, 0⟩, _⟩ : LedgerState)
    rw [Ledger.spend_zero]
    rfl
  | cons x sends ih =>
    obtain ⟨eid, fee⟩ := x
    obtain ⟨hfee, hpeer⟩ := hfees (eid, fee) List.mem_cons_self
    have htotal := Hub.totalNativeFee_cons eid fee sends
    rw [htotal] at hfunds
    have hsend := send_ok (h := h)
      (s := ⟨l, ⟨checkpoint, .broadcast b ctx ((eid, fee) :: sends) refund⟩ :: fs⟩)
      rfl hfee hpeer (Nat.le_of_add_right_le hfunds)
    have hrest : Hub.totalNativeFee sends ≤ l.hub.nativeBalance - fee := by omega
    obtain ⟨b', hcaller, hrun⟩ := ih (l.spend ⟨l.hub.endpoint, fee⟩)
      (b.paid ⟨l.hub.endpoint, fee⟩) (fun x hx => hfees x (List.mem_cons_of_mem _ hx)) hrest
    refine ⟨b', hcaller, ?_⟩
    rw [List.map_cons, run_cons, step, hsend, commit, hrun, htotal]
    exact congrArg (LedgerState.mk · _) (Ledger.spend_spend l _ _ _)

theorem step_refund (hfunds : refund ≤ l.hub.nativeBalance) :
    ∃ b', step h ⟨l, ⟨checkpoint, .broadcast b ctx [] refund⟩ :: fs⟩ .refund
      = ⟨l.spend ⟨b.caller, refund⟩, ⟨checkpoint, .broadcast b' ctx [] 0⟩ :: fs⟩ := by
  cases refund with
  | zero =>
    -- nothing to refund, and no call
    rw [Ledger.spend_zero]
    exact ⟨b, rfl⟩
  | succ refund =>
    rw [step, refund_ok rfl hfunds]
    exact ⟨_, rfl⟩

end

/-! ### Of registered targets, with enough value -/

section

variable {s : LedgerState}
  (hregistered : ∀ eid ∈ targetEids, s.ledger.hub.eidToPosition eid ≠ 0
    ∧ s.ledger.hub.peers eid ≠ 0 ∧ (quote eid).lzTokenFee = 0)
  (hvalue : (targetEids.map fun eid => (quote eid).nativeFee).sum ≤ value)
  (hmax : value ≤ uint256Max) (hbalance : value ≤ s.ledger.balance caller)
  (hseq : s.ledger.hub.aggSeq + 1 < 2 ^ 64)
include hregistered hvalue hmax hbalance hseq

/-- A broadcast to registered targets with enough value opens. -/
theorem broadcast_ok :
    ∃ ctx, s.exec h (.broadcast caller value targetEids quote)
      = .ok ⟨s.ledger.called caller value, ⟨s.ledger, .broadcast ⟨caller, value, []⟩ ctx
        (targetEids.map fun eid => (eid, (quote eid).nativeFee))
        (value - (targetEids.map fun eid => (quote eid).nativeFee).sum)⟩ :: s.frames⟩ := by
  have htotal := Hub.totalNativeFee_quotes quote targetEids
  have hcontext : ∃ ctx, s.ledger.hub.computeBroadcastContext h = .ok ctx
      ∧ ctx.nextAggSeq = s.ledger.hub.aggSeq + 1 :=
    ⟨_, bind_eq_ok.mpr ⟨(), require_of hseq, rfl⟩, rfl⟩
  obtain ⟨ctx, hctx, hnext⟩ := hcontext
  have hquote := Hub.quoteBroadcast_eq_ok.mpr ⟨hregistered, rfl⟩
  have hstart : s.ledger.hub.broadcastStart h value targetEids quote
      = .ok ((s.ledger.called caller value).hub, ctx,
        targetEids.map fun eid => (eid, (quote eid).nativeFee),
        value - (targetEids.map fun eid => (quote eid).nativeFee).sum) := by
    refine bind_eq_ok.mpr ⟨ctx, hctx, bind_eq_ok.mpr ⟨_, hquote, ?_⟩⟩
    rw [htotal]
    refine bind_eq_ok.mpr ⟨(), require_of (hvalue.trans hmax), ?_⟩
    refine bind_eq_ok.mpr ⟨(), require_of hvalue, ?_⟩
    rw [hnext]
    rfl
  refine ⟨ctx, bind_eq_ok.mpr ⟨(), require_of hbalance, ?_⟩⟩
  exact bind_eq_ok.mpr ⟨_, mapError_eq_ok.mpr hstart, rfl⟩

/-- So a broadcast that nobody interrupts pays every fee and refunds the rest. -/
theorem run_alone :
    let total := (targetEids.map fun eid => (quote eid).nativeFee).sum
    let l := ((s.ledger.called caller value).spend ⟨s.ledger.hub.endpoint, total⟩).spend
      ⟨caller, value - total⟩
    ∃ ctx b, run (step h) s
        (.broadcast caller value targetEids quote :: (targetEids.map fun _ => .send)
          ++ [.refund, .finish])
      = ⟨{ l with hub := l.hub.broadcastDone ctx, completed := l.completed ++ [b] }, s.frames⟩ := by
  intro total l
  obtain ⟨ctx, hopen⟩ := broadcast_ok (h := h) hregistered hvalue hmax hbalance hseq
  have htotal : Hub.totalNativeFee (targetEids.map fun eid => (eid, (quote eid).nativeFee))
      = total := Hub.totalNativeFee_quotes quote targetEids
  -- every quote is covered by the value, since the sum is
  have hfees : ∀ x ∈ targetEids.map fun eid => (eid, (quote eid).nativeFee),
      x.2 ≤ value ∧ s.ledger.hub.peers x.1 ≠ 0 := by
    intro x hx
    obtain ⟨eid, hmem, rfl⟩ := List.mem_map.mp hx
    have hle : (quote eid).nativeFee ≤ total :=
      List.single_le_sum (fun _ _ => Nat.zero_le _) _ (List.mem_map_of_mem hmem)
    exact ⟨hle.trans hvalue, (hregistered eid hmem).2.1⟩
  have hfunds : total ≤ s.ledger.hub.nativeBalance + value := hvalue.trans (Nat.le_add_left _ _)
  obtain ⟨b, hcaller, hsends⟩ := run_sends h (s.ledger.called caller value) s.ledger
    ⟨caller, value, []⟩ ctx (value - total) s.frames hfees (htotal.trans_le hfunds)
  simp only [List.map_map, Function.comp_def, htotal] at hsends
  have hrest : value - total ≤ s.ledger.hub.nativeBalance + value - total :=
    Nat.sub_le_sub_right (Nat.le_add_left _ _) _
  obtain ⟨b', hrefund⟩ := step_refund h
    ((s.ledger.called caller value).spend ⟨s.ledger.hub.endpoint, total⟩) s.ledger b ctx
    (value - total) s.frames hrest
  -- the call itself opens the frame
  have hfirst : s.step h (.broadcast caller value targetEids quote)
      = ⟨s.ledger.called caller value, ⟨s.ledger, .broadcast ⟨caller, value, []⟩ ctx
        (targetEids.map fun eid => (eid, (quote eid).nativeFee)) (value - total)⟩ :: s.frames⟩ := by
    rw [step, hopen, commit]
  refine ⟨ctx, b', ?_⟩
  rw [List.cons_append, run_cons, run_append, hfirst, hsends, run_cons]
  replace hcaller : b.caller = caller := hcaller
  rw [hcaller] at hrefund
  exact congrArg (run (step h) · [.finish]) hrefund

/-- **Net cost.** A broadcast of registered targets with enough value succeeds, and costs its caller
the quoted fees. -/
theorem broadcast_net_cost (hcaller : caller ≠ s.ledger.hub.endpoint) :
    let total := (targetEids.map fun eid => (quote eid).nativeFee).sum
    let s' := run (step h) s
      (.broadcast caller value targetEids quote :: (targetEids.map fun _ => .send)
        ++ [.refund, .finish])
    s'.frames = s.frames ∧ s'.ledger.hub.nativeBalance = s.ledger.hub.nativeBalance
      ∧ s'.ledger.hub.aggSeq = s.ledger.hub.aggSeq + 1 ∧ s'.ledger.hub.isUpToDate = true
      ∧ s'.ledger.balance caller + total = s.ledger.balance caller
      ∧ s'.ledger.balance s.ledger.hub.endpoint
        = s.ledger.balance s.ledger.hub.endpoint + total := by
  intro total s'
  obtain ⟨ctx, b, hrun⟩ := run_alone (h := h) hregistered hvalue hmax hbalance hseq
  rw [show s' = _ from hrun]
  refine ⟨rfl, ?_, rfl, rfl, ?_, ?_⟩
  · show s.ledger.hub.nativeBalance + value - total - (value - total) = s.ledger.hub.nativeBalance
    omega
  · simp only [Ledger.spend, Ledger.called, Function.update_self, Function.update_of_ne hcaller]
    omega
  · simp only [Ledger.spend, Ledger.called, Function.update_self,
      Function.update_of_ne hcaller.symm]
    rfl

end

end LedgerState

/-- **Broadcasts conserve native value**, whatever code runs while they are open. Over every
transaction the Hub keeps its balance, but for what is sent to it outright, and at every moment the
accounts and the Hub together have what they had: the endpoint and the caller are credited what the
Hub pays. A broadcast that returns
paid the endpoint the quoted fee of each target and its caller the rest of the value. One that
reverts, at once or after any nested calls, leaves everything as it was. -/
theorem broadcast_conserves_value (h : Hashes) (l₀ : Ledger) (before : List LedgerAction) :
    let s := run (LedgerState.step h) ⟨l₀, []⟩ before
    (s.frames = [] → s.ledger.hub.nativeBalance + l₀.donated
      = l₀.hub.nativeBalance + s.ledger.donated)
    ∧ s.ledger.total = l₀.total
    ∧ ∀ (caller : Address) (value : ℕ) (targetEids : List ℕ) (quote : ℕ → MessagingFee),
      let total := (targetEids.map fun eid => (quote eid).nativeFee).sum
      let s₁ := s.step h (.broadcast caller value targetEids quote)
      ((∃ eid ∈ targetEids, s.ledger.hub.eidToPosition eid = 0 ∨ (quote eid).lzTokenFee ≠ 0)
          ∨ value < total →
        (∃ e, s.exec h (.broadcast caller value targetEids quote) = .error e) ∧ s₁ = s)
      ∧ ∀ during, s₁.StaysOpen h s.frames.length during →
        let s₂ := run (LedgerState.step h) s₁ during
        s₂.frames.length = s.frames.length + 1 →
        (∀ s₃, s₂.exec h .finish = .ok s₃ →
          total ≤ value ∧ s₃.frames = s.frames
          ∧ s₃.ledger.completed = s₂.ledger.completed ++ [{
            caller := caller
            value := value
            payments := targetEids.map (fun eid =>
                ⟨s.ledger.hub.endpoint, (quote eid).nativeFee⟩)
              ++ refundPayments caller (value - total) }]
          ∧ s₃.ledger.hub.nativeBalance + s.ledger.donated
            = s.ledger.hub.nativeBalance + s₃.ledger.donated)
        ∧ s₂.exec h .revert = .ok s := by
  intro s
  have hs : s.Sound l₀ :=
    run_induction (LedgerState.initial_sound l₀) (fun s a hs => LedgerState.step_sound hs a) before
  have hendpoint : s.ledger.hub.endpoint = l₀.hub.endpoint := (Throughout.inv hs).endpoint
  refine ⟨?_, (Throughout.inv hs).total, ?_⟩
  · intro hclosed
    exact (LedgerState.initial_sound l₀).balance_eq hs hclosed
  intro caller value targetEids quote total s₁
  refine ⟨?_, ?_⟩
  · intro hbad
    obtain ⟨e, hrefused⟩ := LedgerState.broadcast_refused (h := h) caller hbad
    refine ⟨⟨e, hrefused⟩, ?_⟩
    show commit s (s.exec h _) = s
    rw [hrefused]
    rfl
  -- the frame that is still open is this one, with all that it has paid
  intro during hopen s₂ hlength
  obtain ⟨hs₂, hinnermost⟩ := LedgerState.broadcast_innermost hs hopen
  obtain ⟨hle, k, hframes, houtcome⟩ := hinnermost hlength
  refine ⟨?_, ?_⟩
  · intro s₃ hfinish
    obtain ⟨hframes₃, hcompleted⟩ := LedgerState.finish_eq_ok hframes houtcome hfinish
    have hs₃ : s₃.Sound l₀ := hs₂.move (LedgerState.exec_move hfinish)
    rw [hendpoint]
    exact ⟨hle, hframes₃, hcompleted, hs.balance_eq hs₃ hframes₃⟩
  · show s₂.revert = .ok s
    rw [LedgerState.revert, hframes]

namespace BroadcastExample

def ledger : Ledger := ⟨Hub.initial realHashes 1 9, fun _ => 100, 0, []⟩

def quote (eid : ℕ) : MessagingFee := ⟨if eid = 5 then 10 else 20, 0⟩

/-- Two endpoints are registered, and have peers. -/
def before : List LedgerAction :=
  [.enter (.registerToken 1 ⟨1, 5, 2, 3⟩), .enter (.setPeer 1 5 2),
    .enter (.registerToken 1 ⟨4, 6, 2, 3⟩), .enter (.setPeer 1 6 2)]

/-- The caller broadcasts again when it is refunded. -/
def during : List LedgerAction :=
  [.send, .send, .send, .refund, .broadcast 7 30 [6] quote, .send, .refund, .finish]

def opened : LedgerState :=
  (run (LedgerState.step realHashes) ⟨ledger, []⟩ before).step realHashes
    (.broadcast 7 50 [5, 6, 5] quote)

def reentered : LedgerState := run (LedgerState.step realHashes) opened during

/-- The broadcast of the example stays open while others enter. -/
theorem staysOpen : opened.StaysOpen realHashes 0 during := by decide +kernel

theorem finishes : ∃ s, reentered.exec realHashes .finish = .ok s := by
  have hok : (reentered.exec realHashes .finish).isOk = true := by decide +kernel
  revert hok
  generalize reentered.exec realHashes .finish = result
  intro hok
  cases result with
  | error e => cases hok
  | ok s => exact ⟨s, rfl⟩

end BroadcastExample

/-- A broadcast to three targets, two of them the same, whose caller re-enters. -/
theorem broadcast_conserves_reentered :
    ∃ s, BroadcastExample.reentered.exec realHashes .finish = .ok s
      ∧ s.frames.length = 0
      ∧ s.ledger.completed = [⟨7, 30, [⟨9, 20⟩, ⟨7, 10⟩]⟩,
        ⟨7, 50, [⟨9, 10⟩, ⟨9, 20⟩, ⟨9, 10⟩, ⟨7, 10⟩]⟩] := by
  obtain ⟨s, hfinish⟩ := BroadcastExample.finishes
  obtain ⟨-, -, hbroadcast⟩ := broadcast_conserves_value realHashes BroadcastExample.ledger
    BroadcastExample.before
  obtain ⟨-, hclosed⟩ := hbroadcast 7 50 [5, 6, 5] BroadcastExample.quote
  obtain ⟨hreturns, -⟩ := hclosed BroadcastExample.during BroadcastExample.staysOpen
    (by decide +kernel)
  obtain ⟨-, hframes, hcompleted, -⟩ := hreturns s hfinish
  refine ⟨s, hfinish, ?_, ?_⟩
  · rw [hframes]
    decide +kernel
  · refine hcompleted.trans ?_
    decide +kernel

end Zerc20
