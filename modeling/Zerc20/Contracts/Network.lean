import Zerc20.Contracts.Chain
import Zerc20.Contracts.Hub
import Zerc20.Lib.Frames

/-!
# The Hub, the Verifiers and LayerZero

One Hub and a chain behind every LayerZero endpoint id. LayerZero is the list `sent` of the
messages handed to an endpoint: a message that is in it may be delivered at any time, in any
order and any number of times, and a contract is handed no message of a configured peer that
the peer did not send.

`broadcast` and `relayTransferRoot` hand control to the endpoint, and `broadcast` also to the
caller that is refunded. Each is therefore an open frame (`Zerc20.Lib.Frames`) that moves on by
the actions `send`, `refund`, `finish` and `revert`; every other action, a further `broadcast`
included, may come in between. A frame checkpoints the whole world. The transactions of one
chain are atomic for the others, so an action on another chain that happens meanwhile can be
taken before or after the frame instead, and no run of the contracts is lost.

The owners set a peer only to the contract it stands for, or to zero.

`assigned` is a ghost: the broadcasts that were assigned a sequence number, each with the
endpoints of its leaves.
-/

namespace Zerc20

open Machine

/-- Where the contracts behind one endpoint id are. -/
structure Site where
  chainId : ℕ
  owner : Address
  endpoint : Address
  verifierAddr : Address
  minterAddr : Address
  tokenAddress : Address
  verifiers : Verifiers
  underlying : Address → ℕ

structure Deployment where
  hubEid : ℕ
  hubAddr : Address
  hubOwner : Address
  hubEndpoint : Address
  site : ℕ → Site
  /-- The Hub is not the Verifier of its own chain. -/
  hubAddr_ne : (site hubEid).verifierAddr ≠ hubAddr

structure Message where
  srcEid : ℕ
  sender : Word
  dstEid : ℕ
  receiver : ℕ
  payload : Payload
  nativeFee : ℕ
  deriving DecidableEq

structure Assignment where
  ctx : BroadcastContext
  eids : List ℕ
  deriving DecidableEq

structure World where
  hub : Hub
  chains : ℕ → Chain
  sent : List Message
  assigned : List Assignment

/-- What an open call has left to do. -/
inductive Pending where
  | broadcast (ctx : BroadcastContext) (sends : List (ℕ × ℕ)) (refund : ℕ)
  | relay (eid root index value : ℕ) (sent : Bool)
  deriving DecidableEq

structure NetState where
  world : World
  frames : List (Frames.Frame World Pending)

inductive NetError where
  | hub (e : HubError)
  | chain (e : ChainError)
  | notDelivered
  | notLocal
  | noSuchCall
  deriving DecidableEq

inductive NetAction where
  | setHubPeer (sender : Address) (eid : ℕ) (peer : Word)
  | registerToken (sender : Address) (info : TokenInfo)
  | updateToken (sender : Address) (info : TokenInfo)
  | hubReceive (sender : Address) (srcEid : ℕ) (originSender : Word) (payload : Payload)
  | forceHubNative (value : ℕ)
  | chain (eid : ℕ) (a : ChainAction)
  | deliver (m : Message)
  | broadcast (value : ℕ) (targetEids : List ℕ) (quote : ℕ → MessagingFee)
  | relay (eid value : ℕ) (quote : MessagingFee)
  | send
  | refund
  | finish
  | revert

/-- `bytes32(uint256(x))`. -/
def toWord (x : ℕ) : Word := ⟨x % 2 ^ 256, Nat.mod_lt _ (Nat.two_pow_pos 256)⟩

theorem toWord_val {x : ℕ} (hx : x < 2 ^ 256) : (toWord x).val = x := Nat.mod_eq_of_lt hx

namespace Deployment

variable (h : Hashes) (d : ℕ → DeciderSets) (D : Deployment)

def verifierAddr (eid : ℕ) : Address := (D.site eid).verifierAddr

def initialChain (eid : ℕ) : Chain :=
  let x := D.site eid
  Chain.initial x.chainId x.owner x.endpoint x.verifierAddr x.minterAddr x.tokenAddress D.hubEid
    x.verifiers x.underlying

def initial : NetState where
  world := {
    hub := Hub.initial h D.hubOwner D.hubEndpoint
    chains := D.initialChain
    sent := []
    assigned := [] }
  frames := []

/-- The sender is neither the Hub nor a Verifier. -/
def Foreign (m : Message) : Prop :=
  ¬ (m.srcEid = D.hubEid ∧ m.sender.val = D.hubAddr.val)
    ∧ m.sender.val ≠ (D.verifierAddr m.srcEid).val

instance (m : Message) : Decidable (D.Foreign m) :=
  inferInstanceAs (Decidable (_ ∧ _))

/-- The transactions of one chain that involve no message: `relayTransferRoot` and the calls of
the endpoint have actions of their own. -/
def Local (c : Chain) : ChainAction → Prop
  | .relayTransferRoot => False
  | .lzReceive sender _ _ _ => sender ≠ c.verifier.endpoint
  | .setPeer _ eid peer => eid = D.hubEid → peer.val = 0 ∨ peer.val = D.hubAddr.val
  | _ => True

instance (c : Chain) : (a : ChainAction) → Decidable (D.Local c a)
  | .relayTransferRoot => inferInstanceAs (Decidable False)
  | .lzReceive _ _ _ _ => inferInstanceAs (Decidable (_ ≠ _))
  | .setPeer _ _ _ => inferInstanceAs (Decidable (_ → _))
  | .token _ | .reserveHashChain | .proveTransferRoot _ | .teleport _ _ _ _
  | .singleTeleport _ _ _ _ | .activateEmergency _ | .deactivateEmergency _ | .setVerifiers _ _
  | .transferOwnership _ _ | .renounceOwnership _
  | .depositNative _ _ | .depositToken _ _ | .withdrawNative _ _ _ | .withdrawToken _ _
  | .underlyingTransfer _ _ _ | .forceNative _ => inferInstanceAs (Decidable True)

def liftHub {α : Type} (r : Except HubError α) : Except NetError α := r.mapError .hub

def liftChain {α : Type} (r : Except ChainError α) : Except NetError α := r.mapError .chain

end Deployment

namespace World

variable (h : Hashes) (d : ℕ → DeciderSets) (D : Deployment)

def withHub (w : World) (r : Except HubError Hub) : Except NetError World := do
  let u ← Deployment.liftHub r
  return { w with hub := u }

def chain (w : World) (eid : ℕ) (a : ChainAction) : Except NetError World := do
  let c ← Deployment.liftChain ((w.chains eid).exec h (d eid) a)
  return { w with chains := Function.update w.chains eid c }

/-- The endpoint of the destination calls `lzReceive` of the receiver. -/
def deliver (w : World) (m : Message) : Except NetError World :=
  if m.dstEid = D.hubEid ∧ m.receiver = D.hubAddr.val then
    w.withHub (w.hub.lzReceive w.hub.endpoint m.srcEid m.sender m.payload)
  else if m.receiver = (w.chains m.dstEid).verifierAddr.val then
    w.chain h d m.dstEid
      (.lzReceive (w.chains m.dstEid).verifier.endpoint m.srcEid m.sender m.payload)
  else .error .notDelivered

/-- `_lzSend` of the Hub to one target. -/
def hubSend (w : World) (ctx : BroadcastContext) (eid fee : ℕ) : Except NetError World := do
  require (w.hub.peers eid ≠ 0) (.hub (.noPeer eid))
  require (fee ≤ w.hub.nativeBalance) (.hub (.reverted "out of funds"))
  return { w with
    hub := { w.hub with nativeBalance := w.hub.nativeBalance - fee }
    sent := w.sent ++ [{
      srcEid := D.hubEid
      sender := toWord D.hubAddr.val
      dstEid := eid
      receiver := w.hub.peers eid
      payload := (toWord ctx.aggregationRoot, toWord ctx.nextAggSeq)
      nativeFee := fee }] }

/-- `_lzSend` of the Verifier behind `eid`. -/
def verifierSend (w : World) (eid root index value : ℕ) : Except NetError World := do
  let c := w.chains eid
  require (c.verifier.peers c.verifier.hubEid ≠ 0)
    (.chain (.verifier (.noPeer c.verifier.hubEid)))
  return { w with
    sent := w.sent ++ [{
      srcEid := eid
      sender := toWord c.verifierAddr.val
      dstEid := c.verifier.hubEid
      receiver := c.verifier.peers c.verifier.hubEid
      payload := (toWord root, toWord index)
      nativeFee := value }] }

end World

namespace NetState

variable (h : Hashes) (d : ℕ → DeciderSets) (D : Deployment)

/-- An action inside the innermost open call. -/
def within (s : NetState) (r : Except NetError World) : Except NetError NetState := do
  let w ← r
  return { s with world := w }

/-- The innermost call goes on to `k`, in the world `r`. -/
def resume (r : Except NetError World) (f : Frames.Frame World Pending) (k : Pending)
    (fs : List (Frames.Frame World Pending)) : Except NetError NetState := do
  let w ← r
  return ⟨w, ⟨f.checkpoint, k⟩ :: fs⟩

def send (s : NetState) : Except NetError NetState :=
  match s.frames with
  | f :: fs =>
    match f.cont with
    | .broadcast ctx ((eid, fee) :: sends) refund =>
      resume (s.world.hubSend D ctx eid fee) f (.broadcast ctx sends refund) fs
    | .relay eid root index value false =>
      resume (s.world.verifierSend eid root index value) f (.relay eid root index value true) fs
    | _ => .error .noSuchCall
  | [] => .error .noSuchCall

/-- The call to `msg.sender` with the rest of the value; a call that fails is a `revert`. -/
def refund (s : NetState) : Except NetError NetState :=
  match s.frames with
  | f :: fs =>
    match f.cont with
    | .broadcast ctx [] (refund + 1) => do
      let u := s.world.hub
      require (refund + 1 ≤ u.nativeBalance) (.hub (.reverted "out of funds"))
      let u := { u with nativeBalance := u.nativeBalance - (refund + 1) }
      resume (.ok { s.world with hub := u }) f (.broadcast ctx [] 0) fs
    | _ => .error .noSuchCall
  | [] => .error .noSuchCall

def finish (s : NetState) : Except NetError NetState :=
  match s.frames with
  | f :: fs =>
    match f.cont with
    | .broadcast ctx [] 0 =>
      .ok ⟨{ s.world with hub := s.world.hub.broadcastDone ctx }, fs⟩
    | .relay eid root index _ true =>
      let c := s.world.chains eid
      let c := { c with verifier := c.verifier.relayDone root index }
      .ok ⟨{ s.world with chains := Function.update s.world.chains eid c }, fs⟩
    | _ => .error .noSuchCall
  | [] => .error .noSuchCall

def revert (s : NetState) : Except NetError NetState :=
  match s.frames with
  | f :: fs => .ok ⟨f.checkpoint, fs⟩
  | [] => .error .noSuchCall

/-- `broadcast` up to the first call that leaves the Hub. -/
def broadcast (s : NetState) (value : ℕ) (targetEids : List ℕ) (quote : ℕ → MessagingFee) :
    Except NetError NetState := do
  let (u, ctx, fees, refund) ←
    Deployment.liftHub (s.world.hub.broadcastStart h value targetEids quote)
  let a : Assignment := ⟨ctx, s.world.hub.tokenInfos.map TokenInfo.eid⟩
  return ⟨{ s.world with hub := u, assigned := s.world.assigned ++ [a] },
    ⟨s.world, .broadcast ctx fees refund⟩ :: s.frames⟩

/-- `relayTransferRoot` up to the call of the endpoint. -/
def relay (s : NetState) (eid value : ℕ) (quote : MessagingFee) : Except NetError NetState := do
  let v := (s.world.chains eid).verifier
  let (root, index) ← Deployment.liftChain (Chain.liftVerifier v.relayPayload)
  require (v.peers v.hubEid ≠ 0) (.chain (.verifier (.noPeer v.hubEid)))
  require (quote.nativeFee ≤ value)
    (.chain (.verifier (.insufficientMsgValue quote.nativeFee value)))
  return ⟨s.world, ⟨s.world, .relay eid root index value false⟩ :: s.frames⟩

def exec (s : NetState) : NetAction → Except NetError NetState
  | .setHubPeer sender eid peer => do
    require (peer.val = 0 ∨ peer.val = (D.verifierAddr eid).val) .notLocal
    s.within (s.world.withHub (s.world.hub.setPeer sender eid peer))
  | .registerToken sender info =>
    s.within (s.world.withHub (s.world.hub.registerToken sender info))
  | .updateToken sender info => s.within (s.world.withHub (s.world.hub.updateToken sender info))
  | .hubReceive sender srcEid originSender payload => do
    require (sender ≠ s.world.hub.endpoint) .notLocal
    s.within (s.world.withHub (s.world.hub.lzReceive sender srcEid originSender payload))
  | .forceHubNative value =>
    s.within (s.world.withHub
      (.ok { s.world.hub with nativeBalance := s.world.hub.nativeBalance + value }))
  | .chain eid a => do
    require (D.Local (s.world.chains eid) a) .notLocal
    s.within (s.world.chain h d eid a)
  | .deliver m => do
    require (m ∈ s.world.sent ∨ D.Foreign m) .notDelivered
    s.within (s.world.deliver h d D m)
  | .broadcast value targetEids quote => s.broadcast h value targetEids quote
  | .relay eid value quote => s.relay eid value quote
  | .send => s.send D
  | .refund => s.refund
  | .finish => s.finish
  | .revert => s.revert

def step (s : NetState) (a : NetAction) : NetState := commit s (s.exec h d D a)

end NetState

end Zerc20
