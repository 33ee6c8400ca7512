import Zerc20.Contracts.Agreement

/-!
# What an action means for the Hub

The actions of the network, sorted by what they do to the Hub: most leave its leaves, its flag
and its log alone (`Unmoved`), four functions of the contract change them, and an open
`broadcast` starts, sends, refunds, finishes or reverts. The properties of the Hub are proved by
cases on `Move`, never on the actions.
-/

namespace Zerc20

open Machine

/-- Only the peers, the balance and the sequence number may differ. -/
structure Hub.Unmoved (u u' : Hub) : Prop where
  arrays : u'.arrays = u.arrays
  isUpToDate : u'.isUpToDate = u.isUpToDate
  log : u'.log = u.log
  zeroHash : u'.zeroHash = u.zeroHash

theorem Hub.Unmoved.refl (u : Hub) : u.Unmoved u := ⟨rfl, rfl, rfl, rfl⟩

section

variable {u u' : Hub} (hu : u.Unmoved u')
include hu

theorem Hub.Unmoved.roots : u'.transferRoots = u.transferRoots := congrArg (·.1) hu.arrays

theorem Hub.Unmoved.indices : u'.transferTreeIndices = u.transferTreeIndices :=
  congrArg (·.2.1) hu.arrays

theorem Hub.Unmoved.infos : u'.tokenInfos = u.tokenInfos := congrArg (·.2.2.1) hu.arrays

theorem Hub.Unmoved.position : u'.eidToPosition = u.eidToPosition := congrArg (·.2.2.2) hu.arrays

end

/-- The endpoint hands the message to the Hub. -/
def Deployment.AtHub (D : Deployment) (m : Message) : Prop :=
  m.dstEid = D.hubEid ∧ m.receiver = D.hubAddr.val

instance (D : Deployment) (m : Message) : Decidable (D.AtHub m) :=
  inferInstanceAs (Decidable (_ ∧ _))

/-- The action is the delivery of a message to the Hub. -/
def NetAction.IsHubDelivery (D : Deployment) : NetAction → Prop
  | .deliver m => D.AtHub m
  | _ => False

/-- The action opens or closes a call. -/
def NetAction.IsFraming : NetAction → Prop
  | .broadcast _ _ _ | .relay _ _ _ | .finish | .revert => True
  | _ => False

variable (h : Hashes) (d : ℕ → DeciderSets) (D : Deployment)

/-- What an accepted action did. -/
inductive Move (s : NetState) : NetAction → NetState → Prop where
  | quiet (a : NetAction) (w : World) (hhub : s.world.hub.Unmoved w.hub)
      (hsent : w.sent = s.world.sent) (hext : Extends s.world w)
      (hdelivery : ¬ a.IsHubDelivery D) (hframing : ¬ a.IsFraming) :
      Move s a ⟨w, s.frames⟩
  | register (sender : Address) (info : TokenInfo) (u : Hub)
      (hok : s.world.hub.registerToken sender info = .ok u) :
      Move s (.registerToken sender info) ⟨{ s.world with hub := u }, s.frames⟩
  | update (sender : Address) (info : TokenInfo) (u : Hub)
      (hok : s.world.hub.updateToken sender info = .ok u) :
      Move s (.updateToken sender info) ⟨{ s.world with hub := u }, s.frames⟩
  | receive (m : Message) (u : Hub) (hhub : D.AtHub m) (hsent : m ∈ s.world.sent)
      (hok : s.world.hub.lzReceive s.world.hub.endpoint m.srcEid m.sender m.payload = .ok u) :
      Move s (.deliver m) ⟨{ s.world with hub := u }, s.frames⟩
  | openBroadcast (value : ℕ) (targetEids : List ℕ) (quote : ℕ → MessagingFee) (u : Hub)
      (ctx : BroadcastContext) (fees : List (ℕ × ℕ)) (refund : ℕ)
      (hok : s.world.hub.broadcastStart h value targetEids quote = .ok (u, ctx, fees, refund)) :
      Move s (.broadcast value targetEids quote)
        ⟨{ s.world with hub := u, assigned := s.world.assigned ++ [⟨ctx, s.world.hub.eids⟩] },
          ⟨s.world, .broadcast ctx fees refund⟩ :: s.frames⟩
  | openRelay (eid value : ℕ) (quote : MessagingFee) (root index : ℕ) :
      Move s (.relay eid value quote)
        ⟨s.world, ⟨s.world, .relay eid root index value false⟩ :: s.frames⟩
  | hubSend (f : Frames.Frame World Pending) (fs : List (Frames.Frame World Pending))
      (ctx : BroadcastContext) (eid fee : ℕ) (sends : List (ℕ × ℕ)) (refund : ℕ) (w : World)
      (hframes : s.frames = f :: fs)
      (hcont : f.cont = .broadcast ctx ((eid, fee) :: sends) refund)
      (hok : s.world.hubSend D ctx eid fee = .ok w) :
      Move s .send ⟨w, ⟨f.checkpoint, .broadcast ctx sends refund⟩ :: fs⟩
  | verifierSend (f : Frames.Frame World Pending) (fs : List (Frames.Frame World Pending))
      (eid root index value : ℕ) (w : World) (hframes : s.frames = f :: fs)
      (hcont : f.cont = .relay eid root index value false)
      (hok : s.world.verifierSend eid root index value = .ok w) :
      Move s .send ⟨w, ⟨f.checkpoint, .relay eid root index value true⟩ :: fs⟩
  | refund (f : Frames.Frame World Pending) (fs : List (Frames.Frame World Pending))
      (ctx : BroadcastContext) (amount : ℕ) (hframes : s.frames = f :: fs)
      (hcont : f.cont = .broadcast ctx [] (amount + 1)) :
      Move s .refund ⟨{ s.world with hub := { s.world.hub with
        nativeBalance := s.world.hub.nativeBalance - (amount + 1) } },
        ⟨f.checkpoint, .broadcast ctx [] 0⟩ :: fs⟩
  | finishBroadcast (f : Frames.Frame World Pending) (fs : List (Frames.Frame World Pending))
      (ctx : BroadcastContext) (hframes : s.frames = f :: fs)
      (hcont : f.cont = .broadcast ctx [] 0) :
      Move s .finish ⟨{ s.world with hub := s.world.hub.broadcastDone ctx }, fs⟩
  | finishRelay (f : Frames.Frame World Pending) (fs : List (Frames.Frame World Pending))
      (eid root index value : ℕ) (w : World) (hframes : s.frames = f :: fs)
      (hcont : f.cont = .relay eid root index value true) (hhub : w.hub = s.world.hub)
      (hsent : w.sent = s.world.sent) (hext : Extends s.world w) :
      Move s .finish ⟨w, fs⟩
  | revert (f : Frames.Frame World Pending) (fs : List (Frames.Frame World Pending))
      (hframes : s.frames = f :: fs) : Move s .revert ⟨f.checkpoint, fs⟩

variable {h d D} {s s' : NetState} {w w' : World}

/-- A step within a frame opens and ends none. -/
theorem NetState.within_eq_ok {r : Except NetError World} (hok : s.within r = .ok s') :
    ∃ w, r = .ok w ∧ s' = ⟨w, s.frames⟩ := by
  obtain ⟨w, hw, hret⟩ := bind_eq_ok.mp hok
  exact ⟨w, hw, (Except.ok.inj hret).symm⟩

theorem World.withHub_eq_ok {r : Except HubError Hub} (hok : w.withHub r = .ok w') :
    ∃ u, r = .ok u ∧ w' = { w with hub := u } := by
  obtain ⟨u, hu, hret⟩ := bind_eq_ok.mp hok
  exact ⟨u, liftHub_eq_ok.mp hu, (Except.ok.inj hret).symm⟩

theorem NetState.withinHub_eq_ok {r : Except HubError Hub}
    (hok : s.within (s.world.withHub r) = .ok s') :
    ∃ u, r = .ok u ∧ s' = ⟨{ s.world with hub := u }, s.frames⟩ := by
  obtain ⟨w, hw, rfl⟩ := within_eq_ok hok
  obtain ⟨u, hu, rfl⟩ := World.withHub_eq_ok hw
  exact ⟨u, hu, rfl⟩

/-- The innermost frame goes on with what is left of its call. -/
theorem NetState.resume_eq_ok {r : Except NetError World} {f : Frames.Frame World Pending}
    {k : Pending} {fs : List (Frames.Frame World Pending)}
    (hok : NetState.resume r f k fs = .ok s') :
    ∃ w, r = .ok w ∧ s' = ⟨w, ⟨f.checkpoint, k⟩ :: fs⟩ := by
  obtain ⟨w, hw, hret⟩ := bind_eq_ok.mp hok
  exact ⟨w, hw, (Except.ok.inj hret).symm⟩

/-- A transaction of one chain is nothing to the Hub. -/
theorem World.chain_quiet {eid : ℕ} {a : ChainAction} (hok : w.chain h d eid a = .ok w') :
    w'.hub = w.hub ∧ w'.sent = w.sent ∧ Extends w w' := by
  obtain ⟨c, hc, hret⟩ := bind_eq_ok.mp hok
  cases hret
  replace hc := liftChain_eq_ok.mp hc
  have hstep : (w.chains eid).step h (d eid) a = c := by rw [Chain.step, hc, commit]
  refine ⟨rfl, rfl, fun _ ha => ha, persists_update fun i hne => ?_⟩
  rw [← hstep]
  exact Chain.step_proved_persist h (d eid) _ a hne

/-- A message the Hub accepts was sent by the Verifier behind its source. -/
theorem NetInv.received {m : Message} {u : Hub} (hinv : NetInv h D w)
    (hm : m ∈ w.sent ∨ D.Foreign m)
    (hok : w.hub.lzReceive w.hub.endpoint m.srcEid m.sender m.payload = .ok u) : m ∈ w.sent := by
  obtain ⟨hne, hpeer, -⟩ := Hub.lzReceive_eq_ok hok
  refine hm.resolve_right fun hforeign => hforeign.2 ?_
  rw [← hpeer]
  exact (hinv.hub.peers m.srcEid).resolve_left hne

/-- Every step of the network that succeeds is one of the moves. -/
theorem NetState.exec_move {a : NetAction} (hs : s.Inv h D) (hok : s.exec h d D a = .ok s') :
    Move h D s a s' := by
  have hinv : NetInv h D s.world := Frames.Valid.inv hs
  cases a with
  | setHubPeer sender eid peer =>
    obtain ⟨_, -, hok⟩ := bind_eq_ok.mp hok
    obtain ⟨u, hu, rfl⟩ := withinHub_eq_ok hok
    obtain rfl := Hub.setPeer_eq_ok hu
    exact .quiet _ _ ⟨rfl, rfl, rfl, rfl⟩ rfl (extends_setHub _) id id
  | registerToken sender info =>
    obtain ⟨u, hu, rfl⟩ := withinHub_eq_ok hok
    exact .register sender info u hu
  | updateToken sender info =>
    obtain ⟨u, hu, rfl⟩ := withinHub_eq_ok hok
    exact .update sender info u hu
  -- the endpoint refuses every sender but itself
  | hubReceive sender srcEid originSender payload =>
    obtain ⟨_, hsender, hok⟩ := bind_eq_ok.mp hok
    obtain ⟨u, hu, -⟩ := withinHub_eq_ok hok
    obtain ⟨_, hendpoint, -⟩ := bind_eq_ok.mp hu
    exact absurd (require_eq_ok.mp hendpoint).symm (require_eq_ok.mp hsender)
  | forceHubNative value =>
    obtain ⟨u, hu, rfl⟩ := withinHub_eq_ok hok
    cases hu
    exact .quiet _ _ ⟨rfl, rfl, rfl, rfl⟩ rfl (extends_setHub _) id id
  | chain eid a =>
    obtain ⟨_, -, hok⟩ := bind_eq_ok.mp hok
    obtain ⟨w, hw, rfl⟩ := within_eq_ok hok
    obtain ⟨hhub, hsent, hext⟩ := World.chain_quiet hw
    exact .quiet _ w (hhub ▸ Hub.Unmoved.refl _) hsent hext id id
  | deliver m =>
    obtain ⟨_, hm, hok⟩ := bind_eq_ok.mp hok
    obtain ⟨w, hw, rfl⟩ := within_eq_ok hok
    -- the Hub's messages, and those of a registered chain
    unfold World.deliver at hw
    split at hw
    · rename_i hhub
      obtain ⟨u, hu, rfl⟩ := World.withHub_eq_ok hw
      exact .receive m u hhub (hinv.received (require_eq_ok.mp hm) hu) hu
    · rename_i hhub
      split at hw
      · obtain ⟨hsame, hsent, hext⟩ := World.chain_quiet hw
        exact .quiet _ w (hsame ▸ Hub.Unmoved.refl _) hsent hext hhub id
      · cases hw
  | broadcast value targetEids quote =>
    obtain ⟨⟨u, ctx, fees, refund⟩, hstart, hret⟩ := bind_eq_ok.mp hok
    cases hret
    exact .openBroadcast value targetEids quote u ctx fees refund (liftHub_eq_ok.mp hstart)
  | relay eid value quote =>
    obtain ⟨⟨root, index⟩, -, hrest⟩ := bind_eq_ok.mp hok
    simp only [bind_eq_ok, require_eq_ok, exists_const] at hrest
    obtain ⟨-, -, hret⟩ := hrest
    cases hret
    exact .openRelay eid value quote root index
  | send =>
    simp only [exec, send] at hok
    split at hok
    · rename_i f fs hframes
      split at hok
      · rename_i ctx eid fee sends refund hcont
        obtain ⟨w, hw, rfl⟩ := resume_eq_ok hok
        exact .hubSend f fs ctx eid fee sends refund w hframes hcont hw
      · rename_i eid root index value hcont
        obtain ⟨w, hw, rfl⟩ := resume_eq_ok hok
        exact .verifierSend f fs eid root index value w hframes hcont hw
      · cases hok
    · cases hok
  | refund =>
    simp only [exec, refund] at hok
    split at hok
    · rename_i f fs hframes
      split at hok
      · rename_i ctx amount hcont
        simp only [bind_eq_ok, require_eq_ok, exists_const] at hok
        obtain ⟨w, hw, rfl⟩ := resume_eq_ok hok.2
        cases hw
        exact .refund f fs ctx amount hframes hcont
      · cases hok
    · cases hok
  | finish =>
    simp only [exec, finish] at hok
    split at hok
    · rename_i f fs hframes
      split at hok
      · rename_i ctx hcont
        cases hok
        exact .finishBroadcast f fs ctx hframes hcont
      · rename_i eid root index value hcont
        cases hok
        -- a relay ends by writing its event, the Hub is not touched
        exact .finishRelay f fs eid root index value _ hframes hcont rfl rfl
          ⟨fun _ ha => ha, persists_update fun _ _ => rfl⟩
      · cases hok
    · cases hok
  | revert =>
    simp only [exec, revert] at hok
    split at hok
    · rename_i f fs hframes
      cases hok
      exact .revert f fs hframes
    · cases hok

/-- A step is refused and changes nothing, or it is a move. -/
theorem NetState.step_move (hs : s.Inv h D) (a : NetAction) :
    ((∃ e, s.exec h d D a = .error e) ∧ s.step h d D a = s)
      ∨ s.exec h d D a = .ok (s.step h d D a) ∧ Move h D s a (s.step h d D a) := by
  rcases commit_cases s (s.exec h d D a) with hrefused | hok
  · exact Or.inl hrefused
  · exact Or.inr ⟨hok, exec_move hs hok⟩

/-- A send of the Hub puts one message on its way, to a chain with a peer. -/
theorem World.hubSend_eq_ok {ctx : BroadcastContext} {eid fee : ℕ}
    (hok : w.hubSend D ctx eid fee = .ok w') :
    w.hub.Unmoved w'.hub ∧ Extends w w' ∧ w.hub.peers eid ≠ 0
      ∧ w'.sent = w.sent ++ [{
        srcEid := D.hubEid
        sender := toWord D.hubAddr.val
        dstEid := eid
        receiver := w.hub.peers eid
        payload := (toWord ctx.aggregationRoot, toWord ctx.nextAggSeq)
        nativeFee := fee }] := by
  simp only [World.hubSend, bind_eq_ok, require_eq_ok, exists_const] at hok
  obtain ⟨hpeer, -, hret⟩ := hok
  cases hret
  exact ⟨⟨rfl, rfl, rfl, rfl⟩, ⟨fun _ ha => ha, fun _ _ _ => rfl⟩, hpeer, rfl⟩

theorem World.verifierSend_eq_ok {eid root index value : ℕ}
    (hok : w.verifierSend eid root index value = .ok w') :
    w'.hub = w.hub ∧ Extends w w'
      ∧ ∃ m, m.payload.2 = toWord index ∧ w'.sent = w.sent ++ [m] := by
  simp only [World.verifierSend, bind_eq_ok, require_eq_ok, exists_const] at hok
  obtain ⟨-, hret⟩ := hok
  cases hret
  exact ⟨rfl, ⟨fun _ ha => ha, fun _ _ _ => rfl⟩, _, rfl, rfl⟩

/-- What one call does to the Hub. -/
inductive HubMove (u u' : Hub) : Prop where
  | unmoved (hu : u.Unmoved u')
  | register (sender : Address) (info : TokenInfo) (hok : u.registerToken sender info = .ok u')
  | update (sender : Address) (info : TokenInfo) (hok : u.updateToken sender info = .ok u')
  | receive (sender : Address) (srcEid : ℕ) (originSender : Word) (payload : Payload)
      (hok : u.lzReceive sender srcEid originSender payload = .ok u')
  | done (ctx : BroadcastContext) (hdone : u' = u.broadcastDone ctx)

/-- Only a revert takes the Hub back. -/
theorem Move.hubMove {a : NetAction} (hmove : Move h D s a s') (ha : a ≠ .revert) :
    HubMove s.world.hub s'.world.hub := by
  cases hmove with
  | quiet a w hhub => exact .unmoved hhub
  | register sender info u hok => exact .register sender info hok
  | update sender info u hok => exact .update sender info hok
  | receive m u hhub hsent hok => exact .receive _ _ _ _ hok
  | openBroadcast value targetEids quote u ctx fees refund hok =>
    obtain ⟨-, -, -, -, rfl⟩ := Hub.broadcastStart_eq_ok hok
    exact .unmoved ⟨rfl, rfl, rfl, rfl⟩
  | openRelay => exact .unmoved (Hub.Unmoved.refl _)
  | hubSend f fs ctx eid fee sends refund w hframes hcont hok =>
    exact .unmoved (World.hubSend_eq_ok hok).1
  | verifierSend f fs eid root index value w hframes hcont hok =>
    exact .unmoved ((World.verifierSend_eq_ok hok).1 ▸ Hub.Unmoved.refl _)
  | refund => exact .unmoved ⟨rfl, rfl, rfl, rfl⟩
  | finishBroadcast f fs ctx => exact .done ctx rfl
  | finishRelay f fs eid root index value w hframes hcont hhub =>
    exact .unmoved (hhub ▸ Hub.Unmoved.refl _)
  | revert => exact absurd rfl ha

end Zerc20
