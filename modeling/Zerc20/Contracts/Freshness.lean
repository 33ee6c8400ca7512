import Zerc20.Contracts.Convergence
import Zerc20.Contracts.ProvedRoots

/-!
# The freshness flag of the Hub

`isUpToDate` should say that the leaves are those of the last broadcast. `broadcast` takes its
snapshot before it calls the endpoint and the refunded caller, and sets the flag after: a leaf
that changes in between is masked. The flag is right in every run in which no broadcast that
completes saw a leaf change while it was open (`Undisturbed`).

The argument compares a world with an earlier one by the log: the leaves can only have changed
if an event since then says so (`Logged`).
-/

namespace Zerc20

open Machine

/-! ## What the log says -/

/-- The event records a change of the leaves. -/
def HubEvent.MovesLeaves : HubEvent → Prop
  | .tokenRegistered _ _ | .transferRootUpdated _ _ _ => True
  | _ => False

instance : (e : HubEvent) → Decidable e.MovesLeaves
  | .tokenRegistered _ _ | .transferRootUpdated _ _ _ => isTrue trivial
  | .tokenUpdated _ _ | .aggregationRootUpdated _ => isFalse id

def HubEvent.broadcast? : HubEvent → Option BroadcastContext
  | .aggregationRootUpdated ctx => some ctx
  | _ => none

namespace Hub

/-- The last broadcast that completed. -/
def lastBroadcast (u : Hub) : Option BroadcastContext := u.log.reverse.findSome? HubEvent.broadcast?

/-- The flag tells the truth: the leaves are the snapshot of the last broadcast, or nothing was
registered or received yet. -/
def Fresh (u : Hub) : Prop :=
  u.isUpToDate = true →
    (∃ ctx ∈ u.lastBroadcast, u.transferRoots = ctx.snapshot
      ∧ u.transferTreeIndices = ctx.transferTreeIndicesSnapshot)
    ∨ ∀ e ∈ u.log, ¬ e.MovesLeaves

instance (u : Hub) : Decidable u.Fresh := inferInstanceAs (Decidable (_ → _ ∨ _))

/-- What `u'` logged after `u`. -/
def since (u u' : Hub) : List HubEvent := u'.log.drop u.log.length

/-- `u'` is later than `u`, and its log tells if the leaves changed. -/
structure Logged (u u' : Hub) : Prop where
  log : u.log <+: u'.log
  leaves : (∀ e ∈ u.since u', ¬ e.MovesLeaves) →
    u'.transferRoots = u.transferRoots ∧ u'.transferTreeIndices = u.transferTreeIndices

variable {u u' : Hub}

theorem Logged.trans (a b c : Hub) (hab : Logged a b) (hbc : Logged b c) : Logged a c := by
  refine ⟨hab.log.trans hbc.log, ?_⟩
  obtain ⟨xs, hxs⟩ := hab.log
  obtain ⟨ys, hys⟩ := hbc.log
  have hac : a.since c = a.since b ++ b.since c := by
    simp only [since, ← hys, ← hxs, List.append_assoc, List.drop_left]
    rw [← List.append_assoc, List.drop_left]
  rw [hac]
  intro hnone
  obtain ⟨hroots, hindices⟩ := hab.leaves fun e he => hnone e (List.mem_append_left _ he)
  obtain ⟨hroots', hindices'⟩ := hbc.leaves fun e he => hnone e (List.mem_append_right _ he)
  exact ⟨hroots'.trans hroots, hindices'.trans hindices⟩

/-- A Hub that does not move logs nothing. -/
theorem Unmoved.logged (hu : u.Unmoved u') : Logged u u' :=
  ⟨hu.log ▸ List.prefix_refl _, fun _ => ⟨hu.roots, hu.indices⟩⟩

theorem Unmoved.fresh (hu : u.Unmoved u') (hfresh : u.Fresh) : u'.Fresh := by
  unfold Fresh lastBroadcast
  rw [hu.log, hu.isUpToDate, hu.roots, hu.indices]
  exact hfresh

theorem fresh_of_stale (hstale : u.isUpToDate = false) : u.Fresh := by
  intro htrue
  rw [hstale] at htrue
  cases htrue

/-- What was logged since is the new event. -/
theorem since_concat {e : HubEvent} (hlog : u'.log = u.log ++ [e]) : u.since u' = [e] := by
  rw [since, hlog, List.drop_left]

/-- The last broadcast is the new event, if it is one. -/
theorem lastBroadcast_concat {e : HubEvent} (hlog : u'.log = u.log ++ [e]) :
    u'.lastBroadcast = e.broadcast?.or u.lastBroadcast := by
  unfold lastBroadcast
  rw [hlog, List.reverse_append, List.reverse_singleton, List.singleton_append,
    List.findSome?_cons]
  cases e.broadcast? <;> rfl

/-- A change of the leaves that is logged. -/
theorem logged_of_moved {e : HubEvent} (hlog : u'.log = u.log ++ [e]) (he : e.MovesLeaves) :
    Logged u u' := by
  refine ⟨hlog ▸ List.prefix_append _ _, ?_⟩
  rw [since_concat hlog]
  intro hnone
  exact absurd he (hnone e (List.mem_singleton_self e))

/-- `registerToken` logs its event and takes the flag down. -/
theorem registerToken_logged {sender : Address} {info : TokenInfo}
    (hok : u.registerToken sender info = .ok u') : Logged u u' ∧ u'.Fresh := by
  obtain ⟨-, -, rfl⟩ := registerToken_eq_ok hok
  exact ⟨logged_of_moved rfl trivial, fresh_of_stale rfl⟩

/-- `updateToken` logs its event and changes no root. -/
theorem updateToken_logged {sender : Address} {info : TokenInfo} (hfresh : u.Fresh)
    (hok : u.updateToken sender info = .ok u') : Logged u u' ∧ u'.Fresh := by
  obtain ⟨-, rfl⟩ := updateToken_eq_ok hok
  refine ⟨⟨List.prefix_append _ _, fun _ => ⟨rfl, rfl⟩⟩, ?_⟩
  intro htrue
  rcases hfresh htrue with ⟨ctx, hctx, hleaves⟩ | hnone
  · refine Or.inl ⟨ctx, ?_, hleaves⟩
    rw [lastBroadcast_concat rfl]
    exact hctx
  · refine Or.inr fun e he => ?_
    rcases List.mem_append.mp he with he | he
    · exact hnone e he
    · rw [List.mem_singleton.mp he]
      exact id

/-- A delivery takes the flag down when it changes a leaf. -/
theorem lzReceive_logged {sender : Address} {srcEid : ℕ} {originSender : Word}
    {payload : Payload} (hfresh : u.Fresh)
    (hok : u.lzReceive sender srcEid originSender payload = .ok u') : Logged u u' ∧ u'.Fresh := by
  obtain ⟨-, -, -, ⟨-, rfl⟩ | ⟨-, rfl⟩⟩ := lzReceive_eq_ok hok
  · exact ⟨(Unmoved.refl _).logged, hfresh⟩
  · exact ⟨logged_of_moved rfl trivial, fresh_of_stale rfl⟩

/-- The end of a broadcast logs the root that it sent. -/
theorem broadcastDone_logged (ctx : BroadcastContext) : Logged u (u.broadcastDone ctx) :=
  ⟨List.prefix_append _ _, fun _ => ⟨rfl, rfl⟩⟩

/-- It puts the flag up, rightly so when the leaves are still those of the snapshot. -/
theorem broadcastDone_fresh {ctx : BroadcastContext} (hroots : u.transferRoots = ctx.snapshot)
    (hindices : u.transferTreeIndices = ctx.transferTreeIndicesSnapshot) :
    (u.broadcastDone ctx).Fresh := by
  intro _
  refine Or.inl ⟨ctx, ?_, hroots, hindices⟩
  rw [lastBroadcast_concat (u := u) rfl]
  rfl

end Hub

/-! ## Runs -/

/-- If the action completes a broadcast, no leaf changed while that was open. -/
def NetState.Undisturbed (s : NetState) : NetAction → Prop
  | .finish =>
    match s.frames with
    | ⟨w, .broadcast _ _ _⟩ :: _ => ∀ e ∈ w.hub.since s.world.hub, ¬ e.MovesLeaves
    | _ => True
  | _ => True

instance (s : NetState) : (a : NetAction) → Decidable (s.Undisturbed a)
  | .finish =>
    match hframes : s.frames with
    | ⟨w, .broadcast _ _ _⟩ :: _ =>
      decidable_of_iff (∀ e ∈ w.hub.since s.world.hub, ¬ e.MovesLeaves) (by
        simp only [NetState.Undisturbed, hframes])
    | ⟨_, .relay _ _ _ _ _⟩ :: _ => isTrue (by simp only [NetState.Undisturbed, hframes])
    | [] => isTrue (by simp only [NetState.Undisturbed, hframes])
  | .setHubPeer _ _ _ | .registerToken _ _ | .updateToken _ _ | .hubReceive _ _ _ _
  | .forceHubNative _ | .chain _ _ | .deliver _ | .broadcast _ _ _ | .relay _ _ _ | .send
  | .refund | .revert => isTrue trivial

/-- An open broadcast holds the leaves it started with. -/
def TookSnapshot (f : Frames.Frame World Pending) : Prop :=
  match f.cont with
  | .broadcast ctx _ _ => ctx.snapshot = f.checkpoint.hub.transferRoots
    ∧ ctx.transferTreeIndicesSnapshot = f.checkpoint.hub.transferTreeIndices
  | .relay _ _ _ _ _ => True

/-- The flag is right wherever the run is or may go back to. -/
structure NetState.FreshInv (h : Hashes) (D : Deployment) (s : NetState) : Prop where
  state : s.Inv h D
  snapshots : ∀ f ∈ s.frames, TookSnapshot f
  fresh : Frames.Valid (fun w : World => w.hub.Fresh) (fun _ _ => True)
    (fun w w' => w.hub.Logged w'.hub) s.world s.frames

section

variable {h : Hashes} {d : ℕ → DeciderSets} {D : Deployment} {s s' : NetState} {w : World}
  {f : Frames.Frame World Pending} {fs : List (Frames.Frame World Pending)}

namespace NetState

theorem initial_freshInv : (D.initial h).FreshInv h D := by
  refine ⟨initial_inv, fun f hf => absurd hf List.not_mem_nil, ?_⟩
  intro _
  exact Or.inr fun e he => absurd he List.not_mem_nil

/-- The invariant is about the current Hub. -/
theorem FreshInv.here (hs : s.FreshInv h D) : s.world.hub.Fresh :=
  Frames.Valid.inv (I := fun w : World => w.hub.Fresh) hs.fresh

/-- A step inside the innermost call. -/
theorem FreshInv.inside (hs : s.FreshInv h D) (hs' : NetState.Inv h D ⟨w, s.frames⟩)
    (hw : s.world.hub.Logged w.hub ∧ w.hub.Fresh) : FreshInv h D ⟨w, s.frames⟩ :=
  ⟨hs', hs.snapshots, Frames.Valid.mono (fun _ _ _ _ _ => trivial)
    (fun _ _ _ => Hub.Logged.trans _ _ _) hs.fresh hw.1 hw.2⟩

/-- The innermost call goes on. -/
theorem FreshInv.resume {k : Pending} (hs : s.FreshInv h D) (hframes : s.frames = f :: fs)
    (hs' : NetState.Inv h D ⟨w, ⟨f.checkpoint, k⟩ :: fs⟩)
    (hk : TookSnapshot f → TookSnapshot ⟨f.checkpoint, k⟩)
    (hhub : s.world.hub.Unmoved w.hub) : FreshInv h D ⟨w, ⟨f.checkpoint, k⟩ :: fs⟩ := by
  have hsnapshots := hs.snapshots
  have hfresh := hs.fresh
  rw [hframes] at hsnapshots hfresh
  refine ⟨hs', ?_, ?_⟩
  · intro g hg
    rcases List.mem_cons.mp hg with rfl | hg
    · exact hk (hsnapshots f List.mem_cons_self)
    · exact hsnapshots g (List.mem_cons_of_mem _ hg)
  · exact ⟨hhub.fresh hs.here, trivial, Hub.Logged.trans _ _ _ hfresh.2.2.1 hhub.logged,
      hfresh.2.2.2⟩

/-- The innermost call returns. -/
theorem FreshInv.pop (hs : s.FreshInv h D) (hframes : s.frames = f :: fs)
    (hs' : NetState.Inv h D ⟨w, fs⟩) (hw : s.world.hub.Logged w.hub ∧ w.hub.Fresh) :
    FreshInv h D ⟨w, fs⟩ := by
  have hsnapshots := hs.snapshots
  have hfresh := hs.fresh
  rw [hframes] at hsnapshots hfresh
  exact ⟨hs', fun g hg => hsnapshots g (List.mem_cons_of_mem _ hg),
    Frames.Valid.pop (fun _ _ _ _ _ => trivial) (fun _ _ _ => Hub.Logged.trans _ _ _) hfresh hw.1
      hw.2⟩

/-- The leaves of an undisturbed broadcast are still the ones it started with. -/
theorem FreshInv.snapshot_current {ctx : BroadcastContext} (hs : s.FreshInv h D)
    (hframes : s.frames = f :: fs) (hcont : f.cont = .broadcast ctx [] 0)
    (hcalm : s.Undisturbed .finish) :
    s.world.hub.transferRoots = ctx.snapshot
      ∧ s.world.hub.transferTreeIndices = ctx.transferTreeIndicesSnapshot := by
  obtain ⟨c, k⟩ := f
  obtain rfl : k = .broadcast ctx [] 0 := hcont
  have hsnapshot : TookSnapshot ⟨c, .broadcast ctx [] 0⟩ :=
    hs.snapshots _ (hframes ▸ List.mem_cons_self)
  have hlogged : c.hub.Logged s.world.hub := by
    have hfresh := hs.fresh
    rw [hframes] at hfresh
    exact hfresh.2.2.1
  simp only [Undisturbed, hframes] at hcalm
  obtain ⟨hroots, hindices⟩ := hlogged.leaves hcalm
  exact ⟨hroots.trans hsnapshot.1.symm, hindices.trans hsnapshot.2.symm⟩

/-- An undisturbed broadcast ends with the leaves that it started with, since any change of them
would have been logged. -/
theorem move_freshInv {a : NetAction} (hs : s.FreshInv h D) (hs' : s'.Inv h D)
    (hcalm : s.Undisturbed a) (hmove : Move h D s a s') : s'.FreshInv h D := by
  have hfresh : s.world.hub.Fresh := hs.here
  cases hmove with
  | quiet a w hhub => exact hs.inside hs' ⟨hhub.logged, hhub.fresh hfresh⟩
  | register sender info u hok => exact hs.inside hs' (Hub.registerToken_logged hok)
  | update sender info u hok => exact hs.inside hs' (Hub.updateToken_logged hfresh hok)
  | receive m u hhub hsent hok => exact hs.inside hs' (Hub.lzReceive_logged hfresh hok)
  -- the snapshot of the new frame is the present state
  | openBroadcast value targetEids quote u ctx fees refund hok =>
    obtain ⟨-, rfl, -, -, rfl⟩ := Hub.broadcastStart_eq_ok hok
    have hhub : s.world.hub.Unmoved { s.world.hub with
        aggSeq := s.world.hub.aggSeq + 1, nativeBalance := s.world.hub.nativeBalance + value } :=
      ⟨rfl, rfl, rfl, rfl⟩
    refine ⟨hs', ?_, Frames.Valid.push hs.fresh hhub.logged (hhub.fresh hfresh) trivial⟩
    intro g hg
    rcases List.mem_cons.mp hg with rfl | hg
    · exact ⟨rfl, rfl⟩
    · exact hs.snapshots g hg
  | openRelay eid value quote root index =>
    refine ⟨hs', ?_, Frames.Valid.push hs.fresh (Hub.Unmoved.refl _).logged hfresh trivial⟩
    intro g hg
    rcases List.mem_cons.mp hg with rfl | hg
    · trivial
    · exact hs.snapshots g hg
  | hubSend f fs ctx eid fee sends refund w hframes hcont hok =>
    refine hs.resume hframes hs' ?_ (World.hubSend_eq_ok hok).1
    intro hf
    rw [TookSnapshot, hcont] at hf
    exact hf
  | verifierSend f fs eid root index value w hframes hcont hok =>
    refine hs.resume hframes hs' (fun _ => trivial) ?_
    rw [(World.verifierSend_eq_ok hok).1]
    exact Hub.Unmoved.refl _
  | refund f fs ctx amount hframes hcont =>
    refine hs.resume hframes hs' ?_ ⟨rfl, rfl, rfl, rfl⟩
    intro hf
    rw [TookSnapshot, hcont] at hf
    exact hf
  -- only here the flag is set, and the run is undisturbed
  | finishBroadcast f fs ctx hframes hcont =>
    obtain ⟨hroots, hindices⟩ := hs.snapshot_current hframes hcont hcalm
    exact hs.pop hframes hs'
      ⟨Hub.broadcastDone_logged ctx, Hub.broadcastDone_fresh hroots hindices⟩
  | finishRelay f fs eid root index value w hframes hcont hhub hsent hext =>
    refine hs.pop hframes hs' ?_
    rw [hhub]
    exact ⟨(Hub.Unmoved.refl _).logged, hfresh⟩
  | revert f fs hframes =>
    have hsnapshots := hs.snapshots
    have hvalid := hs.fresh
    rw [hframes] at hsnapshots hvalid
    exact ⟨hs', fun g hg => hsnapshots g (List.mem_cons_of_mem _ hg), Frames.Valid.revert hvalid⟩

/-- So every undisturbed step keeps the flag fresh. -/
theorem step_freshInv (s : NetState) (a : NetAction) (hs : s.FreshInv h D)
    (hcalm : s.Undisturbed a) : (s.step h d D a).FreshInv h D := by
  rcases step_move hs.state a (d := d) with ⟨-, heq⟩ | ⟨hok, hmove⟩
  · rw [heq]
    exact hs
  · exact move_freshInv hs (exec_inv hs.state hok) hcalm hmove

end NetState

end

/-- **The flag is right between transactions**, in every run in which no disturbed broadcast
completes. -/
theorem hub_flag_fresh (h : Hashes) (d : ℕ → DeciderSets) (D : Deployment) (acts : List NetAction)
    (hcalm : Along (NetState.step h d D) NetState.Undisturbed (D.initial h) acts) (n : ℕ)
    (s : NetState) (hreach : run (NetState.step h d D) (D.initial h) (acts.take n) = s)
    (hbetween : s.frames = []) : s.world.hub.Fresh := by
  subst hreach
  rw [← List.take_append_drop n acts] at hcalm
  have hinit := (Along.append.mp hcalm).1
  exact (run_induction_along NetState.initial_freshInv NetState.step_freshInv hinit).here

/-! ## A message in the refund

One chain proves a root of index 1 and relays it. The Hub, where the chain is registered, gets
the message while `broadcast` refunds its caller. -/

namespace RefundExample

def deployment : Deployment where
  hubEid := 30101
  hubAddr := 9
  hubOwner := 1
  hubEndpoint := 2
  site _ := ⟨1, 1, 2, 3, 4, 0, ⟨21, 22, 23, 24, 25⟩, fun _ => 0⟩
  hubAddr_ne := by decide

def fee : MessagingFee := ⟨0, 0⟩

/-- The relayed root. -/
def message : Message where
  srcEid := 5
  sender := 3
  dstEid := 30101
  receiver := 9
  payload := (depositProof 6, 1)
  nativeFee := 0

/-- Registration, and a root that is proved and relayed. -/
def setup : List NetAction :=
  [.registerToken 1 ⟨1, 5, 3, 8⟩, .setHubPeer 1 5 3, .chain 5 (.setPeer 1 30101 9),
    .chain 5 (.depositNative 7 5), .chain 5 .reserveHashChain,
    .chain 5 (.proveTransferRoot depositProof), .relay 5 0 fee, .send, .finish]

/-- The state reached by `setup` and then `acts`. -/
def after (acts : List NetAction) : NetState :=
  run (NetState.step realHashes (fun _ => depositDeciders) deployment)
    (deployment.initial realHashes) (setup ++ acts)

end RefundExample

/-- The message arrives before the broadcast. -/
theorem hub_flag_fresh_relayed :
    (RefundExample.after [.deliver RefundExample.message,
      .broadcast 1 [5] (fun _ => RefundExample.fee), .send, .refund, .finish]).world.hub.Fresh := by
  refine hub_flag_fresh realHashes (fun _ => depositDeciders) RefundExample.deployment
    (RefundExample.setup ++ [.deliver RefundExample.message,
      .broadcast 1 [5] (fun _ => RefundExample.fee), .send, .refund, .finish]) ?_ 14 _ ?_ ?_
  · decide +kernel
  · rw [List.take_of_length_le (by decide)]
    rfl
  · rw [← List.isEmpty_iff]
    decide +kernel

/-- The message arrives while the caller is refunded: the flag is set, and the broadcast root
misses the leaf. -/
theorem hub_flag_not_fresh :
    let s := RefundExample.after [.broadcast 1 [5] (fun _ => RefundExample.fee), .send, .refund,
      .deliver RefundExample.message, .finish]
    s.frames = [] ∧ ¬ s.world.hub.Fresh := by
  refine ⟨?_, ?_⟩
  · rw [← List.isEmpty_iff]
    decide +kernel
  · decide +kernel

end Zerc20
