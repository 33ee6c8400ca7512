import Zerc20.Contracts.Freshness
import Zerc20.Contracts.ProvedRoots
import Zerc20.Contracts.Runs

/-!
# The emergency stop

Two proofs of one index that disagree, or the owner, pause a Verifier. What is to hold until the
owner lifts the pause is stated between two transactions (`Stopped`): a call that was open when the
Verifier was paused may still be reverted to the world before it, so the stop is taken from a state
in which no call is open (`emergency_stop`).

The owner may hand the Verifier over meanwhile, or rotate its deciders. What counts is who owns it
when `deactivateEmergency` is called.

A paused Verifier still reserves hash chains and still stores the aggregation roots it receives.
-/

namespace Zerc20

open Machine

variable {h : Hashes}

/-! ## One chain -/

/-- A pause in force: what the proofs lead to stays as it is. -/
structure Chain.Stopped (c c' : Chain) : Prop where
  paused : c.verifier.paused = true → c'.verifier.paused = true
  proved : c'.verifier.provedTransferRoots = c.verifier.provedTransferRoots
  latestProved : c'.verifier.latestProvedIndex = c.verifier.latestProvedIndex
  latestRelayed : c'.verifier.latestRelayedIndex = c.verifier.latestRelayedIndex
  teleported : c'.verifier.totalTeleported = c.verifier.totalTeleported
  records : c'.records = c.records

namespace Chain

variable {d : DeciderSets} {c c' c'' : Chain}

theorem Stopped.refl (c : Chain) : c.Stopped c := ⟨id, rfl, rfl, rfl, rfl, rfl⟩

/-- Stopped and stopped again is stopped. -/
theorem Stopped.trans (hc : c.Stopped c') (hc' : c'.Stopped c'') : c.Stopped c'' :=
  ⟨fun hp => hc'.paused (hc.paused hp), hc'.proved.trans hc.proved,
    hc'.latestProved.trans hc.latestProved, hc'.latestRelayed.trans hc.latestRelayed,
    hc'.teleported.trans hc.teleported, hc'.records.trans hc.records⟩

/-- A step that leaves the Verifier alone. -/
theorem Stopped.of_verifier (hverifier : c'.verifier = c.verifier)
    (hrecords : c'.records = c.records) : c.Stopped c' := by
  refine ⟨fun hp => ?_, ?_, ?_, ?_, ?_, hrecords⟩
  · rw [hverifier]
    exact hp
  all_goals rw [hverifier]

theorem whenNotPaused_error (hpaused : c.verifier.paused = true) :
    c.verifier.whenNotPaused ≠ .ok () := by
  intro hok
  rw [Verifier.whenNotPaused, require_eq_ok, hpaused] at hok
  cases hok

/-- While the Verifier is paused, only `deactivateEmergency` of its owner ends it. -/
theorem exec_stopped {a : ChainAction} (hok : c.exec h d a = .ok c')
    (hpaused : c.verifier.paused = true) (ha : a ≠ .deactivateEmergency c.verifier.owner) :
    c.Stopped c' := by
  have hblocked := whenNotPaused_error hpaused
  cases a with
  | reserveHashChain =>
    obtain ⟨v, hv, rfl⟩ := withVerifier_eq_ok.mp hok
    cases hv
    exact ⟨id, rfl, rfl, rfl, rfl, rfl⟩
  | proveTransferRoot p =>
    obtain ⟨v, hv, rfl⟩ := withVerifier_eq_ok.mp hok
    obtain ⟨_, hrun, -⟩ := bind_eq_ok.mp hv
    exact absurd hrun hblocked
  | teleport isGlobal rootHint gr proof =>
    obtain ⟨_, hrun, -⟩ := bind_eq_ok.mp hok
    exact absurd (liftVerifier_eq_ok.mp hrun) hblocked
  | singleTeleport isGlobal rootHint gr proof =>
    obtain ⟨_, hrun, -⟩ := bind_eq_ok.mp hok
    exact absurd (liftVerifier_eq_ok.mp hrun) hblocked
  | relayTransferRoot =>
    obtain ⟨v, hv, rfl⟩ := withVerifier_eq_ok.mp hok
    obtain ⟨x, hpayload, -⟩ := bind_eq_ok.mp hv
    obtain ⟨_, hrun, -⟩ := bind_eq_ok.mp hpayload
    exact absurd hrun hblocked
  | lzReceive sender srcEid originSender payload =>
    obtain ⟨v, hv, rfl⟩ := withVerifier_eq_ok.mp hok
    -- the aggregation root is stored all the same
    obtain ⟨-, ⟨-, rfl⟩ | ⟨-, rfl⟩⟩ := Verifier.lzReceive_cases hv
    · exact ⟨id, rfl, rfl, rfl, rfl, rfl⟩
    · exact ⟨id, rfl, rfl, rfl, rfl, rfl⟩
  | setPeer sender eid peer =>
    obtain ⟨v, hv, rfl⟩ := withVerifier_eq_ok.mp hok
    obtain ⟨_, -, hret⟩ := bind_eq_ok.mp hv
    cases hret
    exact ⟨id, rfl, rfl, rfl, rfl, rfl⟩
  | activateEmergency sender =>
    obtain ⟨v, hv, rfl⟩ := withVerifier_eq_ok.mp hok
    obtain ⟨_, -, hpause⟩ := bind_eq_ok.mp hv
    obtain ⟨_, hrun, -⟩ := bind_eq_ok.mp hpause
    exact absurd hrun hblocked
  | deactivateEmergency sender =>
    obtain ⟨v, hv, rfl⟩ := withVerifier_eq_ok.mp hok
    obtain ⟨_, howner, -⟩ := bind_eq_ok.mp hv
    exact absurd (congrArg _ (require_eq_ok.mp howner)) ha
  | setVerifiers sender verifiers =>
    obtain ⟨v, hv, rfl⟩ := withVerifier_eq_ok.mp hok
    obtain ⟨_, -, hret⟩ := bind_eq_ok.mp hv
    obtain ⟨_, -, hret⟩ := bind_eq_ok.mp hret
    cases hret
    exact ⟨id, rfl, rfl, rfl, rfl, rfl⟩
  | transferOwnership sender newOwner =>
    obtain ⟨v, hv, rfl⟩ := withVerifier_eq_ok.mp hok
    obtain ⟨_, -, hret⟩ := bind_eq_ok.mp hv
    obtain ⟨_, -, hret⟩ := bind_eq_ok.mp hret
    cases hret
    exact ⟨id, rfl, rfl, rfl, rfl, rfl⟩
  | renounceOwnership sender =>
    obtain ⟨v, hv, rfl⟩ := withVerifier_eq_ok.mp hok
    obtain ⟨_, -, hret⟩ := bind_eq_ok.mp hv
    cases hret
    exact ⟨id, rfl, rfl, rfl, rfl, rfl⟩
  | _ =>
    -- the transactions that spare the Verifier
    obtain ⟨hverifier, hrecords⟩ := exec_sparesVerifier h d hok trivial
    exact .of_verifier hverifier hrecords

end Chain

/-! ## The network -/

variable {d : ℕ → DeciderSets} {D : Deployment} {s s' : NetState}

/-- An open `relayTransferRoot` of the Verifier behind `eid`. -/
def Pending.RelayOf (eid : ℕ) : Pending → Prop
  | .relay eid' _ _ _ _ => eid' = eid
  | .broadcast _ _ _ => False

/-- The messages that the Verifier behind `eid` sent, one entry for each time it did. -/
def World.sentFrom (D : Deployment) (w : World) (eid : ℕ) : List Message :=
  w.sent.filter fun m => m.srcEid = eid ∧ m.sender.val = (D.verifierAddr eid).val

/-- The stop of the Verifier behind `eid`, as the network sees it. -/
structure World.Stopped (D : Deployment) (eid : ℕ) (w w' : World) : Prop where
  chain : (w.chains eid).Stopped (w'.chains eid)
  sent : w'.sentFrom D eid = w.sentFrom D eid

section

variable {eid : ℕ} {w w' : World}

/-- A send of the Hub is none of the Verifier's. -/
theorem World.sentFrom_hubSend {ctx : BroadcastContext} {eid' fee : ℕ}
    (hok : w.hubSend D ctx eid' fee = .ok w') : w'.sentFrom D eid = w.sentFrom D eid := by
  simp only [World.hubSend, bind_eq_ok, require_eq_ok, exists_const] at hok
  obtain ⟨-, -, hret⟩ := hok
  cases hret
  have hsender : (toWord D.hubAddr.val).val = D.hubAddr.val :=
    toWord_val (D.hubAddr.isLt.trans (by decide))
  have hforeign : ¬ (D.hubEid = eid ∧ D.hubAddr.val = (D.verifierAddr eid).val) := by
    rintro ⟨rfl, heq⟩
    exact D.hubAddr_ne (Fin.ext heq.symm)
  simp only [World.sentFrom, List.filter_append, List.filter_singleton, hsender, hforeign]
  simp

theorem World.sentFrom_verifierSend {eid' root index value : ℕ} (hne : eid' ≠ eid)
    (hok : w.verifierSend eid' root index value = .ok w') :
    w'.sentFrom D eid = w.sentFrom D eid := by
  simp only [World.verifierSend, bind_eq_ok, require_eq_ok, exists_const] at hok
  obtain ⟨-, hret⟩ := hok
  cases hret
  simp [World.sentFrom, List.filter_append, hne]

end

/-- The action is the `deactivateEmergency` of the owner. -/
def NetAction.Lifts (owner : Address) (eid : ℕ) : NetAction → Prop
  | .chain eid' (.deactivateEmergency sender) => eid' = eid ∧ sender = owner
  | _ => False

/-- Whoever owns the Verifier behind `eid` now does not lift its pause. -/
def NetState.KeepsPause (eid : ℕ) (s : NetState) (a : NetAction) : Prop :=
  ¬ a.Lifts (s.world.chains eid).verifier.owner eid

instance NetAction.decidableLifts (owner : Address) (eid : ℕ) :
    (a : NetAction) → Decidable (a.Lifts owner eid)
  | .chain eid' (.deactivateEmergency sender) =>
    inferInstanceAs (Decidable (eid' = eid ∧ sender = owner))
  | .chain _ (.token _) | .chain _ .reserveHashChain | .chain _ (.proveTransferRoot _)
  | .chain _ (.teleport _ _ _ _) | .chain _ (.singleTeleport _ _ _ _)
  | .chain _ .relayTransferRoot | .chain _ (.lzReceive _ _ _ _) | .chain _ (.setPeer _ _ _)
  | .chain _ (.activateEmergency _) | .chain _ (.setVerifiers _ _)
  | .chain _ (.transferOwnership _ _) | .chain _ (.renounceOwnership _)
  | .chain _ (.depositNative _ _) | .chain _ (.depositToken _ _)
  | .chain _ (.withdrawNative _ _ _) | .chain _ (.withdrawToken _ _)
  | .chain _ (.underlyingTransfer _ _ _) | .chain _ (.forceNative _)
  | .setHubPeer _ _ _ | .registerToken _ _ | .updateToken _ _ | .hubReceive _ _ _ _
  | .forceHubNative _ | .deliver _ | .broadcast _ _ _ | .relay _ _ _ | .send | .refund | .finish
  | .revert => inferInstanceAs (Decidable False)

instance (eid : ℕ) (s : NetState) (a : NetAction) : Decidable (s.KeepsPause eid a) :=
  inferInstanceAs (Decidable (¬ _))

namespace NetState

variable {eid : ℕ}

/-- No `relayTransferRoot` of the Verifier behind `eid` is open. -/
def NoRelay (s : NetState) (eid : ℕ) : Prop := ∀ f ∈ s.frames, ¬ f.cont.RelayOf eid

/-- A transaction on the stopped chain, a message it receives included. -/
theorem exec_chain_stopped {a : NetAction} (hok : s.exec h d D a = .ok s') (ha : a ≠ .revert)
    (hpaused : (s.world.chains eid).verifier.paused = true)
    (hlifts : s.KeepsPause eid a) (hrelay : s.NoRelay eid) :
    (s.world.chains eid).Stopped (s'.world.chains eid) := by
  by_cases hfinish : a = .finish
  · -- the last line of a relay is another chain's
    subst hfinish
    simp only [exec, finish] at hok
    split at hok
    · rename_i f fs hframes
      split at hok
      · cases hok
        exact Chain.Stopped.refl _
      · rename_i eid' root index value hcont
        cases hok
        have hne : eid' ≠ eid := fun heq => hrelay f (hframes ▸ List.mem_cons_self)
          (by rw [hcont]; exact heq)
        show Chain.Stopped _ (Function.update s.world.chains eid' _ eid)
        rw [Function.update_of_ne hne.symm]
        exact Chain.Stopped.refl _
      · cases hok
    · cases hok
  · generalize hc : s'.world.chains eid = c
    have hturn := exec_chainTurn eid hok ha
    rw [hc] at hturn
    cases hturn with
    | same => exact Chain.Stopped.refl _
    | transaction b _ _ hb =>
      exact Chain.exec_stopped hb hpaused fun heq => hlifts (by rw [heq]; exact ⟨rfl, rfl⟩)
    | receive m _ hb =>
      exact Chain.exec_stopped hb hpaused fun heq => ChainAction.noConfusion heq
    | relayed root index => exact absurd rfl hfinish

/-- A paused Verifier without an open relay sends nothing in any step. -/
theorem exec_sentFrom {a : NetAction} (hmove : Move h D s a s') (ha : a ≠ .revert)
    (hrelay : s.NoRelay eid) : s'.world.sentFrom D eid = s.world.sentFrom D eid := by
  cases hmove with
  | quiet a w hhub hsent hext => rw [World.sentFrom, World.sentFrom, hsent]
  | register | update | receive | refund | finishBroadcast | openBroadcast | openRelay => rfl
  | hubSend f fs ctx eid' fee sends refund w hframes hcont hok => exact World.sentFrom_hubSend hok
  | verifierSend f fs eid' root index value w hframes hcont hok =>
    refine World.sentFrom_verifierSend (fun heq => ?_) hok
    exact hrelay f (hframes ▸ List.mem_cons_self) (by rw [hcont]; exact heq)
  | finishRelay f fs eid' root index value w hframes hcont hhub hsent hext =>
    rw [World.sentFrom, World.sentFrom, hsent]
  | revert => exact absurd rfl ha

/-- A paused Verifier opens no relay. -/
theorem exec_noRelay {a : NetAction} (hs : s.Inv h D) (hok : s.exec h d D a = .ok s')
    (hpaused : (s.world.chains eid).verifier.paused = true) (hrelay : s.NoRelay eid) :
    s'.NoRelay eid := by
  -- a step of the innermost frame changes its continuation, not whose it is
  have htail : ∀ (f : Frames.Frame World Pending) (fs : List (Frames.Frame World Pending))
      (k : Pending), s.frames = f :: fs → (k.RelayOf eid → f.cont.RelayOf eid) →
      ∀ g ∈ (⟨f.checkpoint, k⟩ :: fs : List _), ¬ g.cont.RelayOf eid := by
    intro f fs k hframes hk g hg
    rcases List.mem_cons.mp hg with rfl | hg
    · exact fun hof => hrelay f (hframes ▸ List.mem_cons_self) (hk hof)
    · exact hrelay g (hframes ▸ List.mem_cons_of_mem _ hg)
  have hpop : ∀ (f : Frames.Frame World Pending) (fs : List (Frames.Frame World Pending)),
      s.frames = f :: fs → ∀ g ∈ fs, ¬ g.cont.RelayOf eid :=
    fun f fs hframes g hg => hrelay g (hframes ▸ List.mem_cons_of_mem _ hg)
  cases exec_move hs hok with
  | quiet | register | update | receive => exact hrelay
  | openBroadcast =>
    intro f hf
    rcases List.mem_cons.mp hf with rfl | hf
    · exact id
    · exact hrelay f hf
  -- the payload of a paused chain cannot be read
  | openRelay eid' value quote root index =>
    intro f hf
    rcases List.mem_cons.mp hf with rfl | hf
    · rintro rfl
      obtain ⟨x, hpayload, -⟩ := bind_eq_ok.mp hok
      obtain ⟨_, hrun, -⟩ :=
        bind_eq_ok.mp (Chain.liftVerifier_eq_ok.mp (liftChain_eq_ok.mp hpayload))
      exact absurd hrun (Chain.whenNotPaused_error hpaused)
    · exact hrelay f hf
  | hubSend f fs ctx eid' fee sends refund w hframes => exact htail f fs _ hframes False.elim
  | verifierSend f fs eid' root index value w hframes hcont =>
    exact htail f fs _ hframes fun heq => by rw [hcont]; exact heq
  | refund f fs ctx amount hframes => exact htail f fs _ hframes False.elim
  | finishBroadcast f fs ctx hframes => exact hpop f fs hframes
  | finishRelay f fs eid' root index value w hframes => exact hpop f fs hframes
  | revert f fs hframes => exact hpop f fs hframes

/-- The stop over a run: the present world is stopped, every world that an open call goes back to
is, and no open call is a relay of the stopped chain. -/
theorem run_stopped (hs : s.Inv h D) (hbetween : s.frames = [])
    (hpaused : (s.world.chains eid).verifier.paused = true) {acts : List NetAction}
    (hacts : Along (NetState.step h d D) (KeepsPause eid) s acts) :
    (run (NetState.step h d D) s acts).AllWorlds (s.world.Stopped D eid) := by
  let I : NetState → Prop := fun t =>
    t.Inv h D ∧ t.AllWorlds (s.world.Stopped D eid) ∧ t.NoRelay eid
  have hstart : I s :=
    ⟨hs, ⟨⟨Chain.Stopped.refl _, rfl⟩, fun f hf => absurd (hbetween ▸ hf) List.not_mem_nil⟩,
      fun f hf => absurd (hbetween ▸ hf) List.not_mem_nil⟩
  refine (run_induction_along (I := I) hstart ?_ hacts).2.1
  rintro t a ⟨ht, hall, hrelay⟩ hlifts
  have hpaused' := hall.1.chain.paused hpaused
  refine ⟨step_inv t a ht, hall.step ht fun t' _ hok ha => ?_, ?_⟩
  · exact ⟨hall.1.chain.trans (exec_chain_stopped hok ha hpaused' hlifts hrelay),
      (exec_sentFrom (exec_move ht hok) ha hrelay).trans hall.1.sent⟩
  · rcases commit_cases t (t.exec h d D a) with ⟨-, heq⟩ | hok
    · rw [NetState.step, heq]
      exact hrelay
    · exact exec_noRelay ht hok hpaused' hrelay

end NetState

/-- **The emergency stop.** Take a Verifier that is paused between two transactions. Until somebody
who owns it then calls `deactivateEmergency`, and whatever happens on its chain, on the others and at
the Hub, in calls within calls too: it stays paused, it proves and relays no root, it accepts no
teleport, and no message leaves it. -/
theorem emergency_stop (h : Hashes) (d : ℕ → DeciderSets) (D : Deployment) (eid : ℕ)
    (before acts : List NetAction) :
    let s := run (NetState.step h d D) (D.initial h) before
    let s' := run (NetState.step h d D) (D.initial h) (before ++ acts)
    s.frames = [] → (s.world.chains eid).verifier.paused = true →
    Along (NetState.step h d D) (NetState.KeepsPause eid) s acts →
    (s'.world.chains eid).verifier.paused = true
      ∧ (s.world.chains eid).Stopped (s'.world.chains eid)
      ∧ s'.world.sentFrom D eid = s.world.sentFrom D eid := by
  intro s s' hbetween hpaused hacts
  have hs : s.Inv h D := run_induction NetState.initial_inv NetState.step_inv before
  have hstop := (NetState.run_stopped (d := d) hs hbetween hpaused hacts).1
  rw [← run_append] at hstop
  exact ⟨hstop.chain.paused hpaused, hstop.chain, hstop.sent⟩

namespace DisputeExample

def deciders : ℕ → DeciderSets := fun _ vs =>
  { depositDeciders vs with rootDecider := fun _ => true }

/-- A root is proved and relayed, and then disputed by another proof of its index. -/
def before : List NetAction :=
  RefundExample.setup ++ [.chain 5 (.proveTransferRoot (Function.update depositProof 6 7))]

/-- What others attempt afterwards, and the former owner when the Verifier is handed over. -/
def acts : List NetAction :=
  [.chain 5 (.deactivateEmergency 7), .relay 5 0 RefundExample.fee, .send, .finish,
    .chain 5 (.transferOwnership 1 8), .chain 5 (.deactivateEmergency 1),
    .chain 5 (.proveTransferRoot depositProof)]

/-- The state reached by `acts`. -/
def after (acts : List NetAction) : NetState :=
  run (NetState.step realHashes deciders RefundExample.deployment)
    (RefundExample.deployment.initial realHashes) acts

end DisputeExample

/-- A dispute pauses the Verifier of the example, and it stays so. -/
theorem emergency_stop_disputed :
    ((DisputeExample.after (DisputeExample.before ++ DisputeExample.acts)).world.chains
        5).verifier.paused = true
      ∧ (DisputeExample.after (DisputeExample.before ++ DisputeExample.acts)).world.sentFrom
          RefundExample.deployment 5 = [RefundExample.message] := by
  have hstate : (DisputeExample.after DisputeExample.before).frames.isEmpty = true
      ∧ ((DisputeExample.after DisputeExample.before).world.chains 5).verifier.paused = true
      ∧ (DisputeExample.after DisputeExample.before).world.sentFrom RefundExample.deployment 5
          = [RefundExample.message] := by
    decide +kernel
  have hkeeps : Along (NetState.step realHashes DisputeExample.deciders RefundExample.deployment)
      (NetState.KeepsPause 5) (DisputeExample.after DisputeExample.before)
      DisputeExample.acts := by
    decide +kernel
  simp only [DisputeExample.after] at hstate hkeeps ⊢
  obtain ⟨hbetween, hpaused, hsent⟩ := hstate
  have hstop := emergency_stop realHashes DisputeExample.deciders RefundExample.deployment 5
    DisputeExample.before DisputeExample.acts (List.isEmpty_iff.mp hbetween) hpaused hkeeps
  exact ⟨hstop.1, hstop.2.2.trans hsent⟩

end Zerc20
