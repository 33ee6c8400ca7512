import Zerc20.Crosschain.BroadcastJob
import Zerc20.Contracts.Genuine

/-!
# The relay job

`crosschain-job/src/main.rs`: the job that relays the latest proved root of one Verifier to the Hub.
A pass does nothing when the flag of the Verifier says so, and otherwise submits
`relayTransferRoot` with the quoted fee and a buffer, and waits for the receipt.

Either way, after a pass that succeeds the latest proved root is with LayerZero
(`RelayJob.Pass.handed`). A pass fails only where the contract refuses, or where the fee is so large
that the buffer, which is computed in a saturating product, comes out below it
(`le_applyFeeBuffer_iff`).
-/

namespace Zerc20

open Machine

/-- `quoteRelay`, for what the endpoint quotes. -/
def Verifier.quoteRelay (v : Verifier) (quote : MessagingFee) :
    Except VerifierError MessagingFee := do
  require (v.peers v.hubEid ≠ 0) (.noPeer v.hubEid)
  return quote

namespace Crosschain

structure RelayJob where
  feeBufferBps : ℕ
  deriving DecidableEq

inductive RelayOutcome where
  | upToDate
  | relay (value : ℕ)
  deriving DecidableEq

/-- `RelayJob::execute_once` up to the transaction. -/
def RelayJob.executeOnce (job : RelayJob) (v : Verifier) (quote : MessagingFee) :
    Except VerifierError RelayOutcome :=
  if v.isUpToDate then .ok .upToDate
  else do
    let fee ← v.quoteRelay quote
    return .relay (applyFeeBuffer fee.nativeFee job.feeBufferBps)

end Crosschain

/-! ## The transaction -/

variable {h : Hashes} {d : ℕ → DeciderSets} {D : Deployment} {s t : NetState} {eid value : ℕ}
  {quote : MessagingFee}

/-- `relayTransferRoot` and the call that it makes. -/
def relayActions (eid value : ℕ) (quote : MessagingFee) : List NetAction :=
  [.relay eid value quote, .send, .finish]

/-- What the Verifier refuses a relay for. -/
structure Verifier.CanRelay (v : Verifier) : Prop where
  unpaused : v.paused = false
  proved : v.provedTransferRoots v.latestProvedIndex ≠ 0
  peer : v.peers v.hubEid ≠ 0

/-- The transaction stores the index that it sent. -/
theorem relayActions_accepted (hok : AllAccepted (NetState.exec h d D) s
      (relayActions eid value quote) t) :
    (s.world.chains eid).verifier.CanRelay ∧ quote.nativeFee ≤ value ∧ t.frames = s.frames
      ∧ (t.world.chains eid).verifier.isUpToDate = true
      ∧ (t.world.chains eid).verifier.latestProvedIndex
        = (s.world.chains eid).verifier.latestProvedIndex := by
  obtain ⟨s₁, hrelay, s₂, hsend, s₃, hfinish, rfl⟩ := hok
  obtain ⟨⟨root, index⟩, hpayload, hrest⟩ := bind_eq_ok.mp hrelay
  simp only [bind_eq_ok, require_eq_ok, exists_const] at hrest
  obtain ⟨hpeer, hfee, hret⟩ := hrest
  cases hret
  replace hpayload := Chain.liftVerifier_eq_ok.mp (liftChain_eq_ok.mp hpayload)
  simp only [Verifier.relayPayload, Verifier.whenNotPaused, bind_eq_ok, require_eq_ok,
    exists_const] at hpayload
  obtain ⟨hunpaused, hne, hpair⟩ := hpayload
  cases hpair
  obtain ⟨w, hw, rfl⟩ := NetState.resume_eq_ok hsend
  simp only [World.verifierSend, bind_eq_ok, require_eq_ok, exists_const] at hw
  obtain ⟨-, hret⟩ := hw
  cases hret
  cases hfinish
  refine ⟨⟨hunpaused, hne, hpeer⟩, hfee, rfl, ?_, ?_⟩
  · simp [Verifier.isUpToDate, Verifier.relayDone, Verifier.emit]
  · simp [Verifier.relayDone, Verifier.emit]

namespace Crosschain

variable (h d D) in
/-- A pass that succeeds, from a state between transactions. The endpoint quotes once for
`quoteRelay` and once more in the transaction. -/
inductive RelayJob.Pass (job : RelayJob) (eid : ℕ) (quote quote' : MessagingFee) (s : NetState) :
    List NetAction → Prop where
  | upToDate (hbetween : s.frames = [])
      (hskip : job.executeOnce (s.world.chains eid).verifier quote = .ok .upToDate) :
      Pass job eid quote quote' s []
  | relayed (value : ℕ) (t : NetState) (hbetween : s.frames = [])
      (hrelay : job.executeOnce (s.world.chains eid).verifier quote = .ok (.relay value))
      (hok : AllAccepted (NetState.exec h d D) s (relayActions eid value quote') t) :
      Pass job eid quote quote' s (relayActions eid value quote')

variable {job : RelayJob} {quote' : MessagingFee} {acts : List NetAction}

theorem RelayJob.executeOnce_eq_upToDate {v : Verifier}
    (hskip : job.executeOnce v quote = .ok .upToDate) : v.isUpToDate = true := by
  unfold executeOnce at hskip
  split at hskip
  · assumption
  · obtain ⟨fee, -, hret⟩ := bind_eq_ok.mp hskip
    cases hret

/-- After a pass the flag is on, whoever set it. -/
theorem RelayJob.Pass.isUpToDate (hpass : job.Pass h d D eid quote quote' s acts) :
    (run (NetState.step h d D) s acts).frames = []
      ∧ ((run (NetState.step h d D) s acts).world.chains eid).verifier.isUpToDate = true
      ∧ ((run (NetState.step h d D) s acts).world.chains eid).verifier.latestProvedIndex
        = (s.world.chains eid).verifier.latestProvedIndex := by
  cases hpass with
  | upToDate hbetween hskip => exact ⟨hbetween, executeOnce_eq_upToDate hskip, rfl⟩
  | relayed value t hbetween hrelay hok =>
    have hrun : run (NetState.step h d D) s (relayActions eid value quote') = t := hok.run_eq
    obtain ⟨-, -, hframes, hflag, hindex⟩ := relayActions_accepted hok
    rw [hrun]
    exact ⟨hframes.trans hbetween, hflag, hindex⟩

/-- After a pass the latest proved root is with LayerZero. -/
theorem RelayJob.Pass.handed (hs : s.WriteOnceInv h D eid)
    (hfew : Along (NetState.step h d D) (fun s _ => s.FewEvents eid) s acts)
    (hpass : job.Pass h d D eid quote quote' s acts)
    (hproved : 0 < (s.world.chains eid).verifier.latestProvedIndex) :
    (run (NetState.step h d D) s acts).world.Handed D eid
      (s.world.chains eid).verifier.latestProvedIndex := by
  obtain ⟨-, hflag, hindex⟩ := hpass.isUpToDate
  have hafter := run_induction_along hs NetState.step_writeOnceInv hfew
  rw [← hindex] at hproved ⊢
  exact hafter.here.honest.handed hflag hproved

end Crosschain

namespace RelayJobExample

def job : Crosschain.RelayJob := ⟨1000⟩

/-- The state with a proved root that was not relayed. -/
def start : NetState :=
  run (NetState.step realHashes (fun _ => depositDeciders) RefundExample.deployment)
    (RefundExample.deployment.initial realHashes) (RefundExample.setup.take 6)

end RelayJobExample

end Zerc20
