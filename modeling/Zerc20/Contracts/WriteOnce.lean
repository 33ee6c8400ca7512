import Zerc20.Contracts.Freshness

/-!
# The histories of a Verifier are write-once

The Verifier keeps three tables by index: reserved hash chains, proved transfer roots and
aggregation roots received from the Hub. An entry that was written never changes. A proved root
is guarded by the conflict check, an aggregation root by the check for a first message, and a
reserved hash chain by nothing but the token: its index grows with its history, so a second
reservation of an index finds the same hash chain.

`relayTransferRoot` reads the latest proved index, calls the endpoint and stores that index when
the call returns. In between the endpoint may prove and relay further roots, so the stored index
may well go down; but it is an index whose root was handed to the endpoint (`World.Handed`).

What holds of the Verifier behind one endpoint is followed through a run by `Turn`, the actions
sorted by what they do to that Verifier.
-/

namespace Zerc20

open Machine

/-! ## What the Verifier writes -/

namespace Verifier

def isUpToDate (v : Verifier) : Bool := v.latestProvedIndex == v.latestRelayedIndex

/-- No entry of the tables is lost, and the counters do not go back. -/
structure Grows (v v' : Verifier) : Prop where
  proved : ∀ i, v.provedTransferRoots i ≠ 0 → v'.provedTransferRoots i = v.provedTransferRoots i
  global : ∀ s, v.globalTransferRoots s ≠ 0 → v'.globalTransferRoots s = v.globalTransferRoots s
  reserved : ∀ i, v.reservedHashChains i ≠ 0 → v'.reservedHashChains i = v.reservedHashChains i
  latestProved : v.latestProvedIndex ≤ v'.latestProvedIndex
  latestAggSeq : v.latestAggSeq ≤ v'.latestAggSeq

theorem Grows.refl (v : Verifier) : v.Grows v :=
  ⟨fun _ _ => rfl, fun _ _ => rfl, fun _ _ => rfl, le_rfl, le_rfl⟩

/-- An entry that survives twice survives. -/
theorem kept_trans {f g k : ℕ → ℕ} (hfg : ∀ i, f i ≠ 0 → g i = f i)
    (hgk : ∀ i, g i ≠ 0 → k i = g i) (i : ℕ) (hne : f i ≠ 0) : k i = f i := by
  have hg : g i = f i := hfg i hne
  rw [hgk i (hg ▸ hne), hg]

theorem Grows.trans {v₁ v₂ v₃ : Verifier} (h₁ : v₁.Grows v₂) (h₂ : v₂.Grows v₃) : v₁.Grows v₃ where
  proved := kept_trans h₁.proved h₂.proved
  global := kept_trans h₁.global h₂.global
  reserved := kept_trans h₁.reserved h₂.reserved
  latestProved := h₁.latestProved.trans h₂.latestProved
  latestAggSeq := h₁.latestAggSeq.trans h₂.latestAggSeq

/-- The reserved hash chains are those of the history `ts`, and no root is proved beyond the latest
index. -/
structure HistoriesInv (h : Hashes) (ts : List Transfer) (v : Verifier) : Prop where
  reserved : ∀ i, v.reservedHashChains i ≠ 0 →
    i ≤ ts.length ∧ v.reservedHashChains i = transferChain h (ts.take i)
  proved_le : ∀ i, v.provedTransferRoots i ≠ 0 → i ≤ v.latestProvedIndex

variable {h : Hashes} {d : Deciders} {ts : List Transfer} {v v' : Verifier}

/-- What was proved of a history is proved of the longer one. -/
theorem HistoriesInv.extend {us : List Transfer} (hv : v.HistoriesInv h ts) (hpre : ts <+: us) :
    v.HistoriesInv h us :=
  ⟨reserved_extend hv.reserved hpre, hv.proved_le⟩

/-- The tables of `v'` are those of `v`. -/
theorem SameTables.grows (htables : v.SameTables v') (hseq : v.latestAggSeq ≤ v'.latestAggSeq) :
    v.Grows v' where
  proved i _ := by rw [htables.proved]
  global s _ := by rw [htables.global]
  reserved i _ := by rw [htables.reserved]
  latestProved := htables.latestProved.ge
  latestAggSeq := hseq

/-- The invariant speaks of the three tables only. -/
theorem SameTables.historiesInv (htables : v.SameTables v') (hv : v.HistoriesInv h ts) :
    v'.HistoriesInv h ts := by
  refine ⟨?_, ?_⟩
  · rw [htables.reserved]
    exact hv.reserved
  · rw [htables.proved, htables.latestProved]
    exact hv.proved_le

/-- A second reservation of an index finds the same hash chain. -/
theorem reserveHashChain_historiesInv {t : Token} (ht : t.HistoryInv h)
    (hfew : t.events.length < 2 ^ 64) (hv : v.HistoriesInv h t.events) :
    (v.reserveHashChain t).HistoriesInv h t.events ∧ v.Grows (v.reserveHashChain t) := by
  refine ⟨⟨reserveHashChain_reserved ht hfew hv.reserved, hv.proved_le⟩,
    fun _ _ => rfl, fun _ _ => rfl, ?_, le_rfl, le_rfl⟩
  intro i hne
  rw [reserveHashChain_eq_update ht hfew, Function.update_apply]
  by_cases hi : i = t.events.length
  · subst hi
    rw [if_pos rfl, (hv.reserved _ hne).2, List.take_length]
  · rw [if_neg hi]

/-- The counters after an accepted proof. -/
theorem proveTransferRoot_counters {p : RootProof} (hok : v.proveTransferRoot d p = .ok v') :
    v'.latestAggSeq = v.latestAggSeq ∧ v'.latestRelayedIndex = v.latestRelayedIndex
      ∧ (v'.provedTransferRoots = v.provedTransferRoots
          ∧ v'.latestProvedIndex = v.latestProvedIndex
        ∨ v'.latestProvedIndex = max v.latestProvedIndex (uint64 (p 4))) := by
  rcases (proveTransferRoot_cases hok).2 with ⟨-, -, rfl⟩ | ⟨-, rfl⟩
  · exact ⟨rfl, rfl, Or.inl ⟨rfl, rfl⟩⟩
  · exact ⟨rfl, rfl, Or.inr rfl⟩

/-- A proved root is written where nothing was, since its index is above the latest one. -/
theorem proveTransferRoot_historiesInv {p : RootProof} (hv : v.HistoriesInv h ts)
    (hok : v.proveTransferRoot d p = .ok v') : v'.HistoriesInv h ts ∧ v.Grows v' := by
  obtain ⟨hseq, -, hcounters⟩ := proveTransferRoot_counters hok
  obtain ⟨-, -, -, -, -, hreserved, hglobal, -, hcase⟩ := proveTransferRoot_eq_ok hok
  have hle : v.latestProvedIndex ≤ v'.latestProvedIndex := by
    rcases hcounters with ⟨-, heq⟩ | heq
    · exact heq.ge
    · rw [heq]
      exact le_max_left _ _
  refine ⟨⟨by rw [hreserved]; exact hv.reserved, ?_⟩,
    ⟨fun i => proveTransferRoot_persist hok, fun s _ => by rw [hglobal],
      fun i _ => by rw [hreserved], hle, hseq.ge⟩⟩
  intro i hne
  rcases hcounters with ⟨hproved, heq⟩ | heq
  · rw [hproved] at hne
    rw [heq]
    exact hv.proved_le i hne
  · by_cases hi : i = uint64 (p 4)
    · rw [heq, hi]
      exact le_max_right _ _
    · -- an entry other than the proved one was there before
      have hsame : v'.provedTransferRoots i = v.provedTransferRoots i := by
        rcases hcase with ⟨-, -, hproved⟩ | ⟨-, hproved, -⟩
        · rw [hproved]
        · rw [hproved, Function.update_of_ne hi]
      rw [hsame] at hne
      exact (hv.proved_le i hne).trans hle

/-- A delivery writes global roots: the local counters stay, and the sequence number only rises. -/
theorem lzReceive_counters {sender : Address} {srcEid : ℕ} {originSender : Word}
    {payload : Payload} (hok : v.lzReceive sender srcEid originSender payload = .ok v') :
    v'.latestProvedIndex = v.latestProvedIndex ∧ v'.latestRelayedIndex = v.latestRelayedIndex
      ∧ v.latestAggSeq ≤ v'.latestAggSeq := by
  rcases (lzReceive_cases hok).2 with ⟨-, rfl⟩ | ⟨-, rfl⟩
  · exact ⟨rfl, rfl, le_max_left _ _⟩
  · exact ⟨rfl, rfl, le_max_left _ _⟩

/-- The first root for a sequence number stays. -/
theorem lzReceive_historiesInv {sender : Address} {srcEid : ℕ} {originSender : Word}
    {payload : Payload} (hv : v.HistoriesInv h ts)
    (hok : v.lzReceive sender srcEid originSender payload = .ok v') :
    v'.HistoriesInv h ts ∧ v.Grows v' := by
  obtain ⟨hlatest, -, hseq⟩ := lzReceive_counters hok
  obtain ⟨-, -, -, -, -, hcase, hreserved, hproved, -⟩ := lzReceive_eq_ok hok
  refine ⟨⟨by rw [hreserved]; exact hv.reserved, by rw [hproved, hlatest]; exact hv.proved_le⟩,
    ⟨fun i _ => by rw [hproved], ?_, fun i _ => by rw [hreserved], hlatest.ge, hseq⟩⟩
  intro s hne
  rcases hcase with ⟨hfresh, hglobal, -⟩ | ⟨-, hglobal, -⟩
  · rw [hglobal, Function.update_of_ne]
    intro hs
    exact hne (hs ▸ hfresh)
  · rw [hglobal]

end Verifier

/-! ## Transactions of the chain -/

namespace Chain

variable {h : Hashes} {d : DeciderSets} {c c' : Chain}

def HistoriesInv (h : Hashes) (c : Chain) : Prop :=
  c.token.HistoryInv h ∧ c.verifier.HistoriesInv h c.token.events

/-- Only a relay moves `latestRelayedIndex`, and nothing takes `latestAggSeq` back. -/
theorem exec_counters {a : ChainAction} (hok : c.exec h d a = .ok c')
    (hrelay : a ≠ .relayTransferRoot) :
    c'.verifier.latestRelayedIndex = c.verifier.latestRelayedIndex
      ∧ c.verifier.latestAggSeq ≤ c'.verifier.latestAggSeq := by
  cases a with
  | relayTransferRoot => exact absurd rfl hrelay
  -- the verifier's own functions, one by one
  | reserveHashChain =>
    obtain ⟨v, hv, rfl⟩ := withVerifier_eq_ok.mp hok
    cases hv
    exact ⟨rfl, le_rfl⟩
  | proveTransferRoot p =>
    obtain ⟨v, hv, rfl⟩ := withVerifier_eq_ok.mp hok
    obtain ⟨hseq, hrelayed, -⟩ := Verifier.proveTransferRoot_counters hv
    exact ⟨hrelayed, hseq.ge⟩
  | lzReceive sender srcEid originSender payload =>
    obtain ⟨v, hv, rfl⟩ := withVerifier_eq_ok.mp hok
    obtain ⟨-, hrelayed, hseq⟩ := Verifier.lzReceive_counters hv
    exact ⟨hrelayed, hseq⟩
  -- a redemption changes the totals only
  | teleport isGlobal rootHint gr proof =>
    obtain ⟨r, -, hr⟩ := teleport_eq_ok h d hok
    rw [hr.result]
    exact ⟨rfl, le_rfl⟩
  | singleTeleport isGlobal rootHint gr proof =>
    obtain ⟨r, -, hr⟩ := singleTeleport_eq_ok h d hok
    rw [hr.result]
    exact ⟨rfl, le_rfl⟩
  | setPeer | activateEmergency | deactivateEmergency | setVerifiers | transferOwnership
  | renounceOwnership =>
    have howner := exec_byOwner h d hok trivial
    exact ⟨howner.latestRelayed, howner.latestAggSeq.ge⟩
  | _ =>
    rw [(exec_sparesVerifier h d hok trivial).1]
    exact ⟨rfl, le_rfl⟩

/-- Every action but the relay, whose message is sent between two steps, keeps the histories and
only adds to them. -/
theorem exec_historiesInv {a : ChainAction} (hc : c.HistoriesInv h)
    (hfew : c.token.events.length < 2 ^ 64) (hok : c.exec h d a = .ok c')
    (hrelay : a ≠ .relayTransferRoot) :
    c'.HistoriesInv h ∧ c.verifier.Grows c'.verifier := by
  obtain ⟨-, hseq⟩ := exec_counters hok hrelay
  have hstep : c.step h d a = c' := by rw [step, hok, commit]
  have hhistory : c'.token.HistoryInv h := hstep ▸ step_historyInv h d hc.1 a
  have hevents : c.token.events <+: c'.token.events := hstep ▸ step_events_grow h d c a
  -- what is new of the verifier holds of the old log already
  suffices hv : c'.verifier.HistoriesInv h c.token.events ∧ c.verifier.Grows c'.verifier from
    ⟨⟨hhistory, hv.1.extend hevents⟩, hv.2⟩
  cases exec_verifierCause h d hok with
  | tables htables hrecords => exact ⟨htables.historiesInv hc.2, htables.grows hseq⟩
  | reserve heq hrecords =>
    rw [heq]
    exact Verifier.reserveHashChain_historiesInv hc.1 hfew hc.2
  | prove p hp hprove hrecords => exact Verifier.proveTransferRoot_historiesInv hc.2 hprove
  | receive sender srcEid originSender payload ha hreceive hrecords =>
    exact Verifier.lzReceive_historiesInv hc.2 hreceive
  | teleport r hclaims hr =>
    rw [hr.result]
    exact ⟨⟨hc.2.reserved, hc.2.proved_le⟩,
      ⟨fun _ _ => rfl, fun _ _ => rfl, fun _ _ => rfl, le_rfl, le_rfl⟩⟩

end Chain

/-! ## What was handed to the endpoint -/

section

variable (h : Hashes) (D : Deployment) (eid : ℕ)

/-- The Verifier behind `eid` handed the root proved at `index` to the endpoint, for the Hub. -/
def World.Handed (w : World) (index : ℕ) : Prop :=
  ∃ m ∈ w.sent, m.srcEid = eid ∧ m.sender.val = (D.verifierAddr eid).val ∧ D.AtHub m
    ∧ m.payload.1.val = (w.chains eid).verifier.provedTransferRoots index
    ∧ m.payload.2.val = index

/-- The root at `index` is proved and was handed over. -/
def World.Relayed (w : World) (index : ℕ) : Prop :=
  (w.chains eid).verifier.provedTransferRoots index ≠ 0 ∧ w.Handed D eid index

/-- The histories are in order, and a relayed root was handed over. -/
structure World.RelayInv (w : World) : Prop where
  histories : (w.chains eid).HistoriesInv h
  relayed : (w.chains eid).verifier.latestRelayedIndex = 0
    ∨ w.Relayed D eid (w.chains eid).verifier.latestRelayedIndex

/-- What an open relay is going to store. -/
def Owed (w : World) : Pending → Prop
  | .relay eid' _ index _ true => eid' = eid → w.Relayed D eid index
  | _ => True

/-- The histories grew, and no message was lost. -/
structure Later (w w' : World) : Prop where
  grows : (w.chains eid).verifier.Grows (w'.chains eid).verifier
  sent : w.sent ⊆ w'.sent

end

variable {h : Hashes} {d : ℕ → DeciderSets} {D : Deployment} {eid : ℕ} {w w' : World}
  {s s' : NetState}

theorem Later.refl (w : World) : Later eid w w := ⟨Verifier.Grows.refl _, fun _ hm => hm⟩

theorem Later.trans (a b c : World) (hab : Later eid a b) (hbc : Later eid b c) : Later eid a c :=
  ⟨hab.grows.trans hbc.grows, fun _ hm => hbc.sent (hab.sent hm)⟩

/-- A step elsewhere makes the world later for this chain. -/
theorem later_of_same (hsame : w'.chains eid = w.chains eid) (hsent : w.sent ⊆ w'.sent) :
    Later eid w w' :=
  ⟨by rw [hsame]; exact Verifier.Grows.refl _, hsent⟩

/-- A root that was handed on stays handed on. -/
theorem World.Relayed.mono {index : ℕ} (hlater : Later eid w w') (hw : w.Relayed D eid index) :
    w'.Relayed D eid index := by
  obtain ⟨hne, m, hm, hsrc, hsender, hhub, hroot, hindex⟩ := hw
  have hproved := hlater.grows.proved index hne
  exact ⟨hproved ▸ hne, m, hlater.sent hm, hsrc, hsender, hhub, hroot.trans hproved.symm, hindex⟩

/-- What an open relay owes stays owed, until it is paid. -/
theorem Owed.mono (w w' : World) (k : Pending) (hlater : Later eid w w') (hk : Owed D eid w k) :
    Owed D eid w' k := by
  cases k with
  | broadcast ctx sends refund => trivial
  | relay eid' root index value sent =>
    cases sent with
    | false => trivial
    | true => exact fun heq => (hk heq).mono hlater

/-- The invariant speaks of the chain and of what was sent. -/
theorem World.RelayInv.same (hw : w.RelayInv h D eid) (hsame : w'.chains eid = w.chains eid)
    (hsent : w.sent ⊆ w'.sent) : w'.RelayInv h D eid := by
  refine ⟨by rw [hsame]; exact hw.histories, ?_⟩
  rw [hsame]
  exact hw.relayed.imp_right (World.Relayed.mono (later_of_same hsame hsent))

/-- The Verifier sends what it proved, to the Hub. -/
theorem NetInv.verifierSend_relayed {root index value : ℕ} (hinv : NetInv h D w)
    (hproved : Entitled w (.relay eid root index value false))
    (hok : w.verifierSend eid root index value = .ok w') :
    w'.chains = w.chains ∧ w.sent ⊆ w'.sent ∧ w'.Relayed D eid index := by
  simp only [World.verifierSend, bind_eq_ok, require_eq_ok, exists_const] at hok
  obtain ⟨hpeer, hret⟩ := hok
  cases hret
  obtain ⟨hroot, hindex⟩ := hinv.relay_words hproved
  obtain ⟨hne, -, heq⟩ := hproved
  have hc := hinv.chains eid
  rw [hc.hubEid] at hpeer
  refine ⟨rfl, List.subset_append_left _ _, heq ▸ hne, _,
    List.mem_append_right _ (List.mem_singleton_self _), rfl, ?_, ⟨hc.hubEid, ?_⟩, ?_, hindex⟩
  · show (toWord (w.chains eid).verifierAddr.val).val = _
    rw [toWord_val ((w.chains eid).verifierAddr.isLt.trans (by norm_num)), hc.verifierAddr]
  · show (w.chains eid).verifier.peers (w.chains eid).verifier.hubEid = _
    rw [hc.hubEid]
    exact hc.peer.resolve_left hpeer
  · exact hroot.trans heq.symm

/-! ## Turns -/

/-- The chain is left alone, or one of its transactions other than a relay succeeds. -/
def Chain.Turned (h : Hashes) (d : DeciderSets) (c c' : Chain) : Prop :=
  c' = c ∨ ∃ a, a ≠ .relayTransferRoot ∧ c.exec h d a = .ok c'

variable (h d D eid) in
/-- What an accepted action did to the Verifier behind `eid`. -/
inductive Turn (s : NetState) : NetAction → NetState → Prop where
  | inside (a : NetAction) (w : World) (ha : a ≠ .revert)
      (hchain : (s.world.chains eid).Turned h (d eid) (w.chains eid))
      (hsent : s.world.sent ⊆ w.sent) : Turn s a ⟨w, s.frames⟩
  | opens (a : NetAction) (w : World) (k : Pending) (ha : a ≠ .revert)
      (hsame : w.chains eid = s.world.chains eid) (hsent : s.world.sent ⊆ w.sent)
      (howed : Owed D eid w k) : Turn s a ⟨w, ⟨s.world, k⟩ :: s.frames⟩
  | resumes (a : NetAction) (f : Frames.Frame World Pending)
      (fs : List (Frames.Frame World Pending)) (w : World) (k : Pending)
      (ha : a ≠ .revert) (hframes : s.frames = f :: fs)
      (hsame : w.chains eid = s.world.chains eid) (hsent : s.world.sent ⊆ w.sent)
      (howed : Owed D eid w k) : Turn s a ⟨w, ⟨f.checkpoint, k⟩ :: fs⟩
  | returns (a : NetAction) (f : Frames.Frame World Pending)
      (fs : List (Frames.Frame World Pending)) (w : World) (ha : a ≠ .revert)
      (hframes : s.frames = f :: fs)
      (hsame : w.chains eid = s.world.chains eid) (hsent : s.world.sent ⊆ w.sent) :
      Turn s a ⟨w, fs⟩
  | relayed (f : Frames.Frame World Pending) (fs : List (Frames.Frame World Pending))
      (root index value : ℕ) (w : World) (hframes : s.frames = f :: fs)
      (hcont : f.cont = .relay eid root index value true)
      (hchain : w.chains eid = { s.world.chains eid with
        verifier := (s.world.chains eid).verifier.relayDone root index })
      (hsent : s.world.sent ⊆ w.sent) : Turn s .finish ⟨w, fs⟩
  | reverts (f : Frames.Frame World Pending) (fs : List (Frames.Frame World Pending))
      (hframes : s.frames = f :: fs) : Turn s .revert ⟨f.checkpoint, fs⟩

/-- A transaction on some chain, as this chain sees it. -/
theorem World.chain_turned {eid' : ℕ} {a : ChainAction} (hrelay : a ≠ .relayTransferRoot)
    (hok : w.chain h d eid' a = .ok w') :
    (w.chains eid).Turned h (d eid) (w'.chains eid) ∧ w'.sent = w.sent := by
  obtain ⟨c, hc, hret⟩ := bind_eq_ok.mp hok
  cases hret
  refine ⟨?_, rfl⟩
  by_cases heq : eid = eid'
  · subst heq
    refine Or.inr ⟨a, hrelay, ?_⟩
    show _ = Except.ok (Function.update w.chains eid c eid)
    rw [Function.update_self]
    exact liftChain_eq_ok.mp hc
  · exact Or.inl (Function.update_of_ne heq _ _)

/-- A step of the Hub leaves the chain alone. -/
theorem Turn.ofHub {a : NetAction} {u : Hub} (ha : a ≠ .revert) :
    Turn h d D eid s a ⟨{ s.world with hub := u }, s.frames⟩ :=
  .inside a _ ha (Or.inl rfl) (List.Subset.refl _)

/-- Seen from one chain, every step of the network is one of the turns: inside the chain, a relay
that opens, sends, refunds or ends, a revert, or a step elsewhere. -/
theorem NetState.exec_turn {a : NetAction} (hs : s.Inv h D) (hok : s.exec h d D a = .ok s') :
    Turn h d D eid s a s' := by
  cases a with
  | setHubPeer sender eid' peer =>
    obtain ⟨_, -, hok⟩ := bind_eq_ok.mp hok
    obtain ⟨u, -, rfl⟩ := withinHub_eq_ok hok
    exact .ofHub (by simp)
  | registerToken sender info =>
    obtain ⟨u, -, rfl⟩ := withinHub_eq_ok hok
    exact .ofHub (by simp)
  | updateToken sender info =>
    obtain ⟨u, -, rfl⟩ := withinHub_eq_ok hok
    exact .ofHub (by simp)
  | hubReceive sender srcEid originSender payload =>
    obtain ⟨_, -, hok⟩ := bind_eq_ok.mp hok
    obtain ⟨u, -, rfl⟩ := withinHub_eq_ok hok
    exact .ofHub (by simp)
  | forceHubNative value =>
    obtain ⟨u, -, rfl⟩ := withinHub_eq_ok hok
    exact .ofHub (by simp)
  | chain eid' a =>
    obtain ⟨_, hlocal, hok⟩ := bind_eq_ok.mp hok
    obtain ⟨w, hw, rfl⟩ := within_eq_ok hok
    -- a relay is not an action of one chain, it goes through `relay`
    have hrelay : a ≠ .relayTransferRoot := by
      rintro rfl
      exact require_eq_ok.mp hlocal
    obtain ⟨hchain, hsent⟩ := World.chain_turned hrelay hw
    exact .inside _ w (by simp) hchain (hsent ▸ List.Subset.refl _)
  | deliver m =>
    obtain ⟨_, -, hok⟩ := bind_eq_ok.mp hok
    obtain ⟨w, hw, rfl⟩ := within_eq_ok hok
    unfold World.deliver at hw
    split at hw
    · obtain ⟨u, -, rfl⟩ := World.withHub_eq_ok hw
      exact .ofHub (by simp)
    · split at hw
      · obtain ⟨hchain, hsent⟩ := World.chain_turned (by simp) hw
        exact .inside _ w (by simp) hchain (hsent ▸ List.Subset.refl _)
      · cases hw
  | broadcast value targetEids quote =>
    obtain ⟨⟨u, ctx, fees, refund⟩, -, hret⟩ := bind_eq_ok.mp hok
    cases hret
    exact .opens _ _ _ (by simp) rfl (List.Subset.refl _) trivial
  | relay eid' value quote =>
    obtain ⟨⟨root, index⟩, -, hrest⟩ := bind_eq_ok.mp hok
    simp only [bind_eq_ok, require_eq_ok, exists_const] at hrest
    obtain ⟨-, -, hret⟩ := hrest
    cases hret
    exact .opens _ _ _ (by simp) rfl (List.Subset.refl _) trivial
  | send =>
    simp only [exec, send] at hok
    split at hok
    · rename_i f fs hframes
      split at hok
      · rename_i ctx eid' fee sends refund hcont
        obtain ⟨w, hw, rfl⟩ := resume_eq_ok hok
        simp only [World.hubSend, bind_eq_ok, require_eq_ok, exists_const] at hw
        obtain ⟨-, -, hret⟩ := hw
        cases hret
        exact .resumes _ f fs _ _ (by simp) hframes rfl (List.subset_append_left _ _) trivial
      · rename_i eid' root index value hcont
        obtain ⟨w, hw, rfl⟩ := resume_eq_ok hok
        -- the frame that sends is entitled to its root
        rw [Inv, hframes] at hs
        have hentitled := hs.2.1
        rw [hcont] at hentitled
        obtain ⟨hchains, hsent, hrelayed⟩ := (Frames.Valid.inv hs).verifierSend_relayed hentitled hw
        refine .resumes _ f fs w _ (by simp) hframes (by rw [hchains]) hsent ?_
        intro heq
        exact heq ▸ hrelayed
      · cases hok
    · cases hok
  | refund =>
    simp only [exec, refund] at hok
    split at hok
    · rename_i f fs hframes
      split at hok
      · simp only [bind_eq_ok, require_eq_ok, exists_const] at hok
        obtain ⟨w, hw, rfl⟩ := resume_eq_ok hok.2
        cases hw
        exact .resumes _ f fs _ _ (by simp) hframes rfl (List.Subset.refl _) trivial
      · cases hok
    · cases hok
  | finish =>
    simp only [exec, finish] at hok
    split at hok
    · rename_i f fs hframes
      split at hok
      · cases hok
        exact .returns _ f fs _ (by simp) hframes rfl (List.Subset.refl _)
      · rename_i eid' root index value hcont
        cases hok
        -- the relay of another chain leaves this one as it is
        by_cases heq : eid = eid'
        · subst heq
          exact .relayed f fs root index value _ hframes hcont (Function.update_self _ _ _)
            (List.Subset.refl _)
        · exact .returns _ f fs _ (by simp) hframes (Function.update_of_ne heq _ _)
            (List.Subset.refl _)
      · cases hok
    · cases hok
  | revert =>
    simp only [exec, revert] at hok
    split at hok
    · rename_i f fs hframes
      cases hok
      exact .reverts f fs hframes
    · cases hok

/-! ## The invariant -/

variable (h D eid) in
/-- The Verifier is in order wherever the run is or may go back to. -/
structure NetState.WriteOnceInv (s : NetState) : Prop where
  state : s.Inv h D
  relays : Frames.Valid (fun w : World => w.RelayInv h D eid) (Owed D eid) (Later eid) s.world
    s.frames

variable (eid) in
/-- The token behind `eid` has fewer than `2 ^ 64` events. -/
def NetState.FewEvents (s : NetState) : Prop :=
  (s.world.chains eid).token.events.length < 2 ^ 64

instance : DecidablePred (NetState.FewEvents eid) :=
  fun s => inferInstanceAs (Decidable ((s.world.chains eid).token.events.length < 2 ^ 64))

theorem NetState.initial_writeOnceInv : (D.initial h).WriteOnceInv h D eid := by
  refine ⟨initial_inv, ⟨⟨?_, ?_, ?_⟩, Or.inl rfl⟩⟩
  · exact ⟨rfl, rfl⟩
  · intro i hne
    exact absurd rfl hne
  · intro i hne
    by_cases hi : i = 0
    · subst hi
      exact Nat.zero_le _
    · refine absurd ?_ hne
      show Function.update (fun _ => 0) 0 INITIAL_TRANSFER_ROOT i = 0
      rw [Function.update_of_ne hi]

/-- A turn inside the chain keeps the invariant and makes the world later. -/
theorem World.RelayInv.turned (hw : w.RelayInv h D eid)
    (hfew : (w.chains eid).token.events.length < 2 ^ 64)
    (hchain : (w.chains eid).Turned h (d eid) (w'.chains eid)) (hsent : w.sent ⊆ w'.sent) :
    w'.RelayInv h D eid ∧ Later eid w w' := by
  rcases hchain with hsame | ⟨a, hrelay, hok⟩
  · exact ⟨hw.same hsame hsent, later_of_same hsame hsent⟩
  · obtain ⟨hhistories, hgrows⟩ := Chain.exec_historiesInv hw.histories hfew hok hrelay
    have hlater : Later eid w w' := ⟨hgrows, hsent⟩
    refine ⟨⟨hhistories, ?_⟩, hlater⟩
    rw [(Chain.exec_counters hok hrelay).1]
    exact hw.relayed.imp_right (World.Relayed.mono hlater)

namespace NetState

/-- The invariant of the state is that of its world. -/
theorem WriteOnceInv.here (hs : s.WriteOnceInv h D eid) : s.world.RelayInv h D eid :=
  Frames.Valid.inv (I := fun w : World => w.RelayInv h D eid) hs.relays

/-- Everything but a revert leads to a later state. -/
theorem WriteOnceInv.later {a : NetAction} (hs : s.WriteOnceInv h D eid) (hfew : s.FewEvents eid)
    (ha : a ≠ .revert) (hturn : Turn h d D eid s a s') :
    s'.world.RelayInv h D eid ∧ Later eid s.world s'.world := by
  have hw := hs.here
  cases hturn with
  | inside a w _ hchain hsent => exact hw.turned hfew hchain hsent
  | opens a w k _ hsame hsent howed => exact ⟨hw.same hsame hsent, later_of_same hsame hsent⟩
  | resumes a f fs w k _ hframes hsame hsent howed =>
    exact ⟨hw.same hsame hsent, later_of_same hsame hsent⟩
  | returns a f fs w _ hframes hsame hsent =>
    exact ⟨hw.same hsame hsent, later_of_same hsame hsent⟩
  | relayed f fs root index value w hframes hcont hchain hsent =>
    have hlater : Later eid s.world w := by
      refine ⟨?_, hsent⟩
      rw [hchain]
      exact ⟨fun _ _ => rfl, fun _ _ => rfl, fun _ _ => rfl, le_rfl, le_rfl⟩
    refine ⟨⟨?_, Or.inr ?_⟩, hlater⟩
    · rw [hchain]
      exact ⟨hw.histories.1, hw.histories.2.reserved, hw.histories.2.proved_le⟩
    · -- the index of the open call was handed over when the call sent its message
      have hrelays := hs.relays
      rw [hframes] at hrelays
      have howed := hrelays.2.1
      rw [hcont] at howed
      rw [hchain]
      exact (howed rfl).mono hlater
  | reverts f fs hframes => exact absurd rfl ha

/-- The opening of a relay marks the index before the message is sent, so that in between the
pending send owes it. -/
theorem turn_writeOnceInv {a : NetAction} (hs : s.WriteOnceInv h D eid) (hs' : s'.Inv h D)
    (hfew : s.FewEvents eid) (hturn : Turn h d D eid s a s') : s'.WriteOnceInv h D eid := by
  refine ⟨hs', ?_⟩
  have hrelays := hs.relays
  -- a revert goes back to a checkpoint, every other turn only adds
  by_cases ha : a = .revert
  · subst ha
    cases hturn with
    | reverts f fs hframes =>
      rw [hframes] at hrelays
      exact Frames.Valid.revert hrelays
    | _ => contradiction
  · obtain ⟨hw, hlater⟩ := hs.later hfew ha hturn
    cases hturn with
    | inside a w _ hchain hsent => exact Frames.Valid.mono Owed.mono Later.trans hrelays hlater hw
    | opens a w k _ hsame hsent howed => exact Frames.Valid.push hrelays hlater hw howed
    | resumes a f fs w k _ hframes hsame hsent howed =>
      rw [hframes] at hrelays
      exact Frames.Valid.resume Later.trans hrelays hlater hw howed
    | returns a f fs w _ hframes hsame hsent =>
      rw [hframes] at hrelays
      exact Frames.Valid.pop Owed.mono Later.trans hrelays hlater hw
    | relayed f fs root index value w hframes hcont hchain hsent =>
      rw [hframes] at hrelays
      exact Frames.Valid.pop Owed.mono Later.trans hrelays hlater hw
    | reverts f fs hframes => exact absurd rfl ha

theorem step_writeOnceInv (s : NetState) (a : NetAction) (hs : s.WriteOnceInv h D eid)
    (hfew : s.FewEvents eid) : (s.step h d D a).WriteOnceInv h D eid := by
  rcases commit_cases s (s.exec h d D a) with ⟨-, heq⟩ | hok
  · rw [step, heq]
    exact hs
  · exact turn_writeOnceInv hs (exec_inv hs.state hok) hfew (exec_turn hs.state hok)

/-! ## Runs that undo nothing -/

variable (h d D) in
/-- The run reverts no call that was open when it started; `n` counts those that still are. -/
def Keeps : ℕ → NetState → List NetAction → Prop
  | _, _, [] => True
  | n, s, a :: acts => (a = .revert → s.frames = [] ∨ n < s.frames.length)
    ∧ Keeps (min n (s.step h d D a).frames.length) (s.step h d D a) acts

/-- Between transactions there is nothing to undo. -/
theorem keeps_zero (s : NetState) (acts : List NetAction) : Keeps h d D 0 s acts := by
  induction acts generalizing s with
  | nil => trivial
  | cons a acts ih =>
    refine ⟨fun _ => ?_, ?_⟩
    · rcases hframes : s.frames with _ | ⟨f, fs⟩
      · exact Or.inl rfl
      · exact Or.inr (Nat.succ_pos _)
    · rw [Nat.zero_min]
      exact ih _

/-- A revert within the frames opened since goes back to a world that is still later than the start.
-/
theorem WriteOnceInv.since {w₀ : World} {n : ℕ} {a : NetAction} (hs : s.WriteOnceInv h D eid)
    (hfew : s.FewEvents eid) (hturn : Turn h d D eid s a s')
    (hsince : Frames.Since (Later eid) w₀ n s.world s.frames)
    (hkeeps : a = .revert → s.frames = [] ∨ n < s.frames.length) :
    Frames.Since (Later eid) w₀ (min n s'.frames.length) s'.world s'.frames := by
  -- as for the invariant, but a revert must stay inside the suffix
  by_cases ha : a = .revert
  · have hdeep := hkeeps ha
    subst ha
    cases hturn with
    | reverts f fs hframes =>
      rw [hframes] at hsince hdeep
      exact hsince.revert (hdeep.resolve_left (List.cons_ne_nil _ _))
    | _ => contradiction
  · obtain ⟨-, hlater⟩ := hs.later hfew ha hturn
    cases hturn with
    | inside a w _ hchain hsent => exact (hsince.mono Later.trans hlater).clip
    | opens a w k _ hsame hsent howed => exact (hsince.push Later.trans hlater).clip
    | resumes a f fs w k _ hframes hsame hsent howed =>
      rw [hframes] at hsince
      exact (hsince.resume Later.trans hlater).clip
    | returns a f fs w _ hframes hsame hsent =>
      rw [hframes] at hsince
      exact hsince.pop Later.trans hlater
    | relayed f fs root index value w hframes hcont hchain hsent =>
      rw [hframes] at hsince
      exact hsince.pop Later.trans hlater
    | reverts f fs hframes => exact absurd rfl ha

/-- So a run that reverts no frame older than its start ends in a later world. -/
theorem run_later {w₀ : World} {n : ℕ} {acts : List NetAction} (hs : s.WriteOnceInv h D eid)
    (hfew : Along (NetState.step h d D) (fun s _ => s.FewEvents eid) s acts)
    (hsince : Frames.Since (Later eid) w₀ n s.world s.frames) (hkeeps : Keeps h d D n s acts) :
    Later eid w₀ (run (NetState.step h d D) s acts).world := by
  induction acts generalizing s n with
  | nil => exact hsince.1
  | cons a acts ih =>
    obtain ⟨hfew, hfewRest⟩ := hfew
    obtain ⟨hdeep, hkeeps⟩ := hkeeps
    refine ih (step_writeOnceInv s a hs hfew) hfewRest ?_ hkeeps
    rcases commit_cases s (s.exec h d D a) with ⟨-, heq⟩ | hok
    · rw [step, heq]
      exact hsince.clip
    · exact hs.since hfew (exec_turn hs.state hok) hsince hdeep

end NetState

variable (D eid) in
/-- The flag of the Verifier behind `eid` is backed by a message for the Hub. -/
structure World.RelayHonest (w : World) : Prop where
  relayed_le : (w.chains eid).verifier.latestRelayedIndex
    ≤ (w.chains eid).verifier.latestProvedIndex
  handed : (w.chains eid).verifier.isUpToDate = true →
    0 < (w.chains eid).verifier.latestProvedIndex →
    w.Handed D eid (w.chains eid).verifier.latestProvedIndex

/-- With no send pending, every marked index was handed on. -/
theorem World.RelayInv.honest (hw : w.RelayInv h D eid) : w.RelayHonest D eid := by
  refine ⟨?_, ?_⟩
  · rcases hw.relayed with hzero | ⟨hne, -⟩
    · rw [hzero]
      exact Nat.zero_le _
    · exact hw.histories.2.proved_le _ hne
  · intro hflag hpos
    rw [Verifier.isUpToDate, beq_iff_eq] at hflag
    rw [hflag] at hpos ⊢
    exact (hw.relayed.resolve_left (Nat.ne_of_gt hpos)).2

/-- **Histories are write-once and the relay flag is honest.** After any run `xs` the flag is
honest. In any continuation `ys` that undoes no call that was open then, the tables keep their
entries and the counters do not go back; after a transaction every continuation is one. -/
theorem verifier_write_once (h : Hashes) (d : ℕ → DeciderSets) (D : Deployment) (eid : ℕ)
    (xs ys : List NetAction)
    (hfew : Along (NetState.step h d D) (fun s _ => s.FewEvents eid) (D.initial h) (xs ++ ys)) :
    let s := run (NetState.step h d D) (D.initial h) xs
    s.world.RelayHonest D eid
      ∧ (s.frames = [] ∨ NetState.Keeps h d D s.frames.length s ys →
        (s.world.chains eid).verifier.Grows
          ((run (NetState.step h d D) s ys).world.chains eid).verifier) := by
  obtain ⟨hbefore, hafter⟩ := Along.append.mp hfew
  have hinit : (D.initial h).WriteOnceInv h D eid := NetState.initial_writeOnceInv
  have hs := run_induction_along hinit NetState.step_writeOnceInv hbefore
  refine ⟨hs.here.honest, fun hundo => ?_⟩
  have hkeeps : NetState.Keeps h d D (run (NetState.step h d D) (D.initial h) xs).frames.length
      (run (NetState.step h d D) (D.initial h) xs) ys := by
    rcases hundo with hbetween | hkeeps
    · rw [hbetween]
      exact NetState.keeps_zero _ _
    · exact hkeeps
  exact (NetState.run_later hs hafter (Frames.Since.refl (Later.refl _)) hkeeps).grows

namespace RelayExample

/-- A relay during which the endpoint relays the same root once more. -/
def nested : List NetAction :=
  [.relay 5 0 RefundExample.fee, .relay 5 0 RefundExample.fee, .send, .finish, .send, .finish]

end RelayExample

/-- The same for the run in which the relay's refund starts another relay. -/
theorem verifier_write_once_nested :
    ((RefundExample.after RelayExample.nested).world.chains 5).verifier.isUpToDate = true
      ∧ (RefundExample.after RelayExample.nested).world.Handed RefundExample.deployment 5 1 := by
  have hflag : ((RefundExample.after RelayExample.nested).world.chains 5).verifier.isUpToDate
      = true := by decide +kernel
  have hindex : ((RefundExample.after RelayExample.nested).world.chains 5).verifier.latestProvedIndex
      = 1 := by decide +kernel
  have hhonest : (RefundExample.after RelayExample.nested).world.RelayHonest
      RefundExample.deployment 5 :=
    (verifier_write_once realHashes (fun _ => depositDeciders) RefundExample.deployment 5
      (RefundExample.setup ++ RelayExample.nested) [] (by decide +kernel)).1
  exact ⟨hflag, hindex ▸ hhonest.handed hflag (hindex ▸ Nat.one_pos)⟩

end Zerc20
