import Zerc20.Contracts.Genuine

/-!
# Teleports on the network

`teleport_conservation` takes the stored roots as genuine. On the network they are, so here the same
is proved of the Hub, the Verifiers and LayerZero together, from the soundness of the deciders alone.

Two things are new. The slots of the aggregation tree are assigned in the course of the run, so a
transfer is located by the slots there are at the time, and later slots leave it where it is
(`RecordSound.register`). And a call may be reverted, which undoes the teleports made meanwhile; the
invariant is therefore one of all worlds that the run may go back to.
-/

namespace Zerc20

open Machine HashTree Zkp

/-! ## More slots -/

section

variable {ι : Type} [DecidableEq ι] {R R' : Registry ι} {W : WithdrawWitnesses} {h : Hashes}
  {s : System ι} {i : ι} {r : TeleportRecord}

omit [DecidableEq ι] in
/-- Another registered chain moves no place. -/
theorem locate_register (hR : ∀ j k, R.chainAt j = some k → R'.chainAt j = some k)
    {isGlobal : Bool} {o : Opening} {l : Location ι} (hl : locate R i isGlobal o = some l) :
    locate R' i isGlobal o = some l := by
  cases isGlobal with
  | false => exact hl
  | true =>
    simp only [locate, if_true, Option.map_eq_some_iff] at hl ⊢
    obtain ⟨j, hj, rfl⟩ := hl
    exact ⟨j, hR _ _ hj, rfl⟩

/-- What a teleport opened stays where it is when slots are added. -/
theorem RecordSound.register (hR : ∀ j k, R.chainAt j = some k → R'.chainAt j = some k)
    (hr : RecordSound R W h s i r) : RecordSound R' W h s i r := by
  have hlocations : r.locations R' W i = r.locations R W i := by
    refine List.filterMap_congr fun o ho => ?_
    obtain ⟨l, hl, -⟩ := hr.located o ho
    rw [locate_register hR hl, hl]
  refine ⟨fun o ho => ?_, by rw [hlocations]; exact hr.value_le⟩
  obtain ⟨l, hl, hstands⟩ := hr.located o ho
  exact ⟨l, locate_register hR hl, hstands⟩

end

/-! ## One action on one chain -/

variable {h : Hashes} {d : ℕ → DeciderSets} {D : Deployment} {s s' : NetState} {eid : ℕ}
  {W : WithdrawWitnesses}

section

variable {a : NetAction} {c : Chain}

/-- A turn of a chain only adds to its events. -/
theorem ChainTurn.events_grow (hturn : ChainTurn h d (D := D) eid s a c) :
    (s.world.chains eid).token.events <+: c.token.events := by
  refine hturn.elim (P := fun c => (s.world.chains eid).token.events <+: c.token.events) ?_ ?_ ?_
  · exact List.prefix_refl _
  · exact fun b _ => Chain.step_events_grow h (d eid) _ b
  · exact fun _ _ => List.prefix_refl _

theorem ChainTurn.historyInv (hturn : ChainTurn h d (D := D) eid s a c)
    (hhistory : (s.world.chains eid).token.HistoryInv h) : c.token.HistoryInv h := by
  refine hturn.elim (P := fun c => c.token.HistoryInv h) hhistory ?_ ?_
  · exact fun b _ => Chain.step_historyInv h (d eid) hhistory b
  · exact fun _ _ => hhistory

/-- The counters and the mints agree after the action as well. -/
theorem ChainTurn.teleportInv (hturn : ChainTurn h d (D := D) eid s a c)
    (hhistory : (s.world.chains eid).token.HistoryInv h)
    (hinv : (s.world.chains eid).TeleportInv h) : c.TeleportInv h := by
  refine hturn.elim (P := fun c => c.TeleportInv h) hinv ?_ ?_
  · exact fun b _ => Chain.step_teleportInv hhistory hinv b
  · exact fun _ _ => hinv.of_same (List.prefix_refl _) rfl rfl rfl

/-- Only an accepted teleport is recorded. -/
theorem ChainTurn.records (hturn : ChainTurn h d (D := D) eid s a c) :
    c.records = (s.world.chains eid).records
      ∨ ∃ r : TeleportRecord,
        r.evidence.Claims (d eid (s.world.chains eid).verifier.verifiers) r.claim
        ∧ (s.world.chains eid).Teleported h c r := by
  refine hturn.elim (P := fun c => c.records = (s.world.chains eid).records
    ∨ ∃ r : TeleportRecord,
      r.evidence.Claims (d eid (s.world.chains eid).verifier.verifiers) r.claim
      ∧ (s.world.chains eid).Teleported h c r) (Or.inl rfl) (fun b _ => ?_) fun _ _ => Or.inl rfl
  cases Chain.step_verifierCause h (d eid) (s.world.chains eid) b with
  | tables _ hrecords => exact Or.inl hrecords
  | reserve _ hrecords => exact Or.inl hrecords
  | prove _ _ _ hrecords => exact Or.inl hrecords
  | receive _ _ _ _ _ _ hrecords => exact Or.inl hrecords
  | teleport r hclaims hr => exact Or.inr ⟨r, hclaims, hr⟩

end

/-! ## The counters and the mints -/

/-- Whatever the deciders accept, the counters agree with the mints. -/
def World.LedgerInv (h : Hashes) (w : World) : Prop :=
  ∀ eid, (w.chains eid).token.HistoryInv h ∧ (w.chains eid).TeleportInv h

theorem initial_ledgerInv : (D.initial h).world.LedgerInv h := by
  refine fun eid => ⟨⟨rfl, rfl⟩, fun _ => rfl, fun _ => Or.inl rfl, ?_, ?_, ?_, List.nodup_nil⟩
  · exact fun _ hr => absurd hr List.not_mem_nil
  · exact fun _ hr => absurd hr List.not_mem_nil
  · exact fun _ hr => absurd hr List.not_mem_nil

/-- So the ledgers of all chains are sound after every run. -/
theorem NetState.run_ledgerInv (acts : List NetAction) :
    (run (NetState.step h d D) (D.initial h) acts).world.LedgerInv h := by
  refine (run_allWorlds (I := World.LedgerInv h) (C := fun _ _ => True) initial_inv
    (initial_allWorlds initial_ledgerInv) ?_ (Along.of_forall fun _ _ => trivial)).2.1
  intro t a t' _ _ hw _ hok ha eid
  have hturn := exec_chainTurn eid hok ha
  exact ⟨hturn.historyInv (hw eid).1, hturn.teleportInv (hw eid).1 (hw eid).2⟩

/-! ## The invariant -/

/-- The slots of the aggregation tree. -/
def World.registry (w : World) : Registry ℕ := Registry.ofEids w.hub.eids

variable (h W) in
/-- Every accepted teleport opened recorded transfers. -/
def World.RecordsSound (w : World) : Prop :=
  ∀ eid, ∀ r ∈ (w.chains eid).records, RecordSound w.registry W h w.chains eid r

variable (h W) in
/-- The Poseidon inputs of the histories, the stored roots and the openings. -/
def World.teleportInputs (w : World) : Set (Fr × Fr) :=
  Zerc20.teleportInputs w.registry W (fun _ => w.histories) h w.chains

variable (h d D W) in
/-- What a run hashes with Poseidon at one action: the root proof that it submits, and the state
before and after it. -/
def networkInputs (V : RootProof → List RootExternalInputs) (s : NetState) (a : NetAction) :
    Set (Fr × Fr) :=
  rootInputs h d V s a ∪ (s.world.teleportInputs h W ∪ (s.step h d D a).world.teleportInputs h W)

variable {Q : Set (Fr × Fr)} {a : NetAction}

/-- A teleport on any chain is about a genuine root, so that its record is sound. Every other step
keeps the records and adds to the transfers. -/
theorem NetState.exec_recordsSound (hW : ∀ eid, DecidersSound h (d eid) W)
    (hinj : Set.InjOn (Function.uncurry h.poseidon2) Q)
    (hzero : ¬ Preimage (Function.uncurry h.poseidon2) 0 Q) (hs : s.Inv h D)
    (hgenuine : s.world.GenuineInv h) (hgenuine' : s'.world.GenuineInv h)
    (hbefore : s.world.teleportInputs h W ⊆ Q) (hafter : s'.world.teleportInputs h W ⊆ Q)
    (hw : s.world.RecordsSound h W) (hok : s.exec h d D a = .ok s') (ha : a ≠ .revert) :
    s'.world.RecordsSound h W := by
  have hgrows : System.Grows s.world.chains s'.world.chains :=
    fun eid => (exec_chainTurn eid hok ha).events_grow
  have hregister : ∀ j k, s.world.registry.chainAt j = some k →
      s'.world.registry.chainAt j = some k := by
    intro j k
    exact Registry.ofEids_extend (((exec_move hs hok).hubMove ha).eids hgenuine.placed)
      hgenuine'.placed.eids_nodup
  -- transfers and slots are only added, so what was opened before stays where it is
  have hkeep : ∀ eid r, RecordSound s.world.registry W h s.world.chains eid r →
      RecordSound s'.world.registry W h s'.world.chains eid r :=
    fun eid r hr => (hr.grow hgrows).register hregister
  intro eid r hr
  rcases (exec_chainTurn eid hok ha).records with hrecords | ⟨r', hclaims, hr'⟩
  · rw [hrecords] at hr
    exact hkeep eid r (hw eid r hr)
  · rw [hr'.records, List.mem_append, List.mem_singleton] at hr
    rcases hr with hr | rfl
    · exact hkeep eid r (hw eid r hr)
    · -- a new teleport is judged by the roots that were stored before it
      refine hkeep eid r (hr'.recordSound (hW eid)
        (hgenuine.rootsGenuine (Frames.Valid.inv hs)) hinj hzero hbefore ?_ hclaims)
      intro o ho q hq
      refine hafter (Or.inr ⟨eid, r, ?_, o, ho, hq⟩)
      rw [hr'.records]
      exact List.mem_append_right _ List.mem_cons_self

theorem initial_recordsSound : (D.initial h).world.RecordsSound h W :=
  fun _ _ hr => absurd hr List.not_mem_nil

/-! ## Runs -/

/-- In a run without collisions every accepted teleport opened recorded transfers. -/
theorem NetState.run_recordsSound {V : RootProof → List RootExternalInputs}
    {acts : List NetAction} (hV : ∀ eid vs p, (d eid vs).rootDecider p = true → p.Satisfied h (V p))
    (hW : ∀ eid, DecidersSound h (d eid) W)
    (hinit : INITIAL_TRANSFER_ROOT = (transferRoot h []).val)
    (hfew : Along (NetState.step h d D) (fun s _ => ∀ eid, s.FewEvents eid) (D.initial h) acts)
    (hP : ¬ Collision (Function.uncurry h.poseidon2)
      (gathered (NetState.step h d D) (networkInputs h d D W V) (D.initial h) acts))
    (hzero : ¬ Preimage (Function.uncurry h.poseidon2) 0
      (gathered (NetState.step h d D) (networkInputs h d D W V) (D.initial h) acts))
    (hC : ¬ Collision (hashChainOf h)
      (gathered (NetState.step h d D) (rootChainInputs h d V) (D.initial h) acts)) :
    (run (NetState.step h d D) (D.initial h) acts).world.GenuineInv h
      ∧ (run (NetState.step h d D) (D.initial h) acts).world.RecordsSound h W := by
  have hinj := injOn_of_not_collision hP
  have hsteps := ((along_gathered (networkInputs h d D W V) (D.initial h) acts).and
    (along_gathered (rootChainInputs h d V) (D.initial h) acts)).and hfew
  refine (run_allWorlds (I := fun w => w.GenuineInv h ∧ w.RecordsSound h W) initial_inv
    (initial_allWorlds ⟨initial_genuineInv hinit, initial_recordsSound⟩) ?_ hsteps).2.1
  rintro t a t' ht - ⟨hgenuine, hsound⟩ ⟨⟨hposeidon, hchain⟩, hevents⟩ hok ha
  -- the roots first: the openings are judged by them on both sides of the action
  have hgenuine' := exec_genuineInv hV hinj (injOn_of_not_collision hC) ht hgenuine
    ⟨Set.subset_union_left.trans hposeidon, hchain, hevents⟩ hok ha
  have hstates := Set.subset_union_right.trans hposeidon
  have hstep : t.step h d D a = t' := by rw [NetState.step, hok, commit]
  rw [hstep] at hstates
  exact ⟨hgenuine', exec_recordsSound hW hinj hzero ht hgenuine hgenuine'
    (Set.subset_union_left.trans hstates) (Set.subset_union_right.trans hstates) hsound hok ha⟩

/-- **Conservation on the network.** After every run of the contracts and LayerZero, the counter of
a recipient is the sum of what was minted for it. It is covered by distinct transfers that its
teleports opened, and no transfer counts for two recipients, unless the run exhibits a collision.
`V` and `W` pick the attacker's witnesses for the accepted proofs. -/
theorem network_conservation (h : Hashes) (d : ℕ → DeciderSets)
    (V : RootProof → List RootExternalInputs) (W : WithdrawWitnesses)
    (hV : ∀ eid vs p, (d eid vs).rootDecider p = true → p.Satisfied h (V p))
    (hW : ∀ eid, DecidersSound h (d eid) W)
    (hinit : INITIAL_TRANSFER_ROOT = (transferRoot h []).val) (D : Deployment)
    (acts : List NetAction)
    (hfew : Along (NetState.step h d D) (fun s _ => ∀ eid, s.FewEvents eid) (D.initial h) acts)
    (s : NetState) (hreach : run (NetState.step h d D) (D.initial h) acts = s) :
    (∀ eid, (s.world.chains eid).TeleportInv h)
      ∧ ((∀ eid recipient, (s.world.chains eid).verifier.totalTeleported recipient
          ≤ ∑ l ∈ opened s.world.registry W s.world.chains eid recipient,
            System.valueAt s.world.chains l)
        ∧ ((∀ eid eid' recipient recipient', recipient ≠ recipient' →
            Disjoint (opened s.world.registry W s.world.chains eid recipient)
              (opened s.world.registry W s.world.chains eid' recipient'))
          ∨ BurnCollision W h s.world.chains)
      ∨ Collision (Function.uncurry h.poseidon2)
          (gathered (NetState.step h d D) (networkInputs h d D W V) (D.initial h) acts)
      ∨ Preimage (Function.uncurry h.poseidon2) 0
          (gathered (NetState.step h d D) (networkInputs h d D W V) (D.initial h) acts)
      ∨ Collision (hashChainOf h)
          (gathered (NetState.step h d D) (rootChainInputs h d V) (D.initial h) acts)) := by
  subst hreach
  have hledger := NetState.run_ledgerInv (h := h) (d := d) (D := D) acts
  refine ⟨fun eid => (hledger eid).2, ?_⟩
  -- the counters needed nothing of the proofs; what covers them does
  rw [or_iff_not_imp_right, not_or, not_or]
  rintro ⟨hP, hzero, hC⟩
  obtain ⟨-, hsound⟩ := NetState.run_recordsSound hV hW hinit hfew hP hzero hC
  refine ⟨fun eid recipient => ?_, ?_⟩
  · exact totalTeleported_le_opened (hledger eid).2 (hsound eid) recipient
  · rw [or_iff_not_imp_right]
    exact fun hburn eid eid' recipient recipient' hne => disjoint_opened hsound hburn hne

/-! ## A teleport from the aggregation root

The deposit of `BurnExample`, relayed to the Hub and broadcast back. The withdraw proof opens the
aggregation tree, six levels above the transfer tree. -/

namespace GlobalBurnExample

open BurnExample (burnAt recipient rootProof siblings)

def root : ℕ := 2824855913530925464561691788582981372688150369044606215221850358985506443100

def withdrawProof : WithdrawProof := fun i =>
  if i = 1 ∨ i = 5 then ⟨root, by decide⟩
  else if i = 2 ∨ i = 6 then BurnExample.withdrawProof i
  else if i = 7 then 2
  else if i = 8 then 3
  else 0

def deciders : DeciderSets := fun _ =>
  { rootDecider := fun p => decide (p = rootProof)
    withdrawDecider := fun isGlobal p => isGlobal && decide (p = withdrawProof)
    singleWithdrawVerifier := fun _ _ => false }

def allSiblings : List Fr := siblings ++ (List.range' 0 6).map (zeroAt realHashes.poseidon2 0)

def witnesses : WithdrawWitnesses where
  batch _ _ := [⟨false, (5 : ℕ), (3296 : ℕ), 0, allSiblings⟩, ⟨true, (2 : ℕ), 0, 1, allSiblings⟩]
  single _ _ := ⟨0, 0, 0, 0, []⟩

def rootWitness : List RootExternalInputs :=
  [⟨false, addressToFr burnAt, (5 : ℕ), siblings⟩, ⟨true, 0, 0, siblings⟩]

def relayed : Message := { RefundExample.message with payload := (rootProof 6, 1) }

def broadcast : Message := { BroadcastExample.message with payload := (toWord root, 1) }

def acts : List NetAction :=
  [.registerToken 1 ⟨1, 5, 3, 8⟩, .setHubPeer 1 5 3, .chain 5 (.setPeer 1 30101 9),
    .chain 5 (.depositNative burnAt 5), .chain 5 .reserveHashChain,
    .chain 5 (.proveTransferRoot rootProof), .relay 5 0 RefundExample.fee, .send, .finish,
    .deliver relayed, .broadcast 1 [5] (fun _ => RefundExample.fee), .send, .refund, .finish,
    .deliver broadcast, .chain 5 (.teleport true 1 recipient withdrawProof)]

theorem decidersSound : DecidersSound realHashes deciders witnesses := by
  refine ⟨?_, fun _ _ _ hacc => absurd hacc Bool.false_ne_true⟩
  intro _ isGlobal p hacc
  simp only [deciders, Bool.and_eq_true, decide_eq_true_eq] at hacc
  obtain ⟨rfl, rfl⟩ := hacc
  refine ⟨by decide +kernel, ?_⟩
  decide +kernel

theorem rootProof_satisfied : rootProof.Satisfied realHashes rootWitness := by
  unfold RootProof.Satisfied
  decide +kernel

end GlobalBurnExample

theorem network_conservation_burn :
    let d := fun _ => GlobalBurnExample.deciders
    let D := RefundExample.deployment
    ∃ s, run (NetState.step realHashes d D) (D.initial realHashes) GlobalBurnExample.acts = s
      ∧ (s.world.chains 5).verifier.totalTeleported BurnExample.recipientHash = 3
      ∧ (∀ eid, (s.world.chains eid).TeleportInv realHashes) := by
  intro d D
  obtain ⟨s, hreach⟩ : ∃ s, run (NetState.step realHashes d D) (D.initial realHashes)
      GlobalBurnExample.acts = s := ⟨_, rfl⟩
  have htotal : (s.world.chains 5).verifier.totalTeleported BurnExample.recipientHash = 3 := by
    rw [← hreach]
    decide +kernel
  have hV : ∀ (eid : ℕ) vs p, (d eid vs).rootDecider p = true →
      p.Satisfied realHashes GlobalBurnExample.rootWitness := by
    intro _ _ p hp
    rw [of_decide_eq_true hp]
    exact GlobalBurnExample.rootProof_satisfied
  exact ⟨s, hreach, htotal, (network_conservation realHashes d
    (fun _ => GlobalBurnExample.rootWitness) GlobalBurnExample.witnesses hV
    (fun _ => GlobalBurnExample.decidersSound) transferRoot_empty.symm D GlobalBurnExample.acts
    (NetState.fewEvents_along (by decide)) s hreach).1⟩

end Zerc20
