import Zerc20.Crosschain.RelayJob
import Zerc20.Contracts.NetworkTeleports

/-!
# From a proved root to the other chains

A pass of the relay job, the delivery of its message, a pass of the broadcast job, the delivery of
that. In between, and between the passes and the deliveries, the run may do anything: other
relays and broadcasts, calls that are reverted, messages out of order. What LayerZero owes is that
the two messages are accepted at some time (`Accepted`).

Each stage leaves something behind that no later action takes away: the message itself, a leaf of
at least its index (`Kept`), an assigned snapshot with that leaf, and at last the stored root
(`Arrived`).
-/

namespace Zerc20

open Machine HashTree Zkp

variable (h : Hashes) (d : ℕ → DeciderSets) (D : Deployment)

/-- The run delivers the message between transactions, and the receiver accepts it. -/
def Accepted (s : NetState) (acts : List NetAction) (m : Message) : Prop :=
  ∃ xs ys, acts = xs ++ .deliver m :: ys ∧ (run (NetState.step h d D) s xs).frames = []
    ∧ ∃ s', (run (NetState.step h d D) s xs).exec h d D (.deliver m) = .ok s'

/-- The leaf of `src` is a root of at least `n` transfers. -/
def Kept (src n : ℕ) (u : Hub) : Prop := u.eidToPosition src ≠ 0 ∧ n ≤ (u.leaf src).2

/-- The Verifier behind `dst` stores a root of the tree that holds, in the slot of `src`, the root of
at least its first `n` transfers. -/
def Arrived (w : World) (src dst n : ℕ) : Prop :=
  ∃ seq j k, w.registry.chainAt j = some src ∧ w.histories seq j = some k ∧ n ≤ k
    ∧ (w.chains dst).verifier.globalTransferRoots seq
      = (node h.poseidon2 (aggregationLeaf h w.registry w.chains (w.histories seq))
        aggregationHeight 0).val

variable {h d D} {s s' t : NetState} {w : World} {src dst n : ℕ} {acts : List NetAction}
  {m : Message}

/-! ## The leaf -/

/-- Every move of the Hub keeps the leaf of a chain at that index or a later one. -/
theorem HubMove.kept {u u' : Hub} (hmove : HubMove u u') (hu : u.Placed) (hkept : Kept src n u) :
    Kept src n u' := by
  obtain ⟨hpos, hle⟩ := hkept
  cases hmove with
  | unmoved hsame =>
    rw [Kept, hsame.position, hsame.leaf]
    exact ⟨hpos, hle⟩
  -- another chain is registered, since this one has its slot
  | register sender info hok =>
    have hne : src ≠ info.eid := by
      rintro rfl
      exact hpos (Hub.registerToken_eq_ok hok).1
    have hpos' : u'.eidToPosition src ≠ 0 := by
      rw [Hub.registerToken_position hok, if_neg hne]
      exact hpos
    refine ⟨hpos', ?_⟩
    rw [Hub.registerToken_leaf hok hu hpos', if_neg hne]
    exact hle
  | update sender info hok =>
    rw [Kept, Hub.updateToken_leaf hok]
    obtain ⟨-, rfl⟩ := Hub.updateToken_eq_ok hok
    exact ⟨hpos, hle⟩
  -- its leaf only moves to newer indices
  | receive sender srcEid originSender payload hok =>
    rw [Kept, Hub.lzReceive_position hok, Hub.lzReceive_leaf hok hu hpos]
    refine ⟨hpos, ?_⟩
    split
    · exact hle.trans (Latest.version_le_receive _ _)
    · exact hle
  | done ctx hdone =>
    rw [hdone]
    exact ⟨hpos, hle⟩

/-- From a state between transactions on, a leaf stays. -/
theorem Kept.later (hs : s.Inv h D) (hbetween : s.frames = []) (hplaced : s.world.hub.Placed)
    (hkept : Kept src n s.world.hub) (acts : List NetAction) :
    Kept src n (run (NetState.step h d D) s acts).world.hub := by
  have hrel := NetState.run_world_rel (h := h) (d := d) (D := D)
    (E := fun w w' => w.hub.Placed → Kept src n w.hub → w'.hub.Placed ∧ Kept src n w'.hub)
    (fun w hw hk => ⟨hw, hk⟩)
    (fun a b c hab hbc ha hk => by
      obtain ⟨hb, hk'⟩ := hab ha hk
      exact hbc hb hk')
    (fun t a t' ht _ hok ha hw hk => by
      have hmove := (NetState.exec_move ht hok).hubMove ha
      exact ⟨hmove.placed hw, hmove.kept hw hk⟩) hs hbetween acts
  exact (hrel hplaced hkept).2

theorem NetState.run_placed (acts : List NetAction) :
    (run (NetState.step h d D) (D.initial h) acts).world.hub.Placed := by
  refine (run_allWorlds (I := fun w => w.hub.Placed) (C := fun _ _ => True) initial_inv
    (initial_allWorlds (Hub.initial_placed h _ _)) ?_ (Along.of_forall fun _ _ => trivial)).2.1
  intro t a t' ht _ hw _ hok ha
  exact ((exec_move ht hok).hubMove ha).placed hw

/-- A message that the Hub accepted is in the leaf, or a newer one is. -/
theorem Accepted.kept (hacc : Accepted h d D (D.initial h) acts m) (hhub : D.AtHub m) :
    Kept m.srcEid m.payload.2.val
      (run (NetState.step h d D) (D.initial h) acts).world.hub := by
  obtain ⟨xs, ys, rfl, hbetween, s', hok⟩ := hacc
  have hplaced := NetState.run_placed (h := h) (d := d) (D := D) xs
  have hinv := run_induction (NetState.initial_inv (h := h) (D := D)) (NetState.step_inv (d := d)) xs
  rw [run_append, run_cons, NetState.step, hok, commit]
  generalize run (NetState.step h d D) (D.initial h) xs = s at hbetween hok hplaced hinv
  have hinv' := NetState.exec_inv hinv hok
  obtain ⟨_, -, hdeliver⟩ := bind_eq_ok.mp hok
  obtain ⟨w, hw, rfl⟩ := NetState.within_eq_ok hdeliver
  rw [World.deliver, if_pos ⟨hhub.1, hhub.2⟩] at hw
  obtain ⟨u, hu, rfl⟩ := World.withHub_eq_ok hw
  have hpos : s.world.hub.eidToPosition m.srcEid ≠ 0 := (Hub.lzReceive_eq_ok hu).2.2.1
  refine Kept.later hinv' hbetween (Hub.lzReceive_placed hu hplaced) ?_ ys
  rw [Kept, Hub.lzReceive_position hu, Hub.lzReceive_leaf hu hplaced hpos, if_pos rfl]
  exact ⟨hpos, Latest.message_le_receive _ (m.payload.1.val, m.payload.2.val)⟩

/-! ## The broadcast -/

/-- `broadcast` and the calls that it makes. -/
def broadcastActions (value : ℕ) (targetEids : List ℕ) (quote : ℕ → MessagingFee)
    (refunds : Bool) : List NetAction :=
  .broadcast value targetEids quote :: (List.replicate targetEids.length .send
    ++ ((if refunds then [.refund] else []) ++ [.finish]))

/-- The message brings the root of the broadcast to the Verifier behind `eid`. -/
def Message.Carries (D : Deployment) (ctx : BroadcastContext) (eid : ℕ) (m : Message) : Prop :=
  m.dstEid = eid ∧ m.receiver = (D.verifierAddr eid).val
    ∧ m.payload = (toWord ctx.aggregationRoot, toWord ctx.nextAggSeq)

/-- The Hub's own message goes to another chain. -/
theorem Message.Carries.not_atHub {ctx : BroadcastContext} (hm : m.Carries D ctx dst) :
    ¬ D.AtHub m := by
  obtain ⟨rfl, hreceiver, -⟩ := hm
  rintro ⟨hdst, haddr⟩
  rw [hreceiver, hdst] at haddr
  exact D.hubAddr_ne (Fin.ext haddr)

/-- The sends of an open broadcast. -/
theorem sends_accepted {c : World} {fs : List (Frames.Frame World Pending)}
    {ctx : BroadcastContext} {fees : List (ℕ × ℕ)} {refund : ℕ}
    (hframes : s.frames = ⟨c, .broadcast ctx fees refund⟩ :: fs)
    (hpeers : ∀ eid, s.world.hub.peers eid = 0
      ∨ s.world.hub.peers eid = (D.verifierAddr eid).val)
    (hok : AllAccepted (NetState.exec h d D) s (List.replicate fees.length .send) t) :
    t.frames = ⟨c, .broadcast ctx [] refund⟩ :: fs ∧ t.world.assigned = s.world.assigned
      ∧ ∃ ms, t.world.sent = s.world.sent ++ ms
        ∧ ∀ eid ∈ fees.map Prod.fst, ∃ m ∈ ms, m.Carries D ctx eid := by
  -- each send serves the target at the head
  induction fees generalizing s with
  | nil =>
    cases hok
    exact ⟨hframes, rfl, [], (List.append_nil _).symm, fun _ hm => absurd hm List.not_mem_nil⟩
  | cons x fees ih =>
    obtain ⟨eid, fee⟩ := x
    obtain ⟨s', hsend, hrest⟩ := hok
    simp only [NetState.exec, NetState.send, hframes] at hsend
    obtain ⟨w, hw, rfl⟩ := NetState.resume_eq_ok hsend
    simp only [World.hubSend, bind_eq_ok, require_eq_ok, exists_const] at hw
    obtain ⟨hpeer, -, hret⟩ := hw
    cases hret
    obtain ⟨hframes', hassigned, ms, hms, hcarries⟩ := ih rfl (by exact hpeers) hrest
    refine ⟨hframes', hassigned, _ :: ms, by rw [hms, List.append_assoc]; rfl, ?_⟩
    intro eid' heid'
    rcases List.mem_cons.mp heid' with rfl | heid'
    · exact ⟨_, List.mem_cons_self, rfl, (hpeers _).resolve_left hpeer, rfl⟩
    · obtain ⟨m, hm, hcarry⟩ := hcarries eid' heid'
      exact ⟨m, List.mem_cons_of_mem _ hm, hcarry⟩

/-- The end of a broadcast. -/
theorem closing_accepted {c : World} {fs : List (Frames.Frame World Pending)}
    {ctx : BroadcastContext} {refund : ℕ} {refunds : Bool}
    (hframes : s.frames = ⟨c, .broadcast ctx [] refund⟩ :: fs)
    (hok : AllAccepted (NetState.exec h d D) s ((if refunds then [.refund] else []) ++ [.finish])
      t) :
    t.frames = fs ∧ t.world.assigned = s.world.assigned ∧ t.world.sent = s.world.sent := by
  have hfinish : ∀ {s : NetState} {refund : ℕ}, s.frames = ⟨c, .broadcast ctx [] refund⟩ :: fs →
      AllAccepted (NetState.exec h d D) s [.finish] t →
      t.frames = fs ∧ t.world.assigned = s.world.assigned ∧ t.world.sent = s.world.sent := by
    rintro s refund hframes ⟨s', hok, rfl⟩
    simp only [NetState.exec, NetState.finish, hframes] at hok
    split at hok
    · cases hok
      exact ⟨rfl, rfl, rfl⟩
    · rename_i heq
      cases heq
    · cases hok
  -- with or without a remainder to pay back
  cases refunds with
  | false => exact hfinish hframes hok
  | true =>
    obtain ⟨s', hrefund, hrest⟩ := hok
    simp only [NetState.exec, NetState.refund, hframes] at hrefund
    split at hrefund
    · simp only [bind_eq_ok, require_eq_ok, exists_const] at hrefund
      obtain ⟨w, hw, rfl⟩ := NetState.resume_eq_ok hrefund.2
      cases hw
      rename_i heq
      cases heq
      obtain ⟨hfs, hassigned, hsent⟩ := hfinish rfl hrest
      exact ⟨hfs, hassigned, hsent⟩
    · cases hrefund

/-- A broadcast takes a snapshot of the leaves and sends its root to every target. -/
theorem broadcastActions_accepted {value : ℕ} {targetEids : List ℕ} {quote : ℕ → MessagingFee}
    {refunds : Bool} (hs : s.Inv h D) (hok : AllAccepted (NetState.exec h d D) s
      (broadcastActions value targetEids quote refunds) t) :
    t.frames = s.frames
      ∧ ∃ ctx ms, ctx.snapshot = s.world.hub.transferRoots
        ∧ ctx.transferTreeIndicesSnapshot = s.world.hub.transferTreeIndices
        ∧ (⟨ctx, s.world.hub.eids⟩ : Assignment) ∈ t.world.assigned
        ∧ t.world.sent = s.world.sent ++ ms
        ∧ ∀ eid ∈ targetEids, ∃ m ∈ ms, m.Carries D ctx eid := by
  obtain ⟨s₁, hopen, hrest⟩ := hok
  obtain ⟨⟨u, ctx, fees, refund⟩, hstart, hret⟩ := bind_eq_ok.mp hopen
  cases hret
  obtain ⟨-, hctx, hquote, -, rfl⟩ := Hub.broadcastStart_eq_ok (liftHub_eq_ok.mp hstart)
  -- one send for each target, then the refund and the end
  obtain ⟨s₂, hsends, hclose⟩ := AllAccepted.append.mp hrest
  have hlength : targetEids.length = fees.length := by
    rw [← Hub.quoteBroadcast_eids hquote, List.length_map]
  rw [hlength] at hsends
  obtain ⟨hframes, hassigned, ms, hms, hcarries⟩ :=
    sends_accepted rfl (by exact (Frames.Valid.inv (I := NetInv h D) hs).hub.peers) hsends
  rw [Hub.quoteBroadcast_eids hquote] at hcarries
  obtain ⟨hframes', hassigned', hsent⟩ := closing_accepted hframes hclose
  refine ⟨hframes', ctx, ms, by rw [hctx], by rw [hctx], ?_, hsent.trans hms, hcarries⟩
  rw [hassigned', hassigned]
  exact List.mem_append_right _ List.mem_cons_self

/-! ## The stored root -/

/-- From a state between transactions on, a stored aggregation root stays. -/
theorem NetState.run_global_stays (hs : s.Inv h D) (hbetween : s.frames = []) {k : ℕ}
    (hne : (s.world.chains dst).verifier.globalTransferRoots k ≠ 0) (acts : List NetAction) :
    ((run (NetState.step h d D) s acts).world.chains dst).verifier.globalTransferRoots k ≠ 0 := by
  refine run_world_rel (h := h) (d := d) (D := D)
    (E := fun w w' => (w.chains dst).verifier.globalTransferRoots k ≠ 0 →
      (w'.chains dst).verifier.globalTransferRoots k ≠ 0)
    (fun _ => id) (fun _ _ _ hab hbc => hbc ∘ hab) ?_ hs hbetween acts hne
  intro t a t' _ _ hok ha hne
  refine (exec_chainTurn dst hok ha).elim
    (P := fun c => c.verifier.globalTransferRoots k ≠ 0) hne (fun b _ => ?_) fun _ _ => hne
  rw [Chain.step_global_persist _ _ hne]
  exact hne

/-- A root that the Verifier accepted is stored, or another one with its number. -/
theorem Accepted.stored (hacc : Accepted h d D (D.initial h) acts m) (hverifier : ¬ D.AtHub m) :
    m.payload.1.val = 0
      ∨ ((run (NetState.step h d D) (D.initial h) acts).world.chains
        m.dstEid).verifier.globalTransferRoots m.payload.2.val ≠ 0 := by
  obtain ⟨xs, ys, rfl, hbetween, s', hok⟩ := hacc
  have hinv := run_induction (NetState.initial_inv (h := h) (D := D)) (NetState.step_inv (d := d)) xs
  rw [run_append, run_cons, NetState.step, hok, commit]
  generalize run (NetState.step h d D) (D.initial h) xs = s at hbetween hok hinv
  have hinv' := NetState.exec_inv hinv hok
  obtain ⟨_, -, hdeliver⟩ := bind_eq_ok.mp hok
  obtain ⟨w, hw, rfl⟩ := NetState.within_eq_ok hdeliver
  rw [World.deliver, if_neg fun hhub => hverifier ⟨hhub.1, hhub.2⟩] at hw
  split at hw
  · rcases World.chain_apply m.dstEid hw with ⟨-, hne⟩ | ⟨-, hc⟩
    · exact absurd rfl hne
    · obtain ⟨v, hv, hv'⟩ := Chain.withVerifier_eq_ok.mp hc
      obtain ⟨-, -, -, -, -, hcase, -⟩ := Verifier.lzReceive_eq_ok hv
      refine or_iff_not_imp_left.mpr fun hroot => ?_
      refine NetState.run_global_stays (k := m.payload.2.val) hinv' hbetween ?_ ys
      show (w.chains m.dstEid).verifier.globalTransferRoots m.payload.2.val ≠ 0
      rw [hv']
      -- the slot is written now, or was written before
      rcases hcase with ⟨-, heq, -⟩ | ⟨hne, heq, -⟩
      · rw [heq, Function.update_self]
        exact hroot
      · rw [heq]
        exact hne
  · cases hw

/-! ## What has arrived -/

/-- The leaves of a run are the latest of its deliveries. -/
theorem NetState.run_converged (acts : List NetAction) :
    ∃ ds, Converged (run (NetState.step h d D) (D.initial h) acts).world ds := by
  have ht : (run (Tracked.step h d D) (Tracked.initial h D) acts).Inv h D :=
    run_induction Tracked.initial_inv Tracked.step_inv acts
  have hhere := ht.converged.here
  rw [Tracked.run_state] at hhere
  exact ⟨_, hhere⟩

/-- The slot of a leaf that is kept. -/
theorem Kept.slot {ds : List Delivery} (hw : Converged w ds) (hn : 0 < n)
    (hkept : Kept src n w.hub) :
    ∃ j root k : ℕ, w.hub.eids[j]? = some src ∧ w.hub.transferRoots[j]? = some root ∧ root ≠ 0
      ∧ w.hub.transferTreeIndices[j]? = some k ∧ n ≤ k := by
  obtain ⟨hpos, hle⟩ := hkept
  have hlt := hw.placed.position_le hpos
  have hlt' : w.hub.eidToPosition src - 1 < w.hub.transferTreeIndices.length := by
    rw [hw.placed.indices_length]
    exact hlt
  have hroot : (w.hub.leaf src).1 = w.hub.transferRoots[w.hub.eidToPosition src - 1] := by
    simp [Hub.leaf, List.getD_eq_getElem?_getD, hlt]
  have hindex : (w.hub.leaf src).2 = w.hub.transferTreeIndices[w.hub.eidToPosition src - 1] := by
    simp [Hub.leaf, List.getD_eq_getElem?_getD, hlt']
  refine ⟨_, _, _, hw.placed.position src hpos, List.getElem?_eq_getElem hlt, ?_,
    List.getElem?_eq_getElem hlt', hindex ▸ hle⟩
  -- a leaf with an index was delivered, and what was delivered is a proved root
  rw [← hroot]
  rcases hw.leaf src hpos with ⟨hempty, -⟩ | ⟨hmem, -, -⟩
  · rw [hempty] at hle
    omega
  · exact (hw.proved _ (mem_messagesOf.mp hmem)).1

/-- A snapshot that was stored holds the histories up to the leaves. -/
theorem World.GenuineInv.arrived (hw : w.GenuineInv h) (hinv : NetInv h D w) {a : Assignment}
    (ha : a ∈ w.assigned) {j root k : ℕ} (heid : a.eids[j]? = some src)
    (hroot : a.ctx.snapshot[j]? = some root) (hne : root ≠ 0)
    (hindex : a.ctx.transferTreeIndicesSnapshot[j]? = some k) (hle : n ≤ k)
    (hstored : a.ctx.aggregationRoot = 0
      ∨ (w.chains dst).verifier.globalTransferRoots a.ctx.nextAggSeq ≠ 0) :
    Arrived h w src dst n := by
  have hrec := hinv.assigned a ha
  refine ⟨a.ctx.nextAggSeq, j, k, ?_, ?_, hle, ?_⟩
  · rw [World.registry, Registry.ofEids_chainAt hw.placed.eids_nodup]
    exact hrec.slot heid
  · rw [World.histories_eq hinv.unique ha, hroot, Option.bind_some, if_neg hne, hindex]
  -- what is stored under the number is that of the assignment
  · have hvalue : (w.chains dst).verifier.globalTransferRoots a.ctx.nextAggSeq
        = a.ctx.aggregationRoot := by
      by_cases hzero : (w.chains dst).verifier.globalTransferRoots a.ctx.nextAggSeq = 0
      · rw [hzero]
        exact (hstored.resolve_right (absurd hzero)).symm
      · obtain ⟨b, hb, hseq, heq⟩ := hinv.globals dst _ hzero
        rw [heq, List.inj_on_of_nodup_map hinv.unique hb ha hseq]
    rw [hvalue, hrec.root, computeAggregationRoot_eq (hw.snapshot_le hrec)]
    exact congrArg (fun f => (node h.poseidon2 f TREE_HEIGHT 0).val)
      (funext fun j => hw.leaf hinv ha j)

namespace Crosschain

variable (h d D) in
/-- A pass of the broadcast job that finds the flag off and succeeds, from a state between
transactions. -/
def BroadcastJob.Broadcasts (job : BroadcastJob) (s : NetState) (acts : List NetAction) : Prop :=
  s.frames = [] ∧ ∃ quote quote' value refunds t,
    job.executeOnce s.world.hub quote = .ok (.broadcast job.targetEids value)
      ∧ acts = broadcastActions value job.targetEids quote' refunds
      ∧ AllAccepted (NetState.exec h d D) s acts t

end Crosschain

/-- **A proved root arrives.** The relay job passes over the Verifier behind `src`, the Hub accepts
what that left with LayerZero, the broadcast job broadcasts, and the Verifier behind `dst` accepts
what that sent; anything else may happen before, after and in between. In the end `dst` stores a root
of the tree that holds at least the transfers that were proved before the first pass, unless the run
exhibits a collision. -/
theorem proved_root_arrives (h : Hashes) (d : ℕ → DeciderSets)
    (V : RootProof → List RootExternalInputs)
    (hV : ∀ eid vs p, (d eid vs).rootDecider p = true → p.Satisfied h (V p))
    (hinit : INITIAL_TRANSFER_ROOT = (transferRoot h []).val) (D : Deployment) (src dst : ℕ)
    (relayJob : Crosschain.RelayJob) (broadcastJob : Crosschain.BroadcastJob)
    (quote quote' : MessagingFee) (before relay between broadcast after acts : List NetAction)
    (hacts : acts = before ++ relay ++ between ++ broadcast ++ after)
    (hfew : Along (NetState.step h d D) (fun s _ => ∀ eid, s.FewEvents eid) (D.initial h) acts)
    (s₀ s₁ s₂ s₃ s₄ : NetState) (hs₀ : run (NetState.step h d D) (D.initial h) before = s₀)
    (hs₁ : run (NetState.step h d D) s₀ relay = s₁)
    (hs₂ : run (NetState.step h d D) s₁ between = s₂)
    (hs₃ : run (NetState.step h d D) s₂ broadcast = s₃)
    (hs₄ : run (NetState.step h d D) s₃ after = s₄)
    (hproved : 0 < (s₀.world.chains src).verifier.latestProvedIndex)
    (hrelay : relayJob.Pass h d D src quote quote' s₀ relay)
    (hin : ∀ m ∈ s₁.world.sent, m.srcEid = src → D.AtHub m →
      m.payload.2.val = (s₀.world.chains src).verifier.latestProvedIndex →
      Accepted h d D (D.initial h) (before ++ relay ++ between) m)
    (hbroadcast : broadcastJob.Broadcasts h d D s₂ broadcast)
    (hdst : dst ∈ broadcastJob.targetEids)
    (hout : ∀ m ∈ s₃.world.sent.drop s₂.world.sent.length, m.dstEid = dst →
      Accepted h d D (D.initial h) acts m) :
    Arrived h s₄.world src dst (s₀.world.chains src).verifier.latestProvedIndex
      ∨ Collision (Function.uncurry h.poseidon2)
        (gathered (NetState.step h d D) (rootInputs h d V) (D.initial h) acts)
      ∨ Collision (hashChainOf h)
        (gathered (NetState.step h d D) (rootChainInputs h d V) (D.initial h) acts) := by
  rw [or_iff_not_imp_right, not_or]
  rintro ⟨hP, hC⟩
  have hrun₁ : run (NetState.step h d D) (D.initial h) (before ++ relay) = s₁ := by
    rw [run_append, hs₀, hs₁]
  have hrun₂ : run (NetState.step h d D) (D.initial h) (before ++ relay ++ between) = s₂ := by
    rw [run_append, hrun₁, hs₂]
  have hrun₄ : run (NetState.step h d D) (D.initial h) acts = s₄ := by
    rw [hacts, run_append, run_append, hrun₂, hs₃, hs₄]
  -- the relay
  have hfew₁ : Along (NetState.step h d D) (fun s _ => s.FewEvents src) (D.initial h)
      (before ++ relay) := by
    rw [hacts] at hfew
    exact (Along.append.mp (Along.append.mp (Along.append.mp hfew).1).1).1.imp
      fun _ _ hf => hf src
  obtain ⟨hfewBefore, hfewRelay⟩ := Along.append.mp hfew₁
  have hwrite := run_induction_along NetState.initial_writeOnceInv NetState.step_writeOnceInv
    hfewBefore
  rw [hs₀] at hfewRelay hwrite
  have hhanded := hrelay.handed hwrite hfewRelay hproved
  rw [hs₁] at hhanded
  obtain ⟨m, hm, hsrc, -, hhub, -, hindex⟩ := hhanded
  -- the leaf
  have hkept := (hin m hm hsrc hhub hindex).kept hhub
  rw [hsrc, hindex, hrun₂] at hkept
  obtain ⟨ds, hconverged⟩ := NetState.run_converged (h := h) (d := d) (D := D)
    (before ++ relay ++ between)
  rw [hrun₂] at hconverged
  obtain ⟨j, root, k, heid, hroot, hne, hleaf, hle⟩ := hkept.slot hconverged hproved
  -- the snapshot
  obtain ⟨hbetween, q, q', value, refunds, t, -, rfl, hok⟩ := hbroadcast
  have hinv₂ := run_induction (NetState.initial_inv (h := h) (D := D)) (NetState.step_inv (d := d))
    (before ++ relay ++ between)
  rw [hrun₂] at hinv₂
  have ht : t = s₃ := by
    rw [← hs₃]
    exact hok.run_eq.symm
  subst ht
  obtain ⟨hframes, ctx, ms, hsnapshot, hindices, hassigned, hsent, hcarries⟩ :=
    broadcastActions_accepted hinv₂ hok
  obtain ⟨m', hm', hcarry⟩ := hcarries dst hdst
  -- the stored root
  have hstored := (hout m' (by rw [hsent, List.drop_left]; exact hm') hcarry.1).stored
    hcarry.not_atHub
  obtain ⟨hinv₄, hw⟩ := NetState.run_genuineInv hV hinit hfew hP hC
  rw [hrun₄] at hstored hinv₄ hw
  have hnet : NetInv h D s₄.world := Frames.Valid.inv hinv₄
  have hassigned₄ : (⟨ctx, s₂.world.hub.eids⟩ : Assignment) ∈ s₄.world.assigned := by
    rw [← hs₄]
    refine NetState.run_world_rel (E := fun w w' => Extends w w') Extends.refl Extends.trans
      (fun _ _ _ ht _ hok ha => ((NetState.exec_move ht hok).keeps ha).1) ?_ ?_ after
      |>.assigned _ hassigned
    · rw [← hs₃]
      exact run_induction hinv₂ NetState.step_inv _
    · exact hframes.trans hbetween
  have hrec := hnet.assigned _ hassigned₄
  have hrootWord : (toWord ctx.aggregationRoot).val = ctx.aggregationRoot := by
    refine toWord_val (Nat.lt_trans ?_ scalarModulus_lt_word)
    rw [show ctx.aggregationRoot = _ from hrec.root]
    exact computeAggregationRoot_lt _
  have hseqWord : (toWord ctx.nextAggSeq).val = ctx.nextAggSeq :=
    toWord_val (hrec.seq_lt.trans (by norm_num))
  rw [hcarry.1, hcarry.2.2, hrootWord, hseqWord] at hstored
  exact hw.arrived hnet hassigned₄ heid (hsnapshot ▸ hroot) hne (hindices ▸ hleaf) hle hstored

namespace ArrivalExample

def relayJob : Crosschain.RelayJob := ⟨1000⟩

/-- Registration and a proved root. -/
def before : List NetAction := RefundExample.setup.take 6

def relay : List NetAction := relayActions 5 0 RefundExample.fee

def broadcast : List NetAction := broadcastActions 0 [5] (fun _ => RefundExample.fee) false

def whole : List NetAction :=
  before ++ relay ++ [.deliver RefundExample.message] ++ broadcast
    ++ [.deliver BroadcastExample.message]

def after (acts : List NetAction) : NetState :=
  run (NetState.step realHashes (fun _ => depositDeciders) RefundExample.deployment)
    (RefundExample.deployment.initial realHashes) acts

/-- A delivery at the end of a run. -/
theorem accepted_last {xs : List NetAction} {m : Message} (hbetween : (after xs).frames = [])
    (hok : ((after xs).exec realHashes (fun _ => depositDeciders) RefundExample.deployment
      (.deliver m)).isOk = true) :
    Accepted realHashes (fun _ => depositDeciders) RefundExample.deployment
      (RefundExample.deployment.initial realHashes) (xs ++ [.deliver m]) m := by
  refine ⟨xs, [], rfl, hbetween, ?_⟩
  cases hexec : (after xs).exec realHashes (fun _ => depositDeciders) RefundExample.deployment
      (.deliver m) with
  | error e => rw [hexec] at hok; cases hok
  | ok s' => exact ⟨s', hexec⟩

end ArrivalExample

open ArrivalExample in
theorem proved_root_arrives_relayed :
    Arrived realHashes (after whole).world 5 5 1
      ∨ Collision (Function.uncurry realHashes.poseidon2)
        (gathered (NetState.step realHashes (fun _ => depositDeciders) RefundExample.deployment)
          (rootInputs realHashes (fun _ => depositDeciders) fun _ => depositWitness)
          (RefundExample.deployment.initial realHashes) whole)
      ∨ Collision (hashChainOf realHashes)
        (gathered (NetState.step realHashes (fun _ => depositDeciders) RefundExample.deployment)
          (rootChainInputs realHashes (fun _ => depositDeciders) fun _ => depositWitness)
          (RefundExample.deployment.initial realHashes) whole) := by
  have hV : ∀ (_ : ℕ) vs p, (depositDeciders vs).rootDecider p = true →
      p.Satisfied realHashes depositWitness := by
    intro _ _ p hp
    rw [of_decide_eq_true hp]
    exact depositProof_satisfied
  have hindex : ((after before).world.chains 5).verifier.latestProvedIndex = 1 := by
    decide +kernel
  have hbetween : (after before).frames = [] := by
    rw [← List.isEmpty_iff]
    decide +kernel
  have hrelay : relayJob.Pass realHashes (fun _ => depositDeciders) RefundExample.deployment 5
      RefundExample.fee RefundExample.fee (after before) relay := by
    refine .relayed 0 _ hbetween ?_ (AllAccepted.of_along ?_)
    · decide +kernel
    · decide +kernel
  have hbroadcast : RefundExample.job.Broadcasts realHashes (fun _ => depositDeciders)
      RefundExample.deployment (after (before ++ relay ++ [.deliver RefundExample.message]))
      broadcast := by
    refine ⟨?_, fun _ => RefundExample.fee, fun _ => RefundExample.fee, 0, false, _, ?_, rfl,
      AllAccepted.of_along ?_⟩
    · rw [← List.isEmpty_iff]
      decide +kernel
    · decide +kernel
    · decide +kernel
  -- the only messages are that of the relay and that of the broadcast
  have hin : ∀ m ∈ (after (before ++ relay)).world.sent, m = RefundExample.message := by
    decide +kernel
  have hout : ∀ m ∈ (after (before ++ relay ++ [.deliver RefundExample.message]
      ++ broadcast)).world.sent.drop (after (before ++ relay
        ++ [.deliver RefundExample.message])).world.sent.length,
      m = BroadcastExample.message := by
    decide +kernel
  have happend : ∀ xs ys : List NetAction, run (NetState.step realHashes
      (fun _ => depositDeciders) RefundExample.deployment) (after xs) ys = after (xs ++ ys) :=
    fun xs ys => (run_append _ _ _ _).symm
  rw [← hindex]
  refine proved_root_arrives realHashes (fun _ => depositDeciders) (fun _ => depositWitness) hV
    transferRoot_empty.symm RefundExample.deployment 5 5 relayJob RefundExample.job
    RefundExample.fee RefundExample.fee before relay [.deliver RefundExample.message] broadcast
    [.deliver BroadcastExample.message] whole rfl (NetState.fewEvents_along (by decide))
    (after before) (after (before ++ relay)) _ _ _ rfl (happend _ _) (happend _ _) (happend _ _)
    (happend _ _) (by rw [hindex]; exact Nat.one_pos) hrelay ?_ hbroadcast (by decide) ?_
  · intro m hm _ _ _
    rw [hin m hm]
    refine accepted_last ?_ (by decide +kernel)
    rw [← List.isEmpty_iff]
    decide +kernel
  · intro m hm _
    rw [hout m hm]
    refine accepted_last ?_ (by decide +kernel)
    rw [← List.isEmpty_iff]
    decide +kernel

end Zerc20
