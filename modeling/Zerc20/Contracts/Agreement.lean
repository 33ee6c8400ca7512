import Zerc20.Contracts.Network

/-!
# Agreement on the aggregation roots

Whatever the endpoint and the refunded callers do, all Verifiers that hold an aggregation root
for a sequence number hold the same one: the root of the snapshot the Hub took when it assigned
that number, whose leaves are proved roots of the chains they stand for.

The invariant follows a root on its way. A stored root is justified by a proved one (`Stored`),
a message by what its sender held when it was sent (`Justified`), and a root received from the
Hub by the broadcast that was assigned its number. Proved roots are write-once, so a
justification survives every later step (`Extends`).
-/

namespace Zerc20

open Machine

/-- Every root was proved by the Verifier behind its endpoint, at the index next to it. -/
def Stored (chains : ℕ → Chain) (eids roots indices : List ℕ) : Prop :=
  ∀ (i : ℕ) root, roots[i]? = some root →
    ∃ eid index, eids[i]? = some eid ∧ indices[i]? = some index
    ∧ (root = 0 ∨ (chains eid).verifier.provedTransferRoots index = root)

/-- Proved roots are still there. -/
def Persists (chains chains' : ℕ → Chain) : Prop :=
  ∀ eid i, (chains eid).verifier.provedTransferRoots i ≠ 0 →
    (chains' eid).verifier.provedTransferRoots i = (chains eid).verifier.provedTransferRoots i

/-- A root that is set is the same later. -/
theorem Persists.eq {chains chains' : ℕ → Chain} (hp : Persists chains chains')
    {eid i root : ℕ} (hne : root ≠ 0)
    (heq : (chains eid).verifier.provedTransferRoots i = root) :
    (chains' eid).verifier.provedTransferRoots i = root := by
  rw [hp eid i (by rw [heq]; exact hne), heq]

/-- So the Hub's leaves stay proved roots. -/
theorem Stored.persists {chains chains' : ℕ → Chain} (hp : Persists chains chains')
    {eids roots indices : List ℕ} (hs : Stored chains eids roots indices) :
    Stored chains' eids roots indices := by
  intro i root hroot
  obtain ⟨eid, index, heid, hindex, hcase⟩ := hs i root hroot
  refine ⟨eid, index, heid, hindex, ?_⟩
  by_cases hzero : root = 0
  · exact Or.inl hzero
  · exact Or.inr (hp.eq hzero (hcase.resolve_left hzero))

/-- A registered chain starts with the leaf 0, which claims nothing. -/
theorem Stored.register {chains : ℕ → Chain} {eids roots indices : List ℕ} (eid : ℕ)
    (hs : Stored chains eids roots indices) (heids : eids.length = roots.length)
    (hindices : indices.length = roots.length) :
    Stored chains (eids ++ [eid]) (roots ++ [0]) (indices ++ [0]) := by
  intro i root hroot
  rcases Nat.lt_or_ge i roots.length with hi | hi
  · rw [List.getElem?_append_left hi] at hroot
    obtain ⟨eid', index, heid, hindex, hcase⟩ := hs i root hroot
    refine ⟨eid', index, ?_, ?_, hcase⟩
    · rw [List.getElem?_append_left (by omega)]
      exact heid
    · rw [List.getElem?_append_left (by omega)]
      exact hindex
  · -- the new leaf
    rw [List.getElem?_append_right hi, List.getElem?_singleton] at hroot
    split at hroot
    · rename_i hlast
      have hi' : i = roots.length := by omega
      subst hi'
      refine ⟨eid, 0, ?_, ?_, Or.inl (Option.some.inj hroot).symm⟩
      · rw [← heids, List.getElem?_concat_length]
      · rw [← hindices, List.getElem?_concat_length]
    · cases hroot

/-- A delivered root is a proved one when its sender relayed it. -/
theorem Stored.set {chains : ℕ → Chain} {eids roots indices : List ℕ} {j eid root index : ℕ}
    (hs : Stored chains eids roots indices) (hlength : indices.length = roots.length)
    (heid : eids[j]? = some eid)
    (hroot : (chains eid).verifier.provedTransferRoots index = root) :
    Stored chains eids (roots.set j root) (indices.set j index) := by
  intro i root' hi
  by_cases hij : j = i
  · subst hij
    have hlt : j < roots.length := by
      have := (List.getElem?_eq_some_iff.mp hi).1
      rwa [List.length_set] at this
    rw [List.getElem?_set_self hlt] at hi
    cases hi
    exact ⟨eid, index, heid, List.getElem?_set_self (by omega), Or.inr hroot⟩
  · rw [List.getElem?_set_ne hij] at hi ⊢
    exact hs i root' hi

variable (h : Hashes) (d : ℕ → DeciderSets) (D : Deployment)

/-- The Verifiers agree on the aggregation roots, and the roots are what they should be. -/
structure Agreement (w : World) : Prop where
  agree : ∀ eid eid' s, (w.chains eid).verifier.globalTransferRoots s ≠ 0 →
    (w.chains eid').verifier.globalTransferRoots s ≠ 0 →
    (w.chains eid).verifier.globalTransferRoots s = (w.chains eid').verifier.globalTransferRoots s
  aggregated : ∀ eid s, (w.chains eid).verifier.globalTransferRoots s ≠ 0 →
    ∃ a ∈ w.assigned, a.ctx.nextAggSeq = s ∧ (w.chains eid).verifier.globalTransferRoots s
      = computeAggregationRoot h (generateZeroHashes h) a.ctx.snapshot
  /-- The leaves of a snapshot, each with the endpoint of its position on the Hub. -/
  entries : ∀ a ∈ w.assigned, a.eids <+: w.hub.tokenInfos.map TokenInfo.eid
    ∧ Stored w.chains a.eids a.ctx.snapshot a.ctx.transferTreeIndicesSnapshot
  unique : (w.assigned.map fun a => a.ctx.nextAggSeq).Nodup

/-! ## The invariant -/

/-- A sent message carries what its sender was entitled to send. -/
def Justified (w : World) (m : Message) : Prop :=
  (m.receiver = (D.verifierAddr m.dstEid).val ∧ ∃ a ∈ w.assigned,
      m.payload.1.val = a.ctx.aggregationRoot ∧ m.payload.2.val = a.ctx.nextAggSeq)
    ∨ (m.sender.val = (D.verifierAddr m.srcEid).val ∧ m.dstEid = D.hubEid
      ∧ m.receiver = D.hubAddr.val ∧ m.payload.1.val ≠ 0
      ∧ (w.chains m.srcEid).verifier.provedTransferRoots m.payload.2.val = m.payload.1.val)

/-- The contract behind `eid` is the deployed one and takes messages from the Hub only. -/
structure WiredChain (eid : ℕ) (c : Chain) : Prop where
  verifierAddr : c.verifierAddr = D.verifierAddr eid
  hubEid : c.verifier.hubEid = D.hubEid
  peer : c.verifier.peers D.hubEid = 0 ∨ c.verifier.peers D.hubEid = D.hubAddr.val
  bounded : c.verifier.Bounded

structure WiredHub (u : Hub) : Prop where
  peers : ∀ eid, u.peers eid = 0 ∨ u.peers eid = (D.verifierAddr eid).val
  zeroHash : u.zeroHash = generateZeroHashes h
  aligned : u.Aligned

/-- What was assigned a sequence number. -/
structure Recorded (w : World) (a : Assignment) : Prop where
  root : a.ctx.aggregationRoot = computeAggregationRoot h (generateZeroHashes h) a.ctx.snapshot
  seq_le : a.ctx.nextAggSeq ≤ w.hub.aggSeq
  seq_lt : a.ctx.nextAggSeq < 2 ^ 64
  eids : a.eids <+: w.hub.eids
  stored : Stored w.chains a.eids a.ctx.snapshot a.ctx.transferTreeIndicesSnapshot

structure NetInv (w : World) : Prop where
  chains : ∀ eid, WiredChain D eid (w.chains eid)
  hub : WiredHub h D w.hub
  leaves : Stored w.chains w.hub.eids w.hub.transferRoots w.hub.transferTreeIndices
  assigned : ∀ a ∈ w.assigned, Recorded h w a
  unique : (w.assigned.map fun a => a.ctx.nextAggSeq).Nodup
  sent : ∀ m ∈ w.sent, Justified D w m
  globals : ∀ eid s, (w.chains eid).verifier.globalTransferRoots s ≠ 0 → ∃ a ∈ w.assigned,
    a.ctx.nextAggSeq = s ∧ (w.chains eid).verifier.globalTransferRoots s = a.ctx.aggregationRoot

/-- Assignments and proved roots stay. -/
structure Extends (w w' : World) : Prop where
  assigned : ∀ a ∈ w.assigned, a ∈ w'.assigned
  proved : Persists w.chains w'.chains

/-- What is left of an open call is entitled to happen. -/
def Entitled (w : World) : Pending → Prop
  | .broadcast ctx _ _ => ∃ a ∈ w.assigned, a.ctx = ctx
  | .relay eid root index _ _ =>
    root ≠ 0 ∧ index < 2 ^ 64 ∧ (w.chains eid).verifier.provedTransferRoots index = root

variable {h d D} {w w' : World}

theorem Extends.refl (w : World) : Extends w w := ⟨fun _ ha => ha, fun _ _ _ => rfl⟩

theorem Extends.trans (a b c : World) (hab : Extends a b) (hbc : Extends b c) : Extends a c := by
  refine ⟨fun x hx => hbc.assigned x (hab.assigned x hx), ?_⟩
  intro eid i hne
  exact hbc.proved.eq hne (hab.proved eid i hne)

theorem Entitled.mono (w w' : World) (k : Pending) (hext : Extends w w') (hk : Entitled w k) :
    Entitled w' k := by
  cases k with
  | broadcast ctx sends refund =>
    obtain ⟨a, ha, hctx⟩ := hk
    exact ⟨a, hext.assigned a ha, hctx⟩
  | relay eid root index value sent =>
    obtain ⟨hne, hlt, hproved⟩ := hk
    exact ⟨hne, hlt, hext.proved.eq hne hproved⟩

/-- What justifies a message stays, while it is on its way. -/
theorem Justified.mono {m : Message} (hext : Extends w w') (hm : Justified D w m) :
    Justified D w' m := by
  rcases hm with ⟨hreceiver, a, ha, hpayload⟩ | ⟨hsender, hdst, hreceiver, hne, hproved⟩
  · exact Or.inl ⟨hreceiver, a, hext.assigned a ha, hpayload⟩
  · exact Or.inr ⟨hsender, hdst, hreceiver, hne, hext.proved.eq hne hproved⟩

theorem NetInv.agreement (hinv : NetInv h D w) : Agreement h w := by
  refine ⟨?_, ?_, ?_, hinv.unique⟩
  · intro eid eid' s hne hne'
    obtain ⟨a, ha, hseq, hroot⟩ := hinv.globals eid s hne
    obtain ⟨a', ha', hseq', hroot'⟩ := hinv.globals eid' s hne'
    have heq : a = a' := List.inj_on_of_nodup_map hinv.unique ha ha' (by rw [hseq, hseq'])
    rw [hroot, hroot', heq]
  · intro eid s hne
    obtain ⟨a, ha, hseq, hroot⟩ := hinv.globals eid s hne
    exact ⟨a, ha, hseq, by rw [hroot, (hinv.assigned a ha).root]⟩
  · intro a ha
    exact ⟨(hinv.assigned a ha).eids, (hinv.assigned a ha).stored⟩

/-- A Hub's call succeeds on the network when it does on the Hub. -/
theorem liftHub_eq_ok {α : Type} {r : Except HubError α} {x : α} :
    Deployment.liftHub r = .ok x ↔ r = .ok x := by
  cases r <;> simp [Deployment.liftHub, Except.mapError]

theorem liftChain_eq_ok {α : Type} {r : Except ChainError α} {x : α} :
    Deployment.liftChain r = .ok x ↔ r = .ok x := by
  cases r <;> simp [Deployment.liftChain, Except.mapError]

/-! ## Steps of the contracts -/

/-- The Hub changed, and kept its leaves justified. -/
theorem NetInv.setHub {u : Hub} (hinv : NetInv h D w) (hwired : WiredHub h D u)
    (hleaves : Stored w.chains u.eids u.transferRoots u.transferTreeIndices)
    (heids : w.hub.eids <+: u.eids) (hseq : w.hub.aggSeq ≤ u.aggSeq) :
    NetInv h D { w with hub := u } where
  chains := hinv.chains
  hub := hwired
  leaves := hleaves
  assigned a ha :=
    have hrec := hinv.assigned a ha
    ⟨hrec.root, hrec.seq_le.trans hseq, hrec.seq_lt, hrec.eids.trans heids, hrec.stored⟩
  unique := hinv.unique
  sent := hinv.sent
  globals := hinv.globals

/-- The Hub's other state is no part of what is extended. -/
theorem extends_setHub (u : Hub) : Extends w { w with hub := u } :=
  ⟨fun _ ha => ha, fun _ _ _ => rfl⟩

/-- The contracts of one chain changed, and kept their proved roots. -/
theorem NetInv.setChain {eid : ℕ} {c : Chain} (hinv : NetInv h D w) (hwired : WiredChain D eid c)
    (hpersists : Persists w.chains (Function.update w.chains eid c))
    (hglobals : ∀ s, c.verifier.globalTransferRoots s ≠ 0 → ∃ a ∈ w.assigned,
      a.ctx.nextAggSeq = s ∧ c.verifier.globalTransferRoots s = a.ctx.aggregationRoot) :
    NetInv h D { w with chains := Function.update w.chains eid c } where
  chains eid' := by
    by_cases heq : eid' = eid
    · subst heq
      simpa using hwired
    · simpa [Function.update_of_ne heq] using hinv.chains eid'
  hub := hinv.hub
  leaves := hinv.leaves.persists hpersists
  assigned a ha :=
    have hrec := hinv.assigned a ha
    ⟨hrec.root, hrec.seq_le, hrec.seq_lt, hrec.eids, hrec.stored.persists hpersists⟩
  unique := hinv.unique
  sent m hm := (hinv.sent m hm).mono (w := w) ⟨fun _ ha => ha, hpersists⟩
  globals eid' s := by
    by_cases heq : eid' = eid
    · subst heq
      simpa using hglobals s
    · simpa [Function.update_of_ne heq] using hinv.globals eid' s

/-- A chain that keeps its set roots lets all of them persist. -/
theorem persists_update {chains : ℕ → Chain} {eid : ℕ} {c : Chain}
    (hc : ∀ i, (chains eid).verifier.provedTransferRoots i ≠ 0 →
      c.verifier.provedTransferRoots i = (chains eid).verifier.provedTransferRoots i) :
    Persists chains (Function.update chains eid c) := by
  intro eid' i hne
  by_cases heq : eid' = eid
  · subst heq
    simpa using hc i hne
  · rw [Function.update_of_ne heq]

theorem NetInv.addSent {m : Message} (hinv : NetInv h D w) (hm : Justified D w m) :
    NetInv h D { w with sent := w.sent ++ [m] } where
  chains := hinv.chains
  hub := hinv.hub
  leaves := hinv.leaves
  assigned a ha :=
    have hrec := hinv.assigned a ha
    ⟨hrec.root, hrec.seq_le, hrec.seq_lt, hrec.eids, hrec.stored⟩
  unique := hinv.unique
  sent m' hm' := by
    rw [List.mem_append, List.mem_singleton] at hm'
    rcases hm' with hm' | rfl
    · exact hinv.sent m' hm'
    · exact hm
  globals := hinv.globals

/-! ### The Hub -/

/-- A call that leaves the leaves alone. -/
theorem NetInv.frameHub {u : Hub} (hinv : NetInv h D w) (harrays : u.arrays = w.hub.arrays)
    (hpeers : ∀ eid, u.peers eid = 0 ∨ u.peers eid = (D.verifierAddr eid).val)
    (hzeroHash : u.zeroHash = w.hub.zeroHash) (hseq : u.aggSeq = w.hub.aggSeq) :
    NetInv h D { w with hub := u } := by
  have hwired : WiredHub h D u :=
    ⟨hpeers, hzeroHash.trans hinv.hub.zeroHash, hinv.hub.aligned.frame harrays⟩
  simp only [Hub.arrays, Prod.mk.injEq] at harrays
  obtain ⟨hroots, hindices, hinfos, -⟩ := harrays
  have heids : u.eids = w.hub.eids := by rw [Hub.eids, hinfos, Hub.eids]
  refine hinv.setHub hwired ?_ ?_ hseq.ge
  · rw [heids, hroots, hindices]
    exact hinv.leaves
  · rw [heids]

/-- Wiring the Hub to the Verifier of a chain, or to nobody, keeps the invariant. -/
theorem NetInv.setHubPeer {u : Hub} {sender : Address} {eid : ℕ} {peer : Word}
    (hinv : NetInv h D w) (hpeer : peer.val = 0 ∨ peer.val = (D.verifierAddr eid).val)
    (hok : w.hub.setPeer sender eid peer = .ok u) : NetInv h D { w with hub := u } := by
  obtain rfl := Hub.setPeer_eq_ok hok
  refine hinv.frameHub rfl ?_ rfl rfl
  intro eid'
  by_cases heq : eid' = eid
  · subst heq
    simpa using hpeer
  · simpa [Function.update_of_ne heq] using hinv.hub.peers eid'

theorem NetInv.registerToken {u : Hub} {sender : Address} {info : TokenInfo}
    (hinv : NetInv h D w) (hok : w.hub.registerToken sender info = .ok u) :
    NetInv h D { w with hub := u } := by
  have haligned := Hub.registerToken_aligned hinv.hub.aligned hok
  have heids := Hub.registerToken_eids hok
  obtain ⟨-, -, rfl⟩ := Hub.registerToken_eq_ok hok
  refine hinv.setHub ⟨hinv.hub.peers, hinv.hub.zeroHash, haligned⟩ ?_ ?_ le_rfl
  · rw [heids]
    refine hinv.leaves.register info.eid ?_ hinv.hub.aligned.indices_length
    rw [Hub.eids, List.length_map, hinv.hub.aligned.infos_length]
  · rw [heids]
    exact List.prefix_append _ _

theorem NetInv.updateToken {u : Hub} {sender : Address} {info : TokenInfo}
    (hinv : NetInv h D w) (hok : w.hub.updateToken sender info = .ok u) :
    NetInv h D { w with hub := u } := by
  have haligned := Hub.updateToken_aligned hinv.hub.aligned hok
  have heids := Hub.updateToken_eids hinv.hub.aligned hok
  obtain ⟨-, rfl⟩ := Hub.updateToken_eq_ok hok
  refine hinv.setHub ⟨hinv.hub.peers, hinv.hub.zeroHash, haligned⟩ ?_ ?_ le_rfl
  · rw [heids]
    exact hinv.leaves
  · rw [heids]

/-- A message the Hub accepts carries a proved root of the chain it came from. -/
theorem NetInv.hubReceive {u : Hub} {sender : Address} {srcEid : ℕ} {originSender : Word}
    {payload : Payload} (hinv : NetInv h D w)
    (hproved : originSender.val = (D.verifierAddr srcEid).val →
      (w.chains srcEid).verifier.provedTransferRoots payload.2.val = payload.1.val)
    (hok : w.hub.lzReceive sender srcEid originSender payload = .ok u) :
    NetInv h D { w with hub := u } := by
  have haligned := Hub.lzReceive_aligned hinv.hub.aligned hok
  obtain ⟨hne, hpeer, hpos, ⟨-, rfl⟩ | ⟨-, rfl⟩⟩ := Hub.lzReceive_eq_ok hok
  · exact hinv
  · refine hinv.setHub ⟨hinv.hub.peers, hinv.hub.zeroHash, haligned⟩ ?_ (List.prefix_refl _)
      le_rfl
    have horigin : originSender.val = (D.verifierAddr srcEid).val :=
      hpeer ▸ (hinv.hub.peers srcEid).resolve_left hne
    exact hinv.leaves.set hinv.hub.aligned.indices_length (hinv.hub.aligned.position srcEid hpos)
      (hproved horigin)

/-- The next broadcast is assigned a number that no earlier one has. -/
theorem NetInv.assign {u : Hub} {value : ℕ} {targetEids : List ℕ} {quote : ℕ → MessagingFee}
    {ctx : BroadcastContext} {fees : List (ℕ × ℕ)} {refund : ℕ} (hinv : NetInv h D w)
    (hok : w.hub.broadcastStart h value targetEids quote = .ok (u, ctx, fees, refund)) :
    NetInv h D { w with hub := u, assigned := w.assigned ++ [⟨ctx, w.hub.eids⟩] } := by
  obtain ⟨hlt, rfl, -, -, rfl⟩ := Hub.broadcastStart_eq_ok hok
  refine ⟨hinv.chains, ⟨hinv.hub.peers, hinv.hub.zeroHash, hinv.hub.aligned.frame rfl⟩,
    hinv.leaves, ?_, ?_, ?_, ?_⟩
  · intro a ha
    rw [List.mem_append, List.mem_singleton] at ha
    rcases ha with ha | rfl
    · have hrec := hinv.assigned a ha
      exact ⟨hrec.root, hrec.seq_le.trans (Nat.le_succ _), hrec.seq_lt, hrec.eids, hrec.stored⟩
    · exact ⟨by rw [hinv.hub.zeroHash], le_rfl, hlt, List.prefix_refl _, hinv.leaves⟩
  · rw [List.map_append, List.nodup_append]
    refine ⟨hinv.unique, List.nodup_singleton _, ?_⟩
    intro s hs s' hs' heq
    obtain ⟨a, ha, rfl⟩ := List.mem_map.mp hs
    -- earlier numbers are at most `aggSeq`, and the new one is the next
    have hle : a.ctx.nextAggSeq ≤ w.hub.aggSeq := (hinv.assigned a ha).seq_le
    have hnext : s' = w.hub.aggSeq + 1 := List.mem_singleton.mp hs'
    have hsame : a.ctx.nextAggSeq = s' := heq
    omega
  · intro m hm
    exact (hinv.sent m hm).mono (w := w)
      ⟨fun a ha => List.mem_append_left _ ha, fun _ _ _ => rfl⟩
  · intro eid s hne
    obtain ⟨a, ha, heq⟩ := hinv.globals eid s hne
    exact ⟨a, List.mem_append_left _ ha, heq⟩

/-! ### The chains -/

/-- Aggregation roots arrive in messages only. -/
theorem Chain.exec_globals {d : DeciderSets} {c c' : Chain} {a : ChainAction}
    (hok : c.exec h d a = .ok c') (s : ℕ) :
    c'.verifier.globalTransferRoots s = c.verifier.globalTransferRoots s
      ∨ ∃ sender srcEid originSender payload, a = .lzReceive sender srcEid originSender payload
        ∧ c.verifier.lzReceive sender srcEid originSender payload = .ok c'.verifier
        ∧ payload.2.val = s ∧ c'.verifier.globalTransferRoots s = payload.1.val := by
  cases exec_verifierCause h d hok with
  | tables htables hrecords => exact Or.inl (by rw [htables.global])
  | reserve heq hrecords => exact Or.inl (by rw [heq]; rfl)
  | prove p hp hprove hrecords =>
    obtain ⟨-, -, -, -, -, -, hglobal, -⟩ := Verifier.proveTransferRoot_eq_ok hprove
    exact Or.inl (by rw [hglobal])
  | teleport r hclaims hr => exact Or.inl (by rw [hr.result]; rfl)
  -- only a received payload writes a slot, and only one that is free
  | receive sender srcEid originSender payload ha hreceive hrecords =>
    obtain ⟨-, -, -, -, -, ⟨-, heq, -⟩ | ⟨-, heq, -⟩, -⟩ := Verifier.lzReceive_eq_ok hreceive
    · by_cases hs : s = payload.2.val
      · subst hs
        exact Or.inr ⟨_, _, _, _, ha, hreceive, rfl, by rw [heq, Function.update_self]⟩
      · exact Or.inl (by rw [heq, Function.update_of_ne hs])
    · exact Or.inl (by rw [heq])

/-- Every action of a chain keeps its wiring, `setPeer` to the Hub included. -/
theorem WiredChain.exec {d : DeciderSets} {eid : ℕ} {c c' : Chain} {a : ChainAction}
    (hc : WiredChain D eid c) (hpeer : ∀ sender eid' peer, a = .setPeer sender eid' peer →
      eid' = D.hubEid → peer.val = 0 ∨ peer.val = D.hubAddr.val)
    (hok : c.exec h d a = .ok c') : WiredChain D eid c' := by
  have hstep : c.step h d a = c' := by rw [Chain.step, hok, commit]
  have hbounded : c'.verifier.Bounded := hstep ▸ Chain.step_bounded h d hc.bounded a
  have haddr : c'.verifierAddr = c.verifierAddr := by
    have hconfig := Chain.exec_config h d hok
    simp only [Chain.config, Prod.mk.injEq] at hconfig
    exact hconfig.2.1
  -- `setPeer` is the only transaction that rewires, and the owner sets the Hub or zero
  by_cases hset : ∃ sender eid' peer, a = .setPeer sender eid' peer
  · obtain ⟨sender, eid', peer, rfl⟩ := hset
    obtain ⟨v, hv, rfl⟩ := Chain.withVerifier_eq_ok.mp hok
    obtain ⟨_, -, hret⟩ := bind_eq_ok.mp hv
    cases hret
    refine ⟨haddr.trans hc.verifierAddr, hc.hubEid, ?_, hbounded⟩
    by_cases heq : D.hubEid = eid'
    · subst heq
      simpa using hpeer sender _ peer rfl rfl
    · simpa [Function.update_of_ne heq] using hc.peer
  · have hwiring := Chain.exec_wiring h d hok fun sender eid' peer ha =>
      hset ⟨sender, eid', peer, ha⟩
    simp only [Verifier.wiring, Prod.mk.injEq] at hwiring
    obtain ⟨-, hpeers, hhub⟩ := hwiring
    exact ⟨haddr.trans hc.verifierAddr, hhub.trans hc.hubEid, by rw [hpeers]; exact hc.peer,
      hbounded⟩

/-- A transaction of one chain; a message it accepts carries an assigned root. -/
theorem NetInv.chain {eid : ℕ} {a : ChainAction} (hinv : NetInv h D w)
    (hpeer : ∀ sender eid' peer, a = .setPeer sender eid' peer →
      eid' = D.hubEid → peer.val = 0 ∨ peer.val = D.hubAddr.val)
    (hreceive : ∀ sender srcEid originSender payload,
      a = .lzReceive sender srcEid originSender payload →
      sender = (w.chains eid).verifier.endpoint → srcEid = D.hubEid →
      originSender.val = D.hubAddr.val → ∃ x ∈ w.assigned,
        x.ctx.nextAggSeq = payload.2.val ∧ payload.1.val = x.ctx.aggregationRoot)
    (hok : w.chain h d eid a = .ok w') : NetInv h D w' ∧ Extends w w' := by
  obtain ⟨c, hc, hret⟩ := bind_eq_ok.mp hok
  cases hret
  replace hc := liftChain_eq_ok.mp hc
  have hstep : (w.chains eid).step h (d eid) a = c := by rw [Chain.step, hc, commit]
  have hpersists : Persists w.chains (Function.update w.chains eid c) := by
    refine persists_update fun i hne => ?_
    rw [← hstep]
    exact Chain.step_proved_persist h (d eid) _ a hne
  refine ⟨hinv.setChain ((hinv.chains eid).exec hpeer hc) hpersists ?_,
    ⟨fun _ ha => ha, hpersists⟩⟩
  intro s hne
  rcases Chain.exec_globals hc s with
    heq | ⟨sender, srcEid, originSender, payload, ha, hrec, rfl, heq⟩
  · rw [heq] at hne ⊢
    exact hinv.globals eid s hne
  · obtain ⟨hsender, hne', horigin, hsrc, -⟩ := Verifier.lzReceive_eq_ok hrec
    -- a new root came in a message of the Hub: the peer that was compared is not zero
    have hsrc' : srcEid = D.hubEid := hsrc.trans (hinv.chains eid).hubEid
    subst hsrc'
    have hhub : originSender.val = D.hubAddr.val :=
      horigin ▸ (hinv.chains eid).peer.resolve_left hne'
    obtain ⟨x, hx, hseq, hroot⟩ := hreceive _ _ _ _ ha hsender.symm rfl hhub
    exact ⟨x, hx, hseq, by rw [heq, hroot]⟩

/-! ### Messages -/

/-- A message the Hub accepts from its peer is one that a Verifier sent. -/
theorem NetInv.deliver {m : Message} (hinv : NetInv h D w) (hm : m ∈ w.sent ∨ D.Foreign m)
    (hok : w.deliver h d D m = .ok w') : NetInv h D w' ∧ Extends w w' := by
  unfold World.deliver at hok
  split at hok
  · rename_i hhub
    obtain ⟨u, hu, hret⟩ := bind_eq_ok.mp hok
    cases hret
    replace hu := liftHub_eq_ok.mp hu
    refine ⟨hinv.hubReceive ?_ hu, extends_setHub u⟩
    intro horigin
    rcases hm with hm | hforeign
    · rcases hinv.sent m hm with ⟨hreceiver, -⟩ | ⟨-, -, -, -, hproved⟩
      · -- what the Hub sends is not addressed to the Hub
        rw [hhub.1, hhub.2] at hreceiver
        exact absurd (Fin.ext hreceiver.symm) D.hubAddr_ne
      · exact hproved
    · exact absurd horigin hforeign.2
  · rename_i hhub
    split at hok
    · refine hinv.chain (fun _ _ _ ha => by cases ha) ?_ hok
      intro sender srcEid originSender payload ha _ hsrc horigin
      cases ha
      rcases hm with hm | hforeign
      · rcases hinv.sent m hm with ⟨-, a, ha, hroot, hseq⟩ | ⟨-, hdst, hreceiver, -⟩
        · exact ⟨a, ha, hseq.symm, hroot⟩
        · exact absurd ⟨hdst, hreceiver⟩ hhub
      · exact absurd ⟨hsrc, horigin⟩ hforeign.1
    · cases hok

theorem scalarModulus_lt_word : scalarModulus < 2 ^ 256 := by decide

/-- The Hub sends the root that it has assigned to a sequence number. -/
theorem NetInv.hubSend {ctx : BroadcastContext} {eid fee : ℕ} (hinv : NetInv h D w)
    (hctx : ∃ a ∈ w.assigned, a.ctx = ctx) (hok : w.hubSend D ctx eid fee = .ok w') :
    NetInv h D w' ∧ Extends w w' := by
  simp only [World.hubSend, bind_eq_ok, require_eq_ok, exists_const] at hok
  obtain ⟨hpeer, -, hret⟩ := hok
  cases hret
  obtain ⟨a, ha, rfl⟩ := hctx
  have hrec := hinv.assigned a ha
  have hpaid : NetInv h D { w with
      hub := { w.hub with nativeBalance := w.hub.nativeBalance - fee } } :=
    hinv.frameHub rfl hinv.hub.peers rfl rfl
  refine ⟨hpaid.addSent (Or.inl ⟨(hinv.hub.peers eid).resolve_left hpeer, a, ha, ?_, ?_⟩),
    ⟨fun _ ha => ha, fun _ _ _ => rfl⟩⟩
  · refine toWord_val (Nat.lt_trans ?_ scalarModulus_lt_word)
    rw [hrec.root]
    exact computeAggregationRoot_lt _
  · exact toWord_val (hrec.seq_lt.trans (by norm_num))

/-- A proved root and its index are words. -/
theorem NetInv.relay_words {eid root index value : ℕ} {sent : Bool} (hinv : NetInv h D w)
    (hproved : Entitled w (.relay eid root index value sent)) :
    (toWord root).val = root ∧ (toWord index).val = index := by
  obtain ⟨-, hlt, heq⟩ := hproved
  exact ⟨toWord_val (heq ▸ (hinv.chains eid).bounded.root_lt index),
    toWord_val (hlt.trans (by norm_num))⟩

/-- The Verifier sends a root that it has proved. -/
theorem NetInv.verifierSend {eid root index value : ℕ} (hinv : NetInv h D w)
    (hproved : Entitled w (.relay eid root index value false))
    (hok : w.verifierSend eid root index value = .ok w') : NetInv h D w' ∧ Extends w w' := by
  simp only [World.verifierSend, bind_eq_ok, require_eq_ok, exists_const] at hok
  obtain ⟨hpeer, hret⟩ := hok
  cases hret
  obtain ⟨hroot, hindex⟩ := hinv.relay_words hproved
  obtain ⟨hne, -, heq⟩ := hproved
  have hc := hinv.chains eid
  rw [hc.hubEid] at hpeer
  refine ⟨hinv.addSent (Or.inr ⟨?_, hc.hubEid, ?_, ?_, ?_⟩), ⟨fun _ ha => ha, fun _ _ _ => rfl⟩⟩
  · rw [toWord_val ((w.chains eid).verifierAddr.isLt.trans (by norm_num)), hc.verifierAddr]
  · rw [hc.hubEid]
    exact hc.peer.resolve_left hpeer
  · rw [hroot]
    exact hne
  · rw [hroot, hindex]
    exact heq

/-! ## Runs -/

/-- Every world on the stack of open calls is in order, and so is what the calls have left to
do. -/
def NetState.Inv (h : Hashes) (D : Deployment) (s : NetState) : Prop :=
  Frames.Valid (NetInv h D) Entitled Extends s.world s.frames

namespace NetState

variable {s s' : NetState}

/-- At deployment nothing is sent and no root is set. -/
theorem initial_inv : (D.initial h).Inv h D := by
  refine ⟨?_, ?_, ?_, ?_, List.nodup_nil, ?_, ?_⟩
  · intro eid
    refine ⟨rfl, rfl, Or.inl rfl, ?_, Nat.two_pow_pos 64⟩
    intro i
    by_cases hi : i = 0
    · subst hi
      show Function.update (fun _ => 0) 0 INITIAL_TRANSFER_ROOT 0 < 2 ^ 256
      rw [Function.update_self]
      decide
    · show Function.update (fun _ => 0) 0 INITIAL_TRANSFER_ROOT i < 2 ^ 256
      rw [Function.update_of_ne hi]
      decide
  · exact ⟨fun _ => Or.inl rfl, rfl, Hub.initial_aligned _ _⟩
  · intro i root hroot
    simp [Deployment.initial, Hub.initial] at hroot
  · intro a ha
    cases ha
  · intro m hm
    cases hm
  · intro eid s hne
    exact absurd rfl hne

/-- A step inside the innermost call. -/
theorem Inv.within {r : Except NetError World} (hs : s.Inv h D)
    (hr : ∀ w, r = .ok w → NetInv h D w ∧ Extends s.world w) (hok : s.within r = .ok s') :
    s'.Inv h D := by
  obtain ⟨w, hw, hret⟩ := bind_eq_ok.mp hok
  cases hret
  obtain ⟨hinv, hext⟩ := hr w hw
  exact Frames.Valid.mono Entitled.mono Extends.trans hs hext hinv

/-- A step within the Hub keeps the invariant when the new Hub does. -/
theorem Inv.withinHub {r : Except HubError Hub} (hs : s.Inv h D)
    (hr : ∀ u, r = .ok u → NetInv h D { s.world with hub := u })
    (hok : s.within (s.world.withHub r) = .ok s') : s'.Inv h D := by
  refine hs.within ?_ hok
  intro w hw
  obtain ⟨u, hu, hret⟩ := bind_eq_ok.mp hw
  cases hret
  exact ⟨hr u (liftHub_eq_ok.mp hu), extends_setHub u⟩

/-- A broadcast assigns the next sequence number before its first send, so the pending sends are
entitled. -/
theorem Inv.broadcast {value : ℕ} {targetEids : List ℕ} {quote : ℕ → MessagingFee}
    (hs : s.Inv h D) (hok : s.broadcast h value targetEids quote = .ok s') : s'.Inv h D := by
  obtain ⟨⟨u, ctx, fees, refund⟩, hstart, hret⟩ := bind_eq_ok.mp hok
  cases hret
  refine Frames.Valid.push hs ⟨fun a ha => List.mem_append_left _ ha, fun _ _ _ => rfl⟩
    ((Frames.Valid.inv hs).assign (liftHub_eq_ok.mp hstart)) ?_
  exact ⟨_, List.mem_append_right _ (List.mem_singleton_self _), rfl⟩

/-- A relay reads a proved root, which is what its send is entitled by. -/
theorem Inv.relay {eid value : ℕ} {quote : MessagingFee} (hs : s.Inv h D)
    (hok : s.relay eid value quote = .ok s') : s'.Inv h D := by
  obtain ⟨⟨root, index⟩, hpayload, hrest⟩ := bind_eq_ok.mp hok
  simp only [bind_eq_ok, require_eq_ok, exists_const] at hrest
  obtain ⟨-, -, hret⟩ := hrest
  cases hret
  replace hpayload := Chain.liftVerifier_eq_ok.mp (liftChain_eq_ok.mp hpayload)
  simp only [Verifier.relayPayload, bind_eq_ok, require_eq_ok, exists_const] at hpayload
  obtain ⟨_, -, hne, hpair⟩ := hpayload
  cases hpair
  refine Frames.Valid.push hs (Extends.refl _) (Frames.Valid.inv hs) ⟨hne, ?_, rfl⟩
  exact ((Frames.Valid.inv hs).chains eid).bounded.index_lt

theorem Inv.resume {f : Frames.Frame World Pending} {fs : List (Frames.Frame World Pending)}
    {r : Except NetError World} {k : Pending} (hs : s.Inv h D) (hframes : s.frames = f :: fs)
    (hr : ∀ w, r = .ok w → NetInv h D w ∧ Extends s.world w)
    (hok : NetState.resume r f k fs = .ok s') (hk : Entitled s.world k) : s'.Inv h D := by
  obtain ⟨w, hw, hret⟩ := bind_eq_ok.mp hok
  cases hret
  obtain ⟨hinv, hext⟩ := hr w hw
  unfold NetState.Inv at hs
  rw [hframes] at hs
  exact Frames.Valid.resume Extends.trans hs hext hinv (Entitled.mono _ _ _ hext hk)

/-- Sending puts a justified message on its way. -/
theorem Inv.send (hs : s.Inv h D) (hok : s.send D = .ok s') : s'.Inv h D := by
  obtain ⟨w, frames⟩ := s
  have hinv : NetInv h D w := Frames.Valid.inv hs
  unfold NetState.send at hok
  split at hok
  · rename_i f fs hframes
    obtain rfl : frames = f :: fs := hframes
    have hk : Entitled w f.cont := hs.2.1
    split at hok
    · rename_i ctx eid fee sends refund hcont
      rw [hcont] at hk
      exact hs.resume rfl (fun w' hw => hinv.hubSend hk hw) hok hk
    · rename_i eid root index value hcont
      rw [hcont] at hk
      exact hs.resume rfl (fun w' hw => hinv.verifierSend hk hw) hok hk
    · cases hok
  · cases hok

theorem Inv.refund (hs : s.Inv h D) (hok : s.refund = .ok s') : s'.Inv h D := by
  obtain ⟨w, frames⟩ := s
  have hinv : NetInv h D w := Frames.Valid.inv hs
  unfold NetState.refund at hok
  split at hok
  · rename_i f fs hframes
    obtain rfl : frames = f :: fs := hframes
    have hk : Entitled w f.cont := hs.2.1
    split at hok
    · rename_i ctx refund hcont
      rw [hcont] at hk
      simp only [bind_eq_ok, require_eq_ok, exists_const] at hok
      refine hs.resume rfl ?_ hok.2 hk
      intro w' hw
      cases hw
      exact ⟨hinv.frameHub rfl hinv.hub.peers rfl rfl, extends_setHub _⟩
    · cases hok
  · cases hok

theorem Inv.finish (hs : s.Inv h D) (hok : s.finish = .ok s') : s'.Inv h D := by
  obtain ⟨w, frames⟩ := s
  have hinv : NetInv h D w := Frames.Valid.inv hs
  unfold NetState.finish at hok
  split at hok
  · rename_i f fs hframes
    obtain rfl : frames = f :: fs := hframes
    split at hok
    · cases hok
      exact Frames.Valid.pop Entitled.mono Extends.trans hs (extends_setHub _)
        (hinv.frameHub rfl hinv.hub.peers rfl rfl)
    · rename_i eid root index value hcont
      cases hok
      have hc := hinv.chains eid
      -- the end of a relay only writes down what was relayed
      have hpersists : Persists w.chains (Function.update w.chains eid
          { w.chains eid with verifier := (w.chains eid).verifier.relayDone root index }) :=
        persists_update fun _ _ => rfl
      refine Frames.Valid.pop Entitled.mono Extends.trans hs ⟨fun _ ha => ha, hpersists⟩
        (hinv.setChain ⟨hc.verifierAddr, hc.hubEid, hc.peer, ?_⟩ hpersists (hinv.globals eid))
      exact ⟨hc.bounded.root_lt, hc.bounded.index_lt⟩
    · cases hok
  · cases hok

/-- A revert goes back to a world that satisfied the invariant when the frame was opened. -/
theorem Inv.revert (hs : s.Inv h D) (hok : s.revert = .ok s') : s'.Inv h D := by
  obtain ⟨w, frames⟩ := s
  unfold NetState.revert at hok
  split at hok
  · rename_i f fs hframes
    obtain rfl : frames = f :: fs := hframes
    cases hok
    exact Frames.Valid.revert hs
  · cases hok

/-- Every step that succeeds keeps the invariant. -/
theorem exec_inv {a : NetAction} (hs : s.Inv h D) (hok : s.exec h d D a = .ok s') :
    s'.Inv h D := by
  have hinv : NetInv h D s.world := Frames.Valid.inv hs
  cases a with
  | setHubPeer sender eid peer =>
    obtain ⟨_, hpeer, hok⟩ := bind_eq_ok.mp hok
    exact hs.withinHub (fun u hu => hinv.setHubPeer (require_eq_ok.mp hpeer) hu) hok
  | registerToken sender info => exact hs.withinHub (fun u hu => hinv.registerToken hu) hok
  | updateToken sender info => exact hs.withinHub (fun u hu => hinv.updateToken hu) hok
  | hubReceive sender srcEid originSender payload =>
    -- only the endpoint may call `lzReceive`
    obtain ⟨_, hsender, hok⟩ := bind_eq_ok.mp hok
    refine hs.withinHub (fun u hu => ?_) hok
    obtain ⟨_, hendpoint, -⟩ := bind_eq_ok.mp hu
    exact absurd (require_eq_ok.mp hendpoint).symm (require_eq_ok.mp hsender)
  | forceHubNative value =>
    refine hs.withinHub (fun u hu => ?_) hok
    cases hu
    exact hinv.frameHub rfl hinv.hub.peers rfl rfl
  | chain eid a =>
    obtain ⟨_, hlocal, hok⟩ := bind_eq_ok.mp hok
    replace hlocal := require_eq_ok.mp hlocal
    refine hs.within (fun w' hw => hinv.chain ?_ ?_ hw) hok
    · intro sender eid' peer ha
      subst ha
      exact hlocal
    · intro sender srcEid originSender payload ha hsender
      subst ha
      exact absurd hsender hlocal
  | deliver m =>
    obtain ⟨_, hm, hok⟩ := bind_eq_ok.mp hok
    exact hs.within (fun w' hw => hinv.deliver (require_eq_ok.mp hm) hw) hok
  | broadcast value targetEids quote => exact hs.broadcast hok
  | relay eid value quote => exact hs.relay hok
  | send => exact hs.send hok
  | refund => exact hs.refund hok
  | finish => exact hs.finish hok
  | revert => exact hs.revert hok

theorem step_inv (s : NetState) (a : NetAction) (hs : s.Inv h D) : (s.step h d D a).Inv h D := by
  rcases commit_cases s (s.exec h d D a) with ⟨-, heq⟩ | hok
  · rw [step, heq]
    exact hs
  · exact exec_inv hs hok

end NetState

variable (h d D)

/-- **Cross-chain root agreement.** In every run of the Hub, the Verifiers and the endpoints, in
every state inside or between the calls. -/
theorem crossChain_agreement (acts : List NetAction) :
    Agreement h (run (NetState.step h d D) (D.initial h) acts).world :=
  (Frames.Valid.inv (run_induction NetState.initial_inv NetState.step_inv acts)).agreement

end Zerc20
