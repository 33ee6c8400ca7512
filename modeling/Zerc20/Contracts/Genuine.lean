import Zerc20.Contracts.Runs
import Zerc20.Contracts.Conservation
import Zerc20.Client.AggregationRoot

/-!
# The stored roots are genuine

Conservation rests on the roots that the Verifiers store: a proved root is the root of a prefix of
the history of its own chain, an aggregation root the root of a tree over such roots
(`RootsGenuine`). Here this is proved of the Hub, the Verifiers and LayerZero together, in every run,
from the soundness of the root decider alone.

A root goes a long way: it is proved, relayed, kept as a leaf, taken into a snapshot and broadcast.
`NetInv` follows it from the Verifier that proved it to those that store it aggregated; `RootsInv`
says what it was when it was proved. What is left is to put the two together (`GenuineInv`).
-/

namespace Zerc20

open Machine HashTree Zkp

/-! ## The tree behind an aggregation root -/

theorem chainAt_injective {eids : List ℕ} (j k i : ℕ)
    (hj : (if eids.Nodup then eids[j]? else none) = some i)
    (hk : (if eids.Nodup then eids[k]? else none) = some i) : j = k := by
  split at hj
  · rename_i hnodup
    rw [if_pos hnodup] at hk
    obtain ⟨hlt, -⟩ := List.getElem?_eq_some_iff.mp hj
    exact (List.getElem?_inj hlt hnodup).mp (hj.trans hk.symm)
  · cases hj

/-- The chains at the positions of the aggregation tree, by the endpoints of the slots. -/
def Registry.ofEids (eids : List ℕ) : Registry ℕ where
  chainAt j := if eids.Nodup then eids[j]? else none
  injective := chainAt_injective

/-- The lengths of the histories behind the aggregation root with the sequence number `k`; there is
none behind an empty leaf. -/
def World.histories (w : World) (k j : ℕ) : Option ℕ := do
  let a ← w.assigned.find? fun a => a.ctx.nextAggSeq = k
  let root ← a.ctx.snapshot[j]?
  if root = 0 then none else a.ctx.transferTreeIndicesSnapshot[j]?

section

variable {eids eids' : List ℕ} {w : World} {a : Assignment}

theorem Registry.ofEids_chainAt (hnodup : eids.Nodup) (j : ℕ) :
    (Registry.ofEids eids).chainAt j = eids[j]? := if_pos hnodup

/-- More slots leave the old ones alone. -/
theorem Registry.ofEids_extend (hpre : eids <+: eids') (hnodup : eids'.Nodup) {j i : ℕ}
    (hj : (Registry.ofEids eids).chainAt j = some i) :
    (Registry.ofEids eids').chainAt j = some i := by
  obtain ⟨rest, rfl⟩ := hpre
  rw [Registry.ofEids_chainAt (List.nodup_append.mp hnodup).1] at hj
  rw [Registry.ofEids_chainAt hnodup, List.getElem?_append_left, hj]
  exact (List.getElem?_eq_some_iff.mp hj).1

/-- A sequence number names its broadcast. -/
theorem World.histories_eq (hunique : (w.assigned.map fun a => a.ctx.nextAggSeq).Nodup)
    (ha : a ∈ w.assigned) (j : ℕ) :
    w.histories a.ctx.nextAggSeq j = (a.ctx.snapshot[j]?).bind fun root =>
      if root = 0 then none else a.ctx.transferTreeIndicesSnapshot[j]? := by
  have hfind : w.assigned.find? (fun x => x.ctx.nextAggSeq = a.ctx.nextAggSeq) = some a := by
    cases hfound : w.assigned.find? fun x => x.ctx.nextAggSeq = a.ctx.nextAggSeq with
    | none =>
      have hnone := List.find?_eq_none.mp hfound a ha
      simp at hnone
    | some b =>
      have hseq : b.ctx.nextAggSeq = a.ctx.nextAggSeq := by simpa using List.find?_some hfound
      have hb := List.mem_of_find?_eq_some hfound
      rw [List.inj_on_of_nodup_map hunique hb ha hseq]
  rw [World.histories, hfind]
  rfl

end

/-! ## The invariant -/

variable {h : Hashes} {d : ℕ → DeciderSets} {D : Deployment} {s s' : NetState} {w : World} {eid : ℕ}

variable (h) in
/-- The proved roots are those of the histories, and every endpoint has one slot. -/
structure World.GenuineInv (w : World) : Prop where
  placed : w.hub.Placed
  roots : ∀ eid, (w.chains eid).RootsInv h

/-- A slot keeps the endpoint it had at the broadcast. -/
theorem Recorded.slot {a : Assignment} (hrec : Recorded h w a) {j : ℕ}
    (heid : a.eids[j]? = some eid) : w.hub.eids[j]? = some eid := by
  obtain ⟨rest, hrest⟩ := hrec.eids
  rw [← hrest, List.getElem?_append_left (List.getElem?_eq_some_iff.mp heid).1, heid]

/-- A snapshot fits the tree. -/
theorem World.GenuineInv.snapshot_le (hw : w.GenuineInv h) {a : Assignment}
    (hrec : Recorded h w a) : a.ctx.snapshot.length ≤ MAX_LEAVES := by
  by_contra hlong
  obtain ⟨eid, -, heid, -⟩ := hrec.stored MAX_LEAVES _ (List.getElem?_eq_getElem (by omega))
  have hlt := (List.getElem?_eq_some_iff.mp (hrec.slot heid)).1
  rw [hw.placed.eids_length] at hlt
  exact absurd hw.placed.capacity (by omega)

/-- The leaf of a snapshot is the root of the history that is recorded beside it. -/
theorem World.GenuineInv.leaf (hw : w.GenuineInv h) (hinv : NetInv h D w) {a : Assignment}
    (ha : a ∈ w.assigned) (j : ℕ) :
    leavesOf 0 (a.ctx.snapshot.map u256ToFr) j
      = aggregationLeaf h (Registry.ofEids w.hub.eids) w.chains
        (w.histories a.ctx.nextAggSeq) j := by
  have hrec := hinv.assigned a ha
  rw [leavesOf, List.getD_eq_getElem?_getD, List.getElem?_map, aggregationLeaf,
    World.histories_eq hinv.unique ha, Registry.ofEids_chainAt hw.placed.eids_nodup]
  cases hroot : a.ctx.snapshot[j]? with
  | none =>
    cases w.hub.eids[j]? <;> rfl
  | some root =>
    obtain ⟨eid, index, heid, hindex, hproved⟩ := hrec.stored j root hroot
    rw [hrec.slot heid, hindex]
    -- a slot that has received nothing yet
    by_cases hzero : root = 0
    · simp [hzero, u256ToFr]
    · have heq := hproved.resolve_left hzero
      obtain ⟨-, -, hvalue⟩ := (hw.roots eid).2.proved index (by rw [heq]; exact hzero)
      simp only [Option.map_some, Option.getD_some, Option.bind_some, if_neg hzero]
      rw [← heq, hvalue, u256ToFr, ZMod.natCast_zmod_val]

/-- The root that was assigned is made of roots of the chains' histories. -/
theorem World.GenuineInv.reported (hw : w.GenuineInv h) (hinv : NetInv h D w) {a : Assignment}
    (ha : a ∈ w.assigned) :
    Reported (Registry.ofEids w.hub.eids) w.chains (w.histories a.ctx.nextAggSeq) := by
  intro j i n hchain hlength
  have hrec := hinv.assigned a ha
  rw [World.histories_eq hinv.unique ha] at hlength
  obtain ⟨root, hroot, hindex⟩ := Option.bind_eq_some_iff.mp hlength
  split at hindex
  · cases hindex
  · rename_i hne
    obtain ⟨eid, index, heid, hindex', hproved⟩ := hrec.stored j root hroot
    rw [hindex', Option.some.injEq] at hindex
    subst hindex
    rw [Registry.ofEids_chainAt hw.placed.eids_nodup, hrec.slot heid, Option.some.injEq] at hchain
    subst hchain
    have heq := hproved.resolve_left hne
    exact ((hw.roots eid).2.proved index (by rw [heq]; exact hne)).1

/-- **The roots are genuine** where the two invariants hold. -/
theorem World.GenuineInv.rootsGenuine (hw : w.GenuineInv h) (hinv : NetInv h D w) :
    RootsGenuine h (Registry.ofEids w.hub.eids) (fun _ => w.histories) w.chains where
  proved eid k hne := by
    obtain ⟨hle, -, heq⟩ := (hw.roots eid).2.proved k hne
    exact ⟨k, hle, heq⟩
  global eid k hne := by
    obtain ⟨a, ha, rfl, hroot⟩ := hinv.globals eid k hne
    refine ⟨hw.reported hinv ha, ?_⟩
    rw [hroot, (hinv.assigned a ha).root,
      computeAggregationRoot_eq (hw.snapshot_le (hinv.assigned a ha))]
    exact congrArg (fun f => (node h.poseidon2 f TREE_HEIGHT 0).val)
      (funext fun j => hw.leaf hinv ha j)

/-! ## What a run hashes -/

variable (h d) (V : RootProof → List RootExternalInputs)

/-- The Poseidon inputs of the histories, and of the root proof that the action submits, when some
contracts accept it. -/
def rootInputs (s : NetState) (a : NetAction) : Set (Fr × Fr) :=
  {q | ∃ eid, q ∈ transferInputs h (s.world.chains eid).token.events}
    ∪ {q | ∃ eid p, a = .chain eid (.proveTransferRoot p)
      ∧ (∃ vs, (d eid vs).rootDecider p = true)
      ∧ q ∈ rootRunInputs h transferTreeHeight p.initialState (V p)}

/-- The hash chain inputs of the same. -/
def rootChainInputs (s : NetState) (a : NetAction) : Set ChainInput :=
  {q | ∃ eid, q ∈ chainInputs h (s.world.chains eid).token.events}
    ∪ {q | ∃ eid p, a = .chain eid (.proveTransferRoot p)
      ∧ (∃ vs, (d eid vs).rootDecider p = true)
      ∧ q ∈ rootRunChainInputs h transferTreeHeight p.initialState (V p)}

variable {h d V} {a : NetAction} {b : ChainAction}

/-- What one transaction of a chain hashes. -/
theorem poseidonInputs_subset (hb : ∀ p, b = .proveTransferRoot p → a = .chain eid b) :
    poseidonInputs h (d eid) V [b] (s.world.chains eid).token.events ⊆ rootInputs h d V s a := by
  rintro q (hq | ⟨p, ⟨hp, hacc⟩, hq⟩)
  · exact Or.inl ⟨eid, hq⟩
  · have hbp := (List.mem_singleton.mp hp).symm
    exact Or.inr ⟨eid, p, by rw [hb p hbp, hbp], hacc, hq⟩

theorem shaChainInputs_subset (hb : ∀ p, b = .proveTransferRoot p → a = .chain eid b) :
    shaChainInputs h (d eid) V [b] (s.world.chains eid).token.events
      ⊆ rootChainInputs h d V s a := by
  rintro q (hq | ⟨p, ⟨hp, hacc⟩, hq⟩)
  · exact Or.inl ⟨eid, hq⟩
  · have hbp := (List.mem_singleton.mp hp).symm
    exact Or.inr ⟨eid, p, by rw [hb p hbp, hbp], hacc, hq⟩

/-! ## Runs -/

section

variable {QP : Set (Fr × Fr)} {QC : Set ChainInput}

variable (h d V eid QP QC) in
/-- The inputs of the action are among those of the run, and no token is at its last index. -/
structure RootsStep (s : NetState) (a : NetAction) : Prop where
  poseidon : rootInputs h d V s a ⊆ QP
  chain : rootChainInputs h d V s a ⊆ QC
  few : ∀ eid, s.FewEvents eid

/-- What happens on a chain keeps its proved roots right. -/
theorem ChainTurn.rootsInv {c : Chain} (hturn : ChainTurn h d (D := D) eid s a c)
    (hV : ∀ vs p, (d eid vs).rootDecider p = true → p.Satisfied h (V p))
    (hP : Set.InjOn (Function.uncurry h.poseidon2) QP) (hC : Set.InjOn (hashChainOf h) QC)
    (hstep : RootsStep h d V QP QC s a) (hinv : (s.world.chains eid).RootsInv h) :
    c.RootsInv h := by
  refine hturn.elim (P := fun c => c.RootsInv h) hinv (fun b hb => ?_) fun root index => ?_
  · have hprove : ∀ p, b = .proveTransferRoot p → a = .chain eid b := by
      rintro p rfl
      exact hb.resolve_right fun ⟨_, heq⟩ => by cases heq
    exact Chain.step_rootsInv hV hP hC ((poseidonInputs_subset hprove).trans hstep.poseidon)
      ((shaChainInputs_subset hprove).trans hstep.chain) List.mem_cons_self (hstep.few eid) hinv
  · refine ⟨hinv.1, hinv.2.of_tables rfl rfl fun i r₁ r₂ hmem => ?_⟩
    exact Verifier.calm_of_log (.transferRootRelayed index root) (by simp) rfl hmem

/-- Every action but a revert keeps the proved roots right. -/
theorem NetState.exec_genuineInv
    (hV : ∀ eid vs p, (d eid vs).rootDecider p = true → p.Satisfied h (V p))
    (hP : Set.InjOn (Function.uncurry h.poseidon2) QP) (hC : Set.InjOn (hashChainOf h) QC)
    (hs : s.Inv h D) (hw : s.world.GenuineInv h) (hstep : RootsStep h d V QP QC s a)
    (hok : s.exec h d D a = .ok s') (ha : a ≠ .revert) : s'.world.GenuineInv h where
  placed := ((NetState.exec_move hs hok).hubMove ha).placed hw.placed
  roots eid := (NetState.exec_chainTurn eid hok ha).rootsInv (hV eid) hP hC hstep (hw.roots eid)

theorem initial_genuineInv (hinit : INITIAL_TRANSFER_ROOT = (transferRoot h []).val) :
    (D.initial h).world.GenuineInv h where
  placed := Hub.initial_placed h _ _
  roots _ := ⟨⟨rfl, rfl⟩, Verifier.initial_rootsInv hinit _ _ _ _⟩

/-- In a run without collisions the proved roots are right. -/
theorem NetState.run_genuineInv {acts : List NetAction}
    (hV : ∀ eid vs p, (d eid vs).rootDecider p = true → p.Satisfied h (V p))
    (hinit : INITIAL_TRANSFER_ROOT = (transferRoot h []).val)
    (hfew : Along (NetState.step h d D) (fun s _ => ∀ eid, s.FewEvents eid) (D.initial h) acts)
    (hP : ¬ Collision (Function.uncurry h.poseidon2)
      (gathered (NetState.step h d D) (rootInputs h d V) (D.initial h) acts))
    (hC : ¬ Collision (hashChainOf h)
      (gathered (NetState.step h d D) (rootChainInputs h d V) (D.initial h) acts)) :
    (run (NetState.step h d D) (D.initial h) acts).Inv h D
      ∧ (run (NetState.step h d D) (D.initial h) acts).world.GenuineInv h := by
  have hsteps := ((along_gathered (rootInputs h d V) (D.initial h) acts).and
    (along_gathered (rootChainInputs h d V) (D.initial h) acts)).and hfew
  obtain ⟨hs, hw, -⟩ := run_allWorlds initial_inv (initial_allWorlds (initial_genuineInv hinit))
    (fun t a t' ht _ hw hmeets hok ha => exec_genuineInv hV (injOn_of_not_collision hP)
      (injOn_of_not_collision hC) ht hw ⟨hmeets.1.1, hmeets.1.2, hmeets.2⟩ hok ha) hsteps
  exact ⟨hs, hw⟩

end

/-- **The stored roots of the network are genuine.** After every run of the contracts and LayerZero,
calls that are open or reverted included, each proved root is that of a prefix of the history of its
own chain, and each aggregation root that of a tree over such roots, with one slot for each
endpoint, unless the run exhibits a collision. `V` picks the attacker's witnesses for the accepted
root proofs. -/
theorem network_roots_genuine (h : Hashes) (d : ℕ → DeciderSets)
    (V : RootProof → List RootExternalInputs)
    (hV : ∀ eid vs p, (d eid vs).rootDecider p = true → p.Satisfied h (V p))
    (hinit : INITIAL_TRANSFER_ROOT = (transferRoot h []).val) (D : Deployment)
    (acts : List NetAction)
    (hfew : Along (NetState.step h d D) (fun s _ => ∀ eid, s.FewEvents eid) (D.initial h) acts)
    (s : NetState) (hreach : run (NetState.step h d D) (D.initial h) acts = s) :
    (s.world.hub.eids.Nodup
      ∧ (∀ eid, (s.world.chains eid).ProvedRootsCorrect h)
      ∧ RootsGenuine h (Registry.ofEids s.world.hub.eids) (fun _ => s.world.histories)
        s.world.chains)
    ∨ Collision (Function.uncurry h.poseidon2)
        (gathered (NetState.step h d D) (rootInputs h d V) (D.initial h) acts)
    ∨ Collision (hashChainOf h)
        (gathered (NetState.step h d D) (rootChainInputs h d V) (D.initial h) acts) := by
  subst hreach
  rw [or_iff_not_imp_right, not_or]
  rintro ⟨hP, hC⟩
  obtain ⟨hs, hw⟩ := NetState.run_genuineInv hV hinit hfew hP hC
  exact ⟨hw.placed.eids_nodup, fun eid => ⟨(hw.roots eid).2.proved, (hw.roots eid).2.calm⟩,
    hw.rootsGenuine (Frames.Valid.inv hs)⟩

namespace BroadcastExample

/-- The aggregation root of the leaf that `RefundExample.message` reports. -/
def root : ℕ := 17164026365098925817623019025898896900821834456632296919178091266302449900390

/-- What the Hub sends of it. -/
def message : Message where
  srcEid := 30101
  sender := 9
  dstEid := 5
  receiver := 3
  payload := (toWord root, 1)
  nativeFee := 0

/-- A root that is proved, relayed, kept, broadcast and stored. -/
def acts : List NetAction :=
  RefundExample.setup ++ [.deliver RefundExample.message,
    .broadcast 1 [5] (fun _ => RefundExample.fee), .send, .refund, .finish, .deliver message]

end BroadcastExample

theorem network_roots_genuine_broadcast :
    let d := fun _ => depositDeciders
    let s₀ := RefundExample.deployment.initial realHashes
    ∃ s, run (NetState.step realHashes d RefundExample.deployment) s₀ BroadcastExample.acts = s
      ∧ (s.world.chains 5).verifier.globalTransferRoots 1 = BroadcastExample.root
      ∧ ((s.world.hub.eids.Nodup
        ∧ (∀ eid, (s.world.chains eid).ProvedRootsCorrect realHashes)
        ∧ RootsGenuine realHashes (Registry.ofEids s.world.hub.eids) (fun _ => s.world.histories)
          s.world.chains)
      ∨ Collision (Function.uncurry realHashes.poseidon2)
          (gathered (NetState.step realHashes d RefundExample.deployment)
            (rootInputs realHashes d fun _ => depositWitness) s₀ BroadcastExample.acts)
      ∨ Collision (hashChainOf realHashes)
          (gathered (NetState.step realHashes d RefundExample.deployment)
            (rootChainInputs realHashes d fun _ => depositWitness) s₀ BroadcastExample.acts)) := by
  intro d s₀
  obtain ⟨s, hreach⟩ : ∃ s, run (NetState.step realHashes d RefundExample.deployment) s₀
      BroadcastExample.acts = s := ⟨_, rfl⟩
  have hstored : (s.world.chains 5).verifier.globalTransferRoots 1 = BroadcastExample.root := by
    rw [← hreach]
    decide +kernel
  have hV : ∀ (eid : ℕ) vs p, (d eid vs).rootDecider p = true →
      p.Satisfied realHashes depositWitness := by
    intro _ _ p hp
    rw [of_decide_eq_true hp]
    exact depositProof_satisfied
  exact ⟨s, hreach, hstored, network_roots_genuine realHashes d (fun _ => depositWitness) hV
    transferRoot_empty.symm RefundExample.deployment BroadcastExample.acts
    (NetState.fewEvents_along (by decide)) s hreach⟩

end Zerc20
