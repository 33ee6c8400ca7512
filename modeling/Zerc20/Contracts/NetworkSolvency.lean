import Zerc20.Contracts.NetworkTeleports
import Zerc20.Contracts.Solvency

/-!
# Solvency of the network

`system_solvency` for the Hub, the Verifiers and LayerZero together. The network has a chain behind
every endpoint id, so the sums are over a finite set `S` of endpoint ids that holds every slot of the
Hub. The teleports of a chain of `S` open transfers on chains of `S` only, so the chains of `S` are a
system of their own (`RecordSound.restrict`), to which the lemmas behind `system_solvency` apply.
-/

namespace Zerc20

open Machine HashTree Zkp

/-! ## Some of the chains -/

section

variable {S : Finset ℕ} {R : Registry ℕ} {W : WithdrawWitnesses} {h : Hashes} {s : System ℕ}

/-- The chains of `S`. -/
def System.restrict (s : System ℕ) (S : Finset ℕ) : System S := fun i => s i

/-- The slots of the chains of `S`. -/
def Registry.restrict (R : Registry ℕ) (S : Finset ℕ) : Registry S where
  chainAt j := (R.chainAt j).bind fun i => if hi : i ∈ S then some ⟨i, hi⟩ else none
  injective j k i hj hk := by
    obtain ⟨i', hj', hi'⟩ := Option.bind_eq_some_iff.mp hj
    obtain ⟨i'', hk', hi''⟩ := Option.bind_eq_some_iff.mp hk
    split at hi' <;> cases hi'
    split at hi'' <;> cases hi''
    exact R.injective j k _ hj' hk'

/-- A transfer on a chain of `S`. -/
def Location.lift (l : Location S) : Location ℕ := (l.1, l.2)

/-- A place of the subnetwork is one of the network. -/
theorem Location.lift_injective : Function.Injective (Location.lift (S := S)) := by
  rintro ⟨⟨i, hi⟩, n⟩ ⟨⟨j, hj⟩, m⟩ heq
  simp only [Location.lift, Prod.mk.injEq] at heq
  obtain ⟨rfl, rfl⟩ := heq
  rfl

theorem locate_restrict (hS : ∀ j i, R.chainAt j = some i → i ∈ S) (i : S) (isGlobal : Bool)
    (o : Opening) :
    locate R (i : ℕ) isGlobal o = (locate (R.restrict S) i isGlobal o).map Location.lift := by
  cases isGlobal with
  | false => rfl
  | true =>
    simp only [locate, if_true, Registry.restrict]
    cases hj : R.chainAt (o.position / 2 ^ transferTreeHeight) with
    | none => rfl
    | some k => simp [hS _ _ hj, Location.lift]

/-- A teleport on a chain of `S` opens transfers on chains of `S`. -/
theorem RecordSound.restrict (hS : ∀ j i, R.chainAt j = some i → i ∈ S) {i : S}
    {r : TeleportRecord} (hr : RecordSound R W h s i r) :
    RecordSound (R.restrict S) W h (s.restrict S) i r := by
  have hlocations : r.locations R W i = (r.locations (R.restrict S) W i).map Location.lift := by
    rw [TeleportRecord.locations, TeleportRecord.locations, List.map_filterMap]
    exact List.filterMap_congr fun o _ => locate_restrict hS i r.claim.isGlobal o
  refine ⟨fun o ho => ?_, ?_⟩
  · obtain ⟨l, hl, hstands⟩ := hr.located o ho
    rw [locate_restrict hS] at hl
    obtain ⟨l', hl', rfl⟩ := Option.map_eq_some_iff.mp hl
    exact ⟨l', hl', hstands⟩
  · calc r.claim.value
        ≤ ∑ l ∈ (r.locations R W i).toFinset, s.valueAt l := hr.value_le
      _ = ∑ l ∈ (r.locations (R.restrict S) W i).toFinset.image Location.lift, s.valueAt l := by
          rw [hlocations]
          exact Finset.sum_congr (Finset.ext fun l => by simp) fun _ _ => rfl
      _ = ∑ l ∈ (r.locations (R.restrict S) W i).toFinset, (s.restrict S).valueAt l :=
          Finset.sum_image fun _ _ _ _ heq => Location.lift_injective heq

end

/-! ## Runs -/

variable {h : Hashes} {d : ℕ → DeciderSets} {D : Deployment} {s : NetState} {eid : ℕ}

theorem ChainTurn.solvent {a : NetAction} {c : Chain}
    (hturn : ChainTurn h d (D := D) eid s a c) (hroles : ∀ b, a = .chain eid b → ¬ b.SetsRole)
    (hc : (s.world.chains eid).Solvent) : c.Solvent := by
  refine hturn.elim (P := fun c => c.Solvent) hc (fun b hb => ?_) fun _ _ => ?_
  · refine Chain.step_solvent (fun hset => ?_) hc
    rcases hb with rfl | ⟨m, rfl⟩
    · exact hroles b rfl hset
    · exact hset
  · exact ⟨hc.money, hc.verifierRole, hc.minterRole, hc.covered⟩

theorem ChainTurn.chainId {a : NetAction} {c : Chain}
    (hturn : ChainTurn h d (D := D) eid s a c) : c.chainId = (s.world.chains eid).chainId := by
  refine hturn.elim (P := fun c => c.chainId = (s.world.chains eid).chainId) rfl (fun b _ => ?_)
    fun _ _ => rfl
  exact congrArg Prod.fst (Chain.step_config h (d eid) _ b)

/-- Every chain is solvent and where it was deployed. -/
def World.SolventInv (D : Deployment) (w : World) : Prop :=
  ∀ eid, (w.chains eid).Solvent ∧ (w.chains eid).chainId = (D.site eid).chainId

theorem initial_solventInv : (D.initial h).world.SolventInv D := by
  refine fun eid => ⟨⟨⟨?_, Nat.zero_le _, fun _ _ => rfl⟩, rfl, rfl, Nat.zero_le _⟩, rfl⟩
  exact Finset.sum_eq_zero fun _ _ => rfl

/-- So all chains of a run with fixed roles are solvent. -/
theorem NetState.run_solventInv {acts : List NetAction}
    (hroles : ∀ eid b, .chain eid b ∈ acts → ¬ b.SetsRole) :
    (run (NetState.step h d D) (D.initial h) acts).world.SolventInv D := by
  have hacts : ∀ a ∈ acts, ∀ eid b, a = .chain eid b → ¬ b.SetsRole := by
    rintro a ha eid b rfl
    exact hroles eid b ha
  refine (run_allWorlds (I := World.SolventInv D) initial_inv
    (initial_allWorlds initial_solventInv) ?_ (Along.of_forall hacts)).2.1
  intro t a t' _ _ hw ha hok hne eid
  have hturn := exec_chainTurn eid hok hne
  exact ⟨hturn.solvent (ha eid) (hw eid).1, hturn.chainId.trans (hw eid).2⟩

/-- **Solvency of the network.** `S` holds the endpoints of the Hub. The circulating supply of the
chains of `S`, without what sits at the opened burn addresses, is covered by the liquidity of their
Minters after every run of the contracts and LayerZero, unless the run exhibits a collision. -/
theorem network_solvency (h : Hashes) (d : ℕ → DeciderSets) (V : RootProof → List RootExternalInputs)
    (W : WithdrawWitnesses) (hV : ∀ eid vs p, (d eid vs).rootDecider p = true → p.Satisfied h (V p))
    (hW : ∀ eid, DecidersSound h (d eid) W)
    (hinit : INITIAL_TRANSFER_ROOT = (transferRoot h []).val) (D : Deployment)
    (acts : List NetAction) (hroles : ∀ eid b, .chain eid b ∈ acts → ¬ b.SetsRole)
    (hfew : Along (NetState.step h d D) (fun s _ => ∀ eid, s.FewEvents eid) (D.initial h) acts)
    (s : NetState) (hreach : run (NetState.step h d D) (D.initial h) acts = s) (S : Finset ℕ)
    (hS : ∀ eid ∈ s.world.hub.eids, eid ∈ S)
    (hids : ∀ eid ∈ S, ∀ eid' ∈ S,
      uint64 (D.site eid).chainId = uint64 (D.site eid').chainId → eid = eid')
    (hburn : ¬ BurnCollision W h (System.restrict s.world.chains S))
    (hsilent : ∀ eid ∈ S, ∀ t ∈ (s.world.chains eid).token.events,
      t.src ∉ burnAddresses W h (System.restrict s.world.chains S)) :
    (∑ eid ∈ S, (s.world.chains eid).token.totalSupply : ℤ)
        - ∑ eid ∈ S, ∑ a ∈ burnAddresses W h (System.restrict s.world.chains S),
          ((s.world.chains eid).token.balances a : ℤ)
      ≤ ∑ eid ∈ S, ((s.world.chains eid).liquidity : ℤ)
    ∨ Collision (Function.uncurry h.poseidon2)
        (gathered (NetState.step h d D) (networkInputs h d D W V) (D.initial h) acts)
    ∨ Preimage (Function.uncurry h.poseidon2) 0
        (gathered (NetState.step h d D) (networkInputs h d D W V) (D.initial h) acts)
    ∨ Collision (hashChainOf h)
        (gathered (NetState.step h d D) (rootChainInputs h d V) (D.initial h) acts)
    ∨ Collision (GeneralRecipient.hash h)
        (namedRecipients (System.restrict s.world.chains S)) := by
  subst hreach
  rw [or_iff_not_imp_right, not_or, not_or, not_or]
  rintro ⟨hP, hzero, hC, hsha⟩
  have hledger := NetState.run_ledgerInv (h := h) (d := d) (D := D) acts
  have hsolvent := NetState.run_solventInv (h := h) (d := d) (D := D) hroles
  obtain ⟨hgenuine, hsound⟩ := NetState.run_recordsSound hV hW hinit hfew hP hzero hC
  generalize run (NetState.step h d D) (D.initial h) acts = s at *
  -- the registered chains are among those that are counted
  have hslots : ∀ j i, s.world.registry.chainAt j = some i → i ∈ S := by
    intro j i hj
    rw [World.registry, Registry.ofEids_chainAt hgenuine.placed.eids_nodup] at hj
    exact hS i (List.mem_of_getElem? hj)
  -- no step changes a chain id
  have hids' : ∀ i j : S, uint64 (s.world.chains i).chainId = uint64 (s.world.chains j).chainId →
      i = j := by
    intro i j hij
    rw [(hsolvent i).2, (hsolvent j).2] at hij
    exact Subtype.ext (hids i i.2 j j.2 hij)
  have hinv : ∀ i : S, (System.restrict s.world.chains S i).TeleportInv h := fun i => (hledger i).2
  have hrecords : ∀ i : S, ∀ r ∈ (System.restrict s.world.chains S i).records,
      RecordSound (s.world.registry.restrict S) W h (System.restrict s.world.chains S) i r :=
    fun i r hr => (hsound i r hr).restrict hslots
  have hburned := sum_teleported_le_burned hinv (fun i => (hsolvent i).1) hrecords
    (fun x y hxy => disjoint_opened_pairs hinv hrecords hburn hids' hsha hxy)
    fun i => hsilent i i.2
  have hcovered := solvency_of_burned (fun i => (hsolvent (i : S)).1) hburned
  -- the sums over the chains as a type and as a set
  rw [← Finset.sum_coe_sort S, ← Finset.sum_coe_sort S, ← Finset.sum_coe_sort S]
  exact hcovered

theorem network_solvency_burn :
    let d := fun _ => GlobalBurnExample.deciders
    let D := RefundExample.deployment
    ∃ s, run (NetState.step realHashes d D) (D.initial realHashes) GlobalBurnExample.acts = s
      ∧ (s.world.chains 5).token.totalSupply = 8
      ∧ ((∑ eid ∈ {5}, (s.world.chains eid).token.totalSupply : ℤ)
          - ∑ eid ∈ {5}, ∑ a ∈ burnAddresses GlobalBurnExample.witnesses realHashes
              (System.restrict s.world.chains {5}), ((s.world.chains eid).token.balances a : ℤ)
        ≤ ∑ eid ∈ {5}, ((s.world.chains eid).liquidity : ℤ)
      ∨ Collision (Function.uncurry realHashes.poseidon2)
          (gathered (NetState.step realHashes d D) (networkInputs realHashes d D
            GlobalBurnExample.witnesses fun _ => GlobalBurnExample.rootWitness)
            (D.initial realHashes) GlobalBurnExample.acts)
      ∨ Preimage (Function.uncurry realHashes.poseidon2) 0
          (gathered (NetState.step realHashes d D) (networkInputs realHashes d D
            GlobalBurnExample.witnesses fun _ => GlobalBurnExample.rootWitness)
            (D.initial realHashes) GlobalBurnExample.acts)
      ∨ Collision (hashChainOf realHashes)
          (gathered (NetState.step realHashes d D) (rootChainInputs realHashes d fun _ =>
            GlobalBurnExample.rootWitness) (D.initial realHashes) GlobalBurnExample.acts)
      ∨ Collision (GeneralRecipient.hash realHashes)
          (namedRecipients (System.restrict s.world.chains {5}))) := by
  intro d D
  obtain ⟨s, hreach⟩ : ∃ s, run (NetState.step realHashes d D) (D.initial realHashes)
      GlobalBurnExample.acts = s := ⟨_, rfl⟩
  have hsupply : (s.world.chains 5).token.totalSupply = 8 := by
    rw [← hreach]
    decide +kernel
  have hV : ∀ (eid : ℕ) vs p, (d eid vs).rootDecider p = true →
      p.Satisfied realHashes GlobalBurnExample.rootWitness := by
    intro _ _ p hp
    rw [of_decide_eq_true hp]
    exact GlobalBurnExample.rootProof_satisfied
  have hroles : ∀ eid b, .chain eid b ∈ GlobalBurnExample.acts → ¬ b.SetsRole := by
    rintro eid b hmem hset
    simp only [GlobalBurnExample.acts, List.mem_cons, List.not_mem_nil, NetAction.chain.injEq,
      reduceCtorEq, false_or, or_false] at hmem
    rcases hmem with ⟨-, rfl⟩ | ⟨-, rfl⟩ | ⟨-, rfl⟩ | ⟨-, rfl⟩ | ⟨-, rfl⟩ <;> exact hset
  have hslots : ∀ eid ∈ s.world.hub.eids, eid ∈ ({5} : Finset ℕ) := by
    rw [← hreach]
    decide +kernel
  -- there is only one record, so no two recipients
  have hone : ∀ r ∈ (s.world.chains 5).records,
      r.claim.recipient = BurnExample.recipientHash := by
    rw [← hreach]
    decide +kernel
  have hburn : ¬ BurnCollision GlobalBurnExample.witnesses realHashes
      (System.restrict s.world.chains {5}) := by
    rintro ⟨⟨i, hi⟩, r, hr, -, -, ⟨j, hj⟩, r', hr', -, -, hne, -⟩
    rw [Finset.mem_singleton] at hi hj
    subst hi hj
    exact hne ((hone r hr).trans (hone r' hr').symm)
  have hsilent : ∀ eid ∈ ({5} : Finset ℕ), ∀ t ∈ (s.world.chains eid).token.events,
      t.src ∉ burnAddresses GlobalBurnExample.witnesses realHashes
        (System.restrict s.world.chains {5}) := by
    rw [← hreach]
    decide +kernel
  exact ⟨s, hreach, hsupply, network_solvency realHashes d
    (fun _ => GlobalBurnExample.rootWitness) GlobalBurnExample.witnesses hV
    (fun _ => GlobalBurnExample.decidersSound) transferRoot_empty.symm D GlobalBurnExample.acts
    hroles (NetState.fewEvents_along (by decide)) s hreach {5} hslots
    (fun eid heid eid' heid' _ => by
      rw [Finset.mem_singleton.mp heid, Finset.mem_singleton.mp heid']) hburn hsilent⟩

end Zerc20
