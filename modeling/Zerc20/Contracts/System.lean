import Zerc20.Contracts.Chain
import Zerc20.Zkp.Withdraw

/-!
# Several chains and the leaves opened by teleports

A system is a family of chains, each step one transaction on one of them. A teleport proof
opens leaves of a tree whose root the Verifier stores: of the chain's own transfer tree, or of
the aggregation tree, whose leaves are the transfer roots of all chains (`0` for a chain that
has not reported). `locate` says which recorded transfer an opening stands for, and
`located_of_checks` that the circuits open recorded transfers only.

The roots are taken as genuine (`RootsGenuine`), the deciders as sound (`DecidersSound`), with
the attacker's witnesses in `W`.
-/

namespace Zerc20

open Machine HashTree Radix Zkp

variable {ι : Type} [DecidableEq ι] (h : Hashes) (d : DeciderSets)

abbrev System (ι : Type) := ι → Chain

/-- A transfer, named by its chain and its index. -/
abbrev Location (ι : Type) := ι × ℕ

namespace System

def step (s : System ι) (x : ι × ChainAction) : System ι :=
  Function.update s x.1 ((s x.1).step h d x.2)

def transferAt (s : System ι) (l : Location ι) : Option Transfer := (s l.1).token.events[l.2]?

def valueAt (s : System ι) (l : Location ι) : ℕ :=
  match s.transferAt l with
  | none => 0
  | some t => t.value.val

/-- The history of every chain of `s` is a prefix of its history in `s'`. -/
def Grows (s s' : System ι) : Prop := ∀ i, (s i).token.events <+: (s' i).token.events

/-- A step of a chain only adds to the system's transfers. -/
theorem grows_step (s : System ι) (x : ι × ChainAction) : s.Grows (s.step h d x) := by
  intro i
  unfold step
  by_cases hi : i = x.1
  · subst hi
    rw [Function.update_self]
    exact Chain.step_events_grow h d (s x.1) x.2
  · rw [Function.update_of_ne hi]

omit [DecidableEq ι] in
theorem Grows.transferAt {s s' : System ι} (hg : s.Grows s') {l : Location ι} {t : Transfer}
    (hl : s.transferAt l = some t) : s'.transferAt l = some t := by
  obtain ⟨rest, hrest⟩ := hg l.1
  have hlt : l.2 < (s l.1).token.events.length := (List.getElem?_eq_some_iff.mp hl).1
  unfold System.transferAt at hl ⊢
  rw [← hrest, List.getElem?_append_left hlt, hl]

omit [DecidableEq ι] in
theorem Grows.valueAt {s s' : System ι} (hg : s.Grows s') {l : Location ι} {t : Transfer}
    (hl : s.transferAt l = some t) : s'.valueAt l = s.valueAt l := by
  unfold System.valueAt
  rw [hg.transferAt hl, hl]

omit [DecidableEq ι] in
theorem Grows.take_events {s s' : System ι} (hg : s.Grows s') {i : ι} {n : ℕ}
    (hn : n ≤ (s i).token.events.length) :
    (s' i).token.events.take n = (s i).token.events.take n := by
  obtain ⟨rest, hrest⟩ := hg i
  rw [← hrest, List.take_append_of_le_length hn]

end System

/-! ## Genuine roots -/

/-- `POSEIDON_TREE_HEIGHT`. -/
def aggregationHeight : ℕ := 6

/-- The depth of the tree opened by a teleport proof. -/
def withdrawDepth (isGlobal : Bool) : ℕ :=
  if isGlobal then transferTreeHeight + aggregationHeight else transferTreeHeight

/-- The chain registered at each position of the aggregation tree. -/
structure Registry (ι : Type) where
  chainAt : ℕ → Option ι
  injective : ∀ j k i, chainAt j = some i → chainAt k = some i → j = k

variable (R : Registry ι)

/-- The leaf of the aggregation tree at position `j`, for reported histories of the lengths
`lens`. -/
def aggregationLeaf (s : System ι) (lens : ℕ → Option ℕ) (j : ℕ) : Fr :=
  match R.chainAt j, lens j with
  | some i, some n => transferRoot h ((s i).token.events.take n)
  | _, _ => 0

/-- The reported histories exist. -/
def Reported (s : System ι) (lens : ℕ → Option ℕ) : Prop :=
  ∀ j i n, R.chainAt j = some i → lens j = some n → n ≤ (s i).token.events.length

/-- The stored roots are roots of real transfer trees: `G i k` are the lengths of the histories
behind the aggregation root that Verifier `i` stores for sequence `k`. -/
structure RootsGenuine (G : ι → ℕ → ℕ → Option ℕ) (s : System ι) : Prop where
  proved : ∀ i k, (s i).verifier.provedTransferRoots k ≠ 0 →
    ∃ n ≤ (s i).token.events.length, (s i).verifier.provedTransferRoots k
      = (transferRoot h ((s i).token.events.take n)).val
  global : ∀ i k, (s i).verifier.globalTransferRoots k ≠ 0 →
    Reported R s (G i k) ∧ (s i).verifier.globalTransferRoots k
      = (node h.poseidon2 (aggregationLeaf h R s (G i k)) aggregationHeight 0).val

/-! ## Sound deciders -/

/-- The witnesses behind the accepted withdraw proofs. -/
structure WithdrawWitnesses where
  batch : Bool → WithdrawProof → List WithdrawExternalInputs
  single : Bool → SingleProof → SingleWithdrawWitness

def WithdrawProof.initialState (p : WithdrawProof) : WithdrawState :=
  ⟨((p 1).val : Fr), ((p 2).val : Fr), ((p 3).val : Fr), ((p 4).val : Fr)⟩

def WithdrawProof.finalState (p : WithdrawProof) : WithdrawState :=
  ⟨((p 5).val : Fr), ((p 6).val : Fr), ((p 7).val : Fr), ((p 8).val : Fr)⟩

/-- Accepted proofs have canonical public words and satisfied circuits of the depth that
`isGlobal` selects. -/
structure DecidersSound (W : WithdrawWitnesses) : Prop where
  batch : ∀ vs isGlobal p, (d vs).withdrawDecider isGlobal p = true →
    (∀ i ∈ ([1, 2, 3, 4, 5, 6, 7, 8] : List (Fin 34)), (p i).val < scalarModulus)
      ∧ withdrawRun h (withdrawDepth isGlobal) p.initialState (W.batch isGlobal p)
        = some p.finalState
  single : ∀ vs isGlobal p, (d vs).singleWithdrawVerifier isGlobal p = true →
    (∀ i, (p.pubSignals i).val < scalarModulus)
      ∧ singleWithdrawCircuit h (withdrawDepth isGlobal) ((p.pubSignals 0).val : Fr)
        ((p.pubSignals 1).val : Fr) ((p.pubSignals 2).val : Fr) (W.single isGlobal p) = some ()

variable (W : WithdrawWitnesses)

/-- The leaves opened by a proof. -/
def Evidence.openings (isGlobal : Bool) : Evidence → List Opening
  | .batch p => realOpenings (W.batch isGlobal p)
  | .single p => [(W.single isGlobal p).opening]

/-- What an accepted proof shows: every opening passes the checks of the circuit, no leaf is
opened twice, and the openings cover the claimed value. -/
structure Verifier.Claim.Backed (c : Verifier.Claim) (os : List Opening) : Prop where
  checks : ∀ o ∈ os, o.Checks h (withdrawDepth c.isGlobal) (c.transferRoot : Fr) (c.recipient : Fr)
  distinct : (os.map Opening.position).Nodup
  value_le : c.value ≤ (os.map fun o => o.value.val).sum

variable {h d R W}

/-- Both trees are shallow enough for the field. -/
theorem withdrawDepth_le (isGlobal : Bool) : withdrawDepth isGlobal ≤ 250 := by
  cases isGlobal <;> decide

/-- What a sound decider accepts is backed by openings. -/
theorem Evidence.Claims.backed (hW : DecidersSound h d W) {vs : Verifiers} {e : Evidence}
    {c : Verifier.Claim} (hc : e.Claims (d vs) c) : c.Backed h (e.openings W c.isGlobal) := by
  cases e with
  | batch p =>
    simp only [Evidence.Claims, Verifier.teleportClaim, bind_eq_ok, require_eq_ok,
      exists_const] at hc
    obtain ⟨h3, h4, h5, h6, hacc, hret⟩ := hc
    obtain ⟨hcanon, hrun⟩ := hW.batch vs _ _ hacc
    generalize hglobal : c.isGlobal = isGlobal at *
    cases hret
    -- the contract fixed the initial index and total to zero
    have hz : p.initialState.totalValue.val = 0 := by
      rw [WithdrawProof.initialState, h4, Nat.cast_zero, ZMod.val_zero]
    have hfacts := withdrawRun_facts h (withdrawDepth_le isGlobal)
      (by rw [hz]; exact Nat.two_pow_pos _) hrun
    refine ⟨hfacts.checks, hfacts.increasing.imp Nat.ne_of_lt, ?_⟩
    have htotal := hfacts.total
    have hvalue : p.finalState.totalValue.val = (p 8).val :=
      ZMod.val_natCast_of_lt (hcanon 8 (by decide))
    rw [hz, hvalue, Nat.zero_add] at htotal
    exact Nat.le_of_add_right_le htotal.le
  | single p =>
    simp only [Evidence.Claims, Verifier.singleTeleportClaim, bind_eq_ok, require_eq_ok,
      exists_const] at hc
    obtain ⟨hacc, hret⟩ := hc
    obtain ⟨hcanon, hsat⟩ := hW.single vs _ _ hacc
    generalize hglobal : c.isGlobal = isGlobal at *
    cases hret
    obtain ⟨hchecks, hle⟩ := singleWithdrawCircuit_eq_some h
      ((withdrawDepth_le isGlobal).trans (by omega)) hsat
    refine ⟨?_, by simp [Evidence.openings], ?_⟩
    · intro o ho
      rw [List.mem_singleton.mp ho]
      exact hchecks
    · rw [ZMod.val_natCast_of_lt (hcanon 2)] at hle
      rw [Evidence.openings, List.map_singleton, List.sum_singleton]
      exact hle

/-! ## Openings are recorded transfers -/

/-- The transfer an opening stands for. -/
def locate (R : Registry ι) (i : ι) (isGlobal : Bool) (o : Opening) : Option (Location ι) :=
  if isGlobal then
    (R.chainAt (o.position / 2 ^ transferTreeHeight)).map fun j =>
      (j, o.position % 2 ^ transferTreeHeight)
  else some (i, o.position)

omit [DecidableEq ι] in
/-- A place determines the position of the opening. -/
theorem locate_inj {i : ι} {isGlobal : Bool} {o o' : Opening} {l : Location ι}
    (ho : locate R i isGlobal o = some l) (ho' : locate R i isGlobal o' = some l) :
    o.position = o'.position := by
  cases isGlobal with
  | false =>
    simp only [locate, Bool.false_eq_true, if_false, Option.some.injEq] at ho ho'
    rw [← ho', Prod.mk.injEq] at ho
    exact ho.2
  | true =>
    simp only [locate, if_true, Option.map_eq_some_iff] at ho ho'
    obtain ⟨j, hj, rfl⟩ := ho
    obtain ⟨j', hj', heq⟩ := ho'
    rw [Prod.mk.injEq] at heq
    obtain ⟨rfl, hmod⟩ := heq
    have hdiv := R.injective _ _ _ hj hj'
    rw [← Nat.div_add_mod o.position (2 ^ transferTreeHeight), hdiv, ← hmod, Nat.div_add_mod]

/-- The leaves of a transfer tree. -/
def historyLeaves (ts : List Transfer) (i : ℕ) : Leaf :=
  ts[i]?.map fun t => (addressToFr t.dst, u256ToFr t.value.val)

/-- The leaf of a transfer is the hash of its address and value. -/
theorem leafHash_historyLeaves (ts : List Transfer) (i : ℕ) :
    leafHash h (historyLeaves ts i) = transferLeaves h ts i := by
  unfold historyLeaves
  cases hi : ts[i]? with
  | none =>
    rw [transferLeaves_of_le h (List.getElem?_eq_none_iff.mp hi)]
    rfl
  | some t =>
    rw [transferLeaves_of_getElem? h hi]
    rfl

/-- So the root of the leaves is that of the history. -/
theorem leafRoot_historyLeaves (ts : List Transfer) :
    leafRoot h transferTreeHeight (historyLeaves ts) = transferRoot h ts := by
  rw [leafRoot, transferRoot]
  exact congrArg (fun f => node h.poseidon2 f transferTreeHeight 0)
    (funext (leafHash_historyLeaves ts))

/-- Hashing the tree of a prefix of the events takes inputs of the whole history. -/
theorem leafInputs_historyLeaves (ts : List Transfer) (n : ℕ) :
    leafInputs h transferTreeHeight (historyLeaves (ts.take n)) ⊆ transferInputs h ts := by
  rintro q (⟨i, -, hq⟩ | hq)
  · obtain ⟨t, ht, rfl⟩ := Option.map_eq_some_iff.mp hq
    exact Or.inl ⟨t, List.mem_of_mem_take (List.mem_of_getElem? ht), rfl⟩
  · refine Or.inr ⟨n, ?_⟩
    have hfun : (fun i => leafHash h (historyLeaves (ts.take n) i))
        = transferLeaves h (ts.take n) := funext (leafHash_historyLeaves _)
    rw [← hfun]
    exact hq

/-- The transfer at `l` was sent to the burn address of the opening, with the opened value. -/
def Zkp.Opening.StandsFor (h : Hashes) (s : System ι) (recipient : Fr) (o : Opening)
    (l : Location ι) : Prop :=
  ∃ t, s.transferAt l = some t
    ∧ computeBurnAddressFromSecret h recipient o.secret = .ok (addressToFr t.dst)
    ∧ o.value.val = t.value.val

section Binding

variable {Q : Set (Fr × Fr)} {s : System ι} {i : ι} {recipient : Fr} {o : Opening}

omit [DecidableEq ι] in
/-- Without a collision an opening of a local root is a transfer of the chain's history. -/
theorem Zkp.Opening.standsFor_of_checks {n : ℕ} (hinj : Set.InjOn (Function.uncurry h.poseidon2) Q)
    (hzero : ¬ Preimage (Function.uncurry h.poseidon2) 0 Q)
    (hts : transferInputs h (s i).token.events ⊆ Q)
    (hin : ∀ q ∈ o.inputs h transferTreeHeight recipient, q ∈ Q)
    (hchecks : o.Checks h transferTreeHeight
      (transferRoot h ((s i).token.events.take n)) recipient) :
    o.StandsFor h s recipient (i, o.position) := by
  rw [← leafRoot_historyLeaves] at hchecks
  obtain ⟨-, a, ha, hleaf⟩ := Opening.valid_of_checks h hinj hzero
    ((leafInputs_historyLeaves _ n).trans hts) hin hchecks
  obtain ⟨t, ht, heq⟩ := Option.map_eq_some_iff.mp hleaf
  rw [Prod.mk.injEq] at heq
  obtain ⟨rfl, hvalue⟩ := heq
  refine ⟨t, ?_, ha, by rw [← hvalue, u256ToFr_val]⟩
  rw [List.getElem?_take] at ht
  split at ht
  · exact ht
  · cases ht

/-- The lower part of an opening of the aggregation tree. -/
def Zkp.Opening.lower (o : Opening) : Opening :=
  { o with
    leafIndex := ((o.position % 2 ^ transferTreeHeight : ℕ) : Fr)
    siblings := o.siblings.take transferTreeHeight }

/-- The lower bits of a global position are the index. -/
theorem Zkp.Opening.lower_position (o : Opening) :
    o.lower.position = o.position % 2 ^ transferTreeHeight :=
  val_natCast_of_lt_two_pow (n := transferTreeHeight) (by decide)
    (Nat.mod_lt _ (Nat.two_pow_pos _))

/-- The lower part of a global path is a path in the local tree. -/
theorem Zkp.Opening.lower_steps (o : Opening) :
    o.lower.steps transferTreeHeight = (bitsLE transferTreeHeight o.position).zip
      (o.siblings.take transferTreeHeight) := by
  have hpos : o.lower.leafIndex.val = o.position % 2 ^ transferTreeHeight := o.lower_position
  rw [Opening.steps, hpos, bitsLE_mod (le_refl _)]
  rfl

omit [DecidableEq ι] in
/-- Without a collision an opening of a global root goes through a leaf of the aggregation, and from
there to a transfer of that chain. -/
theorem Zkp.Opening.standsFor_of_checks_global {lens : ℕ → Option ℕ}
    (hinj : Set.InjOn (Function.uncurry h.poseidon2) Q)
    (hzero : ¬ Preimage (Function.uncurry h.poseidon2) 0 Q)
    (hts : ∀ j, transferInputs h (s j).token.events ⊆ Q)
    (hagg : treeInputs h.poseidon2 (aggregationLeaf h R s lens) aggregationHeight ⊆ Q)
    (hin : ∀ q ∈ o.inputs h (transferTreeHeight + aggregationHeight) recipient, q ∈ Q)
    (hchecks : o.Checks h (transferTreeHeight + aggregationHeight)
      (node h.poseidon2 (aggregationLeaf h R s lens) aggregationHeight 0) recipient) :
    ∃ j, R.chainAt (o.position / 2 ^ transferTreeHeight) = some j
      ∧ o.StandsFor h s recipient (j, o.position % 2 ^ transferTreeHeight) := by
  obtain ⟨hlen, hpos, a, ha, hroot⟩ := hchecks
  rw [Opening.inputs, burnAddress_of_ok h ha] at hin
  obtain ⟨hleaf, hlower⟩ := climb_binding_upper h.poseidon2 _ hinj hpos hlen
    (fun q hq => hin q (List.mem_cons_of_mem _ (List.mem_cons_of_mem _ hq))) hagg hroot.symm
  -- after 40 levels the fold is a hash, so it cannot be the `0` of a chain without a root
  have hne : aggregationLeaf h R s lens (o.position / 2 ^ transferTreeHeight) ≠ 0 := by
    rw [← hleaf]
    intro h0
    have hsteps : (bitsLE transferTreeHeight o.position).zip
        (o.siblings.take transferTreeHeight) ≠ [] := by
      rw [← List.length_pos_iff, List.length_zip, bitsLE_length, List.length_take, hlen]
      decide
    obtain ⟨q, hq, heq⟩ := climb_eq_hash h.poseidon2 (leafHashVar h a o.value) hsteps
    exact hzero ⟨q, hlower q hq, by rw [← heq, h0]⟩
  unfold aggregationLeaf at hleaf hne
  cases hj : R.chainAt (o.position / 2 ^ transferTreeHeight) with
  | none =>
    rw [hj] at hne
    exact absurd rfl hne
  | some j =>
    cases hn : lens (o.position / 2 ^ transferTreeHeight) with
    | none =>
      rw [hj, hn] at hne
      exact absurd rfl hne
    | some n =>
      rw [hj, hn] at hleaf
      refine ⟨j, rfl, ?_⟩
      rw [← Opening.lower_position]
      refine Opening.standsFor_of_checks (o := o.lower) (n := n) hinj hzero (hts j) ?_ ?_
      · intro q hq
        rw [Opening.inputs, Opening.lower_steps] at hq
        have hb : burnAddress h recipient o.lower.secret = a := burnAddress_of_ok h ha
        rw [hb] at hq
        cases hq with
        | head => exact hin _ List.mem_cons_self
        | tail _ hq =>
          cases hq with
          | head => exact hin _ (List.mem_cons_of_mem _ List.mem_cons_self)
          | tail _ hq => exact hlower q hq
      · refine ⟨?_, ?_, a, ha, ?_⟩
        · rw [Opening.lower, List.length_take, hlen]
          decide
        · rw [Opening.lower_position]
          exact Nat.mod_lt _ (Nat.two_pow_pos _)
        · rw [Opening.lower_steps]
          exact hleaf.symm

omit [DecidableEq ι] in
/-- **Openings under genuine roots are recorded transfers.** -/
theorem located_of_checks {isGlobal : Bool} {k root : ℕ} {G : ι → ℕ → ℕ → Option ℕ}
    (hinj : Set.InjOn (Function.uncurry h.poseidon2) Q)
    (hzero : ¬ Preimage (Function.uncurry h.poseidon2) 0 Q)
    (hgenuine : RootsGenuine h R G s) (hts : ∀ j, transferInputs h (s j).token.events ⊆ Q)
    (hagg : (s i).verifier.globalTransferRoots k ≠ 0 →
      treeInputs h.poseidon2 (aggregationLeaf h R s (G i k)) aggregationHeight ⊆ Q)
    (hin : ∀ q ∈ o.inputs h (withdrawDepth isGlobal) recipient, q ∈ Q)
    (hne : root ≠ 0)
    (hroot : root = if isGlobal then (s i).verifier.globalTransferRoots k
      else (s i).verifier.provedTransferRoots k)
    (hchecks : o.Checks h (withdrawDepth isGlobal) (root : Fr) recipient) :
    ∃ l, locate R i isGlobal o = some l ∧ o.StandsFor h s recipient l := by
  cases isGlobal with
  | false =>
    -- a proved root is the root of a prefix of this chain's own history
    rw [if_neg Bool.false_ne_true] at hroot
    subst hroot
    obtain ⟨n, -, hval⟩ := hgenuine.proved i k hne
    rw [hval, ZMod.natCast_zmod_val] at hchecks
    exact ⟨_, rfl, Opening.standsFor_of_checks hinj hzero (hts i) hin hchecks⟩
  | true =>
    -- an aggregation root has the root of some chain on the upper part of the path
    rw [if_pos rfl] at hroot
    subst hroot
    obtain ⟨-, hval⟩ := hgenuine.global i k hne
    rw [hval, ZMod.natCast_zmod_val] at hchecks
    obtain ⟨j, hj, hstands⟩ :=
      Opening.standsFor_of_checks_global hinj hzero hts (hagg hne) hin hchecks
    exact ⟨_, by rw [locate, if_pos rfl, hj]; rfl, hstands⟩

end Binding

end Zerc20
