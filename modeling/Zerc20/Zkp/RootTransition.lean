import Zerc20.Zkp.Gadgets
import Zerc20.Zkp.TransferTree

/-!
# The root transition circuit

`root_transition_step` of `zkp/src/circuits/root_transition.rs`, folded by Nova over any
number of steps (`RootCircuit` of `zkp/src/nova/root_nova.rs`). The state is
`(index, hash_chain, merkle_root)`; a real step inserts one leaf and extends the hash chain,
a dummy step keeps the state but still runs the range checks.

`rootRun_sound` is what the circuit guarantees about the transfer history: a run that ends on
the history's hash chain and starts from the history's root ends on the history's root. The
circuit itself never sees the history, so the argument runs the chain backwards: the last
real step hashed the last transfer (or two chain inputs collide), and so on down to the first
step; only then do the siblings, going forwards, have to be those of the history's tree.
-/

namespace Zerc20.Zkp

open Radix HashTree

structure RootState where
  index : Fr
  hashChain : Fr
  root : Fr
  deriving DecidableEq

structure RootExternalInputs where
  isDummy : Bool
  address : Fr
  value : Fr
  siblings : List Fr
  deriving DecidableEq

variable (h : Hashes)

def rootTransitionStep (depth : ℕ) (z : RootState) (e : RootExternalInputs) :
    Option RootState := do
  enforce (e.siblings.length = depth)
  -- range check inputs
  enforceBitLength e.address ADDRESS_BIT_LENGTH
  enforceBitLength e.value BYTES31_BIT_LENGTH
  -- index is range-checked here
  let indexBits ← toBitsLeLimited z.index depth
  let prevMerkle ← merkleRootFromLeaf h 0 indexBits e.siblings
  enforce (e.isDummy = false → z.root = prevMerkle)
  let leafHash := leafHashVar h e.address e.value
  let newRoot ← merkleRootFromLeaf h leafHash indexBits e.siblings
  let newHashChain ← hashChainVar h z.hashChain e.address e.value
  let newIndexCandidate := z.index + 1
  return {
    index := if e.isDummy then z.index else newIndexCandidate
    hashChain := if e.isDummy then z.hashChain else newHashChain
    root := if e.isDummy then z.root else newRoot }

/-- A satisfied folding of `root_transition_step` over the external inputs. -/
def rootRun (depth : ℕ) (z : RootState) (es : List RootExternalInputs) : Option RootState :=
  es.foldlM (rootTransitionStep h depth) z

/-! ## Hash inputs of a run -/

/-- The Poseidon inputs of one step: the path of the zero leaf, the leaf, the path of the leaf. -/
def rootStepInputs (depth : ℕ) (z : RootState) (e : RootExternalInputs) : List (Fr × Fr) :=
  let steps := (bitsLE depth z.index.val).zip e.siblings
  climbInputs h.poseidon2 0 steps ++ (e.address, e.value)
    :: climbInputs h.poseidon2 (leafHashVar h e.address e.value) steps

def rootRunInputs (depth : ℕ) : RootState → List RootExternalInputs → List (Fr × Fr)
  | _, [] => []
  | z, e :: es => rootStepInputs h depth z e ++
      match rootTransitionStep h depth z e with
      | none => []
      | some z' => rootRunInputs depth z' es

def rootRunChainInputs (depth : ℕ) : RootState → List RootExternalInputs → List ChainInput
  | _, [] => []
  | z, e :: es => (z.hashChain.val, e.address.val, e.value.val) ::
      match rootTransitionStep h depth z e with
      | none => []
      | some z' => rootRunChainInputs depth z' es

/-! ## One step -/

/-- The state after a real step. -/
def realStep (depth : ℕ) (z : RootState) (e : RootExternalInputs) : RootState where
  index := z.index + 1
  hashChain := (Zerc20.hashChain h z.hashChain.val e.address.val e.value.val : ℕ)
  root := climb h.poseidon2 (leafHashVar h e.address e.value)
    ((bitsLE depth z.index.val).zip e.siblings)

/-- What one satisfied step can do. -/
theorem rootTransitionStep_eq_some {depth : ℕ} (hd : depth ≤ 254) {z z' : RootState}
    {e : RootExternalInputs} (hstep : rootTransitionStep h depth z e = some z') :
    e.siblings.length = depth ∧ z.index.val < 2 ^ depth
      ∧ (e.isDummy = true ∧ z' = z
        ∨ e.isDummy = false ∧ z' = realStep h depth z e
          ∧ z.root = climb h.poseidon2 0 ((bitsLE depth z.index.val).zip e.siblings)) := by
  unfold rootTransitionStep at hstep
  simp only [Option.bind_eq_bind, Option.bind_eq_some_iff, enforce_eq_some,
    enforceBitLength_eq_some, exists_const, toBitsLeLimited_eq_some hd,
    merkleRootFromLeaf_eq_some, hashChainVar_eq_some] at hstep
  obtain ⟨hlen, -, -, bits, ⟨hidx, rfl⟩, prev, ⟨-, rfl⟩, hroot, new, ⟨-, rfl⟩, chain,
    ⟨-, -, -, rfl⟩, hz'⟩ := hstep
  refine ⟨hlen, hidx, ?_⟩
  rw [Option.pure_def, Option.some.injEq] at hz'
  -- a dummy returns the state it was given
  cases hdummy : e.isDummy with
  | true =>
    refine Or.inl ⟨rfl, ?_⟩
    rw [← hz', hdummy]
    rfl
  | false =>
    refine Or.inr ⟨rfl, ?_, hroot hdummy⟩
    rw [← hz', hdummy]
    rfl

/-- **Completeness.** Inputs in range satisfy a step; the previous root only has to match in a
real one. -/
theorem rootTransitionStep_complete {depth : ℕ} (hd : depth ≤ 254) {z : RootState}
    {e : RootExternalInputs} (hlen : e.siblings.length = depth) (haddress : e.address.val < 2 ^ 160)
    (hvalue : e.value.val < 2 ^ 248) (hidx : z.index.val < 2 ^ depth)
    (hchain : z.hashChain.val < 2 ^ 248)
    (hroot : e.isDummy = false →
      z.root = climb h.poseidon2 0 ((bitsLE depth z.index.val).zip e.siblings)) :
    rootTransitionStep h depth z e = some (if e.isDummy then z else realStep h depth z e) := by
  unfold rootTransitionStep
  simp only [Option.bind_eq_bind, Option.bind_eq_some_iff, enforce_eq_some,
    enforceBitLength_eq_some, exists_const, toBitsLeLimited_eq_some hd,
    merkleRootFromLeaf_eq_some, hashChainVar_eq_some]
  refine ⟨hlen, haddress, hvalue, _, ⟨hidx, rfl⟩, _, ⟨by rw [bitsLE_length, hlen], rfl⟩, hroot, _,
    ⟨by rw [bitsLE_length, hlen], rfl⟩, _, ⟨hchain, haddress, hvalue, rfl⟩, ?_⟩
  cases e.isDummy <;> rfl

theorem realStep_index_val {depth : ℕ} (hd : depth ≤ 252) {z : RootState}
    {e : RootExternalInputs} (hidx : z.index.val < 2 ^ depth) :
    (realStep h depth z e).index.val = z.index.val + 1 := by
  have hcast : (realStep h depth z e).index = ((z.index.val + 1 : ℕ) : Fr) := by
    simp [realStep]
  rw [hcast]
  refine val_natCast_of_lt_two_pow (n := depth + 1) (by omega) ?_
  rw [Nat.pow_succ]
  have := Nat.two_pow_pos depth
  omega

/-! ## Runs -/

theorem rootRun_cons {depth : ℕ} {z z' : RootState} {e : RootExternalInputs}
    {es : List RootExternalInputs} :
    rootRun h depth z (e :: es) = some z'
      ↔ ∃ z₁, rootTransitionStep h depth z e = some z₁ ∧ rootRun h depth z₁ es = some z' := by
  simp [rootRun, Option.bind_eq_some_iff]

theorem rootRun_index_le {depth : ℕ} (hd : depth ≤ 252) {z z' : RootState}
    {es : List RootExternalInputs} (hne : es ≠ []) (hrun : rootRun h depth z es = some z') :
    z.index.val < 2 ^ depth ∧ z.index.val ≤ z'.index.val ∧ z'.index.val ≤ 2 ^ depth := by
  induction es generalizing z with
  | nil => exact absurd rfl hne
  | cons e es ih =>
    obtain ⟨z₁, hstep, hrest⟩ := (rootRun_cons h).mp hrun
    obtain ⟨-, hidx, hcase⟩ := rootTransitionStep_eq_some h (by omega) hstep
    have hz₁ : z.index.val ≤ z₁.index.val ∧ z₁.index.val ≤ 2 ^ depth := by
      rcases hcase with ⟨-, rfl⟩ | ⟨-, rfl, -⟩
      · exact ⟨le_refl _, hidx.le⟩
      · rw [realStep_index_val h hd hidx]
        omega
    cases es with
    | nil =>
      simp only [rootRun, List.foldlM_nil, Option.pure_def, Option.some.injEq] at hrest
      subst hrest
      exact ⟨hidx, hz₁⟩
    | cons e' es =>
      obtain ⟨-, hle, hle'⟩ := ih (by simp) hrest
      exact ⟨hidx, hz₁.1.trans hle, hle'⟩

section Soundness

variable {ts : List Transfer} {QP : Set (Fr × Fr)} {QC : Set ChainInput}

/-- The step of the backward argument: a real step that ends on the chain of the first `n + 1`
transfers hashed transfer `n` on top of the chain of the first `n`. -/
theorem realStep_chain (hC : Set.InjOn (hashChainOf h) QC) (hts : chainInputs h ts ⊆ QC)
    {depth : ℕ} {z : RootState} {e : RootExternalInputs} {t : Transfer}
    (hin : (z.hashChain.val, e.address.val, e.value.val) ∈ QC)
    (hget : ts[z.index.val]? = some t)
    (hchain : (realStep h depth z e).hashChain.val
      = transferChain h (ts.take (z.index.val + 1))) :
    z.hashChain.val = transferChain h (ts.take z.index.val)
      ∧ e.address.val = t.dst.val ∧ e.value.val = t.value.val := by
  have hval : (realStep h depth z e).hashChain.val
      = hashChainOf h (z.hashChain.val, e.address.val, e.value.val) :=
    val_natCast_of_lt_two_pow (n := 248) (by omega) (hashChain_lt h _ _ _)
  rw [hval, transferChain_take_succ h hget] at hchain
  have heq := hC hin (hts ⟨z.index.val, t, hget, rfl⟩) hchain
  simpa [Prod.ext_iff] using heq

/-- The step of the forward argument: a real step from the root of the first `n` transfers that
hashes transfer `n` ends on the root of the first `n + 1`. -/
theorem realStep_root (hP : Set.InjOn (Function.uncurry h.poseidon2) QP)
    (hts : transferInputs h ts ⊆ QP) {z : RootState} {e : RootExternalInputs} {t : Transfer}
    (hin : ∀ q ∈ rootStepInputs h transferTreeHeight z e, q ∈ QP)
    (hlen : e.siblings.length = transferTreeHeight) (hidx : z.index.val < 2 ^ transferTreeHeight)
    (hget : ts[z.index.val]? = some t)
    (haddr : e.address.val = t.dst.val) (hvalue : e.value.val = t.value.val)
    (hzero : z.root
      = climb h.poseidon2 0 ((bitsLE transferTreeHeight z.index.val).zip e.siblings))
    (hroot : z.root = transferRoot h (ts.take z.index.val)) :
    (realStep h transferTreeHeight z e).root = transferRoot h (ts.take (z.index.val + 1)) := by
  have hleaf : leafHashVar h e.address e.value = t.leaf h := by
    have ha : e.address = addressToFr t.dst := fr_eq_of_val_eq (by rw [haddr, addressToFr_val])
    have hv : e.value = u256ToFr t.value.val := fr_eq_of_val_eq (by rw [hvalue, u256ToFr_val])
    rw [leafHashVar, Transfer.leaf, ha, hv]
  -- the siblings lead from the zero leaf to the old root, so they are the tree's own
  have hpath : e.siblings = path h.poseidon2 (transferLeaves h (ts.take z.index.val)) 0
      z.index.val transferTreeHeight := by
    refine (climb_binding_root h.poseidon2 _ hP hidx (x := 0) hlen (fun q hq => hin q ?_) ?_ ?_).2
    · rw [rootStepInputs]
      exact List.mem_append_left _ hq
    · exact fun q hq => hts (Or.inr ⟨z.index.val, hq⟩)
    · rw [← hzero, hroot, transferRoot]
  rw [realStep, hleaf, hpath]
  exact climb_transfer h hget hidx

/-- **Soundness of the root transition circuit.** -/
theorem rootRun_sound (hP : Set.InjOn (Function.uncurry h.poseidon2) QP)
    (hC : Set.InjOn (hashChainOf h) QC)
    (htsP : transferInputs h ts ⊆ QP) (htsC : chainInputs h ts ⊆ QC)
    {z z' : RootState} {es : List RootExternalInputs}
    (hinP : ∀ q ∈ rootRunInputs h transferTreeHeight z es, q ∈ QP)
    (hinC : ∀ q ∈ rootRunChainInputs h transferTreeHeight z es, q ∈ QC)
    (hrun : rootRun h transferTreeHeight z es = some z')
    (hle : z'.index.val ≤ ts.length)
    (hchain : z'.hashChain.val = transferChain h (ts.take z'.index.val)) :
    z.index.val ≤ z'.index.val ∧ z.hashChain.val = transferChain h (ts.take z.index.val)
      ∧ (z.root = transferRoot h (ts.take z.index.val) →
        z'.root = transferRoot h (ts.take z'.index.val)) := by
  induction es generalizing z with
  | nil =>
    simp only [rootRun, List.foldlM_nil, Option.pure_def, Option.some.injEq] at hrun
    subst hrun
    exact ⟨le_refl _, hchain, id⟩
  | cons e es ih =>
    obtain ⟨z₁, hstep, hrest⟩ := (rootRun_cons h).mp hrun
    rw [rootRunInputs, hstep] at hinP
    rw [rootRunChainInputs, hstep] at hinC
    -- the tail of the run is covered by the induction hypothesis, which gives the chain at `z₁`
    obtain ⟨hle₁, hchain₁, hforward⟩ := ih
      (fun q hq => hinP q (List.mem_append_right _ hq))
      (fun q hq => hinC q (List.mem_cons_of_mem _ hq)) hrest
    obtain ⟨hlen, hidx, ⟨-, rfl⟩ | ⟨-, rfl, hzero⟩⟩ :=
      rootTransitionStep_eq_some h (by decide) hstep
    · exact ⟨hle₁, hchain₁, hforward⟩
    · rw [realStep_index_val h (by decide) hidx] at hle₁ hchain₁ hforward
      obtain ⟨t, hget⟩ : ∃ t, ts[z.index.val]? = some t :=
        ⟨_, List.getElem?_eq_getElem (by omega)⟩
      obtain ⟨hz, haddr, hvalue⟩ :=
        realStep_chain h hC htsC (hinC _ List.mem_cons_self) hget hchain₁
      refine ⟨by omega, hz, fun hroot => hforward ?_⟩
      exact realStep_root h hP htsP (fun q hq => hinP q (List.mem_append_left _ hq)) hlen hidx
        hget haddr hvalue hzero hroot

end Soundness

end Zerc20.Zkp
