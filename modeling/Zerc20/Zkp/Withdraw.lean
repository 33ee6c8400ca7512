import Zerc20.Zkp.Gadgets
import Zerc20.Hash.Poseidon
import Zerc20.Hash.Sha256
import Mathlib.Algebra.BigOperators.Group.Finset.Basic
import Mathlib.Algebra.Order.BigOperators.Group.Finset

/-!
# The withdraw circuits

`withdraw_step` and `single_withdraw` of `zkp/src/circuits/withdraw.rs`, with the Nova circuit
that folds the first (`zkp/src/nova/withdraw_nova.rs`) and the Groth16 circuit around the
second (`zkp/src/groth16/withdraw.rs`).

Both circuits open leaves of one Merkle tree. What they check of an opening is
`Opening.Checks`, what it says about the tree is `Opening.Valid`, and `valid_of_checks` goes
from one to the other unless two hash inputs collide or one hashes to `0` (a leaf that was
never written is `0`). On top of that the batch circuit adds up the opened values: every
step, dummy or real, moves strictly up in leaf order, so no leaf is opened twice, and the
range check of the new total keeps the subtraction of a dummy step from wrapping around.
-/

namespace Zerc20.Zkp

open Radix HashTree

variable (h : Hashes)

/-! ## The circuits -/

structure WithdrawState where
  merkleRoot : Fr
  recipient : Fr
  leafIndexWithOffset : Fr
  totalValue : Fr
  deriving DecidableEq

structure WithdrawExternalInputs where
  isDummy : Bool
  value : Fr
  secret : Fr
  leafIndex : Fr
  siblings : List Fr
  deriving DecidableEq

def singleWithdraw (depth : ℕ) (merkleRoot recipient value delta secret leafIndex : Fr)
    (siblings : List Fr) : Option Fr := do
  enforce (siblings.length = depth)
  enforceBitLength leafIndex depth
  enforceBitLength value BYTES31_BIT_LENGTH
  enforceBitLength delta BYTES31_BIT_LENGTH
  let indexBits ← toBitsLeLimited leafIndex depth
  let leafAddress ← burnAddressVar h recipient secret true
  let leafHash := leafHashVar h leafAddress value
  let computedRoot ← merkleRootFromLeaf h leafHash indexBits siblings
  enforce (merkleRoot = computedRoot)
  let withdrawValue := value - delta
  enforceBitLength withdrawValue BYTES31_BIT_LENGTH
  return withdrawValue

def withdrawStep (depth : ℕ) (z : WithdrawState) (e : WithdrawExternalInputs) :
    Option WithdrawState := do
  enforce (e.siblings.length = depth)
  -- input range checks
  enforceBitLength e.leafIndex depth
  enforceBitLength z.leafIndexWithOffset (depth + 1)
  enforceBitLength e.value BYTES31_BIT_LENGTH
  let leafIndexWithOffset := e.leafIndex + 1
  enforceStrictLessThan z.leafIndexWithOffset leafIndexWithOffset (depth + 1)
  let indexBits ← toBitsLeLimited e.leafIndex depth
  let shouldConstrain := !e.isDummy
  let leafAddress ← burnAddressVar h z.recipient e.secret shouldConstrain
  let leafHash := leafHashVar h leafAddress e.value
  let computedRoot ← merkleRootFromLeaf h leafHash indexBits e.siblings
  let isDummyFp := boolToFp e.isDummy
  let isRealFp := 1 - isDummyFp
  let diff := z.merkleRoot - computedRoot
  enforce (diff * isRealFp = 0)
  let factor := 1 - isDummyFp * 2
  let newTotalValue := z.totalValue + e.value * factor
  enforceBitLength newTotalValue BYTES31_BIT_LENGTH
  return {
    merkleRoot := z.merkleRoot
    recipient := z.recipient
    leafIndexWithOffset := leafIndexWithOffset
    totalValue := newTotalValue }

/-- A satisfied folding of `withdraw_step` over the external inputs. -/
def withdrawRun (depth : ℕ) (z : WithdrawState) (es : List WithdrawExternalInputs) :
    Option WithdrawState :=
  es.foldlM (withdrawStep h depth) z

/-- The witness of `SingleWithdrawCircuit`. -/
structure SingleWithdrawWitness where
  value : Fr
  delta : Fr
  secret : Fr
  leafIndex : Fr
  siblings : List Fr
  deriving DecidableEq

/-- `generate_constraints` of `SingleWithdrawCircuit`. -/
def singleWithdrawCircuit (depth : ℕ) (merkleRoot recipient withdrawValue : Fr)
    (w : SingleWithdrawWitness) : Option Unit := do
  let computedWithdrawValue ←
    singleWithdraw h depth merkleRoot recipient w.value w.delta w.secret w.leafIndex w.siblings
  enforce (withdrawValue = computedWithdrawValue)

/-! ## Openings -/

/-- A leaf of the tree: a recorded `(to, value)`, or nothing. -/
abbrev Leaf := Option (Fr × Fr)

def leafHash : Leaf → Fr
  | none => 0
  | some (dst, value) => leafHashVar h dst value

def leafValue : Leaf → ℕ
  | none => 0
  | some (_, value) => value.val

def leafRoot (depth : ℕ) (leaves : ℕ → Leaf) : Fr :=
  node h.poseidon2 (fun i => leafHash h (leaves i)) depth 0

/-- One leaf opened by a proof. -/
structure Opening where
  secret : Fr
  value : Fr
  leafIndex : Fr
  siblings : List Fr
  deriving DecidableEq

/-- The burn address without the proof-of-work check. -/
def burnAddress (recipient secret : Fr) : Fr :=
  ((h.poseidon2 recipient secret).val &&& (2 ^ ADDRESS_BIT_LENGTH - 1) : ℕ)

namespace Opening

def position (o : Opening) : ℕ := o.leafIndex.val

def steps (depth : ℕ) (o : Opening) : List (Bool × Fr) :=
  (bitsLE depth o.leafIndex.val).zip o.siblings

/-- What the circuits check of an opening. -/
def Checks (depth : ℕ) (root recipient : Fr) (o : Opening) : Prop :=
  o.siblings.length = depth ∧ o.position < 2 ^ depth
    ∧ ∃ a, computeBurnAddressFromSecret h recipient o.secret = .ok a
      ∧ root = climb h.poseidon2 (leafHashVar h a o.value) (o.steps depth)

/-- The tree holds the opened value at the opened position, under the burn address of the
recipient and the secret. -/
def Valid (depth : ℕ) (leaves : ℕ → Leaf) (recipient : Fr) (o : Opening) : Prop :=
  o.position < 2 ^ depth
    ∧ ∃ a, computeBurnAddressFromSecret h recipient o.secret = .ok a
      ∧ leaves o.position = some (a, o.value)

/-- The Poseidon inputs of an opening. -/
def inputs (depth : ℕ) (recipient : Fr) (o : Opening) : List (Fr × Fr) :=
  let a := burnAddress h recipient o.secret
  (recipient, o.secret) :: (a, o.value)
    :: climbInputs h.poseidon2 (leafHashVar h a o.value) (o.steps depth)

end Opening

/-- The Poseidon inputs of a tree of leaves. -/
def leafInputs (depth : ℕ) (leaves : ℕ → Leaf) : Set (Fr × Fr) :=
  {q | ∃ i < 2 ^ depth, leaves i = some q}
    ∪ treeInputs h.poseidon2 (fun i => leafHash h (leaves i)) depth

/-- The host's burn address is the one that the circuit derives. -/
theorem burnAddress_of_ok {recipient secret a : Fr}
    (hok : computeBurnAddressFromSecret h recipient secret = .ok a) :
    burnAddress h recipient secret = a := by
  unfold computeBurnAddressFromSecret at hok
  dsimp only at hok
  split at hok
  · cases hok
  · cases hok
    rfl

/-- **Openings are binding.** -/
theorem Opening.valid_of_checks {depth : ℕ} {leaves : ℕ → Leaf} {recipient : Fr} {o : Opening}
    {Q : Set (Fr × Fr)} (hinj : Set.InjOn (Function.uncurry h.poseidon2) Q)
    (hzero : ¬ Preimage (Function.uncurry h.poseidon2) 0 Q)
    (htree : leafInputs h depth leaves ⊆ Q) (hin : ∀ q ∈ o.inputs h depth recipient, q ∈ Q)
    (hchecks : o.Checks h depth (leafRoot h depth leaves) recipient) :
    o.Valid h depth leaves recipient := by
  obtain ⟨hlen, hpos, a, ha, hroot⟩ := hchecks
  refine ⟨hpos, a, ha, ?_⟩
  rw [Opening.inputs, burnAddress_of_ok h ha] at hin
  -- the path fixes the leaf hash, and the leaf hash fixes the leaf
  have hleaf : leafHashVar h a o.value = leafHash h (leaves o.position) :=
    (climb_binding_root h.poseidon2 _ hinj hpos hlen
      (fun q hq => hin q (List.mem_cons_of_mem _ (List.mem_cons_of_mem _ hq)))
      (fun q hq => htree (Or.inr hq)) hroot.symm).1
  have hmem : (a, o.value) ∈ Q := hin _ (List.mem_cons_of_mem _ List.mem_cons_self)
  cases hl : leaves o.position with
  | none =>
    rw [hl] at hleaf
    exact absurd ⟨(a, o.value), hmem, hleaf⟩ hzero
  | some q =>
    rw [hl] at hleaf
    exact congrArg some (hinj (htree (Or.inl ⟨o.position, hpos, hl⟩)) hmem hleaf.symm)

/-! ## One step -/

def WithdrawExternalInputs.opening (e : WithdrawExternalInputs) : Opening :=
  { secret := e.secret, value := e.value, leafIndex := e.leafIndex, siblings := e.siblings }

/-- An index is far from the modulus. -/
theorem val_add_one_of_lt {depth : ℕ} (hd : depth ≤ 250) {x : Fr} (hx : x.val < 2 ^ depth) :
    (x + 1).val = x.val + 1 := by
  have hcast : x + 1 = ((x.val + 1 : ℕ) : Fr) := by simp
  rw [hcast]
  refine val_natCast_of_lt_two_pow (n := depth + 1) (by omega) ?_
  rw [Nat.pow_succ]
  omega

/-- What one satisfied step checks, and the state it leaves. -/
theorem withdrawStep_eq_some {depth : ℕ} (hd : depth ≤ 250) {z z' : WithdrawState}
    {e : WithdrawExternalInputs} (hstep : withdrawStep h depth z e = some z') :
    z.leafIndexWithOffset.val ≤ e.leafIndex.val ∧ e.value.val < 2 ^ BYTES31_BIT_LENGTH
      ∧ z'.totalValue.val < 2 ^ BYTES31_BIT_LENGTH
      ∧ (e.isDummy = false → e.opening.Checks h depth z.merkleRoot z.recipient)
      ∧ z' = { z with
          leafIndexWithOffset := e.leafIndex + 1
          totalValue := if e.isDummy then z.totalValue - e.value else z.totalValue + e.value }
      ∧ z'.leafIndexWithOffset.val = e.leafIndex.val + 1 := by
  unfold withdrawStep at hstep
  simp only [Option.bind_eq_bind, Option.bind_eq_some_iff, enforce_eq_some,
    enforceBitLength_eq_some, exists_const, toBitsLeLimited_eq_some (show depth ≤ 254 by omega),
    enforceStrictLessThan_eq_some (show depth + 1 + 1 ≤ 253 by omega),
    merkleRootFromLeaf_eq_some, Option.pure_def, Option.some.injEq] at hstep
  obtain ⟨hlen, hidx, -, hvalue, ⟨-, -, hlt⟩, bits, ⟨-, rfl⟩, a, ha, root, ⟨-, rfl⟩, hroot,
    htotal, rfl⟩ := hstep
  -- the next offset does not wrap
  have hoffset := val_add_one_of_lt hd hidx
  rw [hoffset] at hlt
  refine ⟨by omega, hvalue, htotal, ?_, ?_, hoffset⟩
  -- the root is only checked for what is no dummy
  · intro hreal
    rw [hreal] at ha hroot
    have hclimb : z.merkleRoot = climb h.poseidon2 (leafHashVar h a e.value)
        ((bitsLE depth e.leafIndex.val).zip e.siblings) := by
      simpa [boolToFp, sub_eq_zero] using hroot
    exact ⟨hlen, hidx, a, (burnAddressVar_true_eq_some h).mp ha, hclimb⟩
  · cases e.isDummy with
    | false => simp [boolToFp]
    | true =>
      simp only [boolToFp, if_true, WithdrawState.mk.injEq, true_and]
      ring

/-- The new total of a step is the integer sum or difference. -/
def NoWrap (z : WithdrawState) (e : WithdrawExternalInputs) (z' : WithdrawState) : Prop :=
  if e.isDummy then z'.totalValue.val + e.value.val = z.totalValue.val
  else z'.totalValue.val = z.totalValue.val + e.value.val

/-- Totals below 2^248 add without wrapping. -/
theorem val_add_of_lt {x y : Fr} (hx : x.val < 2 ^ 248) (hy : y.val < 2 ^ 248) :
    (x + y).val = x.val + y.val := by
  have hlt : x.val + y.val < scalarModulus := by
    have := two_pow_lt_scalarModulus (n := 249) (by omega)
    omega
  exact ZMod.val_add_of_lt hlt

/-- A step adds its value to the total as an integer. -/
theorem withdrawStep_noWrap {depth : ℕ} (hd : depth ≤ 250) {z z' : WithdrawState}
    {e : WithdrawExternalInputs} (hz : z.totalValue.val < 2 ^ BYTES31_BIT_LENGTH)
    (hstep : withdrawStep h depth z e = some z') : NoWrap z e z' := by
  obtain ⟨-, hvalue, htotal, -, hz', -⟩ := withdrawStep_eq_some h hd hstep
  unfold NoWrap
  cases hdummy : e.isDummy with
  | false =>
    rw [hz', hdummy]
    exact val_add_of_lt hz hvalue
  | true =>
    -- the new total is in range, so adding the value back does not wrap
    have hback : z'.totalValue + e.value = z.totalValue := by
      rw [hz', hdummy]
      simp
    rw [if_pos rfl, ← hback, val_add_of_lt htotal hvalue]

/-! ## Runs -/

theorem withdrawRun_cons {depth : ℕ} {z z' : WithdrawState} {e : WithdrawExternalInputs}
    {es : List WithdrawExternalInputs} :
    withdrawRun h depth z (e :: es) = some z'
      ↔ ∃ z₁, withdrawStep h depth z e = some z₁ ∧ withdrawRun h depth z₁ es = some z' := by
  simp [withdrawRun, Option.bind_eq_some_iff]

/-- The leaves opened by the real steps. -/
def realOpenings (es : List WithdrawExternalInputs) : List Opening :=
  (es.filter fun e => !e.isDummy).map WithdrawExternalInputs.opening

def realSum (es : List WithdrawExternalInputs) : ℕ :=
  ((realOpenings es).map fun o => o.value.val).sum

def dummySum (es : List WithdrawExternalInputs) : ℕ :=
  ((es.filter fun e => e.isDummy).map fun e => e.value.val).sum

/-- The Poseidon inputs of a run for one recipient. -/
def withdrawRunInputs (depth : ℕ) (recipient : Fr) (es : List WithdrawExternalInputs) :
    Set (Fr × Fr) :=
  {q | ∃ e ∈ es, q ∈ e.opening.inputs h depth recipient}

theorem realOpenings_cons (e : WithdrawExternalInputs) (es : List WithdrawExternalInputs) :
    realOpenings (e :: es)
      = if e.isDummy then realOpenings es else e.opening :: realOpenings es := by
  unfold realOpenings
  cases hdummy : e.isDummy <;> simp [hdummy]

theorem mem_realOpenings {es : List WithdrawExternalInputs} {o : Opening}
    (ho : o ∈ realOpenings es) : ∃ e ∈ es, e.isDummy = false ∧ e.opening = o := by
  obtain ⟨e, he, rfl⟩ := List.mem_map.mp ho
  rw [List.mem_filter] at he
  exact ⟨e, he.1, by simpa using he.2, rfl⟩

/-- What the constraints alone give about a run, before any argument about hashes. -/
structure WithdrawRunFacts (depth : ℕ) (z : WithdrawState) (es : List WithdrawExternalInputs)
    (z' : WithdrawState) : Prop where
  noWrap : ∀ xs e ys, es = xs ++ e :: ys → ∃ z₁ z₂, withdrawRun h depth z xs = some z₁
    ∧ withdrawStep h depth z₁ e = some z₂ ∧ NoWrap z₁ e z₂
  total : z'.totalValue.val + dummySum es = z.totalValue.val + realSum es
  increasing : ((realOpenings es).map Opening.position).Pairwise (· < ·)
  above : ∀ o ∈ realOpenings es, z.leafIndexWithOffset.val ≤ o.position
  checks : ∀ o ∈ realOpenings es, o.Checks h depth z.merkleRoot z.recipient

theorem WithdrawRunFacts.nil {depth : ℕ} (z : WithdrawState) :
    WithdrawRunFacts h depth z [] z where
  noWrap xs e ys hsplit := by simp at hsplit
  total := rfl
  increasing := List.Pairwise.nil
  above o ho := by cases ho
  checks o ho := by cases ho

/-- One step in front: its index is below all the later ones, since the index rises with every step.
-/
theorem WithdrawRunFacts.cons {depth : ℕ} (hd : depth ≤ 250) {z z₁ z' : WithdrawState}
    {e : WithdrawExternalInputs} {es : List WithdrawExternalInputs}
    (hz : z.totalValue.val < 2 ^ BYTES31_BIT_LENGTH)
    (hstep : withdrawStep h depth z e = some z₁) (hrest : WithdrawRunFacts h depth z₁ es z') :
    WithdrawRunFacts h depth z (e :: es) z' := by
  have hnowrap := withdrawStep_noWrap h hd hz hstep
  obtain ⟨hle, hvalue, htotal, hchecks, hz₁, hoffset⟩ := withdrawStep_eq_some h hd hstep
  have hroot : z₁.merkleRoot = z.merkleRoot := by rw [hz₁]
  have hrecipient : z₁.recipient = z.recipient := by rw [hz₁]
  -- every later opening lies above the position of this step
  have habove : ∀ o ∈ realOpenings es, e.opening.position < o.position := by
    intro o ho
    have := hrest.above o ho
    rw [hoffset] at this
    exact this
  have hlater : ∀ o ∈ realOpenings es, o.Checks h depth z.merkleRoot z.recipient := by
    intro o ho
    have := hrest.checks o ho
    rwa [hroot, hrecipient] at this
  refine ⟨?_, ?_, ?_, ?_, ?_⟩
  · intro xs e' ys hsplit
    cases xs with
    | nil =>
      simp only [List.nil_append, List.cons.injEq] at hsplit
      obtain ⟨rfl, rfl⟩ := hsplit
      exact ⟨z, z₁, rfl, hstep, hnowrap⟩
    | cons x xs =>
      simp only [List.cons_append, List.cons.injEq] at hsplit
      obtain ⟨rfl, hsplit⟩ := hsplit
      obtain ⟨z₂, z₃, hrun, hrest⟩ := hrest.noWrap xs e' ys hsplit
      exact ⟨z₂, z₃, (withdrawRun_cons h).mpr ⟨z₁, hstep, hrun⟩, hrest⟩
  · have htot := hrest.total
    unfold NoWrap at hnowrap
    cases hdummy : e.isDummy with
    | true =>
      simp only [hdummy, if_true] at hnowrap
      simp only [dummySum, List.filter_cons, hdummy, if_true, List.map_cons, List.sum_cons,
        realSum, realOpenings_cons] at htot ⊢
      omega
    | false =>
      simp only [hdummy, Bool.false_eq_true, if_false] at hnowrap
      simp only [dummySum, List.filter_cons, hdummy, Bool.false_eq_true, if_false, List.map_cons,
        List.sum_cons, realSum, realOpenings_cons] at htot ⊢
      have hopen : e.opening.value = e.value := rfl
      rw [hopen]
      omega
  · rw [realOpenings_cons]
    split
    · exact hrest.increasing
    · rw [List.map_cons, List.pairwise_cons]
      refine ⟨?_, hrest.increasing⟩
      intro p hp
      obtain ⟨o, ho, rfl⟩ := List.mem_map.mp hp
      exact habove o ho
  · intro o ho
    rw [realOpenings_cons] at ho
    split at ho
    · exact hle.trans (habove o ho).le
    · cases ho with
      | head => exact hle
      | tail _ ho => exact hle.trans (habove o ho).le
  · intro o ho
    rw [realOpenings_cons] at ho
    split at ho
    · exact hlater o ho
    · rename_i hreal
      cases ho with
      | head => exact hchecks (by simpa using hreal)
      | tail _ ho => exact hlater o ho

theorem withdrawRun_facts {depth : ℕ} (hd : depth ≤ 250) {z z' : WithdrawState}
    {es : List WithdrawExternalInputs} (hz : z.totalValue.val < 2 ^ BYTES31_BIT_LENGTH)
    (hrun : withdrawRun h depth z es = some z') : WithdrawRunFacts h depth z es z' := by
  induction es generalizing z with
  | nil =>
    simp only [withdrawRun, List.foldlM_nil, Option.pure_def, Option.some.injEq] at hrun
    subst hrun
    exact WithdrawRunFacts.nil h z
  | cons e es ih =>
    obtain ⟨z₁, hstep, hrest⟩ := (withdrawRun_cons h).mp hrun
    have hz₁ := (withdrawStep_eq_some h hd hstep).2.2.1
    exact WithdrawRunFacts.cons h hd hz hstep (ih hz₁ hrest)

/-! ## Soundness -/

/-- A valid opening has the value of its leaf. -/
theorem Opening.Valid.leafValue_eq {depth : ℕ} {leaves : ℕ → Leaf} {recipient : Fr} {o : Opening}
    (hvalid : o.Valid h depth leaves recipient) : leafValue (leaves o.position) = o.value.val := by
  obtain ⟨-, a, -, hleaf⟩ := hvalid
  rw [hleaf, leafValue]

/-- The positions opened by the real steps, each counted once. -/
def openedPositions (es : List WithdrawExternalInputs) : Finset ℕ :=
  ((realOpenings es).map Opening.position).toFinset

/-- What the batch circuit proves about the tree of `leaves`. -/
structure WithdrawSound (depth : ℕ) (leaves : ℕ → Leaf) (z : WithdrawState)
    (es : List WithdrawExternalInputs) (z' : WithdrawState) : Prop where
  noWrap : ∀ xs e ys, es = xs ++ e :: ys → ∃ z₁ z₂, withdrawRun h depth z xs = some z₁
    ∧ withdrawStep h depth z₁ e = some z₂ ∧ NoWrap z₁ e z₂
  total : (z'.totalValue.val : ℤ) = (realSum es : ℤ) - (dummySum es : ℤ)
  distinct : ((realOpenings es).map Opening.position).Nodup
  opened : ∀ o ∈ realOpenings es, o.Valid h depth leaves z.recipient
  total_le : z'.totalValue.val ≤ ∑ i ∈ openedPositions es, leafValue (leaves i)

/-- Openings at distinct positions add up to the leaves at these positions. -/
theorem realSum_eq_sum_opened {depth : ℕ} {leaves : ℕ → Leaf} {recipient : Fr}
    {es : List WithdrawExternalInputs}
    (hdistinct : ((realOpenings es).map Opening.position).Nodup)
    (hopened : ∀ o ∈ realOpenings es, o.Valid h depth leaves recipient) :
    realSum es = ∑ i ∈ openedPositions es, leafValue (leaves i) := by
  rw [openedPositions, List.sum_toFinset _ hdistinct, List.map_map, realSum]
  congr 1
  refine List.map_congr_left fun o ho => ?_
  exact ((hopened o ho).leafValue_eq h).symm

/-- Soundness for any hash that is injective and nonzero on the inputs of the run. -/
theorem withdrawRun_sound_of_injOn {depth : ℕ} (hd : depth ≤ 250) {leaves : ℕ → Leaf}
    {recipient : Fr} {es : List WithdrawExternalInputs} {z' : WithdrawState} {Q : Set (Fr × Fr)}
    (hinj : Set.InjOn (Function.uncurry h.poseidon2) Q)
    (hzero : ¬ Preimage (Function.uncurry h.poseidon2) 0 Q)
    (htree : leafInputs h depth leaves ⊆ Q)
    (hin : withdrawRunInputs h depth recipient es ⊆ Q)
    (hrun : withdrawRun h depth ⟨leafRoot h depth leaves, recipient, 0, 0⟩ es = some z') :
    WithdrawSound h depth leaves ⟨leafRoot h depth leaves, recipient, 0, 0⟩ es z' := by
  have hz0 : (0 : Fr).val < 2 ^ BYTES31_BIT_LENGTH := by
    rw [ZMod.val_zero]
    exact Nat.two_pow_pos _
  have hfacts := withdrawRun_facts h hd hz0 hrun
  -- positions strictly increase, so none is opened twice
  have hdistinct : ((realOpenings es).map Opening.position).Nodup :=
    hfacts.increasing.imp Nat.ne_of_lt
  have hopened : ∀ o ∈ realOpenings es, o.Valid h depth leaves recipient := by
    intro o ho
    obtain ⟨e, he, -, rfl⟩ := mem_realOpenings ho
    exact Opening.valid_of_checks h hinj hzero htree (fun q hq => hin ⟨e, he, hq⟩)
      (hfacts.checks _ ho)
  -- the run starts from zero, so the total is what was opened less the dummies
  have htotal : z'.totalValue.val + dummySum es = realSum es := by
    have := hfacts.total
    rw [ZMod.val_zero, Nat.zero_add] at this
    exact this
  refine ⟨hfacts.noWrap, by omega, hdistinct, hopened, ?_⟩
  rw [← realSum_eq_sum_opened h hdistinct hopened]
  omega

/-- **No double counting in the batch withdraw circuit.** -/
theorem withdrawRun_no_double_count {depth : ℕ} (hdepth : depth = 40 ∨ depth = 46)
    (leaves : ℕ → Leaf) (recipient : Fr) (es : List WithdrawExternalInputs) (z' : WithdrawState)
    (hrun : withdrawRun h depth ⟨leafRoot h depth leaves, recipient, 0, 0⟩ es = some z') :
    WithdrawSound h depth leaves ⟨leafRoot h depth leaves, recipient, 0, 0⟩ es z'
      ∨ Collision (Function.uncurry h.poseidon2)
          (leafInputs h depth leaves ∪ withdrawRunInputs h depth recipient es)
      ∨ Preimage (Function.uncurry h.poseidon2) 0
          (leafInputs h depth leaves ∪ withdrawRunInputs h depth recipient es) := by
  by_cases hcol : Collision (Function.uncurry h.poseidon2)
      (leafInputs h depth leaves ∪ withdrawRunInputs h depth recipient es)
  · exact Or.inr (Or.inl hcol)
  by_cases hpre : Preimage (Function.uncurry h.poseidon2) 0
      (leafInputs h depth leaves ∪ withdrawRunInputs h depth recipient es)
  · exact Or.inr (Or.inr hpre)
  exact Or.inl (withdrawRun_sound_of_injOn h (by omega) (injOn_of_not_collision hcol) hpre
    Set.subset_union_left Set.subset_union_right hrun)

/-- A tree with one recorded transfer. -/
def oneLeaf (x : Fr × Fr) : ℕ → Leaf := fun i => if i = 0 then some x else none

/-- The root of a tree with one leaf is climbed to over empty subtrees. -/
theorem leafRoot_oneLeaf (depth : ℕ) (x : Fr × Fr) :
    leafRoot h depth (oneLeaf x) = climb h.poseidon2 (leafHashVar h x.1 x.2)
      ((bitsLE depth 0).zip ((List.range' 0 depth).map (zeroAt h.poseidon2 0))) := by
  rw [← node_singleton, leafRoot]
  congr 1
  funext i
  cases i with
  | zero => rfl
  | succ i => rfl

-- one leaf of value 5 is opened, and a dummy step takes 2 of it off again
theorem withdrawRun_no_double_count_two_steps :
    let recipient : Fr :=
      677956753254816292820616528177861581474688899431350759350701971874433279581
    let leaves := oneLeaf (burnAddress realHashes recipient 3296, 5)
    let siblings := (List.range' 0 40).map (zeroAt realHashes.poseidon2 0)
    let es : List WithdrawExternalInputs :=
      [⟨false, 5, 3296, 0, siblings⟩, ⟨true, 2, 0, 1, siblings⟩]
    let z : WithdrawState := ⟨leafRoot realHashes 40 leaves, recipient, 0, 0⟩
    let z' : WithdrawState := ⟨leafRoot realHashes 40 leaves, recipient, 2, 3⟩
    withdrawRun realHashes 40 z es = some z'
      ∧ (WithdrawSound realHashes 40 leaves z es z'
        ∨ Collision (Function.uncurry realHashes.poseidon2)
            (leafInputs realHashes 40 leaves ∪ withdrawRunInputs realHashes 40 recipient es)
        ∨ Preimage (Function.uncurry realHashes.poseidon2) 0
            (leafInputs realHashes 40 leaves ∪ withdrawRunInputs realHashes 40 recipient es)) := by
  intro recipient leaves siblings es z z'
  have hrun : withdrawRun realHashes 40 z es = some z' := by
    have hroot := leafRoot_oneLeaf realHashes 40 (burnAddress realHashes recipient 3296, 5)
    show withdrawRun realHashes 40 ⟨leafRoot realHashes 40 leaves, recipient, 0, 0⟩ es
      = some ⟨leafRoot realHashes 40 leaves, recipient, 2, 3⟩
    rw [hroot]
    decide +kernel
  exact ⟨hrun, withdrawRun_no_double_count realHashes (Or.inl rfl) leaves recipient es z' hrun⟩

/-! ## Completeness -/

/-- A step whose inputs satisfy the checks. A dummy step has the value `0`. -/
structure StepReady (depth : ℕ) (root recipient : Fr) (e : WithdrawExternalInputs) : Prop where
  length : e.siblings.length = depth
  index : e.leafIndex.val < 2 ^ depth
  real : e.isDummy = false → e.opening.Checks h depth root recipient
  dummy : e.isDummy = true → e.value = 0

/-- A step with a ready input is satisfied. -/
theorem withdrawStep_complete {depth : ℕ} (hd : depth ≤ 250) {z : WithdrawState}
    {e : WithdrawExternalInputs} (he : StepReady h depth z.merkleRoot z.recipient e)
    (habove : z.leafIndexWithOffset.val ≤ e.leafIndex.val)
    (htotal : z.totalValue.val + e.value.val < 2 ^ BYTES31_BIT_LENGTH) :
    withdrawStep h depth z e = some { z with
      leafIndexWithOffset := e.leafIndex + 1
      totalValue := z.totalValue + e.value } := by
  have hoffset := val_add_one_of_lt hd he.index
  have hdouble : 2 ^ (depth + 1) = 2 * 2 ^ depth := Nat.pow_succ'
  have hindex := he.index
  have hsum : (z.totalValue + e.value).val < 2 ^ BYTES31_BIT_LENGTH := by
    rw [BYTES31_BIT_LENGTH] at htotal ⊢
    rw [val_add_of_lt (by omega) (by omega)]
    exact htotal
  -- the address, and the root that is found with it
  obtain ⟨a, ha, hroot⟩ : ∃ a, burnAddressVar h z.recipient e.secret (!e.isDummy) = some a
      ∧ (z.merkleRoot - climb h.poseidon2 (leafHashVar h a e.value)
          ((bitsLE depth e.leafIndex.val).zip e.siblings)) * (1 - boolToFp e.isDummy) = 0 := by
    cases hdummy : e.isDummy with
    | false =>
      obtain ⟨-, -, a, ha, hroot⟩ := he.real hdummy
      refine ⟨a, (burnAddressVar_true_eq_some h).mpr ha, ?_⟩
      have hdiff : z.merkleRoot - climb h.poseidon2 (leafHashVar h a e.value)
          ((bitsLE depth e.leafIndex.val).zip e.siblings) = 0 := sub_eq_zero.mpr hroot
      rw [hdiff, zero_mul]
    | true =>
      obtain ⟨a, ha⟩ := burnAddressVar_false h z.recipient e.secret
      refine ⟨a, ha, ?_⟩
      have hreal : (1 : Fr) - boolToFp true = 0 := sub_self 1
      rw [hreal, mul_zero]
  have hnew : z.totalValue + e.value * (1 - boolToFp e.isDummy * 2) = z.totalValue + e.value := by
    cases hdummy : e.isDummy with
    | false => simp [boolToFp]
    | true => simp [he.dummy hdummy]
  unfold withdrawStep
  simp only [Option.bind_eq_bind, Option.bind_eq_some_iff, enforce_eq_some,
    enforceBitLength_eq_some, exists_const, toBitsLeLimited_eq_some (show depth ≤ 254 by omega),
    enforceStrictLessThan_eq_some (show depth + 1 + 1 ≤ 253 by omega),
    merkleRootFromLeaf_eq_some, Option.pure_def, Option.some.injEq]
  refine ⟨he.length, he.index, by omega, by omega, ⟨by omega, by omega, by omega⟩, _,
    ⟨he.index, rfl⟩, a, ha, _, ⟨?_, rfl⟩, hroot, ?_, ?_⟩
  · rw [bitsLE_length, he.length]
  · rw [hnew]
    exact hsum
  · rw [hnew]

/-- **Completeness of a run.** Inputs that satisfy the checks one by one, in the order of their
indices, satisfy every step, and the run ends with the sum of the values. -/
theorem withdrawRun_complete {depth : ℕ} (hd : depth ≤ 250) {z : WithdrawState}
    {es : List WithdrawExternalInputs}
    (hready : ∀ e ∈ es, StepReady h depth z.merkleRoot z.recipient e)
    (hsorted : es.Pairwise fun e e' => e.leafIndex.val < e'.leafIndex.val)
    (habove : ∀ e ∈ es, z.leafIndexWithOffset.val ≤ e.leafIndex.val)
    (htotal : z.totalValue.val + (es.map fun e => e.value.val).sum < 2 ^ BYTES31_BIT_LENGTH) :
    ∃ z', withdrawRun h depth z es = some z' ∧ z'.merkleRoot = z.merkleRoot
      ∧ z'.recipient = z.recipient
      ∧ z'.totalValue.val = z.totalValue.val + (es.map fun e => e.value.val).sum := by
  induction es generalizing z with
  | nil => exact ⟨z, rfl, rfl, rfl, rfl⟩
  | cons e es ih =>
    rw [List.map_cons, List.sum_cons] at htotal
    have he := hready e List.mem_cons_self
    have hstep := withdrawStep_complete h hd he (habove e List.mem_cons_self) (by omega)
    have hvalue : (z.totalValue + e.value).val = z.totalValue.val + e.value.val := by
      rw [BYTES31_BIT_LENGTH] at htotal
      exact val_add_of_lt (by omega) (by omega)
    -- the rest starts above this leaf, with this value added
    obtain ⟨z', hrun, hroot, hrecipient, hsum⟩ := ih
      (z := { z with
        leafIndexWithOffset := e.leafIndex + 1
        totalValue := z.totalValue + e.value })
      (fun e' he' => hready e' (List.mem_cons_of_mem _ he'))
      (List.pairwise_cons.mp hsorted).2
      (by
        intro e' he'
        rw [val_add_one_of_lt hd he.index]
        exact (List.pairwise_cons.mp hsorted).1 e' he')
      (by
        show (z.totalValue + e.value).val + _ < _
        rw [hvalue]
        omega)
    refine ⟨z', (withdrawRun_cons h).mpr ⟨_, hstep, hrun⟩, hroot, hrecipient, ?_⟩
    rw [hsum, List.map_cons, List.sum_cons]
    show (z.totalValue + e.value).val + _ = _
    rw [hvalue]
    omega

/-! ## The single circuit -/

def SingleWithdrawWitness.opening (w : SingleWithdrawWitness) : Opening :=
  { secret := w.secret, value := w.value, leafIndex := w.leafIndex, siblings := w.siblings }

/-- A satisfied single circuit opens one leaf and withdraws at most its value. -/
theorem singleWithdrawCircuit_eq_some {depth : ℕ} (hd : depth ≤ 254)
    {merkleRoot recipient withdrawValue : Fr} {w : SingleWithdrawWitness} {u : Unit}
    (hsat : singleWithdrawCircuit h depth merkleRoot recipient withdrawValue w = some u) :
    w.opening.Checks h depth merkleRoot recipient ∧ withdrawValue.val ≤ w.value.val := by
  unfold singleWithdrawCircuit singleWithdraw at hsat
  simp only [Option.bind_eq_bind, Option.bind_eq_some_iff, enforce_eq_some,
    enforceBitLength_eq_some, exists_const, toBitsLeLimited_eq_some hd,
    merkleRootFromLeaf_eq_some, Option.pure_def, Option.some.injEq] at hsat
  obtain ⟨_, ⟨hlen, hidx, -, hdelta, bits, ⟨-, rfl⟩, a, ha, root, ⟨-, rfl⟩, hroot, hrange, rfl⟩,
    rfl⟩ := hsat
  refine ⟨⟨hlen, hidx, a, (burnAddressVar_true_eq_some h).mp ha, hroot⟩, ?_⟩
  -- `value - delta` is in range, so adding `delta` back does not wrap
  have hback : w.value.val = (w.value - w.delta).val + w.delta.val := by
    rw [← val_add_of_lt hrange hdelta, sub_add_cancel]
  omega

/-- An opening of the whole value satisfies the single circuit. -/
theorem singleWithdrawCircuit_complete {depth : ℕ} (hd : depth ≤ 250)
    {merkleRoot recipient : Fr} {o : Opening} (ho : o.Checks h depth merkleRoot recipient)
    (hvalue : o.value.val < 2 ^ BYTES31_BIT_LENGTH) :
    singleWithdrawCircuit h depth merkleRoot recipient o.value
      ⟨o.value, 0, o.secret, o.leafIndex, o.siblings⟩ = some () := by
  obtain ⟨hlen, hidx, a, ha, hroot⟩ := ho
  have hzero : (0 : Fr).val < 2 ^ BYTES31_BIT_LENGTH := by
    rw [ZMod.val_zero]
    exact Nat.two_pow_pos _
  unfold singleWithdrawCircuit singleWithdraw
  simp only [Option.bind_eq_bind, Option.bind_eq_some_iff, enforce_eq_some,
    enforceBitLength_eq_some, exists_const, toBitsLeLimited_eq_some (show depth ≤ 254 by omega),
    merkleRootFromLeaf_eq_some, Option.pure_def, Option.some.injEq, sub_zero]
  refine ⟨_, ⟨hlen, hidx, hvalue, hzero, _, ⟨hidx, rfl⟩, a,
    (burnAddressVar_true_eq_some h).mpr ha, _, ⟨?_, rfl⟩, hroot, hvalue, rfl⟩, rfl⟩
  rw [bitsLE_length, hlen]

end Zerc20.Zkp
