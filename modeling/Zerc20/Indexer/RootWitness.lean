import Zerc20.Indexer.PlainTree
import Zerc20.Zkp.RootTransition

/-!
# The witness of the root prover

`indexer/src/jobs/root.rs` proves the next transfer root by folding `root_transition_step` over
the stored events: event `i` goes in with the proof that the database tree gives for leaf `i` at
index `i + 1`, while the tree may already have later leaves. The siblings of leaf `i` are the
same before and after its insertion, so the step finds both roots, and every step from the stored
state of one index leads to the stored state of the next.
-/

namespace Zerc20

namespace Indexer

open Machine HashTree Radix Zkp

variable (h : Hashes) (cfg : TreeConfig)

/-- `zero_root`. -/
def zeroRoot : Fr := (computeZeroHashes h cfg.height).getLastD 0

/-- `load_state_vector`. -/
def loadStateVector (db : TreeDb) (index : ℕ) : Except DbMerkleTreeError RootState := do
  let hashChain ← db.hashChainAt index
  let root ← db.rootAt index
  return ⟨(index : Fr), u256ToFr (hashChain.getD 0), root.getD (zeroRoot h cfg)⟩

inductive RootJobError where
  | tree (e : DbMerkleTreeError)
  | noProof
  | siblingPathLength (expected got : ℕ)
  deriving DecidableEq

/-- `DbIncrementalMerkleTree::prove`. -/
def prove (db : TreeDb) (targetIndex leafIndex : ℕ) : Except RootJobError HistoricalProof :=
  match proveMany h cfg db targetIndex [leafIndex] with
  | .error e => .error (.tree e)
  | .ok proofs =>
    match proofs.getLast? with
    | some proof => .ok proof
    | none => .error .noProof

def toExternalInputs (address : Address) (value : ℕ) (proof : HistoricalProof) :
    Except RootJobError RootExternalInputs := do
  require (proof.siblings.length = transferTreeHeight)
    (.siblingPathLength transferTreeHeight proof.siblings.length)
  return ⟨false, addressToFr address, u256ToFr value, proof.siblings⟩

/-- The inputs of the step for event `i`. -/
def stepInputs (db : TreeDb) (i : ℕ) (e : Entry) : Except RootJobError RootExternalInputs := do
  let proof ← prove h cfg db (i + 1) i
  toExternalInputs e.address e.value.val proof

/-- The loop of `sync_ivc_proofs` over the events from `i` on. -/
def loopInputs (db : TreeDb) (i : ℕ) : List Entry → Except RootJobError (List RootExternalInputs)
  | [] => .ok []
  | e :: es => do
    let input ← stepInputs h cfg db i e
    let inputs ← loopInputs db (i + 1) es
    return input :: inputs

/-- The step that `submit_if_ready` appends to a run of one step. -/
def dummyStep : RootExternalInputs := ⟨true, 0, 0, List.replicate transferTreeHeight 0⟩

/-! ## Stored states -/

/-- The state after the first `i` transfers. -/
def stateAt (ts : List Transfer) (i : ℕ) : RootState :=
  ⟨(i : Fr), u256ToFr (transferChain h (ts.take i)), transferRoot h (ts.take i)⟩

variable {h cfg} {db : TreeDb} {ts : List Transfer}

/-- The root of the tables is the transfer root. -/
theorem entryRoot_entryOf (hheight : cfg.height = transferTreeHeight) (ts : List Transfer) :
    entryRoot h cfg (ts.map entryOf) = transferRoot h ts := by
  rw [entryRoot, hheight, entryLeaves_entryOf]
  rfl

/-- Their hash chain is the transfer chain. -/
theorem entryChain_entryOf (ts : List Transfer) :
    entryChain h (ts.map entryOf) = transferChain h ts := by
  rw [entryChain, transferChain, List.foldl_map]
  rfl

theorem zeroRoot_eq : zeroRoot h cfg = zeroAt h.poseidon2 0 cfg.height := by
  rw [zeroRoot, computeZeroHashes_eq, List.range_succ, List.map_append, List.map_singleton,
    List.getLastD_concat]

/-- The state vector that the job loads at `i` is that of the first `i` transfers. -/
theorem loadStateVector_eq (hheight : cfg.height = transferTreeHeight)
    (hdb : Represents h cfg db (ts.map entryOf)) {i : ℕ} (hi : i ≤ ts.length) :
    loadStateVector h cfg db i = .ok (stateAt h ts i) := by
  have hindex : i ≤ i64Max := by
    have hle := hdb.index_le
    rw [List.length_map] at hle
    omega
  rcases Nat.eq_zero_or_pos i with rfl | hpos
  · -- no snapshot yet: the defaults are the state of the empty tree
    have hnone : db.snapshotAt 0 = none := by
      rw [TreeDb.snapshotAt, hdb.snapshots, List.find?_eq_none]
      intro row hrow
      obtain ⟨t, ht, rfl⟩ := List.mem_map.mp hrow
      rw [List.mem_range'_1] at ht
      have hne : t ≠ 0 := by omega
      simp [snapshotRow, hne]
    simp only [loadStateVector, TreeDb.hashChainAt, TreeDb.rootAt, toI64_of_le _ hindex, bind,
      Except.bind, pure, Except.pure, hnone, Option.map_none, Option.getD_none]
    rw [stateAt, List.take_zero, transferRoot_nil, zeroRoot_eq, hheight]
    rfl
  · have hrow : db.snapshotAt i = some (snapshotRow h cfg (ts.map entryOf) i) :=
      hdb.snapshotAt hpos (by rw [List.length_map]; exact hi)
    simp only [loadStateVector, TreeDb.hashChainAt, TreeDb.rootAt, toI64_of_le _ hindex, bind,
      Except.bind, pure, Except.pure, hrow, Option.map_some, Option.getD_some]
    rw [snapshotRow, ← List.map_take, entryRoot_entryOf hheight, entryChain_entryOf, stateAt]

theorem stateAt_index_val {i : ℕ} (hi : i ≤ 2 ^ transferTreeHeight) :
    (stateAt h ts i).index.val = i :=
  val_natCast_of_lt_two_pow (n := transferTreeHeight + 1) (by decide)
    (hi.trans_lt (by decide))

theorem transferChain_lt (ts : List Transfer) : transferChain h ts < 2 ^ 248 := by
  induction ts using List.reverseRecOn with
  | nil => exact Nat.two_pow_pos 248
  | append_singleton ts t _ =>
    rw [transferChain_concat]
    exact hashChain_lt h _ _ _

theorem stateAt_hashChain_val (i : ℕ) :
    (stateAt h ts i).hashChain.val = transferChain h (ts.take i) :=
  val_natCast_of_lt_two_pow (n := 248) (by omega) (transferChain_lt _)

/-! ## Steps -/

variable (h) in
/-- The inputs of the step for transfer `i`. -/
def transferInputsAt (ts : List Transfer) (i : ℕ) (t : Transfer) : RootExternalInputs :=
  ⟨false, addressToFr t.dst, u256ToFr t.value.val,
    path h.poseidon2 (transferLeaves h (ts.take (i + 1))) 0 i transferTreeHeight⟩

/-- The database proves leaf `i` at index `i + 1` as long as that is in the window. -/
theorem stepInputs_eq (hheight : cfg.height = transferTreeHeight)
    (hdb : Represents h cfg db (ts.map entryOf)) {i : ℕ} {t : Transfer} (ht : ts[i]? = some t)
    (hwindow : ts.length - (i + 1) ≤ cfg.historyWindow) :
    stepInputs h cfg db i (entryOf t) = .ok (transferInputsAt h ts i t) := by
  have hi : i < ts.length := (List.getElem?_eq_some_iff.mp ht).1
  have hprove : proveMany h cfg db (i + 1) [i]
      = .ok [proofAt h cfg (ts.map entryOf) (i + 1) i] := by
    refine hdb.proveMany_ok (List.cons_ne_nil _ _) (Nat.succ_pos i) ?_ ?_ ?_
    · rw [List.length_map]
      omega
    · rw [List.length_map]
      exact hwindow
    · intro j hj
      rw [List.mem_singleton.mp hj]
      omega
  have hsiblings : (proofAt h cfg (ts.map entryOf) (i + 1) i).siblings
      = path h.poseidon2 (transferLeaves h (ts.take (i + 1))) 0 i transferTreeHeight := by
    rw [proofAt, ← List.map_take, entryLeaves_entryOf, hheight]
    rfl
  have hproof : prove h cfg db (i + 1) i
      = .ok (proofAt h cfg (ts.map entryOf) (i + 1) i) := by
    rw [prove, hprove]
    rfl
  rw [stepInputs, hproof]
  simp only [bind, Except.bind, toExternalInputs, hsiblings, path_length, require, if_pos]
  rfl

/-- The zero leaf under the siblings is the tree before the insertion, the leaf the tree after. -/
theorem climb_transferInputsAt {i : ℕ} {t : Transfer} (ht : ts[i]? = some t)
    (hi : i < 2 ^ transferTreeHeight) :
    climb h.poseidon2 0 ((bitsLE transferTreeHeight i).zip (transferInputsAt h ts i t).siblings)
        = transferRoot h (ts.take i)
      ∧ climb h.poseidon2 (t.leaf h)
        ((bitsLE transferTreeHeight i).zip (transferInputsAt h ts i t).siblings)
        = transferRoot h (ts.take (i + 1)) := by
  have hlength : (ts.take i).length = i := by
    have hlt := (List.getElem?_eq_some_iff.mp ht).1
    rw [List.length_take]
    omega
  -- the insertion of leaf `i` does not touch the siblings of leaf `i`
  have hsame : path h.poseidon2 (transferLeaves h (ts.take (i + 1))) 0 i transferTreeHeight
      = path h.poseidon2 (transferLeaves h (ts.take i)) 0 i transferTreeHeight := by
    refine path_congr h.poseidon2 0 i _ fun j hj => ?_
    rw [Nat.pow_zero, Nat.div_one] at hj
    have hconcat : entryLeaves h ((ts.take i).map entryOf ++ [entryOf t]) j
        = entryLeaves h ((ts.take i).map entryOf) j :=
      entryLeaves_concat (by rw [List.length_map, hlength]; exact hj)
    have hentries : (ts.take i).map entryOf ++ [entryOf t] = (ts.take (i + 1)).map entryOf := by
      rw [take_succ_of_getElem? ht, List.map_append, List.map_singleton]
    rw [hentries, entryLeaves_entryOf, entryLeaves_entryOf] at hconcat
    exact hconcat
  have hclimb := climb_path h.poseidon2 (transferLeaves h (ts.take i)) 0 i transferTreeHeight
  rw [Nat.zero_add, Nat.div_eq_of_lt hi, node, transferLeaves_of_le h hlength.le] at hclimb
  refine ⟨?_, ?_⟩
  · show climb h.poseidon2 0 ((bitsLE transferTreeHeight i).zip (path _ _ _ _ _)) = _
    rw [hsame, hclimb, transferRoot]
  · show climb h.poseidon2 (t.leaf h) ((bitsLE transferTreeHeight i).zip (path _ _ _ _ _)) = _
    rw [hsame]
    exact climb_transfer h ht hi

/-- One real step, from the state of index `i` to that of `i + 1`. -/
theorem rootTransitionStep_stateAt {i : ℕ} {t : Transfer} (ht : ts[i]? = some t)
    (hi : i < 2 ^ transferTreeHeight) :
    rootTransitionStep h transferTreeHeight (stateAt h ts i) (transferInputsAt h ts i t)
      = some (stateAt h ts (i + 1)) := by
  have hindex : (stateAt h ts i).index.val = i := stateAt_index_val hi.le
  obtain ⟨hold, hnew⟩ := climb_transferInputsAt (h := h) ht hi
  rw [rootTransitionStep_complete h (by decide) (path_length _ _ _ _ _) ?_ ?_ ?_ ?_ ?_]
  · -- the state it leads to
    show some (realStep h transferTreeHeight _ _) = _
    rw [realStep, hindex, stateAt_hashChain_val]
    have hvalue : (transferInputsAt h ts i t).value.val = t.value.val := u256ToFr_val t.value
    have haddress : (transferInputsAt h ts i t).address.val = t.dst.val := addressToFr_val t.dst
    have hchain : transferChain h (ts.take (i + 1))
        = hashChain h (transferChain h (ts.take i)) t.dst.val t.value.val := by
      rw [take_succ_of_getElem? ht, transferChain_concat]
    rw [haddress, hvalue, ← hchain]
    simp only [stateAt, Nat.cast_add, Nat.cast_one, ← hnew]
    rfl
  · show (addressToFr t.dst).val < 2 ^ 160
    rw [addressToFr_val]
    exact t.dst.isLt
  · show (u256ToFr t.value.val).val < 2 ^ 248
    rw [u256ToFr_val]
    exact t.value.isLt
  · rw [hindex]
    exact hi
  · rw [stateAt_hashChain_val]
    exact transferChain_lt _
  · intro _
    rw [hindex, hold]
    rfl

/-- The dummy step is satisfied anywhere below the capacity, and moves nothing. -/
theorem rootTransitionStep_dummyStep {i : ℕ} (hi : i < 2 ^ transferTreeHeight) :
    rootTransitionStep h transferTreeHeight (stateAt h ts i) dummyStep = some (stateAt h ts i) := by
  refine rootTransitionStep_complete h (by decide) (List.length_replicate ..) ?_ ?_ ?_ ?_ ?_
  · show (0 : Fr).val < 2 ^ 160
    rw [ZMod.val_zero]
    exact Nat.two_pow_pos 160
  · show (0 : Fr).val < 2 ^ 248
    rw [ZMod.val_zero]
    exact Nat.two_pow_pos 248
  · rw [stateAt_index_val hi.le]
    exact hi
  · rw [stateAt_hashChain_val]
    exact transferChain_lt _
  · intro hreal
    cases hreal

/-! ## Runs -/

variable (h) in
/-- The inputs of the steps for the transfers from `i` on. -/
def inputsFrom (ts : List Transfer) (i : ℕ) : List Transfer → List RootExternalInputs
  | [] => []
  | t :: rest => transferInputsAt h ts i t :: inputsFrom ts (i + 1) rest

/-- The inputs that the loop builds are those of the transfers from `i` on. -/
theorem loopInputs_eq (hheight : cfg.height = transferTreeHeight)
    (hdb : Represents h cfg db (ts.map entryOf)) (rest : List Transfer) {i : ℕ}
    (hrest : ts.drop i = rest) (hwindow : ts.length - i ≤ cfg.historyWindow) :
    loopInputs h cfg db i (rest.map entryOf) = .ok (inputsFrom h ts i rest) := by
  induction rest generalizing i with
  | nil => rfl
  | cons t rest ih =>
    have ht : ts[i]? = some t := by
      rw [← List.head?_drop, hrest]
      rfl
    have hdrop : ts.drop (i + 1) = rest := by rw [← List.tail_drop, hrest, List.tail_cons]
    have hstep := stepInputs_eq hheight hdb ht (by omega)
    have hloop := ih hdrop (by omega)
    simp only [List.map_cons, loopInputs, hstep, hloop, bind, Except.bind]
    rfl

/-- Every step of the loop is satisfied, up to the state of the last transfer. -/
theorem rootRun_inputsFrom (rest : List Transfer) {i : ℕ} (hrest : ts.drop i = rest)
    (hcapacity : ts.length ≤ 2 ^ transferTreeHeight) (hi : i ≤ ts.length) :
    rootRun h transferTreeHeight (stateAt h ts i) (inputsFrom h ts i rest)
      = some (stateAt h ts ts.length) := by
  induction rest generalizing i with
  | nil =>
    have hend : i = ts.length := by
      have hle := List.drop_eq_nil_iff.mp hrest
      omega
    rw [hend]
    rfl
  | cons t rest ih =>
    have ht : ts[i]? = some t := by
      rw [← List.head?_drop, hrest]
      rfl
    have hlt : i < ts.length := (List.getElem?_eq_some_iff.mp ht).1
    have hdrop : ts.drop (i + 1) = rest := by rw [← List.tail_drop, hrest, List.tail_cons]
    exact (rootRun_cons h).mpr
      ⟨_, rootTransitionStep_stateAt ht (by omega), ih hdrop (by omega)⟩

/-- The state vector of the tables: `(index, hash_chain_at(index), root_at(index))`, with the
defaults of index 0. -/
structure StoredState (h : Hashes) (cfg : TreeConfig) (db : TreeDb) (i : ℕ) (z : RootState) :
    Prop where
  index : z.index = (i : Fr)
  hashChain : ∃ chain, db.hashChainAt i = .ok chain ∧ z.hashChain = u256ToFr (chain.getD 0)
  root : ∃ root, db.rootAt i = .ok root ∧ z.root = root.getD (zeroRoot h cfg)

theorem storedState_of_loadStateVector {i : ℕ} {z : RootState}
    (hz : loadStateVector h cfg db i = .ok z) : StoredState h cfg db i z := by
  simp only [loadStateVector, bind_eq_ok] at hz
  obtain ⟨chain, hchain, root, hroot, hret⟩ := hz
  cases hret
  exact ⟨rfl, ⟨chain, hchain, rfl⟩, root, hroot, rfl⟩

/-- **The witness is complete.** From the stored state of `base`, every step the job builds is
satisfied and leads to the next stored state; the dummy step keeps the last one. -/
theorem root_witness_complete (h : Hashes) (cfg : TreeConfig)
    (hheight : cfg.height = transferTreeHeight) (ts : List Transfer)
    (hcapacity : ts.length ≤ 2 ^ transferTreeHeight) (base : ℕ) (hbase : base ≤ ts.length)
    (hwindow : ts.length - base ≤ cfg.historyWindow) (db : TreeDb)
    (hdb : run (appendStep h cfg) TreeDb.initial (ts.map entryOf) = db) :
    ∃ z₀ inputs z, loadStateVector h cfg db base = .ok z₀
      ∧ loopInputs h cfg db base ((ts.drop base).map entryOf) = .ok inputs
      ∧ rootRun h transferTreeHeight z₀ inputs = some z
      ∧ StoredState h cfg db ts.length z
      ∧ (∀ i t, base ≤ i → ts[i]? = some t → ∃ z' z'' input, StoredState h cfg db i z'
        ∧ StoredState h cfg db (i + 1) z'' ∧ stepInputs h cfg db i (entryOf t) = .ok input
        ∧ climb h.poseidon2 0 ((bitsLE transferTreeHeight i).zip input.siblings) = z'.root
        ∧ climb h.poseidon2 (t.leaf h) ((bitsLE transferTreeHeight i).zip input.siblings) = z''.root
        ∧ rootTransitionStep h transferTreeHeight z' input = some z'')
      ∧ (ts.length < 2 ^ transferTreeHeight →
        rootTransitionStep h transferTreeHeight z dummyStep = some z) := by
  have hsmall : 2 ^ transferTreeHeight ≤ i64Max := by decide
  have hrep : Represents h cfg db (ts.map entryOf) := by
    have hrun : Represents h cfg (run (appendStep h cfg) TreeDb.initial (ts.map entryOf))
        (appendedEntries (ts.map entryOf)) := by
      refine run_represents (ts.map entryOf) ?_
      rw [List.length_map, hheight]
      exact hcapacity
    -- the tree has room for all of them
    have hall : appendedEntries (ts.map entryOf) = ts.map entryOf := by
      refine List.take_of_length_le ?_
      rw [List.length_map]
      omega
    rw [hall, hdb] at hrun
    exact hrun
  have hstored : ∀ i ≤ ts.length, StoredState h cfg db i (stateAt h ts i) := fun i hi =>
    storedState_of_loadStateVector (loadStateVector_eq hheight hrep hi)
  refine ⟨stateAt h ts base, inputsFrom h ts base (ts.drop base), stateAt h ts ts.length,
    loadStateVector_eq hheight hrep hbase, loopInputs_eq hheight hrep _ rfl hwindow,
    rootRun_inputsFrom _ rfl hcapacity hbase, hstored _ le_rfl, ?_, ?_⟩
  · intro i t hi ht
    have hlt : i < ts.length := (List.getElem?_eq_some_iff.mp ht).1
    have hroom : i < 2 ^ transferTreeHeight := by omega
    obtain ⟨hold, hnew⟩ := climb_transferInputsAt (h := h) ht hroom
    exact ⟨stateAt h ts i, stateAt h ts (i + 1), transferInputsAt h ts i t, hstored i hlt.le,
      hstored (i + 1) hlt, stepInputs_eq hheight hrep ht (by omega), hold, hnew,
      rootTransitionStep_stateAt ht hroom⟩
  · exact fun hroom => rootTransitionStep_dummyStep hroom

/-- Two transfers, proved from the first on. -/
theorem root_witness_complete_second :
    ∃ z₀ inputs z, loadStateVector realHashes ⟨40, 1, by decide, by decide⟩
        (run (appendStep realHashes ⟨40, 1, by decide, by decide⟩) TreeDb.initial
          ([⟨0, 7, 5⟩, ⟨7, 8, 2⟩].map entryOf)) 1 = .ok z₀
      ∧ rootRun realHashes 40 z₀ (inputs ++ [dummyStep]) = some z := by
  obtain ⟨z₀, inputs, z, hload, -, hrun, -, -, hdummy⟩ := root_witness_complete realHashes
    ⟨40, 1, by decide, by decide⟩ rfl [⟨0, 7, 5⟩, ⟨7, 8, 2⟩] (by decide) 1 (by decide) (by decide)
    _ rfl
  refine ⟨z₀, inputs, z, hload, ?_⟩
  have hrun' : inputs.foldlM (rootTransitionStep realHashes 40) z₀ = some z := hrun
  have hdummy' : rootTransitionStep realHashes 40 z dummyStep = some z := hdummy (by decide)
  rw [rootRun, List.foldlM_append, hrun']
  simp [hdummy']

end Indexer

end Zerc20
