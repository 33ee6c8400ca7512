import Zerc20.Indexer.Ingest
import Zerc20.Indexer.RootWitness
import Zerc20.Contracts.ProvedRoots
import Zerc20.Lib.SortByKey
import Zerc20.Lib.Statements

/-!
# The root prover job

One worker of `indexer/src/jobs/root.rs` on one token. A pass folds the events since the last
compiled one into an IVC proof, step by step, and submits a compiled proof to the Verifier when the
hash chain of its index is reserved. What it knows it keeps in two tables, `root_prover_state` and
`root_ivc_proofs`; every access to a table, to the chain or to the decider is one statement.

An IVC proof is the run that it folds, so a proof of a run that does not exist cannot be built; the
decider that compresses it is a parameter. The world also records what was compiled and what was
submitted.
-/

namespace Zerc20

namespace Indexer

open Machine HashTree Zkp Statements Prog SortByKey

/-! ## IVC proofs -/

/-- A `RootNovaInstance` and its `RootIvcProof`. -/
structure Ivc (h : Hashes) where
  z0 : RootState
  steps : List RootExternalInputs
  zi : RootState
  satisfied : rootRun h transferTreeHeight z0 steps = some zi

variable {h : Hashes}

namespace Ivc

/-- `initial_nova`. -/
def initialNova (z0 : RootState) : Ivc h := ⟨z0, [], z0, rfl⟩

/-- A satisfied step after a satisfied run. -/
theorem satisfied_concat (nova : Ivc h) {e : RootExternalInputs} {z : RootState}
    (hstep : rootTransitionStep h transferTreeHeight nova.zi e = some z) :
    rootRun h transferTreeHeight nova.z0 (nova.steps ++ [e]) = some z := by
  have hrun := nova.satisfied
  rw [rootRun] at hrun ⊢
  rw [List.foldlM_append, hrun]
  simp [hstep]

def proveStep (nova : Ivc h) (e : RootExternalInputs) : Option (Ivc h) :=
  match hstep : rootTransitionStep h transferTreeHeight nova.zi e with
  | some z => some ⟨nova.z0, nova.steps ++ [e], z, nova.satisfied_concat hstep⟩
  | none => none

end Ivc

/-! ## Tables -/

/-- The row of `root_prover_state`. -/
structure RootProverState where
  baseIndex : ℕ
  lastCompiledIndex : ℕ
  lastSubmittedIndex : ℕ
  pendingReservedIndex : Option ℕ
  pendingReservedHashChain : Option ℕ
  deriving DecidableEq

/-- The row after a submission or a realignment. -/
def RootProverState.fresh (base : ℕ) : RootProverState := ⟨base, base, base, none, none⟩

/-- A row of `root_ivc_proofs`, without its `end_index`. -/
structure IvcRecord (h : Hashes) where
  startIndex : ℕ
  ivcProof : Ivc h
  stateIndex : ℕ
  stateHashChain : Fr
  stateRoot : Fr

/-- A call of `proveTransferRoot`: the base of the job, the IVC proof and what the decider made of
it, and the Verifier that was called. -/
structure Submission (h : Hashes) where
  base : ℕ
  ivc : Ivc h
  proof : RootProof
  verifier : Verifier

structure RootWorld (h : Hashes) where
  token : Token
  verifier : Verifier
  tree : TreeDb
  rows : List EventRow
  proverState : Option RootProverState
  ivcProofs : ℕ → Option (IvcRecord h)
  /-- The IVC proofs that were written, each with the base of the job. -/
  compiled : List (ℕ × Ivc h)
  submissions : List (Submission h)

inductive RootProverError where
  | database (action : String)
  | contract (action : String)
  | decider
  | tree (e : DbMerkleTreeError)
  | witness (e : RootJobError)
  | historyWindowExhausted (latestProvedIndex currentIndex historyWindow : ℕ)
  | missingIvcProof (index : ℕ)
  | ivcTimeout (index : ℕ)
  | nova (index : ℕ)
  | reverted
  deriving DecidableEq

abbrev RootProg (h : Hashes) (α : Type) : Type := Prog (RootWorld h) RootProverError α

/-- The configuration of the job; `polls` is the number of reads within `prover_timeout`. -/
structure RootProverJob where
  treeConfig : TreeConfig
  historyWindow : ℕ
  submitEnabled : Bool
  polls : ℕ

/-! ## Statements -/

namespace RootJob

/-- `u64_to_i64`. -/
def u64ToI64 (label : String) (value : ℕ) : RootProg h ℕ :=
  ofExcept ((toI64 label value).mapError .tree)

def loadProverState : RootProg h (Option RootProverState) :=
  read (.database "load root prover state") fun s => s.proverState

def upsertProverState (row : RootProverState) : RootProg h Unit := do
  let _ ← u64ToI64 "base_index" row.baseIndex
  let _ ← u64ToI64 "last_compiled_index" row.lastCompiledIndex
  let _ ← u64ToI64 "last_submitted_index" row.lastSubmittedIndex
  let _ ← u64ToI64 "pending_reserved_index" (row.pendingReservedIndex.getD 0)
  write (.database "upsert root prover state") fun s => { s with proverState := some row }

def updateLastCompiledIndex (index : ℕ) : RootProg h Unit := do
  let _ ← u64ToI64 "last_compiled_index" index
  write (.database "update last compiled index") fun s =>
    { s with proverState := s.proverState.map fun row => { row with lastCompiledIndex := index } }

def resetStateAfterSubmission (newBase : ℕ) : RootProg h Unit :=
  upsertProverState (.fresh newBase)

def persistPendingReservation (index hashChain : ℕ) : RootProg h Unit := do
  let snapshot ← loadProverState
  upsertProverState
    { baseIndex := (snapshot.map RootProverState.baseIndex).getD index
      lastCompiledIndex := (snapshot.map RootProverState.lastCompiledIndex).getD index
      lastSubmittedIndex := (snapshot.map RootProverState.lastSubmittedIndex).getD index
      pendingReservedIndex := some index
      pendingReservedHashChain := some hashChain }

def deleteIvcProofs : RootProg h Unit :=
  write (.database "delete IVC proofs") fun s => { s with ivcProofs := fun _ => none }

/-- `ON CONFLICT (token_id, end_index) DO UPDATE`, which keeps the `start_index`. -/
def upsertIvcProof (startIndex endIndex : ℕ) (nova : Ivc h) : RootProg h Unit := do
  let _ ← u64ToI64 "start_index" startIndex
  let _ ← u64ToI64 "end_index" endIndex
  write (.database "upsert root IVC proof") fun s =>
    { s with
      ivcProofs := Function.update s.ivcProofs endIndex (some
        { startIndex := ((s.ivcProofs endIndex).map IvcRecord.startIndex).getD startIndex
          ivcProof := nova
          stateIndex := endIndex
          stateHashChain := nova.zi.hashChain
          stateRoot := nova.zi.root })
      compiled := s.compiled ++ [(startIndex, nova)] }

def fetchEventBatch (startIndex endIndex : ℕ) : RootProg h (List EventRow) :=
  if endIndex ≤ startIndex then pure []
  else do
    let _ ← u64ToI64 "event_index_start" startIndex
    let _ ← u64ToI64 "event_index_end" (endIndex - 1)
    read (.database "fetch event rows for root prover") fun s =>
      sortByKey EventRow.eventIndex (s.rows.filter fun row =>
        startIndex ≤ row.eventIndex ∧ row.eventIndex ≤ endIndex - 1)

def loadIvcRecord (endIndex : ℕ) : RootProg h (Option (IvcRecord h)) := do
  let _ ← u64ToI64 "end_index" endIndex
  read (.database "load IVC proof record") fun s => s.ivcProofs endIndex

def waitForIvcRecord (endIndex : ℕ) : ℕ → RootProg h (IvcRecord h)
  | 0 => fail (.ivcTimeout endIndex)
  | polls + 1 => do
    match ← loadIvcRecord endIndex with
    | some record => pure record
    | none => waitForIvcRecord endIndex polls

/-- A read of the tree. -/
def readTree {α : Type} (action : String) (f : TreeDb → Except DbMerkleTreeError α) :
    RootProg h α := do
  let result ← read (.database action) fun s => f s.tree
  ofExcept (result.mapError .tree)

def loadStateVector (job : RootProverJob) (index : ℕ) : RootProg h RootState := do
  let hashChain ← readTree "fetch hash chain for base index" fun db => db.hashChainAt index
  let root ← readTree "fetch root for base index" fun db => db.rootAt index
  return ⟨(index : Fr), u256ToFr (hashChain.getD 0), root.getD (zeroRoot h job.treeConfig)⟩

def initialiseNova (job : RootProverJob) (baseIndex compiledIndex : ℕ) : RootProg h (Ivc h) := do
  let z0 ← loadStateVector job baseIndex
  if compiledIndex = baseIndex then return .initialNova z0
  else
    match ← loadIvcRecord compiledIndex with
    | some record => return record.ivcProof
    | none => fail (.missingIvcProof compiledIndex)

def ensureStateAlignment (baseIndex : ℕ) : RootProg h RootProverState := do
  let realign : RootProg h RootProverState := do
    deleteIvcProofs
    upsertProverState (.fresh baseIndex)
    return .fresh baseIndex
  match ← loadProverState with
  | some state => if state.baseIndex = baseIndex then return state else realign
  | none => realign

/-! ## Compiling -/

/-- One event of the loop of `sync_ivc_proofs`. The transaction of `prove` is one statement here,
which is what it comes to (`proof_in_one_statement`). -/
def compileStep (job : RootProverJob) (baseIndex : ℕ) (nova : Ivc h) (event : EventRow) :
    RootProg h (Ivc h) := do
  let proof ← read (.database "build merkle proof") fun s =>
    prove h job.treeConfig s.tree (event.eventIndex + 1) event.eventIndex
  let proof ← ofExcept (proof.mapError .witness)
  let inputs ← ofExcept
    ((toExternalInputs event.entry.address event.entry.value.val proof).mapError .witness)
  let nova ← ofExcept (Machine.okOr (nova.proveStep inputs) (.nova event.eventIndex))
  upsertIvcProof baseIndex (event.eventIndex + 1) nova
  return nova

/-- The loop of `sync_ivc_proofs`, which ends at a gap. -/
def compileLoop (job : RootProverJob) (baseIndex : ℕ) : List EventRow → Ivc h → ℕ → RootProg h ℕ
  | [], _, currentIndex => pure currentIndex
  | event :: events, nova, currentIndex =>
    if event.eventIndex ≠ currentIndex then pure currentIndex
    else do
      let nova ← compileStep job baseIndex nova event
      compileLoop job baseIndex events nova (currentIndex + 1)

def syncIvcProofs (job : RootProverJob) (state : RootProverState) (contractIndex : ℕ) :
    RootProg h RootProverState := do
  let treeIndex ← read (.database "load latest tree index") fun s =>
    (s.tree.latestSnapshot.map SnapshotRow.treeIndex).getD 0
  let targetIndex := min treeIndex contractIndex
  if targetIndex ≤ state.lastCompiledIndex then return state
  else do
    let events ← fetchEventBatch state.lastCompiledIndex targetIndex
    if events = [] then return state
    else do
      let nova ← initialiseNova job state.baseIndex state.lastCompiledIndex
      let currentIndex ← compileLoop job state.baseIndex events nova state.lastCompiledIndex
      if currentIndex > state.lastCompiledIndex then do
        updateLastCompiledIndex currentIndex
        return { state with lastCompiledIndex := currentIndex }
      else return state

/-! ## Submitting -/

section

variable (d : DeciderSets) (produceDeciderProof : Ivc h → RootProof)

/-- The transaction, and the `HashChainReserved` event of its receipt. -/
def reserveHashChain : RootProg h (ℕ × ℕ) :=
  stmt (.contract "reserve hash chain") fun s =>
    ((uint64 s.token.index, s.token.hashChain),
      { s with verifier := s.verifier.reserveHashChain s.token })

/-- The transaction, and whether it went through. -/
def submitTransferRoot (baseIndex : ℕ) (ivc : Ivc h) (proof : RootProof) : RootProg h Unit := do
  let accepted ← stmt (.contract "submit proveTransferRoot") fun s =>
    let s' := { s with submissions := s.submissions ++ [⟨baseIndex, ivc, proof, s.verifier⟩] }
    match s.verifier.proveTransferRoot (d s.verifier.verifiers) proof with
    | .ok v => (true, { s' with verifier := v })
    | .error _ => (false, s')
  if accepted then pure () else fail .reverted

/-- A proof of one step is extended by a dummy step, since the decider takes no fewer than two. -/
def submissionProof (state : RootProverState) (record : IvcRecord h) : RootProg h (Ivc h) :=
  if state.lastCompiledIndex - state.baseIndex = 1 then
    ofExcept (Machine.okOr (record.ivcProof.proveStep dummyStep) (.nova state.lastCompiledIndex))
  else pure record.ivcProof

/-- The reservation that is used: the pending one when it is for the target, else a new one. -/
def reservationFor (state : RootProverState) (targetIndex : ℕ) :
    RootProg h (RootProverState × ℕ × ℕ) := do
  let pending := if state.pendingReservedIndex = some targetIndex
    then state.pendingReservedHashChain else none
  match pending with
  | some hashChain => return (state, targetIndex, hashChain)
  | none => do
    let (index, hashChain) ← reserveHashChain
    persistPendingReservation index hashChain
    return ({ state with
      pendingReservedIndex := some index, pendingReservedHashChain := some hashChain },
      index, hashChain)

def produce (ivc : Ivc h) : RootProg h RootProof :=
  read .decider fun _ => produceDeciderProof ivc

def submitIfReady (job : RootProverJob) (state : RootProverState) (contractIndex : ℕ) :
    RootProg h RootProverState := do
  if state.lastCompiledIndex ≤ state.lastSubmittedIndex then return state
  else if state.lastCompiledIndex > contractIndex then return state
  else do
    let targetIndex := state.lastCompiledIndex
    let record ← waitForIvcRecord targetIndex job.polls
    let ivc ← submissionProof state record
    if job.submitEnabled = false then do
      let _ ← produce produceDeciderProof ivc
      return state
    else do
      let (state, reservedIndex, reservedHashChain) ← reservationFor state targetIndex
      if reservedIndex ≠ targetIndex then return state
      else if record.stateHashChain.val ≠ reservedHashChain then return state
      else do
        let decider ← produce produceDeciderProof ivc
        submitTransferRoot d state.baseIndex ivc decider
        resetStateAfterSubmission targetIndex
        deleteIvcProofs
        let _ ← ensureStateAlignment targetIndex
        return .fresh targetIndex

/-! ## A pass -/

/-- `process_token_inner`, with the lock held. -/
def processToken (job : RootProverJob) (doCompile doSubmit : Bool) : RootProg h Unit := do
  if doCompile = false ∧ doSubmit = false then return ()
  else do
    let registered ← read (.database "lookup token id") fun s => s.tree.tokenExists
    if registered = false then return ()
    else do
      let currentIndex ← read (.contract "query token index") fun s => s.token.index
      let latestProvedIndex ←
        if job.submitEnabled then
          read (.contract "query verifier state") fun s => s.verifier.latestProvedIndex
        else pure 0
      if latestProvedIndex + job.historyWindow < currentIndex then
        fail (.historyWindowExhausted latestProvedIndex currentIndex job.historyWindow)
      else do
        let state ← ensureStateAlignment latestProvedIndex
        let state ← if doCompile then syncIvcProofs job state currentIndex else pure state
        let _ ← if doSubmit then submitIfReady d produceDeciderProof job state currentIndex
          else pure state
        return ()

end

end RootJob

end Indexer

end Zerc20
