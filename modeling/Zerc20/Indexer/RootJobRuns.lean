import Zerc20.Indexer.RootJobSafety

/-!
# Passes of the root prover job

Each half of a pass has a specification: `syncIvcProofs_spec` extends what is compiled, and
`submitIfReady_spec` submits only what the Verifier accepts. `rootJob_crash_safe` is about every
state that passes can leave behind, each killed anywhere or run to its end, while others transfer,
reserve, prove and ingest.
-/

namespace Zerc20

namespace Indexer

open Machine HashTree Zkp Statements Prog SortByKey

section

variable {h : Hashes} {d : DeciderSets} {produceDeciderProof : Ivc h → RootProof}
  {job : RootProverJob} {α : Type} {P : RootWorld h → Prop} {state : RootProverState}
  {s s' : RootWorld h}

/-- What does not depend on the state is stable. -/
theorem Stable.and (hP : Stable d produceDeciderProof job P) (A : Prop) :
    Stable d produceDeciderProof job fun s => A ∧ P s :=
  ⟨fun s hs => hP.inv s hs.2, fun s s' hs hmove => ⟨hs.1, hP.move s s' hs.2 hmove⟩⟩

/-- A read whose answer says something that stays true. -/
theorem read_fact (hP : Stable d produceDeciderProof job P) {e : RootProverError}
    {f : RootWorld h → α} {A : α → Prop} (hread : ∀ s, P s → A (f s)) :
    JobSpec d produceDeciderProof job P (read e f) fun a s => A a ∧ P s :=
  (read_spec hP).mono (fun _ hs => hs) (fun _ s hs => ⟨hs.1 ▸ hread s hs.2, hs.2⟩) fun _ hs => hs

/-- A read of the tree keeps a stable property, and what it returns is what the property says of the
tree. -/
theorem readTree_spec (hP : Stable d produceDeciderProof job P) {action : String}
    {f : TreeDb → Except DbMerkleTreeError α} {A : α → Prop}
    (hread : ∀ s a, P s → f s.tree = .ok a → A a) :
    JobSpec d produceDeciderProof job P (RootJob.readTree action f) fun a s => A a ∧ P s := by
  refine .bind (read_fact hP (A := fun r => ∀ a, r = .ok a → A a) fun s hs a => hread s a hs)
    fun r => ?_
  refine (ofExcept_spec (hP.and _)).mono (fun _ hs => hs) (fun a s hs => ?_) fun _ hs => hs
  obtain ⟨hok, hall, hs⟩ := hs
  exact ⟨hall a (mapError_eq_ok.mp hok), hs⟩

/-! ## Loading the state vector -/

/-- A faithful tree stores the states of the history. -/
theorem Honest.stored (hs : Honest job.treeConfig s)
    (hheight : job.treeConfig.height = transferTreeHeight) {i : ℕ} (hi : i ≤ s.treeIndex) :
    StoredState h job.treeConfig s.tree i (stateAt h s.token.events i) := by
  obtain ⟨hle, hdb⟩ := hs.treeIndex_eq
  have hlength : (s.token.events.take s.treeIndex).length = s.treeIndex := by
    rw [List.length_take, min_eq_left hle]
  rw [prefix_stateAt_eq (List.take_prefix s.treeIndex s.token.events) (by rw [hlength]; exact hi)]
  exact storedState_of_loadStateVector (loadStateVector_eq hheight hdb (by rw [hlength]; exact hi))

/-- A pass that has found work: the tree is ahead of what is compiled. -/
structure Syncing (d : DeciderSets) (produceDeciderProof : Ivc h → RootProof) (job : RootProverJob)
    (state : RootProverState) (events : List EventRow) (s : RootWorld h) : Prop where
  knows : Knows d produceDeciderProof job state s
  ahead : state.lastCompiledIndex < s.treeIndex
  events : ∀ e ∈ events, ∃ t, s.token.events[e.eventIndex]? = some t ∧ e.entry = entryOf t

/-- The others do not touch the rows of the job, and the tree only grows. -/
theorem Syncing.move {events : List EventRow}
    (hs : Syncing d produceDeciderProof job state events s)
    (hothers : Others h d job.treeConfig s s') :
    Syncing d produceDeciderProof job state events s' := by
  obtain ⟨-, hlater, -⟩ := Others.later hs.knows.inv.honest hothers
  refine ⟨hs.knows.move hothers, hs.ahead.trans_le hlater.treeIndex, fun e he => ?_⟩
  obtain ⟨t, hget, hentry⟩ := hs.events e he
  exact ⟨t, prefix_getElem?_eq hlater.events hget, hentry⟩

/-- While the job syncs, its row is in order. -/
theorem Syncing.row {events : List EventRow}
    (hs : Syncing d produceDeciderProof job state events s) : RowOk job s state :=
  hs.knows.inv.row state hs.knows.row

/-- The same, and `z` is the state of the base. -/
structure SyncingFrom (d : DeciderSets) (produceDeciderProof : Ivc h → RootProof)
    (job : RootProverJob) (state : RootProverState) (events : List EventRow) (z : RootState)
    (s : RootWorld h) : Prop where
  syncing : Syncing d produceDeciderProof job state events s
  base : stateAt h s.token.events state.baseIndex = z

/-- `Syncing` survives whatever the others do and wherever the job crashes. -/
theorem Stable.ofSyncing (state : RootProverState) (events : List EventRow) :
    Stable d produceDeciderProof job (Syncing d produceDeciderProof job state events) :=
  ⟨fun _ hs => hs.knows.inv, fun _ _ hs hmove => hs.move hmove⟩

/-- Transfers do not change the state of the base. -/
theorem Stable.ofSyncingFrom (state : RootProverState) (events : List EventRow) (z : RootState) :
    Stable d produceDeciderProof job (SyncingFrom d produceDeciderProof job state events z) := by
  refine ⟨fun s hs => hs.syncing.knows.inv, fun s s' hs hmove => ⟨hs.syncing.move hmove, ?_⟩⟩
  obtain ⟨-, hlater, -⟩ := Others.later hs.syncing.knows.inv.honest hmove
  have hrow := hs.syncing.row
  rw [prefix_stateAt_eq hlater.events (hrow.compiled.trans hrow.bound)]
  exact hs.base

/-- The state vector that the job has loaded is the stored one. -/
theorem SyncingFrom.stored {events : List EventRow} {z : RootState}
    (hs : SyncingFrom d produceDeciderProof job state events z s)
    (hheight : job.treeConfig.height = transferTreeHeight) :
    StoredState h job.treeConfig s.tree state.baseIndex z := by
  have hle := hs.syncing.row.compiled.trans hs.syncing.ahead.le
  rw [← hs.base]
  exact hs.syncing.knows.inv.honest.stored hheight hle

/-- `load_state_vector` gives the state of the tree at the base index. -/
theorem loadStateVector_spec (hheight : job.treeConfig.height = transferTreeHeight)
    {events : List EventRow} :
    JobSpec d produceDeciderProof job (Syncing d produceDeciderProof job state events)
      (RootJob.loadStateVector job state.baseIndex) fun z =>
        SyncingFrom d produceDeciderProof job state events z := by
  -- the state of the base is fixed before the two reads
  suffices hfixed : ∀ z, JobSpec d produceDeciderProof job
      (SyncingFrom d produceDeciderProof job state events z)
      (RootJob.loadStateVector job state.baseIndex) fun z =>
        SyncingFrom d produceDeciderProof job state events z from
    (Spec.exists hfixed).mono (fun s hs => ⟨_, hs, rfl⟩) (fun _ _ hs => hs) fun _ hs => hs
  intro z
  have hstable : Stable d produceDeciderProof job
      (SyncingFrom d produceDeciderProof job state events z) := .ofSyncingFrom state events z
  refine .bind (readTree_spec hstable
    (A := fun chain => z.hashChain = u256ToFr (chain.getD 0)) ?_) fun chain => ?_
  · intro s chain hs hok
    obtain ⟨chain', hok', hchain⟩ := (hs.stored hheight).hashChain
    obtain rfl := Except.ok.inj (hok'.symm.trans hok)
    exact hchain
  refine .bind (readTree_spec (hstable.and _)
    (A := fun root => z.root = root.getD (zeroRoot h job.treeConfig)) ?_) fun root => ?_
  · intro s root hs hok
    obtain ⟨root', hok', hroot⟩ := (hs.2.stored hheight).root
    obtain rfl := Except.ok.inj (hok'.symm.trans hok)
    exact hroot
  refine .pure fun s hs => ?_
  obtain ⟨hroot, hchain, hfrom⟩ := hs
  have hindex := (hfrom.stored hheight).index
  rw [← hindex, ← hchain, ← hroot]
  exact hfrom

/-! ## Compiling -/

/-- `load_ivc_record` gives the record that is there when it reads. -/
theorem loadIvcRecord_spec (hP : Stable d produceDeciderProof job P) {i : ℕ}
    {A : Option (IvcRecord h) → RootWorld h → Prop}
    (hread : ∀ s, P s → A (s.ivcProofs i) s) :
    JobSpec d produceDeciderProof job P (RootJob.loadIvcRecord i) A := by
  refine .bind (u64ToI64_spec hP) fun _ => (read_spec hP).mono (fun _ hs => hs) ?_ fun _ hs => hs
  intro record s hs
  rw [← hs.1]
  exact hread s hs.2

/-- The proof that the loop goes on from: none yet, or the last record. -/
theorem initialiseNova_spec (hheight : job.treeConfig.height = transferTreeHeight)
    {events : List EventRow} :
    JobSpec d produceDeciderProof job (Syncing d produceDeciderProof job state events)
      (RootJob.initialiseNova job state.baseIndex state.lastCompiledIndex) fun nova =>
        Compiling d produceDeciderProof job state events nova state.lastCompiledIndex := by
  refine .bind (loadStateVector_spec hheight) fun z => ?_
  show JobSpec d produceDeciderProof job _ (if state.lastCompiledIndex = state.baseIndex
    then _ else _) _
  split
  -- nothing compiled since the base: a new proof
  · rename_i hnone
    refine .pure fun s hs => ?_
    have hrow := hs.syncing.row
    have hfolds : (Ivc.initialNova z : Ivc h).Folds s.token.events state.baseIndex
        state.lastCompiledIndex := by
      rw [hnone]
      exact ⟨le_rfl, hrow.compiled.trans hrow.bound, hs.base.symm, hs.base.symm,
        (Nat.sub_self _).symm⟩
    exact ⟨hs.syncing.knows, hfolds, le_rfl, hs.syncing.knows.records, hs.syncing.events⟩
  -- otherwise the stored one of the last index
  · rename_i hsome
    refine .bind (loadIvcRecord_spec (Stable.ofSyncingFrom state events z)
      (A := fun found s => Syncing d produceDeciderProof job state events s
        ∧ ∀ record, found = some record → record.Folds s.token.events state.baseIndex
          state.lastCompiledIndex) ?_) fun found => ?_
    · intro s hs
      refine ⟨hs.syncing, fun record hrecord => ?_⟩
      have hle := hs.syncing.row.compiled
      obtain ⟨record', hrecord', hfolds⟩ :=
        hs.syncing.knows.records state.lastCompiledIndex (by omega) le_rfl
      obtain rfl := Option.some.inj (hrecord'.symm.trans hrecord)
      exact hfolds
    cases found with
    | none => exact .fail fun s hs => hs.1.knows.inv
    | some record =>
      refine .pure fun s hs => ?_
      exact ⟨hs.1.knows, (hs.2 record rfl).ivc, le_rfl, hs.1.knows.records, hs.1.events⟩

/-- The rows are those of the history. -/
theorem fetchEventBatch_spec {a b : ℕ} :
    JobSpec d produceDeciderProof job (Syncing d produceDeciderProof job state [])
      (RootJob.fetchEventBatch a b) fun events =>
        Syncing d produceDeciderProof job state events := by
  have hstable : Stable d produceDeciderProof job
      (Syncing d produceDeciderProof job state []) := .ofSyncing state []
  unfold RootJob.fetchEventBatch
  split
  · exact .pure fun s hs => hs
  · refine .bind (u64ToI64_spec hstable) fun _ => .bind (u64ToI64_spec hstable) fun _ => ?_
    refine (read_spec hstable).mono (fun _ hs => hs) ?_ fun _ hs => hs
    intro events s hs
    refine ⟨hs.2.knows, hs.2.ahead, fun e he => ?_⟩
    rw [← hs.1, mem_sortByKey] at he
    exact hs.2.knows.inv.honest.rows e (List.mem_filter.mp he).1

/-- `update_last_compiled_index` moves the row to what was compiled. -/
theorem updateLastCompiledIndex_spec {cur : ℕ} :
    JobSpec d produceDeciderProof job (CompiledTo d produceDeciderProof job state cur)
      (RootJob.updateLastCompiledIndex cur) fun _ =>
        Knows d produceDeciderProof job { state with lastCompiledIndex := cur } := by
  have hstable : Stable d produceDeciderProof job
      (CompiledTo d produceDeciderProof job state cur) :=
    ⟨fun _ hs => hs.knows.inv, fun _ _ hs hmove => hs.move hmove⟩
  refine .bind (u64ToI64_spec hstable) fun _ => write_spec hstable fun s hs => ?_
  have hrow := hs.knows.inv.row state hs.knows.row
  have hnew : RowOk job s { state with lastCompiledIndex := cur } :=
    ⟨hrow.submitted, hrow.compiled.trans hs.le, hs.bound, hrow.proved, hrow.latest,
      hrow.disabled, hrow.pending⟩
  have hknows := hs.knows.setRow hnew hs.records
  rw [hs.knows.row]
  exact ⟨hknows, hknows.inv⟩

/-- **Compiling** leaves the job with a state whose records are all there and verified. -/
theorem syncIvcProofs_spec (hheight : job.treeConfig.height = transferTreeHeight)
    {contractIndex : ℕ} :
    JobSpec d produceDeciderProof job (Knows d produceDeciderProof job state)
      (RootJob.syncIvcProofs job state contractIndex) fun state' =>
        Knows d produceDeciderProof job state' := by
  -- the index of the tree only grows after it is read
  refine .bind (M := fun treeIndex s => treeIndex ≤ s.treeIndex
    ∧ Knows d produceDeciderProof job state s) (.read fun s s' hs hmove => ?_) fun treeIndex => ?_
  · have hs' := hs.move hmove
    exact ⟨⟨le_rfl, hs'⟩, fun _ => hs'.inv⟩
  show JobSpec d produceDeciderProof job _ (if min treeIndex contractIndex
    ≤ state.lastCompiledIndex then _ else _) _
  split
  · exact .pure fun s hs => hs.2
  · rename_i hwork
    refine Spec.mono (P := Syncing d produceDeciderProof job state []) ?_ ?_ (fun _ _ hs => hs)
      fun _ hs => hs
    · refine .bind fetchEventBatch_spec fun events => ?_
      show JobSpec d produceDeciderProof job _ (if events = [] then _ else _) _
      split
      · exact .pure fun s hs => hs.knows
      · refine .bind (initialiseNova_spec hheight) fun nova =>
          .bind (compileLoop_spec hheight events nova _) fun cur => ?_
        show JobSpec d produceDeciderProof job _ (if cur > state.lastCompiledIndex
          then _ else _) _
        split
        · exact .bind updateLastCompiledIndex_spec fun _ => .pure fun s hs => hs
        · exact .pure fun s hs => hs.knows
    · intro s hs
      refine ⟨hs.2, ?_, nofun⟩
      have hle := hs.1
      omega

/-! ## Submitting -/

/-- The decider accepts the proof of every run of two steps or more, whichever set is installed, and
the proof carries the two states. -/
def RootDeciderComplete (d : DeciderSets) (produceDeciderProof : Ivc h → RootProof) : Prop :=
  ∀ ivc : Ivc h, 2 ≤ ivc.steps.length →
    (∀ vs, (d vs).rootDecider (produceDeciderProof ivc) = true)
      ∧ (∀ i ∈ ([1, 2, 3, 4, 5, 6] : List (Fin 32)),
        (produceDeciderProof ivc i).val < scalarModulus)
      ∧ (produceDeciderProof ivc).initialState = ivc.z0
      ∧ (produceDeciderProof ivc).finalState = ivc.zi

/-- A pass with a proof to submit. -/
structure Ready (d : DeciderSets) (produceDeciderProof : Ivc h → RootProof) (job : RootProverJob)
    (state : RootProverState) (record : IvcRecord h) (ivc : Ivc h) (s : RootWorld h) : Prop where
  knows : Knows d produceDeciderProof job state s
  lt : state.baseIndex < state.lastCompiledIndex
  record : record.Folds s.token.events state.baseIndex state.lastCompiledIndex
  z0 : ivc.z0 = stateAt h s.token.events state.baseIndex
  zi : ivc.zi = stateAt h s.token.events state.lastCompiledIndex
  steps : 2 ≤ ivc.steps.length

/-- With a proof ready, the row of the job is in order. -/
theorem Ready.row {record : IvcRecord h} {ivc : Ivc h}
    (hs : Ready d produceDeciderProof job state record ivc s) : RowOk job s state :=
  hs.knows.inv.row state hs.knows.row

/-- A proof that is ready stays so: the record is the job's own, and the history only grows. -/
theorem Ready.later {record : IvcRecord h} {ivc : Ivc h}
    (hs : Ready d produceDeciderProof job state record ivc s) (hhonest : Honest job.treeConfig s')
    (hlater : Later s s') (hsame : SameJob s s') :
    Ready d produceDeciderProof job state record ivc s' := by
  have hrow := hs.row
  refine ⟨hs.knows.later hhonest hlater hsame, hs.lt,
    ⟨hs.record.ivc.extend hlater.events, hs.record.hashChain⟩, ?_, ?_, hs.steps⟩
  · rw [prefix_stateAt_eq hlater.events (hrow.compiled.trans hrow.bound)]
    exact hs.z0
  · rw [prefix_stateAt_eq hlater.events hrow.bound]
    exact hs.zi

/-- In particular it survives the moves of the others. -/
theorem Ready.move {record : IvcRecord h} {ivc : Ivc h}
    (hs : Ready d produceDeciderProof job state record ivc s)
    (hothers : Others h d job.treeConfig s s') :
    Ready d produceDeciderProof job state record ivc s' := by
  obtain ⟨hhonest, hlater, hsame⟩ := Others.later hs.knows.inv.honest hothers
  exact hs.later hhonest hlater hsame

/-- `Ready` survives the others and crashes. -/
theorem Stable.ofReady (state : RootProverState) (record : IvcRecord h) (ivc : Ivc h) :
    Stable d produceDeciderProof job (Ready d produceDeciderProof job state record ivc) :=
  ⟨fun _ hs => hs.knows.inv, fun _ _ hs hmove => hs.move hmove⟩

/-- What is known of the record of the last compiled index. -/
structure Found (d : DeciderSets) (produceDeciderProof : Ivc h → RootProof) (job : RootProverJob)
    (state : RootProverState) (record : IvcRecord h) (s : RootWorld h) : Prop where
  knows : Knows d produceDeciderProof job state s
  lt : state.baseIndex < state.lastCompiledIndex
  record : record.Folds s.token.events state.baseIndex state.lastCompiledIndex

/-- The record that is waited for, by induction on the reads. -/
theorem waitForIvcRecord_spec (polls : ℕ) :
    JobSpec d produceDeciderProof job
      (fun s => state.baseIndex < state.lastCompiledIndex
        ∧ Knows d produceDeciderProof job state s)
      (RootJob.waitForIvcRecord state.lastCompiledIndex polls) fun record =>
        Found d produceDeciderProof job state record := by
  have hstable : Stable d produceDeciderProof job (fun s =>
      state.baseIndex < state.lastCompiledIndex ∧ Knows d produceDeciderProof job state s) :=
    (Stable.ofKnows state).and _
  induction polls with
  | zero => exact fail_spec hstable
  | succ polls ih =>
    refine .bind (loadIvcRecord_spec hstable (A := fun found s =>
      (state.baseIndex < state.lastCompiledIndex ∧ Knows d produceDeciderProof job state s)
        ∧ ∀ record, found = some record → record.Folds s.token.events state.baseIndex
          state.lastCompiledIndex) ?_) fun found => ?_
    · intro s hs
      refine ⟨hs, fun record hrecord => ?_⟩
      obtain ⟨record', hrecord', hfolds⟩ := hs.2.records _ hs.1 le_rfl
      obtain rfl := Option.some.inj (hrecord'.symm.trans hrecord)
      exact hfolds
    cases found with
    | none => exact Spec.mono ih (fun s hs => hs.1) (fun _ _ hs => hs) fun _ hs => hs
    | some record => exact .pure fun s hs => ⟨hs.1.2, hs.1.1, hs.2 record rfl⟩

/-- The dummy step leads nowhere. -/
theorem Found.ready_of_dummy {record : IvcRecord h} {ivc : Ivc h}
    (hs : Found d produceDeciderProof job state record s)
    (hone : state.lastCompiledIndex - state.baseIndex = 1)
    (hstep : record.ivcProof.proveStep dummyStep = some ivc) :
    Ready d produceDeciderProof job state record ivc s := by
  have hrecord := hs.record.ivc
  obtain ⟨hz0, hsteps, hzi⟩ := Ivc.proveStep_eq_some hstep
  have hstay : ivc.zi = record.ivcProof.zi := by
    obtain ⟨-, -, ⟨-, hz⟩ | ⟨hreal, -⟩⟩ := rootTransitionStep_eq_some h (by decide) hzi
    · exact hz
    · cases hreal
  have hlength := hrecord.steps
  refine ⟨hs.knows, hs.lt, hs.record, hz0.trans hrecord.z0, hstay.trans hrecord.zi, ?_⟩
  rw [hsteps, List.length_append, hlength, hone]
  exact le_rfl

/-- A record of more than one step is submitted as it is. -/
theorem Found.ready {record : IvcRecord h} (hs : Found d produceDeciderProof job state record s)
    (hmore : state.lastCompiledIndex - state.baseIndex ≠ 1) :
    Ready d produceDeciderProof job state record record.ivcProof s := by
  have hrecord := hs.record.ivc
  have hsteps := hrecord.steps
  have hlt := hs.lt
  exact ⟨hs.knows, hs.lt, hs.record, hrecord.z0, hrecord.zi, by omega⟩

/-- The proof that is built from the record is ready: a single step is followed by the dummy step.
-/
theorem submissionProof_spec {record : IvcRecord h} :
    JobSpec d produceDeciderProof job (Found d produceDeciderProof job state record)
      (RootJob.submissionProof state record) fun ivc =>
        Ready d produceDeciderProof job state record ivc := by
  unfold RootJob.submissionProof
  split
  · rename_i hone
    refine .ofExcept (fun ivc s hok hs => ?_) fun _ s _ hs => hs.knows.inv
    exact hs.ready_of_dummy hone (Machine.okOr_eq_ok.mp hok)
  · rename_i hmore
    exact .pure fun s hs => hs.ready hmore

/-- The Verifier has the reservation. -/
def Reserved (r : ℕ × ℕ) (s : RootWorld h) : Prop :=
  r.2 ≠ 0 → s.verifier.reservedHashChains r.1 = r.2

/-- A reserved hash chain stays reserved. -/
theorem Reserved.later {r : ℕ × ℕ} (hs : Reserved r s) (hlater : Later s s') : Reserved r s' := by
  intro hne
  have hreserved := hs hne
  rw [hlater.reserved r.1 (by rw [hreserved]; exact hne), hreserved]

/-- A ready proof with its reservation survives the others and crashes. -/
theorem Stable.ofReserved (state : RootProverState) (record : IvcRecord h) (ivc : Ivc h)
    (r : ℕ × ℕ) : Stable d produceDeciderProof job
      (fun s => Ready d produceDeciderProof job state record ivc s ∧ Reserved r s) := by
  refine ⟨fun s hs => hs.1.knows.inv, fun s s' hs hmove => ⟨hs.1.move hmove, ?_⟩⟩
  exact hs.2.later (Others.later hs.1.knows.inv.honest hmove).2.1

/-- The same row with another reservation. -/
theorem Ready.setPending {record : IvcRecord h} {ivc : Ivc h}
    (hs : Ready d produceDeciderProof job state record ivc s) {r : ℕ × ℕ} (hr : Reserved r s) :
    Ready d produceDeciderProof job
      { state with pendingReservedIndex := some r.1, pendingReservedHashChain := some r.2 } record
      ivc
      { s with proverState := some { state with
          pendingReservedIndex := some r.1, pendingReservedHashChain := some r.2 } } := by
  have hrow := hs.row
  have hnew : RowOk job s { state with
      pendingReservedIndex := some r.1, pendingReservedHashChain := some r.2 } := by
    refine ⟨hrow.submitted, hrow.compiled, hrow.bound, hrow.proved, hrow.latest, hrow.disabled, ?_⟩
    intro i hashChain hi hhash hne
    obtain rfl := Option.some.inj hi
    obtain rfl := Option.some.inj hhash
    exact hr hne
  exact ⟨hs.knows.setRow hnew hs.knows.records, hs.lt, hs.record, hs.z0, hs.zi, hs.steps⟩

/-- `reserve_hash_chain` gives a reservation that the contract holds. -/
theorem reserveHashChain_spec {record : IvcRecord h} {ivc : Ivc h} :
    JobSpec d produceDeciderProof job (Ready d produceDeciderProof job state record ivc)
      RootJob.reserveHashChain fun r s =>
        Ready d produceDeciderProof job state record ivc s ∧ Reserved r s := by
  refine .stmt fun s s' hs hmove => ?_
  have hs' := hs.move hmove
  obtain ⟨hhonest, hlater⟩ := hs'.knows.inv.honest.reserve
  have hready := hs'.later hhonest hlater ⟨rfl, rfl, rfl, rfl⟩
  exact ⟨⟨hready, fun _ => Function.update_self _ _ _⟩, fun _ => ⟨hs'.knows.inv, hready.knows.inv⟩⟩

/-- `persist_pending_reservation` writes it to the row. -/
theorem persistPendingReservation_spec {record : IvcRecord h} {ivc : Ivc h} {r : ℕ × ℕ} :
    JobSpec d produceDeciderProof job
      (fun s => Ready d produceDeciderProof job state record ivc s ∧ Reserved r s)
      (RootJob.persistPendingReservation r.1 r.2) fun _ s =>
        Ready d produceDeciderProof job
          { state with pendingReservedIndex := some r.1, pendingReservedHashChain := some r.2 }
          record ivc s ∧ Reserved r s := by
  have hstable : Stable d produceDeciderProof job
      (fun s => Ready d produceDeciderProof job state record ivc s ∧ Reserved r s) :=
    .ofReserved state record ivc r
  -- the row that is read is the one that the pass knows
  refine .bind (read_fact hstable (A := fun snapshot => snapshot = some state)
    fun s hs => hs.1.knows.row) fun snapshot => .assume fun hsnapshot => ?_
  subst hsnapshot
  refine upsertProverState_spec hstable fun s hs => ?_
  have hready := hs.1.setPending hs.2
  exact ⟨⟨hready, hs.2⟩, hready.knows.inv⟩

/-- The row changes its reservation only. -/
theorem reservationFor_spec {record : IvcRecord h} {ivc : Ivc h} :
    JobSpec d produceDeciderProof job (Ready d produceDeciderProof job state record ivc)
      (RootJob.reservationFor state state.lastCompiledIndex) fun r s =>
        r.1.lastCompiledIndex = state.lastCompiledIndex
          ∧ Ready d produceDeciderProof job r.1 record ivc s ∧ Reserved r.2 s := by
  unfold RootJob.reservationFor
  dsimp only
  split
  · -- the pending reservation is for the target
    rename_i hashChain hpending
    split at hpending
    · rename_i hindex
      refine .pure fun s hs => ⟨rfl, hs, fun hne => ?_⟩
      exact hs.row.pending _ hashChain hindex hpending hne
    · cases hpending
  · exact .bind reserveHashChain_spec fun r => .bind persistPendingReservation_spec fun _ =>
      .pure fun s hs => ⟨rfl, hs⟩

/-- A run with a step ends within the tree. -/
theorem Ivc.index_le {ivc : Ivc h} {ts : List Transfer} {i : ℕ} (hsteps : 0 < ivc.steps.length)
    (hzi : ivc.zi = stateAt h ts i) (hi : i < 2 ^ 64) : i ≤ 2 ^ transferTreeHeight := by
  have hne : ivc.steps ≠ [] := List.ne_nil_of_length_pos hsteps
  have hle := (rootRun_index_le h (by decide) hne ivc.satisfied).2.2
  have hval : (stateAt h ts i).index.val = i :=
    val_natCast_of_lt_two_pow (n := 64) (by decide) hi
  rw [hzi, hval] at hle
  exact hle

/-- What is submitted fits the tree. -/
theorem Ready.index_le {record : IvcRecord h} {ivc : Ivc h}
    (hs : Ready d produceDeciderProof job state record ivc s) :
    state.lastCompiledIndex ≤ 2 ^ transferTreeHeight := by
  have hlength := hs.knows.inv.honest.length
  have hbound := hs.row.bound
  have hsteps := hs.steps
  exact Ivc.index_le (by omega) hs.zi (by omega)

/-- The public words of a proof between two states of the history. -/
theorem RootDeciderComplete.words (hd : RootDeciderComplete d produceDeciderProof) {ivc : Ivc h}
    (hsteps : 2 ≤ ivc.steps.length) {ts : List Transfer} {base i : ℕ}
    (hz0 : ivc.z0 = stateAt h ts base) (hzi : ivc.zi = stateAt h ts i)
    (hbase : base ≤ 2 ^ transferTreeHeight) (hi : i ≤ 2 ^ transferTreeHeight) :
    uint64 (produceDeciderProof ivc 1) = base
      ∧ (produceDeciderProof ivc 3).val = (transferRoot h (ts.take base)).val
      ∧ uint64 (produceDeciderProof ivc 4) = i
      ∧ (produceDeciderProof ivc 5).val = transferChain h (ts.take i)
      ∧ (produceDeciderProof ivc 6).val = (transferRoot h (ts.take i)).val := by
  obtain ⟨-, hcanonical, hinitial, hfinal⟩ := hd ivc hsteps
  rw [hz0] at hinitial
  rw [hzi] at hfinal
  -- a canonical word is the value of its field element
  have hval : ∀ j ∈ ([1, 2, 3, 4, 5, 6] : List (Fin 32)), ∀ x : Fr,
      ((produceDeciderProof ivc j).val : Fr) = x → (produceDeciderProof ivc j).val = x.val := by
    rintro j hj x rfl
    exact (ZMod.val_natCast_of_lt (hcanonical j hj)).symm
  have hsmall : (2 : ℕ) ^ transferTreeHeight < 2 ^ 64 := by decide
  have h1 := hval 1 (by decide) _ (congrArg RootState.index hinitial)
  have h3 := hval 3 (by decide) _ (congrArg RootState.root hinitial)
  have h4 := hval 4 (by decide) _ (congrArg RootState.index hfinal)
  have h5 := hval 5 (by decide) _ (congrArg RootState.hashChain hfinal)
  have h6 := hval 6 (by decide) _ (congrArg RootState.root hfinal)
  rw [stateAt_index_val hbase] at h1
  rw [stateAt_index_val hi] at h4
  rw [stateAt_hashChain_val] at h5
  refine ⟨?_, h3, ?_, h5, h6⟩
  · rw [uint64, h1, Nat.mod_eq_of_lt (by omega)]
  · rw [uint64, h4, Nat.mod_eq_of_lt (by omega)]

/-- **The Verifier accepts** what is submitted. -/
theorem Ready.accepted {record : IvcRecord h} {ivc : Ivc h}
    (hs : Ready d produceDeciderProof job state record ivc s)
    (hd : RootDeciderComplete d produceDeciderProof)
    (hreserved : Reserved (state.lastCompiledIndex, record.stateHashChain.val) s) :
    ∃ v, s.verifier.proveTransferRoot (d s.verifier.verifiers) (produceDeciderProof ivc) = .ok v
      ∧ Honest job.treeConfig { s with verifier := v } ∧ Later s { s with verifier := v }
      ∧ v.provedTransferRoots state.lastCompiledIndex ≠ 0
      ∧ state.lastCompiledIndex ≤ v.latestProvedIndex
      ∧ (⟨state.baseIndex, ivc, produceDeciderProof ivc, s.verifier⟩ : Submission h).Good d
        produceDeciderProof s.token.events := by
  have hhonest := hs.knows.inv.honest
  have hrow := hs.row
  have hlt := hs.lt
  have hle := hs.index_le
  obtain ⟨h1, h3, h4, h5, h6⟩ :=
    hd.words hs.steps hs.z0 hs.zi (hlt.le.trans hle) hle
  -- the hash chain of the record is the reserved one
  have hchain : record.stateHashChain.val
      = transferChain h (s.token.events.take state.lastCompiledIndex) := by
    rw [hs.record.hashChain, hs.record.ivc.zi, stateAt_hashChain_val]
  have hne : record.stateHashChain.val ≠ 0 := by
    rw [hchain]
    exact hhonest.chain_ne _ (by omega) hrow.bound
  have hstored : s.verifier.reservedHashChains state.lastCompiledIndex
      = record.stateHashChain.val := hreserved hne
  have hproved := (hhonest.roots.proved _ hrow.proved).2.2
  have hroot : (produceDeciderProof ivc 3).val ≠ 0 := by
    rw [h3, Ne, ZMod.val_eq_zero]
    exact hhonest.root_ne _ (hlt.le.trans hrow.bound)
  have hagree : s.verifier.provedTransferRoots (uint64 (produceDeciderProof ivc 4)) ≠ 0 →
      s.verifier.provedTransferRoots (uint64 (produceDeciderProof ivc 4))
        = (produceDeciderProof ivc 6).val := by
    rw [h4, h6]
    exact fun hsome => (hhonest.roots.proved _ hsome).2.2
  obtain ⟨v, hok⟩ : ∃ v, s.verifier.proveTransferRoot (d s.verifier.verifiers)
      (produceDeciderProof ivc) = .ok v := by
    refine ⟨_, (Verifier.proveTransferRoot_ok_iff hagree).mpr
      ⟨hhonest.unpaused, (hd ivc hs.steps).1 _, hroot, ?_, ?_, ?_, rfl⟩⟩
    · rw [h1, h3]
      exact hproved
    · rw [h4, hstored]
      exact hne
    · rw [h4, h5, hstored]
      exact hchain
  obtain ⟨hhonest', hlater, hnew, hlatest⟩ :=
    hhonest.prove hok (by rw [h4]; exact hle) (by rw [h4]; exact h6)
  rw [h4] at hnew hlatest
  refine ⟨v, hok, hhonest', hlater, hnew, hlatest, rfl, hs.steps, hs.z0, ⟨hproved, hrow.proved⟩,
    ⟨state.lastCompiledIndex, hrow.bound, hs.zi, hlt, ?_, ?_⟩, ⟨v, hok, hhonest'.unpaused⟩⟩
  · exact hstored.trans hchain
  · show s.verifier.reservedHashChains state.lastCompiledIndex ≠ 0
    rw [hstored]
    exact hne

/-- The target is proved, and the row is not reset yet. -/
structure Submitted (d : DeciderSets) (produceDeciderProof : Ivc h → RootProof) (job : RootProverJob)
    (target : ℕ) (s : RootWorld h) : Prop where
  inv : Inv d produceDeciderProof job s
  proved : s.verifier.provedTransferRoots target ≠ 0
  latest : target ≤ s.verifier.latestProvedIndex

/-- That the root was submitted survives the others and crashes. -/
theorem Stable.ofSubmitted (target : ℕ) :
    Stable d produceDeciderProof job (Submitted d produceDeciderProof job target) := by
  refine ⟨fun s hs => hs.inv, fun s s' hs hmove => ?_⟩
  obtain ⟨-, hlater, -⟩ := Others.later hs.inv.honest hmove
  exact ⟨hs.inv.move hmove, hlater.proved _ hs.proved, hs.latest.trans hlater.latest⟩

/-- A submission is recorded. -/
theorem Inv.submit (hs : Inv d produceDeciderProof job s) {x : Submission h} {v : Verifier}
    (hx : x.Good d produceDeciderProof s.token.events)
    (hhonest : Honest job.treeConfig { s with verifier := v })
    (hlater : Later s { s with verifier := v }) :
    Inv d produceDeciderProof job
      { s with verifier := v, submissions := s.submissions ++ [x] } := by
  have hmoved := hs.later hhonest hlater ⟨rfl, rfl, rfl, rfl⟩
  refine ⟨⟨hhonest.history, hhonest.length, hhonest.chain_ne, hhonest.root_ne, hhonest.roots,
    hhonest.genesis, hhonest.latest, hhonest.unpaused, hhonest.tree, hhonest.rows⟩, ?_,
    hmoved.records, hmoved.compiled, ?_⟩
  · intro row hrow
    have hok := hmoved.row row hrow
    exact ⟨hok.submitted, hok.compiled, hok.bound, hok.proved, hok.latest, hok.disabled,
      hok.pending⟩
  · intro y hy
    rcases List.mem_append.mp hy with hy | hy
    · exact hs.submissions y hy
    · rw [List.mem_singleton.mp hy]
      exact hx

/-- `submit_transfer_root` sends a proof that the decider accepts for the reserved hash chain, so
the root is proved afterwards. -/
theorem submitTransferRoot_spec (hd : RootDeciderComplete d produceDeciderProof)
    {record : IvcRecord h} {ivc : Ivc h} :
    JobSpec d produceDeciderProof job
      (fun s => Ready d produceDeciderProof job state record ivc s
        ∧ Reserved (state.lastCompiledIndex, record.stateHashChain.val) s)
      (RootJob.submitTransferRoot d state.baseIndex ivc (produceDeciderProof ivc)) fun _ =>
        Submitted d produceDeciderProof job state.lastCompiledIndex := by
  have hstable : Stable d produceDeciderProof job
      (fun s => Ready d produceDeciderProof job state record ivc s
        ∧ Reserved (state.lastCompiledIndex, record.stateHashChain.val) s) :=
    .ofReserved state record ivc _
  refine .bind (M := fun accepted s => accepted = true
    ∧ Submitted d produceDeciderProof job state.lastCompiledIndex s) (.stmt ?_) fun accepted =>
    .assume fun haccepted => ?_
  -- what others did before the transaction leaves it acceptable
  · intro s s' hs hmove
    obtain ⟨hready, hreserved⟩ := hstable.move s s' hs hmove
    obtain ⟨v, hok, hhonest, hlater, hproved, hlatest, hgood⟩ := hready.accepted hd hreserved
    have hinv := hready.knows.inv.submit hgood hhonest hlater
    rw [hok]
    exact ⟨⟨rfl, hinv, hproved, hlatest⟩, fun _ => ⟨hready.knows.inv, hinv⟩⟩
  · rw [if_pos haccepted]
    exact .pure fun s hs => hs

/-- The row is reset to the target. -/
structure Reset (d : DeciderSets) (produceDeciderProof : Ivc h → RootProof) (job : RootProverJob)
    (target : ℕ) (s : RootWorld h) : Prop where
  submitted : Submitted d produceDeciderProof job target s
  row : s.proverState = some (.fresh target)

/-- That the row was reset survives the others and crashes. -/
theorem Stable.ofReset (target : ℕ) :
    Stable d produceDeciderProof job (Reset d produceDeciderProof job target) := by
  refine ⟨fun s hs => hs.submitted.inv, fun s s' hs hmove =>
    ⟨(Stable.ofSubmitted target).move s s' hs.submitted hmove, ?_⟩⟩
  rw [(Others.later hs.submitted.inv.honest hmove).2.2.proverState]
  exact hs.row

/-- `reset_state_after_submission` starts the next proof at the submitted index. -/
theorem resetStateAfterSubmission_spec {target : ℕ} (henabled : job.submitEnabled = true) :
    JobSpec d produceDeciderProof job (Submitted d produceDeciderProof job target)
      (RootJob.resetStateAfterSubmission target) fun _ =>
        Reset d produceDeciderProof job target := by
  refine upsertProverState_spec (Stable.ofSubmitted target) fun s hs => ?_
  have hrow : RowOk job s (.fresh target) :=
    .fresh hs.inv.honest hs.proved hs.latest fun hdisabled => by
      rw [henabled] at hdisabled
      cases hdisabled
  have hinv := hs.inv.setRow hrow fun _ => Compiled.of_le le_rfl
  exact ⟨⟨⟨hinv, hs.proved, hs.latest⟩, rfl⟩, hinv⟩

/-- The records of the old base go, and nothing is left to realign. -/
theorem deleteAndAlign_spec {target : ℕ} (henabled : job.submitEnabled = true) :
    JobSpec d produceDeciderProof job (Reset d produceDeciderProof job target)
      (do
        RootJob.deleteIvcProofs
        let _ ← RootJob.ensureStateAlignment target
        return RootProverState.fresh target) fun _ => Inv d produceDeciderProof job := by
  refine .bind (deleteIvcProofs_spec (Stable.ofReset target)
    (Q := Reset d produceDeciderProof job target) ?_) fun _ => ?_
  · intro s hs
    -- nothing is compiled past the base that was reset
    have hinv : Inv d produceDeciderProof job { s with ivcProofs := fun _ => none } := by
      refine hs.submitted.inv.deleteProofs fun row hrow _ => ?_
      rw [hs.row] at hrow
      obtain rfl := Option.some.inj hrow
      exact le_rfl
    exact ⟨⟨⟨hinv, hs.submitted.proved, hs.submitted.latest⟩, hs.row⟩, hinv⟩
  refine .bind (Spec.mono (ensureStateAlignment_spec target) ?_ (fun _ _ hs => hs) fun _ hs => hs)
    fun _ => .pure fun s hs => hs.2.inv
  intro s hs
  refine ⟨hs.submitted.inv, hs.submitted.proved, hs.submitted.latest, fun hdisabled => ?_, ?_, ?_⟩
  · rw [henabled] at hdisabled
    cases hdisabled
  · intro row hrow _
    rw [hs.row] at hrow
    obtain rfl := Option.some.inj hrow
    exact Compiled.of_le le_rfl
  · intro row hrow hbase
    rw [hs.row] at hrow
    obtain rfl := Option.some.inj hrow
    exact absurd rfl hbase

/-- **Submitting** keeps the invariant, at whichever statement it stops. -/
theorem submitIfReady_spec (hd : RootDeciderComplete d produceDeciderProof) {contractIndex : ℕ} :
    JobSpec d produceDeciderProof job (Knows d produceDeciderProof job state)
      (RootJob.submitIfReady d produceDeciderProof job state contractIndex) fun _ =>
        Inv d produceDeciderProof job := by
  unfold RootJob.submitIfReady
  split
  · exact .pure fun s hs => hs.inv
  split
  · exact .pure fun s hs => hs.inv
  rename_i hcompiled _
  dsimp only
  refine Spec.mono (P := fun s => state.baseIndex < state.lastCompiledIndex
    ∧ Knows d produceDeciderProof job state s) ?_ ?_ (fun _ _ hs => hs) fun _ hs => hs
  -- what is submitted is the record of the last compiled index
  · refine .bind (waitForIvcRecord_spec job.polls) fun record =>
      .bind submissionProof_spec fun ivc => ?_
    show JobSpec d produceDeciderProof job _ (if job.submitEnabled = false then _ else _) _
    split
    · exact .bind (read_spec (Stable.ofReady state record ivc)) fun _ =>
        .pure fun s hs => hs.2.knows.inv
    rename_i henabled
    rw [Bool.not_eq_false] at henabled
    refine .bind reservationFor_spec fun r => .assume fun hlast => ?_
    show JobSpec d produceDeciderProof job _ (if r.2.1 ≠ state.lastCompiledIndex then _ else _) _
    split
    · exact .pure fun s hs => hs.1.knows.inv
    rename_i hindex
    rw [not_not, ← hlast] at hindex
    show JobSpec d produceDeciderProof job _ (if record.stateHashChain.val ≠ r.2.2 then _ else _) _
    split
    · exact .pure fun s hs => hs.1.knows.inv
    rename_i hchain
    rw [not_not] at hchain
    have hstable : Stable d produceDeciderProof job
        (fun s => Ready d produceDeciderProof job r.1 record ivc s ∧ Reserved r.2 s) :=
      .ofReserved r.1 record ivc r.2
    refine .bind (read_fact hstable (A := fun proof => proof = produceDeciderProof ivc)
      fun _ _ => rfl) fun proof => .assume fun hproof => ?_
    subst hproof
    -- the two checks leave the reservation of this record
    have hpair : r.2 = (r.1.lastCompiledIndex, record.stateHashChain.val) :=
      Prod.ext hindex hchain.symm
    rw [hpair, ← hlast]
    exact .bind (submitTransferRoot_spec hd) fun _ =>
      .bind (resetStateAfterSubmission_spec henabled) fun _ => deleteAndAlign_spec henabled
  · intro s hs
    have hrow := hs.inv.row state hs.row
    have hsubmitted := hrow.submitted
    exact ⟨by omega, hs⟩

/-! ## Passes -/

/-- The latest proved index is the base of a pass. -/
theorem Inv.aligning_latest (hs : Inv d produceDeciderProof job s)
    (henabled : job.submitEnabled = true) :
    Aligning d produceDeciderProof job s.verifier.latestProvedIndex s where
  inv := hs
  proved := hs.honest.latest
  latest := le_rfl
  disabled hdisabled := by
    rw [henabled] at hdisabled
    cases hdisabled
  aligned state hstate hbase := hs.records state hstate (Or.inl hbase)
  behind state hstate hbase := by
    have hle := (hs.row state hstate).latest
    exact ⟨by omega, henabled⟩

/-- A job that does not submit works from the start. -/
theorem Inv.aligning_zero (hs : Inv d produceDeciderProof job s)
    (hdisabled : job.submitEnabled = false) : Aligning d produceDeciderProof job 0 s where
  inv := hs
  proved := hs.honest.genesis
  latest := Nat.zero_le _
  disabled _ := rfl
  aligned state hstate _ := hs.records state hstate (Or.inr hdisabled)
  behind state hstate hbase := absurd ((hs.row state hstate).disabled hdisabled) hbase

/-- **A pass of the job** keeps the invariant, at whichever statement it stops. -/
theorem processToken_keeps (hd : RootDeciderComplete d produceDeciderProof)
    (hheight : job.treeConfig.height = transferTreeHeight) (doCompile doSubmit : Bool) :
    Keeps (Others h d job.treeConfig) (Inv d produceDeciderProof job)
      (RootJob.processToken d produceDeciderProof job doCompile doSubmit) := by
  show JobSpec d produceDeciderProof job (Inv d produceDeciderProof job) _ _
  unfold RootJob.processToken
  split
  · exact .pure fun s hs => hs
  refine .bind ((read_spec Stable.ofInv).mono (fun _ hs => hs) (fun _ _ hs => hs.2) fun _ hs => hs)
    fun registered => ?_
  show JobSpec d produceDeciderProof job _ (if registered = false then _ else _) _
  split
  · exact .pure fun s hs => hs
  refine .bind ((read_spec Stable.ofInv).mono (fun _ hs => hs) (fun _ _ hs => hs.2) fun _ hs => hs)
    fun currentIndex => ?_
  -- the base of this pass is read here
  refine Spec.ite_bind (M := Aligning d produceDeciderProof job) (fun henabled => ?_)
    (fun hdisabled s hs => ?_) fun latestProvedIndex => ?_
  · refine .read fun s s' hs hmove => ?_
    have hs' := hs.move hmove
    exact ⟨hs'.aligning_latest henabled, fun _ => hs'⟩
  · exact hs.aligning_zero (by simpa using hdisabled)
  show JobSpec d produceDeciderProof job _
    (if latestProvedIndex + job.historyWindow < currentIndex then _ else _) _
  split
  · exact fail_spec (Stable.ofAligning latestProvedIndex)
  refine .bind (ensureStateAlignment_spec latestProvedIndex) fun state => ?_
  refine Spec.ite_bind (M := Knows d produceDeciderProof job) (fun _ => ?_) (fun _ s hs => hs.2)
    fun state' => ?_
  · exact (syncIvcProofs_spec hheight).mono (fun _ hs => hs.2) (fun _ _ hs => hs) fun _ hs => hs
  · exact Spec.ite_bind (a := state') (M := fun _ => Inv d produceDeciderProof job)
      (fun _ => submitIfReady_spec hd) (fun _ s hs => hs.inv) fun _ => .pure fun s hs => hs

end

/-! ## Runs -/

/-- The states that passes leave behind: a pass is stopped where `env` refuses or loses a statement,
and `env` also says what the others do before each statement. -/
inductive Reachable {h : Hashes} (d : DeciderSets) (produceDeciderProof : Ivc h → RootProof)
    (job : RootProverJob) : RootWorld h → Prop
  | start (s : RootWorld h) (hhonest : Honest job.treeConfig s) (hrow : s.proverState = none)
      (hproofs : ∀ i, s.ivcProofs i = none) (hcompiled : s.compiled = [])
      (hsubmissions : s.submissions = []) : Reachable d produceDeciderProof job s
  | others {s s' : RootWorld h} (hs : Reachable d produceDeciderProof job s)
      (hothers : Others h d job.treeConfig s s') : Reachable d produceDeciderProof job s'
  | pass {s : RootWorld h} (hs : Reachable d produceDeciderProof job s)
      (doCompile doSubmit : Bool) (env : Env (RootWorld h))
      (henv : ∀ n s, Others h d job.treeConfig s (env.move n s)) :
      Reachable d produceDeciderProof job
        ((RootJob.processToken d produceDeciderProof job doCompile doSubmit).outcome env s).2

section

variable {h : Hashes} {d : DeciderSets} {produceDeciderProof : Ivc h → RootProof}
  {job : RootProverJob} {s : RootWorld h}

/-- Every world that passes, crashes and the others reach is in order. -/
theorem Reachable.inv (hd : RootDeciderComplete d produceDeciderProof)
    (hheight : job.treeConfig.height = transferTreeHeight)
    (hs : Reachable d produceDeciderProof job s) : Inv d produceDeciderProof job s := by
  induction hs with
  | start s hhonest hrow hproofs hcompiled hsubmissions =>
    refine ⟨hhonest, ?_, ?_, ?_, ?_⟩
    · intro state hstate
      rw [hrow] at hstate
      cases hstate
    · intro state hstate
      rw [hrow] at hstate
      cases hstate
    · rw [hcompiled]
      exact nofun
    · rw [hsubmissions]
      exact nofun
  | others _ hothers ih => exact ih.move hothers
  | pass _ doCompile doSubmit env henv ih =>
    exact (processToken_keeps hd hheight doCompile doSubmit).outcome henv ih

end

/-- What the tables of the job promise after any crash, and what was written and submitted. -/
structure CrashSafe {h : Hashes} (d : DeciderSets) (produceDeciderProof : Ivc h → RootProof)
    (s : RootWorld h) : Prop where
  indices : ∀ state, s.proverState = some state →
    state.baseIndex = state.lastSubmittedIndex
      ∧ state.lastSubmittedIndex ≤ state.lastCompiledIndex
  record : ∀ state, s.proverState = some state →
    state.baseIndex = s.verifier.latestProvedIndex →
    state.baseIndex < state.lastCompiledIndex →
    ∃ record, s.ivcProofs state.lastCompiledIndex = some record
      ∧ state.lastCompiledIndex ≤ s.token.events.length
      ∧ record.ivcProof.z0 = stateAt h s.token.events state.baseIndex
      ∧ record.ivcProof.zi = stateAt h s.token.events state.lastCompiledIndex
  /-- No proof was extended under another base. -/
  compiled : ∀ x ∈ s.compiled, ∃ i, x.2.Folds s.token.events x.1 i
  submissions : ∀ x ∈ s.submissions, x.Good d produceDeciderProof s.token.events

/-- **The root job survives crashes.** Whatever statements fail, are lost or never happen, and
whatever the others do between them. -/
theorem rootJob_crash_safe (h : Hashes) (d : DeciderSets) (produceDeciderProof : Ivc h → RootProof)
    (hd : RootDeciderComplete d produceDeciderProof) (job : RootProverJob)
    (hheight : job.treeConfig.height = transferTreeHeight) (s : RootWorld h)
    (hreach : Reachable d produceDeciderProof job s) : CrashSafe d produceDeciderProof s := by
  have hinv := hreach.inv hd hheight
  refine ⟨fun state hstate => ?_, fun state hstate hbase hlt => ?_, hinv.compiled,
    hinv.submissions⟩
  · have hrow := hinv.row state hstate
    exact ⟨hrow.submitted, hrow.submitted ▸ hrow.compiled⟩
  · obtain ⟨record, hrecord, hfolds⟩ :=
      hinv.records state hstate (Or.inl hbase) state.lastCompiledIndex hlt le_rfl
    exact ⟨record, hrecord, hfolds.ivc.bound, hfolds.ivc.z0, hfolds.ivc.zi⟩

/-! ### A crash right after the submission -/

namespace RootJobExample

def deposit : Transfer := ⟨0, 7, 5⟩

def chain : Chain := run (Chain.step realHashes depositDeciders)
  (Chain.initial 1 1 2 3 4 0 30101 ⟨21, 22, 23, 24, 25⟩ fun _ => 0) [.depositNative 7 5]

/-- The window of the example is not empty. -/
theorem historyWindow_pos : 0 < 10 := by decide

def job : RootProverJob := ⟨⟨40, 10, transferTreeHeight_pos, historyWindow_pos⟩, 10, true, 1⟩

/-- The deposit is ingested, and the job has not run yet. -/
def world : RootWorld realHashes where
  token := chain.token
  verifier := chain.verifier
  tree := run (appendStep realHashes job.treeConfig) TreeDb.initial [entryOf deposit]
  rows := [⟨0, entryOf deposit⟩]
  proverState := none
  ivcProofs _ := none
  compiled := []
  submissions := []

def word (x : Fr) : Word := ⟨x.val, val_lt_two_pow_256 x⟩

def produceDeciderProof (ivc : Ivc realHashes) : RootProof := fun i =>
  if i = 1 then word ivc.z0.index
  else if i = 2 then word ivc.z0.hashChain
  else if i = 3 then word ivc.z0.root
  else if i = 4 then word ivc.zi.index
  else if i = 5 then word ivc.zi.hashChain
  else if i = 6 then word ivc.zi.root
  else 0

def deciders : DeciderSets := fun _ => ⟨fun _ => true, fun _ _ => false, fun _ _ => false⟩

/-- The decider of the example accepts the proofs of satisfied runs. -/
theorem complete : RootDeciderComplete deciders produceDeciderProof := by
  intro ivc _
  have hcast : ∀ x : Fr, ((word x).val : Fr) = x := fun x => ZMod.natCast_zmod_val x
  refine ⟨fun _ => rfl, fun i hi => ?_, ?_, ?_⟩
  · simp only [List.mem_cons, List.not_mem_nil, or_false] at hi
    rcases hi with rfl | rfl | rfl | rfl | rfl | rfl <;> exact ZMod.val_lt (n := scalarModulus) _
  · exact congr (congr (congrArg RootState.mk (hcast _)) (hcast _)) (hcast _)
  · exact congr (congr (congrArg RootState.mk (hcast _)) (hcast _)) (hcast _)

/-- The chain of the example has logged one deposit. -/
theorem events_eq : world.token.events = [deposit] := by decide +kernel

/-- The roots of its history are not zero. -/
theorem transferRoot_ne (i : ℕ) (hi : i ≤ 1) : transferRoot realHashes ([deposit].take i) ≠ 0 := by
  interval_cases i
  · intro hzero
    have hval := transferRoot_empty
    rw [show transferRoot realHashes [] = 0 from hzero] at hval
    exact absurd hval (by decide)
  · rw [List.take_of_length_le (le_refl 1), transferRoot, transferLeaves, List.map_singleton,
      node_singleton]
    decide +kernel

/-- The tables of the example are those of the history. -/
theorem honest : Honest job.treeConfig world where
  history := Chain.step_historyInv realHashes depositDeciders
    (c := Chain.initial 1 1 2 3 4 0 30101 ⟨21, 22, 23, 24, 25⟩ fun _ => 0) ⟨rfl, rfl⟩
    (.depositNative 7 5)
  length := by
    rw [events_eq]
    decide
  chain_ne i hpos hi := by
    rw [events_eq] at hi ⊢
    obtain rfl : i = 1 := by
      rw [List.length_singleton] at hi
      omega
    decide +kernel
  root_ne i hi := by
    rw [events_eq] at hi ⊢
    exact transferRoot_ne i hi
  roots := (Verifier.initial_rootsInv transferRoot_empty.symm 1 2 30101 _).extend List.nil_prefix
  genesis := by decide +kernel
  latest := by decide +kernel
  unpaused := rfl
  tree := by
    have hall : appendedEntries [entryOf deposit] = [entryOf deposit] :=
      List.take_of_length_le (show 1 ≤ i64Max by decide)
    have hcapacity : [entryOf deposit].length ≤ 2 ^ job.treeConfig.height := by
      rw [List.length_singleton]
      exact Nat.one_le_two_pow
    have hrun := run_represents (h := realHashes) [entryOf deposit] hcapacity
    rw [hall] at hrun
    refine ⟨1, by rw [events_eq]; rfl, ?_⟩
    rw [events_eq]
    dsimp only [world]
    exact hrun
  rows row hrow := by
    rw [List.mem_singleton.mp hrow, events_eq]
    exact ⟨deposit, rfl, rfl⟩

/-- A whole pass, killed between the submission and the reset of the row. -/
def crashed : RootWorld realHashes :=
  ((RootJob.processToken deciders produceDeciderProof job true true).outcome
    (Env.killedAt _ 19) world).2

/-- The job has submitted the root and crashed before it reset its row. -/
theorem crashed_eq : (crashed.submissions.length, crashed.verifier.latestProvedIndex,
    crashed.proverState) = (1, 1, some ⟨0, 1, 0, some 1, some chain.token.hashChain⟩) := by
  decide +kernel

end RootJobExample

/-- A crash between the submission and the reset of the row. -/
theorem rootJob_crash_safe_submitted :
    RootJobExample.crashed.submissions.length = 1
      ∧ RootJobExample.crashed.verifier.latestProvedIndex = 1
      ∧ RootJobExample.crashed.proverState = some ⟨0, 1, 0, some 1,
        some RootJobExample.chain.token.hashChain⟩
      ∧ CrashSafe RootJobExample.deciders RootJobExample.produceDeciderProof
        RootJobExample.crashed := by
  have hstart : Reachable RootJobExample.deciders RootJobExample.produceDeciderProof
      RootJobExample.job RootJobExample.world :=
    .start _ RootJobExample.honest rfl (fun _ => rfl) rfl rfl
  have heq := RootJobExample.crashed_eq
  rw [Prod.mk.injEq, Prod.mk.injEq] at heq
  refine ⟨heq.1, heq.2.1, heq.2.2,
    rootJob_crash_safe realHashes RootJobExample.deciders RootJobExample.produceDeciderProof
      RootJobExample.complete RootJobExample.job rfl RootJobExample.crashed ?_⟩
  exact .pass hstart true true (Env.killedAt _ 19) fun _ _ => .refl

end Indexer

end Zerc20
