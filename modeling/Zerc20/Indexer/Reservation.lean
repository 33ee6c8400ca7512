import Zerc20.Indexer.RootJobRuns

/-!
# The pending reservation

`submit_if_ready` compares the pending reservation with the last compiled index only. When the
proofs have gone past it, the pass reserves the newest index instead, writes that over the pending
one, and submits just if no transfer has come in since the last compiled index was compiled.
`pendingReservation_used_iff` says exactly which passes submit.
-/

namespace Zerc20

namespace Indexer

open Machine HashTree Zkp Statements Prog

section

variable {h : Hashes} {d : DeciderSets} {produceDeciderProof : Ivc h → RootProof}
  {job : RootProverJob} {state : RootProverState} {s s' : RootWorld h}

/-- The proof ends at a reserved index, `p` or a later one, and the Verifier takes it. -/
structure Submission.Uses (d : DeciderSets) (p : ℕ) (x : Submission h) : Prop where
  le : p ≤ uint64 (x.proof 4)
  reserved : x.verifier.reservedHashChains (uint64 (x.proof 4)) ≠ 0
    ∧ x.verifier.reservedHashChains (uint64 (x.proof 4)) = (x.proof 5).val
  accepted : ∃ v, x.verifier.proveTransferRoot (d x.verifier.verifiers) x.proof = .ok v

/-! ## Statements that submit nothing -/

section

variable {cfg : TreeConfig} {S : List (Submission h) → Prop} {α : Type}

/-- What the others do between two statements submits nothing for this job. -/
theorem Others.submissions_eq (hothers : Others h d cfg s s') :
    s'.submissions = s.submissions := by
  induction hothers with
  | refl => rfl
  | tail _ hstep ih =>
    rw [← ih]
    cases hstep <;> rfl

/-- A statement that only reads keeps any property of the submissions. -/
theorem read_keepsSubmissions {e : RootProverError} {f : RootWorld h → α} :
    Keeps (Others h d cfg) (fun s => S s.submissions) (read e f) :=
  Keeps.read fun s s' hs hothers => by rw [hothers.submissions_eq]; exact hs

/-- So does a write that leaves the submissions alone. -/
theorem write_keepsSubmissions {e : RootProverError} {f : RootWorld h → RootWorld h}
    (hf : ∀ s, (f s).submissions = s.submissions) :
    Keeps (Others h d cfg) (fun s => S s.submissions) (write e f) :=
  Keeps.write (fun s s' hs hothers => by rw [hothers.submissions_eq]; exact hs)
    fun s hs => by rw [hf]; exact hs

/-- `upsert_prover_state` writes a row of the database. -/
theorem upsertProverState_keepsSubmissions (row : RootProverState) :
    Keeps (Others h d cfg) (fun s => S s.submissions) (RootJob.upsertProverState row) :=
  .bind (.ofExcept _) fun _ => .bind (.ofExcept _) fun _ => .bind (.ofExcept _) fun _ =>
    .bind (.ofExcept _) fun _ => write_keepsSubmissions fun _ => rfl

/-- `persist_pending_reservation` writes the same row. -/
theorem persistPendingReservation_keepsSubmissions (index hashChain : ℕ) :
    Keeps (Others h d cfg) (fun s => S s.submissions)
      (RootJob.persistPendingReservation index hashChain) :=
  .bind read_keepsSubmissions fun _ => upsertProverState_keepsSubmissions _

/-- `delete_ivc_proofs` writes to the database only. -/
theorem deleteIvcProofs_keepsSubmissions :
    Keeps (Others h d cfg) (fun s => S s.submissions) RootJob.deleteIvcProofs :=
  write_keepsSubmissions fun _ => rfl

/-- Everything that happens before the submission is a read or a write to the database. -/
theorem ensureStateAlignment_keepsSubmissions (baseIndex : ℕ) :
    Keeps (Others h d cfg) (fun s => S s.submissions)
      (RootJob.ensureStateAlignment baseIndex) := by
  have hrealign : Keeps (Others h d cfg) (fun s => S s.submissions) (do
      RootJob.deleteIvcProofs
      RootJob.upsertProverState (.fresh baseIndex)
      return RootProverState.fresh baseIndex) :=
    .bind deleteIvcProofs_keepsSubmissions fun _ =>
      .bind (upsertProverState_keepsSubmissions _) fun _ => .pure _
  refine .bind read_keepsSubmissions fun existing => ?_
  cases existing with
  | none => exact hrealign
  | some state =>
    show Keeps _ _ (if state.baseIndex = baseIndex then _ else _)
    split
    · exact .pure _
    · exact hrealign

end

/-! ## The rest of a pass -/

/-- What `submit_if_ready` does with the reservation it uses. -/
def afterReservation (d : DeciderSets) (produceDeciderProof : Ivc h → RootProof)
    (record : IvcRecord h) (ivc : Ivc h) (targetIndex : ℕ) (r : RootProverState × ℕ × ℕ) :
    RootProg h RootProverState :=
  if r.2.1 ≠ targetIndex then return r.1
  else if record.stateHashChain.val ≠ r.2.2 then return r.1
  else do
    let decider ← RootJob.produce produceDeciderProof ivc
    RootJob.submitTransferRoot d r.1.baseIndex ivc decider
    RootJob.resetStateAfterSubmission targetIndex
    RootJob.deleteIvcProofs
    let _ ← RootJob.ensureStateAlignment targetIndex
    return .fresh targetIndex

/-- With something to submit, `submit_if_ready` is its last part: wait for the record, find the
reservation, build the proof and send it. -/
theorem submitIfReady_eq {contractIndex : ℕ} (henabled : job.submitEnabled = true)
    (hlt : state.lastSubmittedIndex < state.lastCompiledIndex)
    (hcontract : state.lastCompiledIndex ≤ contractIndex) :
    RootJob.submitIfReady d produceDeciderProof job state contractIndex = (do
      let record ← RootJob.waitForIvcRecord state.lastCompiledIndex job.polls
      let ivc ← RootJob.submissionProof state record
      let r ← RootJob.reservationFor state state.lastCompiledIndex
      afterReservation d produceDeciderProof record ivc state.lastCompiledIndex r) := by
  unfold RootJob.submitIfReady
  rw [if_neg (by omega), if_neg (by omega), henabled]
  rfl

/-- The submissions after a pass that submits. -/
def Extended (d : DeciderSets) (p : ℕ) (xs ys : List (Submission h)) : Prop :=
  ∃ x, ys = xs ++ [x] ∧ x.Uses d p

/-- A proof that is sent with its own reservation is taken by the contract, as long as no later root
was proved meanwhile. -/
theorem Ready.uses {record : IvcRecord h} {ivc : Ivc h} {p : ℕ}
    (hs : Ready d produceDeciderProof job state record ivc s)
    (hd : RootDeciderComplete d produceDeciderProof)
    (hreserved : Reserved (state.lastCompiledIndex, record.stateHashChain.val) s)
    (hp : p ≤ state.lastCompiledIndex) : ∃ v,
      s.verifier.proveTransferRoot (d s.verifier.verifiers) (produceDeciderProof ivc) = .ok v
        ∧ (⟨state.baseIndex, ivc, produceDeciderProof ivc, s.verifier⟩ : Submission h).Uses d p := by
  obtain ⟨v, hok, -⟩ := hs.accepted hd hreserved
  obtain ⟨-, -, h4, -⟩ := hd.words hs.steps hs.z0 hs.zi (hs.lt.le.trans hs.index_le) hs.index_le
  obtain ⟨-, -, -, hne, hchain, -⟩ := Verifier.proveTransferRoot_eq_ok hok
  exact ⟨v, hok, hp.trans h4.ge, ⟨hne, hchain⟩, v, hok⟩

/-- With a matching reservation, the proof is submitted. -/
theorem afterReservation_submits (hd : RootDeciderComplete d produceDeciderProof)
    (state : RootProverState) {record : IvcRecord h} {ivc : Ivc h} {p : ℕ}
    (hp : p ≤ state.lastCompiledIndex) (xs : List (Submission h)) :
    Spec (Others h d job.treeConfig) False
      (fun s => (Ready d produceDeciderProof job state record ivc s
        ∧ Reserved (state.lastCompiledIndex, record.stateHashChain.val) s) ∧ s.submissions = xs)
      (afterReservation d produceDeciderProof record ivc state.lastCompiledIndex
        (state, state.lastCompiledIndex, record.stateHashChain.val))
      (fun _ s => Extended d p xs s.submissions) (fun s => Extended d p xs s.submissions) := by
  unfold afterReservation
  rw [if_neg (not_not.mpr rfl), if_neg (not_not.mpr rfl)]
  have hstable : Stable d produceDeciderProof job
      (fun s => Ready d produceDeciderProof job state record ivc s
        ∧ Reserved (state.lastCompiledIndex, record.stateHashChain.val) s) :=
    .ofReserved state record ivc _
  refine .bind (M := fun proof s => proof = produceDeciderProof ivc
    ∧ (Ready d produceDeciderProof job state record ivc s
      ∧ Reserved (state.lastCompiledIndex, record.stateHashChain.val) s) ∧ s.submissions = xs)
    (.read fun s s' hs hothers => ?_) fun proof => .assume fun hproof => ?_
  · exact ⟨⟨rfl, hstable.move s s' hs.1 hothers, hothers.submissions_eq.trans hs.2⟩, nofun⟩
  subst hproof
  refine .bind (M := fun _ s => Extended d p xs s.submissions) ?_ fun _ => ?_
  · refine .bind (M := fun accepted s => accepted = true ∧ Extended d p xs s.submissions)
      (.stmt fun s s' hs hothers => ⟨?_, nofun⟩) fun accepted => .assume fun haccepted => ?_
    · obtain ⟨hready, hreserved⟩ := hstable.move s s' hs.1 hothers
      obtain ⟨v, hok, huses⟩ := hready.uses hd hreserved hp
      rw [hok]
      refine ⟨rfl, _, ?_, huses⟩
      show s'.submissions ++ [_] = xs ++ [_]
      rw [hothers.submissions_eq, hs.2]
    · rw [if_pos haccepted]
      exact .pure fun s hs => hs
  · -- the rest submits nothing
    have hrest : Keeps (Others h d job.treeConfig) (fun s => Extended d p xs s.submissions) (do
        RootJob.resetStateAfterSubmission state.lastCompiledIndex
        RootJob.deleteIvcProofs
        let _ ← RootJob.ensureStateAlignment state.lastCompiledIndex
        return RootProverState.fresh state.lastCompiledIndex) :=
      .bind (upsertProverState_keepsSubmissions _) fun _ =>
        .bind deleteIvcProofs_keepsSubmissions fun _ =>
          .bind (ensureStateAlignment_keepsSubmissions _) fun _ => .pure _
    exact Spec.rely hrest (fun _ _ hothers => hothers) fun _ => trivial

/-! ## The parts of a pass, run on a state -/

/-- An index that fits is converted without an error. -/
theorem u64ToI64_of_le {label : String} {value : ℕ} (hle : value ≤ i64Max) :
    (RootJob.u64ToI64 label value : RootProg h ℕ) = pure value := by
  rw [RootJob.u64ToI64, toI64_of_le label hle]
  rfl

section

variable {env : Env (RootWorld h)} {n : ℕ}

/-- When the first read goes through and finds the record, nothing is waited for. -/
theorem waitForIvcRecord_of_done (hreply : env.reply n = .done) {i : ℕ} (hi : i ≤ i64Max)
    {record : IvcRecord h} (hrecord : (env.move n s).ivcProofs i = some record) (polls : ℕ) :
    RootJob.waitForIvcRecord i (polls + 1) env n s = (.ok record, n + 1, env.move n s) := by
  have hload : RootJob.loadIvcRecord i env n s = (.ok (some record), n + 1, env.move n s) := by
    rw [RootJob.loadIvcRecord, u64ToI64_of_le hi, bind_of_ok rfl, read_of_done hreply, hrecord]
  rw [RootJob.waitForIvcRecord, bind_of_ok hload]
  rfl

/-- A proof of one step is lost when it ends at the last leaf of the tree. -/
def TreeFull (state : RootProverState) : Prop :=
  state.lastCompiledIndex - state.baseIndex = 1
    ∧ state.lastCompiledIndex = 2 ^ transferTreeHeight

/-- Folding a step fails exactly where the circuit is not satisfied. -/
theorem Ivc.proveStep_eq_none {nova : Ivc h} {e : RootExternalInputs} :
    nova.proveStep e = none ↔ rootTransitionStep h transferTreeHeight nova.zi e = none := by
  unfold Ivc.proveStep
  split
  · rename_i z hz
    refine iff_of_false nofun fun hnone => ?_
    rw [hz] at hnone
    cases hnone
  · rename_i hnone
    exact iff_of_true rfl hnone

/-- What was compiled is in the tree, so it fits the tree. -/
theorem Found.index_le {record : IvcRecord h}
    (hs : Found d produceDeciderProof job state record s) :
    state.lastCompiledIndex ≤ 2 ^ transferTreeHeight := by
  have hrecord := hs.record.ivc
  have hsteps := hrecord.steps
  have hlt := hs.lt
  have hlength := hs.knows.inv.honest.length
  have hbound := hrecord.bound
  exact Ivc.index_le (by omega) hrecord.zi (by omega)

/-- The dummy step is refused exactly when the tree is full: its leaf would be the one after the
last. -/
theorem Found.proveStep_eq_none {record : IvcRecord h}
    (hs : Found d produceDeciderProof job state record s) :
    record.ivcProof.proveStep dummyStep = none
      ↔ state.lastCompiledIndex = 2 ^ transferTreeHeight := by
  have hle := hs.index_le
  rw [Ivc.proveStep_eq_none, hs.record.ivc.zi]
  constructor
  · intro hnone
    by_contra hne
    rw [rootTransitionStep_dummyStep (by omega)] at hnone
    cases hnone
  · intro hfull
    by_contra hsome
    obtain ⟨z, hz⟩ := Option.ne_none_iff_exists'.mp hsome
    obtain ⟨-, hindex, -⟩ := rootTransitionStep_eq_some h (by decide) hz
    rw [stateAt_index_val hle] at hindex
    omega

/-- Building the proof takes no statement. It fails when the dummy step does, in a full tree, and
otherwise gives a proof that is ready to be submitted. -/
theorem submissionProof_run {record : IvcRecord h} (env : Env (RootWorld h)) (n : ℕ)
    (hs : Found d produceDeciderProof job state record s) :
    (∃ e, RootJob.submissionProof state record env n s = (.error e, n, s)) ∧ TreeFull state
      ∨ ∃ ivc, RootJob.submissionProof state record env n s = (.ok ivc, n, s)
        ∧ Ready d produceDeciderProof job state record ivc s ∧ ¬ TreeFull state := by
  have hnone := hs.proveStep_eq_none
  unfold RootJob.submissionProof
  split
  · rename_i hone
    cases hstep : record.ivcProof.proveStep dummyStep with
    | none => exact Or.inl ⟨⟨_, rfl⟩, hone, hnone.mp hstep⟩
    | some ivc =>
      refine Or.inr ⟨ivc, rfl, hs.ready_of_dummy hone hstep, fun hfull => ?_⟩
      rw [hnone.mpr hfull.2] at hstep
      cases hstep
  · rename_i hmore
    exact Or.inr ⟨record.ivcProof, rfl, hs.ready hmore, fun hfull => hmore hfull.1⟩

/-- The indices of the row fit the columns of the table. -/
structure RootProverState.InRange (state : RootProverState) : Prop where
  base : state.baseIndex ≤ i64Max
  compiled : state.lastCompiledIndex ≤ i64Max
  submitted : state.lastSubmittedIndex ≤ i64Max

/-- The numbers of the state fit their columns. -/
theorem Found.inRange {record : IvcRecord h}
    (hs : Found d produceDeciderProof job state record s) : state.InRange := by
  have hle := hs.index_le
  have hlt := hs.lt
  have hsubmitted := (hs.knows.inv.row state hs.knows.row).submitted
  have hroom : 2 ^ transferTreeHeight ≤ i64Max := by decide
  exact ⟨by omega, by omega, by omega⟩

/-- With numbers that fit, `upsert_prover_state` is one write. -/
theorem upsertProverState_of_le {row : RootProverState} (hrow : row.InRange)
    (hpending : row.pendingReservedIndex.getD 0 ≤ i64Max) :
    (RootJob.upsertProverState row : RootProg h Unit)
      = write (.database "upsert root prover state") fun s =>
        { s with proverState := some row } := by
  rw [RootJob.upsertProverState, u64ToI64_of_le hrow.base, u64ToI64_of_le hrow.compiled,
    u64ToI64_of_le hrow.submitted, u64ToI64_of_le hpending]
  rfl

/-- Persisting the reservation can fail as a statement only, and submits nothing. -/
theorem persistPendingReservation_writes {record : IvcRecord h} {ivc : Ivc h} {r : ℕ × ℕ}
    (hstate : state.InRange) (hr : r.1 ≤ i64Max) {xs : List (Submission h)}
    {E : RootWorld h → Prop} :
    Spec (Others h d job.treeConfig) False
      (fun s => (Ready d produceDeciderProof job state record ivc s ∧ Reserved r s)
        ∧ s.submissions = xs)
      (RootJob.persistPendingReservation r.1 r.2)
      (fun _ s => (Ready d produceDeciderProof job
          { state with pendingReservedIndex := some r.1, pendingReservedHashChain := some r.2 }
          record ivc s ∧ Reserved r s) ∧ s.submissions = xs) E := by
  have hstable : Stable d produceDeciderProof job
      (fun s => Ready d produceDeciderProof job state record ivc s ∧ Reserved r s) :=
    .ofReserved state record ivc r
  refine .bind (M := fun snapshot s => snapshot = some state
    ∧ (Ready d produceDeciderProof job state record ivc s ∧ Reserved r s) ∧ s.submissions = xs)
    (.read fun s s' hs hothers => ?_) fun snapshot => .assume fun hsnapshot => ?_
  · have hs' := hstable.move s s' hs.1 hothers
    exact ⟨⟨hs'.1.knows.row, hs', hothers.submissions_eq.trans hs.2⟩, nofun⟩
  subst hsnapshot
  dsimp only [Option.map_some, Option.getD_some]
  have hrow : RootProverState.InRange { state with
      pendingReservedIndex := some r.1, pendingReservedHashChain := some r.2 } :=
    ⟨hstate.base, hstate.compiled, hstate.submitted⟩
  rw [upsertProverState_of_le hrow hr]
  refine .write fun s s' hs hothers => ?_
  have hs' := hstable.move s s' hs.1 hothers
  exact ⟨⟨⟨hs'.1.setPending hs'.2, hs'.2⟩, hothers.submissions_eq.trans hs.2⟩, nofun⟩

/-! ## The pass -/

/-- The reservation that is used when the pending one is not for the target. -/
theorem reservationFor_run (hreply : env.reply n = .done)
    (hpending : state.pendingReservedIndex ≠ some state.lastCompiledIndex) :
    (RootJob.reservationFor state state.lastCompiledIndex : RootProg h _) env n s = (do
      RootJob.persistPendingReservation (uint64 (env.move n s).token.index)
        (env.move n s).token.hashChain
      return ({ state with
        pendingReservedIndex := some (uint64 (env.move n s).token.index)
        pendingReservedHashChain := some (env.move n s).token.hashChain },
        uint64 (env.move n s).token.index, (env.move n s).token.hashChain)) env (n + 1)
        { env.move n s with
          verifier := (env.move n s).verifier.reserveHashChain (env.move n s).token } := by
  unfold RootJob.reservationFor
  dsimp only
  rw [if_neg hpending]
  exact bind_of_ok (stmt_of_done hreply)

/-- A reservation on chain leaves the proof ready. -/
theorem Ready.reserve {record : IvcRecord h} {ivc : Ivc h}
    (hs : Ready d produceDeciderProof job state record ivc s) :
    Ready d produceDeciderProof job state record ivc
        { s with verifier := s.verifier.reserveHashChain s.token }
      ∧ Reserved (uint64 s.token.index, s.token.hashChain)
        { s with verifier := s.verifier.reserveHashChain s.token } := by
  obtain ⟨hhonest, hlater⟩ := hs.knows.inv.honest.reserve
  exact ⟨hs.later hhonest hlater ⟨rfl, rfl, rfl, rfl⟩, fun _ => Function.update_self _ _ _⟩

/-- The hash chain of the record is the token's, when the token is still there. -/
theorem Ready.hashChain_eq {record : IvcRecord h} {ivc : Ivc h}
    (hs : Ready d produceDeciderProof job state record ivc s)
    (htoken : uint64 s.token.index = state.lastCompiledIndex) :
    record.stateHashChain.val = s.token.hashChain := by
  have hhonest := hs.knows.inv.honest
  rw [uint64, hhonest.index_eq, Nat.mod_eq_of_lt hhonest.length] at htoken
  rw [hs.record.hashChain, hs.record.ivc.zi, stateAt_hashChain_val, hhonest.history.hashChain_eq,
    List.take_of_length_le htoken.le]

/-- However a run ends, its last state has what both ends promise about the submissions. -/
theorem submissions_of_ends {α : Type} {S : List (Submission h) → Prop}
    {x : Except RootProverError α × ℕ × RootWorld h}
    (hends : Ends (fun _ s => S s.submissions) (fun s => S s.submissions) (x.1, x.2.2)) :
    S x.2.2.submissions := by
  obtain ⟨result, m, s⟩ := x
  cases result with
  | ok _ => exact hends
  | error _ => exact hends

/-- The rest of a pass that has reserved the last compiled index anew. -/
theorem persist_submits (hd : RootDeciderComplete d produceDeciderProof)
    {record : IvcRecord h} {ivc : Ivc h} {p : ℕ} (hp : p ≤ state.lastCompiledIndex)
    (hstate : state.InRange) {xs : List (Submission h)} {state' : RootProverState} {r : ℕ × ℕ}
    (hr : r = (state.lastCompiledIndex, record.stateHashChain.val))
    (hstate' : state' = { state with
      pendingReservedIndex := some r.1, pendingReservedHashChain := some r.2 }) :
    Spec (Others h d job.treeConfig) False
      (fun s => (Ready d produceDeciderProof job state record ivc s ∧ Reserved r s)
        ∧ s.submissions = xs)
      ((do
        RootJob.persistPendingReservation r.1 r.2
        return (state', r)) >>=
        afterReservation d produceDeciderProof record ivc state.lastCompiledIndex)
      (fun _ s => Extended d p xs s.submissions) fun s => Extended d p xs s.submissions := by
  subst hr
  subst hstate'
  refine .bind (.bind (persistPendingReservation_writes hstate hstate.compiled) fun _ => .pure
    (Q := fun r s => r = ({ state with
        pendingReservedIndex := some state.lastCompiledIndex
        pendingReservedHashChain := some record.stateHashChain.val }, state.lastCompiledIndex,
        record.stateHashChain.val)
      ∧ (Ready d produceDeciderProof job r.1 record ivc s
        ∧ Reserved (state.lastCompiledIndex, record.stateHashChain.val) s) ∧ s.submissions = xs)
      fun s hs => ⟨rfl, hs⟩) fun r => .assume fun hr => ?_
  subst hr
  exact afterReservation_submits hd { state with
    pendingReservedIndex := some state.lastCompiledIndex
    pendingReservedHashChain := some record.stateHashChain.val } hp xs

/-- The rest of a pass that has reserved another index. -/
theorem persist_submitsNothing {cfg : TreeConfig} {record : IvcRecord h} {ivc : Ivc h}
    {state' : RootProverState} {r : ℕ × ℕ} {targetIndex : ℕ} (hne : r.1 ≠ targetIndex)
    (henv : env.Obeys (Others h d cfg) True) :
    (((do
        RootJob.persistPendingReservation r.1 r.2
        return (state', r)) >>=
      afterReservation d produceDeciderProof record ivc targetIndex) env n s).2.2.submissions
      = s.submissions := by
  have hkeeps : Keeps (Others h d cfg) (fun t => t.submissions = s.submissions)
      ((do
        RootJob.persistPendingReservation r.1 r.2
        return (state', r)) >>=
        afterReservation d produceDeciderProof record ivc targetIndex) := by
    refine Spec.bind (M := fun r' t => r' = (state', r) ∧ t.submissions = s.submissions)
      (Spec.bind (persistPendingReservation_keepsSubmissions (S := fun ys => ys = s.submissions)
        _ _) fun _ => .pure fun t ht => ⟨rfl, ht⟩) fun r' => .assume fun hr' => ?_
    subst hr'
    unfold afterReservation
    rw [if_pos hne]
    exact .pure fun t ht => ht
  exact submissions_of_ends (S := fun ys => ys = s.submissions) (hkeeps env henv n s rfl)

end

end

/-- A list is not longer than itself. -/
theorem not_extended {h : Hashes} {d : DeciderSets} {p : ℕ} {xs ys : List (Submission h)}
    (hsame : ys = xs) : ¬ Extended d p xs ys := by
  rintro ⟨x, hx, -⟩
  have hlength := congrArg List.length (hsame.symm.trans hx)
  rw [List.length_append, List.length_singleton] at hlength
  omega

/-- **Which passes use the pending reservation.** A pass with nothing failing, while others move
before each statement: it submits just if the reservation is for the last compiled index, or the
token is still there when the pass reserves anew. -/
theorem pendingReservation_used_iff (h : Hashes) (d : DeciderSets)
    (produceDeciderProof : Ivc h → RootProof) (hd : RootDeciderComplete d produceDeciderProof)
    (job : RootProverJob) (henabled : job.submitEnabled = true) (hpolls : 0 < job.polls)
    (s : RootWorld h) (state : RootProverState)
    (hknows : Knows d produceDeciderProof job state s) (contractIndex p hashChain : ℕ)
    (hindex : state.pendingReservedIndex = some p)
    (hhash : state.pendingReservedHashChain = some hashChain) (hbase : state.baseIndex < p)
    (hp : p ≤ state.lastCompiledIndex) (hcontract : state.lastCompiledIndex ≤ contractIndex)
    (hrecord : ∃ record, s.ivcProofs p = some record ∧ record.stateHashChain.val = hashChain)
    (env : Env (RootWorld h)) (henv : env.Obeys (Others h d job.treeConfig) False) (n : ℕ) :
    (∃ x, ((RootJob.submitIfReady d produceDeciderProof job state contractIndex)
        env n s).2.2.submissions = s.submissions ++ [x] ∧ x.Uses d p)
      ↔ (p = state.lastCompiledIndex
          ∨ uint64 (env.move (n + 1) (env.move n s)).token.index = state.lastCompiledIndex)
        ∧ ¬ TreeFull state := by
  have hreply : ∀ m, env.reply m = .done := henv.reply.resolve_left id
  have hothers := henv.move n s
  have hs := hknows.move hothers
  have hrow := hs.inv.row state hs.row
  have hsubmissions := hothers.submissions_eq
  obtain ⟨polls, hpolls'⟩ := Nat.exists_eq_succ_of_ne_zero hpolls.ne'
  -- the record of the last compiled index is there at the first read
  obtain ⟨record, hload, hfolds⟩ :=
    hs.records state.lastCompiledIndex (by omega) le_rfl
  have hfound : Found d produceDeciderProof job state record (env.move n s) :=
    ⟨hs, by omega, hfolds⟩
  have hrange := hfound.inRange
  have hwait := waitForIvcRecord_of_done (hreply n) hrange.compiled hload polls
  have hsubmitted := hrow.submitted
  rw [submitIfReady_eq henabled (by omega) hcontract, hpolls', bind_of_ok hwait]
  rcases submissionProof_run env (n + 1) hfound with
    ⟨⟨e, herror⟩, hfull⟩ | ⟨ivc, hok, hready, hroom⟩
  · -- the dummy step does not fit
    rw [bind_of_error herror]
    refine iff_of_false (fun hextended => ?_) fun hcond => hcond.2 hfull
    exact not_extended hsubmissions hextended
  rw [bind_of_ok hok]
  by_cases hlast : p = state.lastCompiledIndex
  · -- the pending reservation is for the target
    refine iff_of_true ?_ ⟨Or.inl hlast, hroom⟩
    subst hlast
    obtain ⟨record', hrecord', rfl⟩ := hrecord
    rw [(Others.later hknows.inv.honest hothers).2.2.ivcProofs, hrecord'] at hload
    obtain rfl := Option.some.inj hload
    have hpending : (RootJob.reservationFor state state.lastCompiledIndex : RootProg h _) env
        (n + 1) (env.move n s)
        = (.ok (state, state.lastCompiledIndex, record'.stateHashChain.val), n + 1,
          env.move n s) := by
      unfold RootJob.reservationFor
      dsimp only
      rw [if_pos hindex, hhash]
      rfl
    have hreserved : Reserved (state.lastCompiledIndex, record'.stateHashChain.val)
        (env.move n s) := fun hne => hrow.pending _ _ hindex hhash hne
    rw [bind_of_ok hpending]
    exact submissions_of_ends (afterReservation_submits hd state le_rfl s.submissions env henv _ _
      ⟨⟨hready, hreserved⟩, hsubmissions⟩)
  · -- the pass reserves anew
    have hpending : state.pendingReservedIndex ≠ some state.lastCompiledIndex := by
      rw [hindex]
      exact fun heq => hlast (Option.some.inj heq)
    rw [bind_of_eq (reservationFor_run (hreply (n + 1)) hpending)]
    have hmove := henv.move (n + 1) (env.move n s)
    have hready' := hready.move hmove
    have hafter := hready'.reserve
    have hsubmissions' := hmove.submissions_eq.trans hsubmissions
    by_cases htoken : uint64 (env.move (n + 1) (env.move n s)).token.index
        = state.lastCompiledIndex
    · refine iff_of_true ?_ ⟨Or.inr htoken, hroom⟩
      have hr : (uint64 (env.move (n + 1) (env.move n s)).token.index,
          (env.move (n + 1) (env.move n s)).token.hashChain)
          = (state.lastCompiledIndex, record.stateHashChain.val) :=
        Prod.ext htoken (hready'.hashChain_eq htoken).symm
      have hends := persist_submits hd hp hrange hr rfl env henv (n + 1 + 1) _
        ⟨hafter, hsubmissions'⟩
      exact submissions_of_ends hends
    · refine iff_of_false (fun hextended => ?_) fun hcond =>
        hcond.1.elim hlast htoken
      refine not_extended ?_ hextended
      refine Eq.trans ?_ hsubmissions'
      exact persist_submitsNothing (r := (uint64 (env.move (n + 1) (env.move n s)).token.index,
        (env.move (n + 1) (env.move n s)).token.hashChain)) htoken ⟨henv.move, Or.inl trivial⟩

/-! ### A reservation that the proofs have passed -/

namespace ReservationExample

open RootJobExample (deposit job deciders produceDeciderProof)

def transfers : List Transfer := [deposit, ⟨0, 8, 2⟩, ⟨0, 9, 1⟩]

/-- The token after the second and the third transfer. -/
def token : Token := (run (Chain.step realHashes depositDeciders) RootJobExample.chain
  [.depositNative 8 2, .depositNative 9 1]).token

def tree (n : ℕ) : TreeDb :=
  run (appendStep realHashes job.treeConfig) TreeDb.initial ((transfers.take n).map entryOf)

def rows : List EventRow := [⟨0, entryOf deposit⟩, ⟨1, entryOf ⟨0, 8, 2⟩⟩]

/-- The first pass compiles and reserves index 1, and is killed before it submits. -/
def reserved : RootWorld realHashes :=
  ((RootJob.processToken deciders produceDeciderProof job true true).outcome
    (Env.killedAt _ 18) RootJobExample.world).2

/-- Two transfers come in, of which one is ingested. -/
def moved : RootWorld realHashes :=
  { reserved with token := token, tree := tree 2, rows := rows }

/-- The second pass compiles. -/
def compiled : RootWorld realHashes :=
  ((RootJob.processToken deciders produceDeciderProof job true false).outcome
    (Env.still _) moved).2

def state : RootProverState := ⟨0, 2, 0, some 1, some RootJobExample.chain.token.hashChain⟩

/-- The third pass submits. -/
def after : RootWorld realHashes :=
  ((RootJob.submitIfReady deciders produceDeciderProof job state 3).outcome
    (Env.still _) compiled).2

/-- What the three passes leave, by evaluation. -/
theorem passes_eq : ((reserved.token.events, reserved.treeIndex) = ([deposit], 1))
    ∧ ((compiled.proverState, compiled.verifier.latestProvedIndex,
      (compiled.ivcProofs 1).map fun record => record.stateHashChain.val)
      = (some state, 0, some RootJobExample.chain.token.hashChain))
    ∧ ((after.submissions.length, compiled.submissions.length,
      after.proverState.bind RootProverState.pendingReservedIndex) = (0, 0, some 3)) := by
  decide +kernel

/-- The chain of the example has logged the three transfers. -/
theorem events_eq : token.events = transfers := by decide +kernel

/-- After `n` appends the tables hold the tree of the first `n` transfers. -/
theorem represents (n : ℕ) :
    Represents realHashes job.treeConfig (tree n) ((transfers.take n).map entryOf) := by
  have hlength : ((transfers.take n).map entryOf).length ≤ 3 := by
    rw [List.length_map, List.length_take]
    exact min_le_right _ _
  have hall : appendedEntries ((transfers.take n).map entryOf) = (transfers.take n).map entryOf :=
    List.take_of_length_le (hlength.trans (by decide))
  have hcapacity : ((transfers.take n).map entryOf).length ≤ 2 ^ job.treeConfig.height :=
    hlength.trans (show 3 ≤ 2 ^ 40 by norm_num)
  have hrun := run_represents (h := realHashes) _ hcapacity
  rw [hall] at hrun
  exact hrun

/-- The state vector at every index is stored. -/
theorem storedState (i : ℕ) (hi : i ≤ 3) :
    StoredState realHashes job.treeConfig (tree 3) i (stateAt realHashes transfers i) :=
  storedState_of_loadStateVector (loadStateVector_eq rfl (represents 3) hi)

/-- The roots that the job reads are not zero. -/
theorem rootAt_ne : ∀ i ∈ [2, 3],
    ((tree 3).rootAt i).toOption.join.getD (zeroRoot realHashes job.treeConfig) ≠ 0 := by
  decide +kernel

/-- Nor are the hash chains. -/
theorem transferChain_ne : ∀ i ≤ 3, 0 < i → transferChain realHashes (transfers.take i) ≠ 0 := by
  decide +kernel

/-- Nor are the roots of the history itself. -/
theorem transferRoot_ne (i : ℕ) (hi : i ≤ 3) : transferRoot realHashes (transfers.take i) ≠ 0 := by
  rcases Nat.lt_or_ge 1 i with hlt | hle
  · obtain ⟨root, hroot, heq⟩ := (storedState i hi).root
    have hne := rootAt_ne i (by interval_cases i <;> decide)
    rw [hroot] at hne
    have hstate : (stateAt realHashes transfers i).root ≠ 0 := by
      rw [heq]
      exact hne
    exact hstate
  · have hsame : transfers.take i = [deposit].take i := by interval_cases i <;> rfl
    rw [hsame]
    exact RootJobExample.transferRoot_ne i hle

/-- The token was reached by its own functions, so its hash chain is that of its history. -/
theorem token_historyInv : token.HistoryInv realHashes :=
  Chain.step_historyInv realHashes depositDeciders
    (Chain.step_historyInv realHashes depositDeciders (c := RootJobExample.chain)
      RootJobExample.honest.history (.depositNative 8 2)) (.depositNative 9 1)

/-- The other parties: transfers are logged and the tree grows. -/
theorem moves (s : RootWorld realHashes) (hevents : s.token.events = [deposit])
    (hindex : s.treeIndex = 1) (t : Token) (ht : t.events = transfers)
    (hhistory : t.HistoryInv realHashes) (db : TreeDb)
    (hdb : Represents realHashes job.treeConfig db ((transfers.take 2).map entryOf)) :
    Others realHashes deciders job.treeConfig s { s with token := t, tree := db, rows := rows } := by
  -- the token first, then the indexer's tree, then its rows
  have htoken : Other realHashes deciders job.treeConfig s { s with token := t } := by
    refine .token s t ?_ (fun _ => hhistory) ?_ ?_ ?_
    · rw [hevents, ht]
      exact ⟨_, rfl⟩
    · rw [ht]
      decide
    · intro i hpos hi
      rw [ht] at hi ⊢
      exact transferChain_ne i hi hpos
    · intro i hi
      rw [ht] at hi ⊢
      exact transferRoot_ne i hi
  have htree : Other realHashes deciders job.treeConfig { s with token := t }
      { s with token := t, tree := db } := by
    refine .ingest { s with token := t } db 2 ?_ ?_ ?_
    · rw [ht]
      decide
    · show s.treeIndex ≤ 2
      rw [hindex]
      decide
    · rw [ht]
      exact hdb
  have hrows : Other realHashes deciders job.treeConfig { s with token := t, tree := db }
      { s with token := t, tree := db, rows := rows } := by
    refine .rows { s with token := t, tree := db } rows fun row hrow => ?_
    rw [ht]
    simp only [rows, List.mem_cons, List.not_mem_nil, or_false] at hrow
    rcases hrow with rfl | rfl
    · exact ⟨deposit, rfl, rfl⟩
    · exact ⟨⟨0, 8, 2⟩, rfl, rfl⟩
  exact .tail (.tail (.single htoken) htree) hrows

/-- The compiled world is reached by passes of the job. -/
theorem reachable : Reachable deciders produceDeciderProof job compiled := by
  have hstart : Reachable deciders produceDeciderProof job RootJobExample.world :=
    .start _ RootJobExample.honest rfl (fun _ => rfl) rfl rfl
  have hreserved : Reachable deciders produceDeciderProof job reserved :=
    .pass hstart true true (Env.killedAt _ 18) fun _ _ => .refl
  have heq := passes_eq.1
  rw [Prod.mk.injEq] at heq
  exact .pass (.others hreserved (moves reserved heq.1 heq.2 token events_eq token_historyInv
    (tree 2) (represents 2))) true false (Env.still _) fun _ _ => .refl

/-- The job knows the state that the row has. -/
theorem knows : Knows deciders produceDeciderProof job state compiled := by
  have heq := passes_eq.2.1
  rw [Prod.mk.injEq, Prod.mk.injEq] at heq
  have hinv := reachable.inv RootJobExample.complete rfl
  exact ⟨hinv, heq.1, hinv.records state heq.1 (Or.inl heq.2.1.symm)⟩

/-- The record of the compiled proof is there, with the hash chain of the deposit. -/
theorem record : ∃ record, compiled.ivcProofs 1 = some record
    ∧ record.stateHashChain.val = RootJobExample.chain.token.hashChain := by
  have heq := passes_eq.2.1
  rw [Prod.mk.injEq, Prod.mk.injEq] at heq
  exact Option.map_eq_some_iff.mp heq.2.2

end ReservationExample

/-- Nothing was proved in between, so the pending reservation is used. -/
theorem pendingReservation_used_iff_passed :
    (∃ x, ((RootJob.submitIfReady RootJobExample.deciders RootJobExample.produceDeciderProof
        RootJobExample.job ReservationExample.state 3) (Env.still _) 0
        ReservationExample.compiled).2.2.submissions
          = ReservationExample.compiled.submissions ++ [x] ∧ x.Uses RootJobExample.deciders 1)
      ↔ (1 = ReservationExample.state.lastCompiledIndex
          ∨ uint64 ((Env.still (RootWorld realHashes)).move (0 + 1)
            ((Env.still _).move 0 ReservationExample.compiled)).token.index
            = ReservationExample.state.lastCompiledIndex)
        ∧ ¬ TreeFull ReservationExample.state :=
  pendingReservation_used_iff realHashes RootJobExample.deciders
    RootJobExample.produceDeciderProof RootJobExample.complete RootJobExample.job rfl (by decide)
    ReservationExample.compiled ReservationExample.state ReservationExample.knows 3 1
    RootJobExample.chain.token.hashChain rfl rfl (by decide) (by decide) (by decide)
    ReservationExample.record (Env.still _) ⟨fun _ _ => .refl, Or.inr fun _ => rfl⟩ 0

/-- The job has a reservation at 1, which is proved up to 2, and the token is at 3: the pass replaces
the reservation by one at 3, and submits nothing. -/
theorem reservation_discarded :
    Reachable RootJobExample.deciders RootJobExample.produceDeciderProof RootJobExample.job
        ReservationExample.compiled
      ∧ ReservationExample.compiled.proverState = some ReservationExample.state
      ∧ ReservationExample.state.pendingReservedIndex = some 1
      ∧ ReservationExample.state.baseIndex < 1 ∧ 1 ≤ ReservationExample.state.lastCompiledIndex
      ∧ ReservationExample.state.lastCompiledIndex ≤ 3
      ∧ (∃ record, ReservationExample.compiled.ivcProofs 1 = some record
        ∧ some record.stateHashChain.val = ReservationExample.state.pendingReservedHashChain)
      ∧ ReservationExample.after.submissions = ReservationExample.compiled.submissions
      ∧ ReservationExample.after.proverState.bind RootProverState.pendingReservedIndex
        = some 3 := by
  have hafter := ReservationExample.passes_eq.2.2
  rw [Prod.mk.injEq, Prod.mk.injEq] at hafter
  have hsame : ReservationExample.after.submissions
      = ReservationExample.compiled.submissions := by
    rw [List.length_eq_zero_iff.mp hafter.1, List.length_eq_zero_iff.mp hafter.2.1]
  obtain ⟨record, hrecord, hchain⟩ := ReservationExample.record
  exact ⟨ReservationExample.reachable, ReservationExample.knows.row, rfl, by decide, by decide,
    by decide, ⟨record, hrecord, congrArg some hchain⟩, hsame, hafter.2.2⟩

end Indexer

end Zerc20
