import Zerc20.Indexer.RootJob
import Mathlib.Logic.Relation

/-!
# The root prover job survives crashes

The tables of the job are written by statements that no transaction holds together, and the proved
index of the Verifier moves while it works. `Inv` holds at every statement of a pass, so that a pass
may be killed anywhere; each statement has a specification that keeps it.

What carries the argument is `Compiled`: between the base and the last compiled index, all records
start at the base. It may fail for a row whose records were deleted before the row was rewritten, and
then the proved index has left that base behind for good (`Inv.records`).
-/

namespace Zerc20

namespace Indexer

open Machine HashTree Zkp Statements Prog

variable {h : Hashes} {d : DeciderSets}

/-! ## The others -/

/-- The index of the tree. -/
def RootWorld.treeIndex (s : RootWorld h) : ℕ :=
  (s.tree.latestSnapshot.map SnapshotRow.treeIndex).getD 0

/-- What others do: calls of the token, none of which makes a hash zero or an index too large,
reservations, proofs of roots of the history, other calls of the Verifier that do not pause it, and
the work of the indexer. -/
inductive Other (h : Hashes) (d : DeciderSets) (cfg : TreeConfig) : RootWorld h → RootWorld h → Prop
  | token (s : RootWorld h) (token : Token) (hevents : s.token.events <+: token.events)
      (hhistory : s.token.HistoryInv h → token.HistoryInv h)
      (hlength : token.events.length < 2 ^ 64)
      (hchain : ∀ i, 0 < i → i ≤ token.events.length → transferChain h (token.events.take i) ≠ 0)
      (hroot : ∀ i ≤ token.events.length, transferRoot h (token.events.take i) ≠ 0) :
      Other h d cfg s { s with token := token }
  | reserve (s : RootWorld h) :
      Other h d cfg s { s with verifier := s.verifier.reserveHashChain s.token }
  | prove (s : RootWorld h) (p : RootProof) (v : Verifier)
      (hok : s.verifier.proveTransferRoot (d s.verifier.verifiers) p = .ok v)
      (hindex : uint64 (p 4) ≤ 2 ^ transferTreeHeight)
      (hroot : (p 6).val = (transferRoot h (s.token.events.take (uint64 (p 4)))).val) :
      Other h d cfg s { s with verifier := v }
  | verifier (s : RootWorld h) (v : Verifier)
      (hreserved : v.reservedHashChains = s.verifier.reservedHashChains)
      (hproved : v.provedTransferRoots = s.verifier.provedTransferRoots)
      (hlatest : v.latestProvedIndex = s.verifier.latestProvedIndex)
      (hcalm : ∀ i r₁ r₂, .emergencyTriggered i r₁ r₂ ∈ v.log →
        .emergencyTriggered i r₁ r₂ ∈ s.verifier.log)
      (hpaused : v.paused = s.verifier.paused) : Other h d cfg s { s with verifier := v }
  | rows (s : RootWorld h) (rows : List EventRow)
      (hrows : ∀ row ∈ rows, ∃ t, s.token.events[row.eventIndex]? = some t
        ∧ row.entry = entryOf t) : Other h d cfg s { s with rows := rows }
  | ingest (s : RootWorld h) (db : TreeDb) (n : ℕ) (hn : n ≤ s.token.events.length)
      (hgrows : s.treeIndex ≤ n)
      (hdb : Represents h cfg db ((s.token.events.take n).map entryOf)) :
      Other h d cfg s { s with tree := db }

/-- Whatever the others do between two statements. -/
def Others (h : Hashes) (d : DeciderSets) (cfg : TreeConfig) : RootWorld h → RootWorld h → Prop :=
  Relation.ReflTransGen (Other h d cfg)

/-- The chain and the tables of the indexer agree with the history. -/
structure Honest (cfg : TreeConfig) (s : RootWorld h) : Prop where
  history : s.token.HistoryInv h
  length : s.token.events.length < 2 ^ 64
  chain_ne : ∀ i, 0 < i → i ≤ s.token.events.length → transferChain h (s.token.events.take i) ≠ 0
  root_ne : ∀ i ≤ s.token.events.length, transferRoot h (s.token.events.take i) ≠ 0
  roots : s.verifier.RootsInv h s.token.events
  genesis : s.verifier.provedTransferRoots 0 ≠ 0
  latest : s.verifier.provedTransferRoots s.verifier.latestProvedIndex ≠ 0
  unpaused : s.verifier.paused = false
  tree : ∃ n ≤ s.token.events.length, Represents h cfg s.tree ((s.token.events.take n).map entryOf)
  rows : ∀ row ∈ s.rows, ∃ t, s.token.events[row.eventIndex]? = some t ∧ row.entry = entryOf t

/-- What is not undone. -/
structure Later (s s' : RootWorld h) : Prop where
  events : s.token.events <+: s'.token.events
  reserved : ∀ i, s.verifier.reservedHashChains i ≠ 0 →
    s'.verifier.reservedHashChains i = s.verifier.reservedHashChains i
  proved : ∀ i, s.verifier.provedTransferRoots i ≠ 0 → s'.verifier.provedTransferRoots i ≠ 0
  latest : s.verifier.latestProvedIndex ≤ s'.verifier.latestProvedIndex
  treeIndex : s.treeIndex ≤ s'.treeIndex

/-- The tables of the job, and what it did. -/
structure SameJob (s s' : RootWorld h) : Prop where
  proverState : s'.proverState = s.proverState
  ivcProofs : s'.ivcProofs = s.ivcProofs
  compiled : s'.compiled = s.compiled
  submissions : s'.submissions = s.submissions

/-- Nothing has to happen for a world to be later. -/
theorem Later.refl (s : RootWorld h) : Later s s :=
  ⟨List.prefix_refl _, fun _ _ => rfl, fun _ hi => hi, le_rfl, le_rfl⟩

theorem Later.trans {s s' s'' : RootWorld h} (hs : Later s s') (hs' : Later s' s'') :
    Later s s'' where
  events := hs.events.trans hs'.events
  reserved i hi := by
    have hsame := hs.reserved i hi
    rw [← hsame] at hi
    rw [hs'.reserved i hi, hsame]
  proved i hi := hs'.proved i (hs.proved i hi)
  latest := hs.latest.trans hs'.latest
  treeIndex := hs.treeIndex.trans hs'.treeIndex

/-- What the job alone writes stays through two moves of the others. -/
theorem SameJob.trans {s s' s'' : RootWorld h} (hs : SameJob s s') (hs' : SameJob s' s'') :
    SameJob s s'' :=
  ⟨hs'.proverState.trans hs.proverState, hs'.ivcProofs.trans hs.ivcProofs,
    hs'.compiled.trans hs.compiled, hs'.submissions.trans hs.submissions⟩

section

variable {cfg : TreeConfig} {s s' : RootWorld h}

/-- The transfers at an index do not change. -/
theorem prefix_take_eq {ts us : List Transfer} (hpre : ts <+: us) {i : ℕ} (hi : i ≤ ts.length) :
    us.take i = ts.take i := by
  obtain ⟨rest, rfl⟩ := hpre
  exact List.take_append_of_le_length hi

/-- An event keeps its place when more are logged. -/
theorem prefix_getElem?_eq {ts us : List Transfer} (hpre : ts <+: us) {i : ℕ} {t : Transfer}
    (hget : ts[i]? = some t) : us[i]? = some t := by
  obtain ⟨rest, rfl⟩ := hpre
  rw [List.getElem?_append_left (List.getElem?_eq_some_iff.mp hget).1]
  exact hget

/-- The counter of the contract is the number of its events. -/
theorem Honest.index_eq (hs : Honest cfg s) : s.token.index = s.token.events.length :=
  hs.history.index_eq

/-- The tree of the indexer holds a prefix of the contract's events, and its tables represent it. -/
theorem Honest.treeIndex_eq (hs : Honest cfg s) :
    s.treeIndex ≤ s.token.events.length
      ∧ Represents h cfg s.tree ((s.token.events.take s.treeIndex).map entryOf) := by
  obtain ⟨n, hn, hdb⟩ := hs.tree
  have hindex : s.treeIndex = n := by
    rw [RootWorld.treeIndex, hdb.latestIndex, List.length_map, List.length_take, min_eq_left hn]
  rw [hindex]
  exact ⟨hn, hdb⟩

/-- A reservation stores the hash chain of the whole history, again if it is there. -/
theorem Honest.reserve (hs : Honest cfg s) :
    Honest cfg { s with verifier := s.verifier.reserveHashChain s.token }
      ∧ Later s { s with verifier := s.verifier.reserveHashChain s.token } := by
  have hroots := Verifier.reserveHashChain_rootsInv hs.history hs.length hs.roots
  refine ⟨⟨hs.history, hs.length, hs.chain_ne, hs.root_ne, hroots, hs.genesis, hs.latest,
    hs.unpaused, hs.tree, hs.rows⟩, ⟨List.prefix_refl _, ?_, fun _ hi => hi, le_rfl, le_rfl⟩⟩
  intro i hi
  show Function.update s.verifier.reservedHashChains (uint64 s.token.index) s.token.hashChain i = _
  by_cases hindex : i = uint64 s.token.index
  · have hlength : uint64 s.token.index = s.token.events.length := by
      rw [uint64, hs.index_eq, Nat.mod_eq_of_lt hs.length]
    rw [hindex, Function.update_self, hs.history.hashChain_eq]
    rw [hindex, hlength] at hi
    rw [hlength, (hs.roots.reserved _ hi).2, List.take_length]
  · rw [Function.update_of_ne hindex]

/-- A proof of a root of the history stores that root. -/
theorem Honest.prove (hs : Honest cfg s) {p : RootProof} {v : Verifier}
    (hok : s.verifier.proveTransferRoot (d s.verifier.verifiers) p = .ok v)
    (hindex : uint64 (p 4) ≤ 2 ^ transferTreeHeight)
    (hroot : (p 6).val = (transferRoot h (s.token.events.take (uint64 (p 4)))).val) :
    Honest cfg { s with verifier := v } ∧ Later s { s with verifier := v }
      ∧ v.provedTransferRoots (uint64 (p 4)) ≠ 0 ∧ uint64 (p 4) ≤ v.latestProvedIndex := by
  have hagree : s.verifier.provedTransferRoots (uint64 (p 4)) ≠ 0 →
      s.verifier.provedTransferRoots (uint64 (p 4)) = (p 6).val := fun hne =>
    (hs.roots.proved _ hne).2.2.trans hroot.symm
  obtain ⟨hpaused, -, -, -, hreserved, -, hv⟩ := (Verifier.proveTransferRoot_ok_iff hagree).mp hok
  have hle := (hs.roots.reserved _ hreserved).1
  have hroots : v.RootsInv h s.token.events :=
    Verifier.proveTransferRoot_rootsInv hs.roots hok fun _ _ _ _ => ⟨hle, hindex, hroot⟩
  have hnew : (p 6).val ≠ 0 := by
    rw [hroot, Ne, ZMod.val_eq_zero]
    exact hs.root_ne _ hle
  have htable : ∀ i, v.provedTransferRoots i
      = Function.update s.verifier.provedTransferRoots (uint64 (p 4)) (p 6).val i := by
    intro i
    rw [← hv]
    rfl
  have hlatest : v.latestProvedIndex = max s.verifier.latestProvedIndex (uint64 (p 4)) := by
    rw [← hv]
    rfl
  -- what was stored stays
  have hstays : ∀ i, s.verifier.provedTransferRoots i ≠ 0 → v.provedTransferRoots i ≠ 0 := by
    intro i hi
    rw [htable]
    by_cases heq : i = uint64 (p 4)
    · rw [heq, Function.update_self]
      exact hnew
    · rw [Function.update_of_ne heq]
      exact hi
  have hstored : v.provedTransferRoots (uint64 (p 4)) ≠ 0 := by
    rw [htable, Function.update_self]
    exact hnew
  refine ⟨⟨hs.history, hs.length, hs.chain_ne, hs.root_ne, hroots, hstays 0 hs.genesis, ?_, ?_,
    hs.tree, hs.rows⟩, ⟨List.prefix_refl _, ?_, hstays, ?_, le_rfl⟩, hstored, ?_⟩
  · show v.provedTransferRoots v.latestProvedIndex ≠ 0
    rw [hlatest]
    rcases max_choice s.verifier.latestProvedIndex (uint64 (p 4)) with heq | heq
    · rw [heq]
      exact hstays _ hs.latest
    · rw [heq]
      exact hstored
  · show v.paused = false
    rw [← hv]
    exact hpaused
  · intro i _
    show v.reservedHashChains i = s.verifier.reservedHashChains i
    rw [← hv]
    rfl
  · show s.verifier.latestProvedIndex ≤ v.latestProvedIndex
    rw [hlatest]
    exact le_max_left _ _
  · rw [hlatest]
    exact le_max_right _ _

/-- A call of the token extends the history. -/
theorem Honest.token (hs : Honest cfg s) {token : Token}
    (hpre : s.token.events <+: token.events) (hhistory : token.HistoryInv h)
    (hlength : token.events.length < 2 ^ 64)
    (hchain : ∀ i, 0 < i → i ≤ token.events.length → transferChain h (token.events.take i) ≠ 0)
    (hroot : ∀ i ≤ token.events.length, transferRoot h (token.events.take i) ≠ 0) :
    Honest cfg { s with token := token } ∧ Later s { s with token := token } := by
  obtain ⟨n, hn, hdb⟩ := hs.tree
  refine ⟨⟨hhistory, hlength, hchain, hroot, hs.roots.extend hpre, hs.genesis, hs.latest,
    hs.unpaused, ⟨n, hn.trans hpre.length_le, ?_⟩, ?_⟩,
    ⟨hpre, fun _ _ => rfl, fun _ hi => hi, le_rfl, le_rfl⟩⟩
  · show Represents h cfg s.tree ((token.events.take n).map entryOf)
    rw [prefix_take_eq hpre hn]
    exact hdb
  · intro row hrow
    obtain ⟨t, hget, hentry⟩ := hs.rows row hrow
    exact ⟨t, prefix_getElem?_eq hpre hget, hentry⟩

/-- One step of the others keeps the world honest, only adds to it and leaves the job's own data
alone. -/
theorem Other.later (hs : Honest cfg s) (hother : Other h d cfg s s') :
    Honest cfg s' ∧ Later s s' ∧ SameJob s s' := by
  cases hother with
  | token token hevents hhistory hlength hchain hroot =>
    obtain ⟨hhonest, hlater⟩ := hs.token hevents (hhistory hs.history) hlength hchain hroot
    exact ⟨hhonest, hlater, ⟨rfl, rfl, rfl, rfl⟩⟩
  | reserve =>
    obtain ⟨hhonest, hlater⟩ := hs.reserve
    exact ⟨hhonest, hlater, ⟨rfl, rfl, rfl, rfl⟩⟩
  | prove p v hok hindex hroot =>
    obtain ⟨hhonest, hlater, -⟩ := hs.prove hok hindex hroot
    exact ⟨hhonest, hlater, ⟨rfl, rfl, rfl, rfl⟩⟩
  -- what else the verifier does keeps its two tables
  | verifier v hreserved hproved hlatest hcalm hpaused =>
    have hroots := hs.roots.of_tables hreserved hproved hcalm
    refine ⟨⟨hs.history, hs.length, hs.chain_ne, hs.root_ne, hroots, ?_, ?_, ?_, hs.tree,
      hs.rows⟩, ⟨List.prefix_refl _, ?_, ?_, hlatest.ge, le_rfl⟩, ⟨rfl, rfl, rfl, rfl⟩⟩
    · show v.provedTransferRoots 0 ≠ 0
      rw [hproved]
      exact hs.genesis
    · show v.provedTransferRoots v.latestProvedIndex ≠ 0
      rw [hproved, hlatest]
      exact hs.latest
    · exact hpaused.trans hs.unpaused
    · exact fun i _ => congrFun hreserved i
    · intro i hi
      show v.provedTransferRoots i ≠ 0
      rw [hproved]
      exact hi
  | rows rows hrows =>
    exact ⟨⟨hs.history, hs.length, hs.chain_ne, hs.root_ne, hs.roots, hs.genesis, hs.latest,
      hs.unpaused, hs.tree, hrows⟩,
      ⟨List.prefix_refl _, fun _ _ => rfl, fun _ hi => hi, le_rfl, le_rfl⟩, ⟨rfl, rfl, rfl, rfl⟩⟩
  -- the tree may be behind the chain, but it does not shrink
  | ingest db n hn hgrows hdb =>
    have hhonest : Honest cfg { s with tree := db } := ⟨hs.history, hs.length, hs.chain_ne,
      hs.root_ne, hs.roots, hs.genesis, hs.latest, hs.unpaused, ⟨n, hn, hdb⟩, hs.rows⟩
    have hindex : ({ s with tree := db } : RootWorld h).treeIndex = n := by
      rw [RootWorld.treeIndex, hdb.latestIndex, List.length_map, List.length_take, min_eq_left hn]
    exact ⟨hhonest, ⟨List.prefix_refl _, fun _ _ => rfl, fun _ hi => hi, le_rfl,
      hgrows.trans hindex.ge⟩, ⟨rfl, rfl, rfl, rfl⟩⟩

theorem Others.later (hs : Honest cfg s) (hothers : Others h d cfg s s') :
    Honest cfg s' ∧ Later s s' ∧ SameJob s s' := by
  induction hothers with
  | refl => exact ⟨hs, Later.refl s, ⟨rfl, rfl, rfl, rfl⟩⟩
  | tail _ hstep ih =>
    obtain ⟨hmid, hlater, hsame⟩ := ih
    obtain ⟨hend, hlater', hsame'⟩ := Other.later hmid hstep
    exact ⟨hend, hlater.trans hlater', hsame.trans hsame'⟩

end

/-! ## The invariant -/

/-- The proof folds the transfers from `base` to `i`. -/
structure Ivc.Folds (ts : List Transfer) (base i : ℕ) (ivc : Ivc h) : Prop where
  le : base ≤ i
  bound : i ≤ ts.length
  z0 : ivc.z0 = stateAt h ts base
  zi : ivc.zi = stateAt h ts i
  steps : ivc.steps.length = i - base

structure IvcRecord.Folds (ts : List Transfer) (base i : ℕ) (record : IvcRecord h) : Prop where
  ivc : record.ivcProof.Folds ts base i
  hashChain : record.stateHashChain = record.ivcProof.zi.hashChain

/-- Every index after the base, up to `last`, has a record of a proof from the base. -/
def Compiled (s : RootWorld h) (base last : ℕ) : Prop :=
  ∀ i, base < i → i ≤ last →
    ∃ record, s.ivcProofs i = some record ∧ record.Folds s.token.events base i

/-- A call that the Verifier accepts: the proof has two steps or more, from a proved root of the
base to a reserved hash chain. -/
structure Submission.Good (d : DeciderSets) (produceDeciderProof : Ivc h → RootProof)
    (ts : List Transfer) (x : Submission h) : Prop where
  proof : x.proof = produceDeciderProof x.ivc
  steps : 2 ≤ x.ivc.steps.length
  start : x.ivc.z0 = stateAt h ts x.base
  proved : x.verifier.provedTransferRoots x.base = (transferRoot h (ts.take x.base)).val
    ∧ x.verifier.provedTransferRoots x.base ≠ 0
  reserved : ∃ i ≤ ts.length, x.ivc.zi = stateAt h ts i ∧ x.base < i
    ∧ x.verifier.reservedHashChains i = transferChain h (ts.take i)
    ∧ x.verifier.reservedHashChains i ≠ 0
  accepted : ∃ v, x.verifier.proveTransferRoot (d x.verifier.verifiers) x.proof = .ok v
    ∧ v.paused = false

/-- What holds of the row of the job. -/
structure RowOk (job : RootProverJob) (s : RootWorld h) (state : RootProverState) : Prop where
  submitted : state.baseIndex = state.lastSubmittedIndex
  compiled : state.baseIndex ≤ state.lastCompiledIndex
  bound : state.lastCompiledIndex ≤ s.token.events.length
  proved : s.verifier.provedTransferRoots state.baseIndex ≠ 0
  latest : state.baseIndex ≤ s.verifier.latestProvedIndex
  disabled : job.submitEnabled = false → state.baseIndex = 0
  pending : ∀ i hashChain, state.pendingReservedIndex = some i →
    state.pendingReservedHashChain = some hashChain → hashChain ≠ 0 →
    s.verifier.reservedHashChains i = hashChain

section

variable (d : DeciderSets) (produceDeciderProof : Ivc h → RootProof) (job : RootProverJob)

structure Inv (s : RootWorld h) : Prop where
  honest : Honest job.treeConfig s
  row : ∀ state, s.proverState = some state → RowOk job s state
  records : ∀ state, s.proverState = some state →
    state.baseIndex = s.verifier.latestProvedIndex ∨ job.submitEnabled = false →
    Compiled s state.baseIndex state.lastCompiledIndex
  compiled : ∀ x ∈ s.compiled, ∃ i, x.2.Folds s.token.events x.1 i
  submissions : ∀ x ∈ s.submissions, x.Good d produceDeciderProof s.token.events

/-- A pass that knows the row, with all records that the row promises. -/
structure Knows (state : RootProverState) (s : RootWorld h) : Prop where
  inv : Inv d produceDeciderProof job s
  row : s.proverState = some state
  records : Compiled s state.baseIndex state.lastCompiledIndex

end

section

variable {produceDeciderProof : Ivc h → RootProof} {job : RootProverJob} {s s' : RootWorld h}
  {state : RootProverState} {ts us : List Transfer} {base i : ℕ}

/-- The state vector at `i` depends on the first `i` transfers only. -/
theorem prefix_stateAt_eq (hpre : ts <+: us) (hi : i ≤ ts.length) :
    stateAt h us i = stateAt h ts i := by
  rw [stateAt, stateAt, prefix_take_eq hpre hi]

/-- A proof that folds the transfers up to `i` still does so when more are logged. -/
theorem Ivc.Folds.extend {ivc : Ivc h} (hivc : ivc.Folds ts base i) (hpre : ts <+: us) :
    ivc.Folds us base i where
  le := hivc.le
  bound := hivc.bound.trans hpre.length_le
  z0 := hivc.z0.trans (prefix_stateAt_eq hpre (hivc.le.trans hivc.bound)).symm
  zi := hivc.zi.trans (prefix_stateAt_eq hpre hivc.bound).symm
  steps := hivc.steps

theorem Compiled.later {last : ℕ} (hcompiled : Compiled s base last)
    (hpre : s.token.events <+: s'.token.events) (hproofs : s'.ivcProofs = s.ivcProofs) :
    Compiled s' base last := by
  intro i hlo hhi
  obtain ⟨record, hrecord, hfolds⟩ := hcompiled i hlo hhi
  exact ⟨record, by rw [hproofs]; exact hrecord, hfolds.ivc.extend hpre, hfolds.hashChain⟩

/-- There is nothing to compile up to the base. -/
theorem Compiled.of_le {last : ℕ} (hle : last ≤ base) : Compiled s base last := by
  intro i hlo hhi
  omega

/-- A submission about a prefix of the events is about a prefix of the longer list. -/
theorem Submission.Good.extend {x : Submission h} (hx : x.Good d produceDeciderProof ts)
    (hpre : ts <+: us) : x.Good d produceDeciderProof us := by
  obtain ⟨i, hi, hzi, hlt, hreserved, hne⟩ := hx.reserved
  have hbase : x.base ≤ ts.length := hlt.le.trans hi
  refine ⟨hx.proof, hx.steps, ?_, ?_, ⟨i, hi.trans hpre.length_le, ?_, hlt, ?_, hne⟩, hx.accepted⟩
  · rw [prefix_stateAt_eq hpre hbase]
    exact hx.start
  · rw [prefix_take_eq hpre hbase]
    exact hx.proved
  · rw [prefix_stateAt_eq hpre hi]
    exact hzi
  · rw [prefix_take_eq hpre hi]
    exact hreserved

/-- The row stays true of later worlds: it speaks of indices that only fall behind. -/
theorem RowOk.later (hrow : RowOk job s state) (hlater : Later s s') : RowOk job s' state where
  submitted := hrow.submitted
  compiled := hrow.compiled
  bound := hrow.bound.trans hlater.events.length_le
  proved := hlater.proved _ hrow.proved
  latest := hrow.latest.trans hlater.latest
  disabled := hrow.disabled
  pending i hashChain hindex hchain hne := by
    have hreserved := hrow.pending i hashChain hindex hchain hne
    rw [hlater.reserved i (by rw [hreserved]; exact hne), hreserved]

/-- The rest of the world moves on, and the tables of the job do not change. -/
theorem Inv.later (hs : Inv d produceDeciderProof job s) (hhonest : Honest job.treeConfig s')
    (hlater : Later s s') (hsame : SameJob s s') : Inv d produceDeciderProof job s' where
  honest := hhonest
  row state hstate := by
    rw [hsame.proverState] at hstate
    exact (hs.row state hstate).later hlater
  records state hstate hcase := by
    rw [hsame.proverState] at hstate
    refine (hs.records state hstate ?_).later hlater.events hsame.ivcProofs
    -- a base that is the latest index now was so before
    refine hcase.imp_left fun heq => ?_
    have hle := (hs.row state hstate).latest
    have hle' := hlater.latest
    omega
  compiled x hx := by
    rw [hsame.compiled] at hx
    obtain ⟨i, hfolds⟩ := hs.compiled x hx
    exact ⟨i, hfolds.extend hlater.events⟩
  submissions x hx := by
    rw [hsame.submissions] at hx
    exact (hs.submissions x hx).extend hlater.events

theorem Inv.move (hs : Inv d produceDeciderProof job s)
    (hothers : Others h d job.treeConfig s s') : Inv d produceDeciderProof job s' := by
  obtain ⟨hhonest, hlater, hsame⟩ := Others.later hs.honest hothers
  exact hs.later hhonest hlater hsame

/-- What the job has read stays true of later worlds. -/
theorem Knows.later (hs : Knows d produceDeciderProof job state s)
    (hhonest : Honest job.treeConfig s') (hlater : Later s s') (hsame : SameJob s s') :
    Knows d produceDeciderProof job state s' where
  inv := hs.inv.later hhonest hlater hsame
  row := hsame.proverState.trans hs.row
  records := hs.records.later hlater.events hsame.ivcProofs

theorem Knows.move (hs : Knows d produceDeciderProof job state s)
    (hothers : Others h d job.treeConfig s s') : Knows d produceDeciderProof job state s' := by
  obtain ⟨hhonest, hlater, hsame⟩ := Others.later hs.inv.honest hothers
  exact hs.later hhonest hlater hsame

/-! ## The tables -/

/-- Only the tables of the job change. -/
theorem Honest.tables (hs : Honest job.treeConfig s) (row : Option RootProverState)
    (proofs : ℕ → Option (IvcRecord h)) (compiled : List (ℕ × Ivc h)) :
    Honest job.treeConfig
      { s with proverState := row, ivcProofs := proofs, compiled := compiled } :=
  ⟨hs.history, hs.length, hs.chain_ne, hs.root_ne, hs.roots, hs.genesis, hs.latest, hs.unpaused,
    hs.tree, hs.rows⟩

/-- The job's own tables are no part of what makes a world later. -/
theorem Later.tables (s : RootWorld h) (row : Option RootProverState)
    (proofs : ℕ → Option (IvcRecord h)) (compiled : List (ℕ × Ivc h)) :
    Later s { s with proverState := row, ivcProofs := proofs, compiled := compiled } :=
  ⟨List.prefix_refl _, fun _ _ => rfl, fun _ hi => hi, le_rfl, le_rfl⟩

/-- A row that is true may be written at any time. -/
theorem Inv.setRow (hs : Inv d produceDeciderProof job s) {row : RootProverState}
    (hrow : RowOk job s row)
    (hrecords : row.baseIndex = s.verifier.latestProvedIndex ∨ job.submitEnabled = false →
      Compiled s row.baseIndex row.lastCompiledIndex) :
    Inv d produceDeciderProof job { s with proverState := some row } where
  honest := hs.honest.tables _ _ _
  row state hstate := by
    obtain rfl := Option.some.inj hstate
    exact hrow.later (Later.tables s _ _ _)
  records state hstate hcase := by
    obtain rfl := Option.some.inj hstate
    exact hrecords hcase
  compiled := hs.compiled
  submissions := hs.submissions

/-- After writing it the job knows the row that it wrote. -/
theorem Knows.setRow (hs : Knows d produceDeciderProof job state s) {row : RootProverState}
    (hrow : RowOk job s row) (hrecords : Compiled s row.baseIndex row.lastCompiledIndex) :
    Knows d produceDeciderProof job row { s with proverState := some row } :=
  ⟨hs.inv.setRow hrow fun _ => hrecords, rfl, hrecords⟩

/-- Records are deleted that no row needs. -/
theorem Inv.deleteProofs (hs : Inv d produceDeciderProof job s)
    (hfree : ∀ state, s.proverState = some state →
      state.baseIndex = s.verifier.latestProvedIndex ∨ job.submitEnabled = false →
      state.lastCompiledIndex ≤ state.baseIndex) :
    Inv d produceDeciderProof job { s with ivcProofs := fun _ => none } where
  honest := hs.honest.tables _ _ _
  row state hstate := (hs.row state hstate).later (Later.tables s _ _ _)
  records state hstate hcase := Compiled.of_le (hfree state hstate hcase)
  compiled := hs.compiled
  submissions := hs.submissions

end

/-! ## Specifications -/

section

variable (d : DeciderSets) (produceDeciderProof : Ivc h → RootProof) (job : RootProverJob)

/-- The program may be stopped anywhere, and leaves the invariant behind. -/
def JobSpec {α : Type} (P : RootWorld h → Prop) (p : RootProg h α)
    (Q : α → RootWorld h → Prop) : Prop :=
  Spec (Others h d job.treeConfig) True P p Q (Inv d produceDeciderProof job)

/-- An assertion that others do not break. -/
structure Stable (P : RootWorld h → Prop) : Prop where
  inv : ∀ s, P s → Inv d produceDeciderProof job s
  move : ∀ s s', P s → Others h d job.treeConfig s s' → P s'

end

section

variable {produceDeciderProof : Ivc h → RootProof} {job : RootProverJob} {α : Type}
  {P : RootWorld h → Prop}

/-- The invariant is stable under the others. -/
theorem Stable.ofInv : Stable d produceDeciderProof job (Inv d produceDeciderProof job) :=
  ⟨fun _ hs => hs, fun _ _ hs hmove => hs.move hmove⟩

theorem Stable.ofKnows (state : RootProverState) :
    Stable d produceDeciderProof job (Knows d produceDeciderProof job state) :=
  ⟨fun _ hs => hs.inv, fun _ _ hs hmove => hs.move hmove⟩

/-- A statement that reads returns what is there, and a stable condition holds on. -/
theorem read_spec (hP : Stable d produceDeciderProof job P) {e : RootProverError}
    {f : RootWorld h → α} :
    JobSpec d produceDeciderProof job P (read e f) fun a s => f s = a ∧ P s :=
  .read fun s s' hs hmove =>
    ⟨⟨rfl, hP.move s s' hs hmove⟩, fun _ => (hP.inv s' (hP.move s s' hs hmove))⟩

/-- A check of the process itself touches nothing. -/
theorem ofExcept_spec (hP : Stable d produceDeciderProof job P)
    {r : Except RootProverError α} :
    JobSpec d produceDeciderProof job P (ofExcept r) fun a s => r = .ok a ∧ P s :=
  .ofExcept (fun _ _ hr hs => ⟨hr, hs⟩) fun _ s _ hs => hP.inv s hs

theorem u64ToI64_spec (hP : Stable d produceDeciderProof job P) {label : String} {value : ℕ} :
    JobSpec d produceDeciderProof job P (RootJob.u64ToI64 label value) fun _ => P :=
  (ofExcept_spec hP).mono (fun _ hs => hs) (fun _ _ hs => hs.2) fun _ hs => hs

/-- A failure ends the pass in a world that keeps the invariant. -/
theorem fail_spec (hP : Stable d produceDeciderProof job P) {e : RootProverError}
    {Q : α → RootWorld h → Prop} : JobSpec d produceDeciderProof job P (fail e) Q :=
  .fail fun s hs => hP.inv s hs

/-- A statement that writes, crash or not: the write happens or it does not, and the invariant holds
in both cases. -/
theorem write_spec (hP : Stable d produceDeciderProof job P) {e : RootProverError}
    {f : RootWorld h → RootWorld h} {Q : RootWorld h → Prop}
    (hwrite : ∀ s, P s → Q (f s) ∧ Inv d produceDeciderProof job (f s)) :
    JobSpec d produceDeciderProof job P (write e f) fun _ => Q :=
  .write fun s s' hs hmove =>
    have hs' := hP.move s s' hs hmove
    ⟨(hwrite s' hs').1, fun _ => ⟨hP.inv s' hs', (hwrite s' hs').2⟩⟩

/-- `upsert_prover_state` replaces the job's row. -/
theorem upsertProverState_spec (hP : Stable d produceDeciderProof job P) {row : RootProverState}
    {Q : RootWorld h → Prop}
    (hwrite : ∀ s, P s → Q { s with proverState := some row }
      ∧ Inv d produceDeciderProof job { s with proverState := some row }) :
    JobSpec d produceDeciderProof job P (RootJob.upsertProverState row) fun _ => Q :=
  .bind (u64ToI64_spec hP) fun _ => .bind (u64ToI64_spec hP) fun _ => .bind (u64ToI64_spec hP)
    fun _ => .bind (u64ToI64_spec hP) fun _ => write_spec hP hwrite

/-- `delete_ivc_proofs` empties the table of the records. -/
theorem deleteIvcProofs_spec (hP : Stable d produceDeciderProof job P) {Q : RootWorld h → Prop}
    (hwrite : ∀ s, P s → Q { s with ivcProofs := fun _ => none }
      ∧ Inv d produceDeciderProof job { s with ivcProofs := fun _ => none }) :
    JobSpec d produceDeciderProof job P RootJob.deleteIvcProofs fun _ => Q :=
  write_spec hP hwrite

/-! ## Alignment -/

/-- `lp` was read as the latest proved index. -/
structure Aligning (d : DeciderSets) (produceDeciderProof : Ivc h → RootProof) (job : RootProverJob)
    (lp : ℕ) (s : RootWorld h) : Prop where
  inv : Inv d produceDeciderProof job s
  proved : s.verifier.provedTransferRoots lp ≠ 0
  latest : lp ≤ s.verifier.latestProvedIndex
  disabled : job.submitEnabled = false → lp = 0
  aligned : ∀ state, s.proverState = some state → state.baseIndex = lp →
    Compiled s state.baseIndex state.lastCompiledIndex
  behind : ∀ state, s.proverState = some state → state.baseIndex ≠ lp →
    state.baseIndex < s.verifier.latestProvedIndex ∧ job.submitEnabled = true

/-- The proved index that was read can only fall behind. -/
theorem Aligning.move {lp : ℕ} {s s' : RootWorld h}
    (hs : Aligning d produceDeciderProof job lp s) (hothers : Others h d job.treeConfig s s') :
    Aligning d produceDeciderProof job lp s' := by
  obtain ⟨hhonest, hlater, hsame⟩ := Others.later hs.inv.honest hothers
  refine ⟨hs.inv.later hhonest hlater hsame, hlater.proved _ hs.proved,
    hs.latest.trans hlater.latest, hs.disabled, ?_, ?_⟩
  · intro state hstate hbase
    rw [hsame.proverState] at hstate
    exact (hs.aligned state hstate hbase).later hlater.events hsame.ivcProofs
  · intro state hstate hbase
    rw [hsame.proverState] at hstate
    obtain ⟨hlt, henabled⟩ := hs.behind state hstate hbase
    exact ⟨hlt.trans_le hlater.latest, henabled⟩

/-- So aligning is stable under the others. -/
theorem Stable.ofAligning (lp : ℕ) :
    Stable d produceDeciderProof job (Aligning d produceDeciderProof job lp) :=
  ⟨fun _ hs => hs.inv, fun _ _ hs hmove => hs.move hmove⟩

/-- A proved index is the base of a fresh row. -/
theorem RowOk.fresh {lp : ℕ} {s : RootWorld h} (hs : Honest job.treeConfig s)
    (hproved : s.verifier.provedTransferRoots lp ≠ 0)
    (hlatest : lp ≤ s.verifier.latestProvedIndex) (hdisabled : job.submitEnabled = false → lp = 0) :
    RowOk job s (.fresh lp) :=
  ⟨rfl, le_rfl, (hs.roots.proved lp hproved).1, hproved, hlatest, hdisabled, nofun⟩

/-- After the alignment the row starts at the proved index that was read, and all that it calls
compiled has its records. -/
theorem ensureStateAlignment_spec (lp : ℕ) :
    JobSpec d produceDeciderProof job (Aligning d produceDeciderProof job lp)
      (RootJob.ensureStateAlignment lp)
      fun state s => state.baseIndex = lp ∧ Knows d produceDeciderProof job state s := by
  unfold RootJob.ensureStateAlignment
  -- the row is of another base, or there is none
  have hrealign : JobSpec d produceDeciderProof job
      (fun s => Aligning d produceDeciderProof job lp s
        ∧ ∀ state, s.proverState = some state → state.baseIndex ≠ lp)
      (do
        RootJob.deleteIvcProofs
        RootJob.upsertProverState (.fresh lp)
        return .fresh lp)
      fun state s => state.baseIndex = lp ∧ Knows d produceDeciderProof job state s := by
    have hstable : Stable d produceDeciderProof job
        (fun s => Aligning d produceDeciderProof job lp s
          ∧ ∀ state, s.proverState = some state → state.baseIndex ≠ lp) := by
      refine ⟨fun s hs => hs.1.inv, fun s s' hs hmove => ⟨hs.1.move hmove, ?_⟩⟩
      rw [(Others.later hs.1.inv.honest hmove).2.2.proverState]
      exact hs.2
    have hdeleted : ∀ s, Aligning d produceDeciderProof job lp s
        ∧ (∀ state, s.proverState = some state → state.baseIndex ≠ lp) →
        Inv d produceDeciderProof job { s with ivcProofs := fun _ => none } := by
      intro s hs
      refine hs.1.inv.deleteProofs fun state hstate hcase => ?_
      obtain ⟨hlt, henabled⟩ := hs.1.behind state hstate (hs.2 state hstate)
      rcases hcase with heq | hdisabled
      · omega
      · rw [henabled] at hdisabled
        cases hdisabled
    refine .bind (deleteIvcProofs_spec hstable (Q := Aligning d produceDeciderProof job lp) ?_)
      fun _ => .bind (upsertProverState_spec (Stable.ofAligning lp)
        (Q := Knows d produceDeciderProof job (.fresh lp)) ?_) fun _ =>
      .pure fun s hs => ⟨rfl, hs⟩
    · intro s hs
      refine ⟨⟨hdeleted s hs, hs.1.proved, hs.1.latest, hs.1.disabled, ?_, hs.1.behind⟩,
        hdeleted s hs⟩
      intro state hstate hbase
      exact absurd hbase (hs.2 state hstate)
    · intro s hs
      have hrow := RowOk.fresh hs.inv.honest hs.proved hs.latest hs.disabled
      have hrecords : Compiled s lp lp := Compiled.of_le le_rfl
      have hinv := hs.inv.setRow hrow fun _ => hrecords
      exact ⟨⟨hinv, rfl, hrecords⟩, hinv⟩
  refine .bind (read_spec (Stable.ofAligning lp)) fun existing => ?_
  cases existing with
  | none =>
    refine Spec.mono hrealign (fun s hs => ⟨hs.2, ?_⟩) (fun _ _ hs => hs) fun _ hs => hs
    intro state hstate
    have hnone : s.proverState = none := hs.1
    rw [hnone] at hstate
    cases hstate
  | some state =>
    show JobSpec d produceDeciderProof job _ (if state.baseIndex = lp then _ else _) _
    split
    · rename_i hbase
      refine .pure fun s hs => ⟨hbase, hs.2.inv, hs.1, hs.2.aligned state hs.1 hbase⟩
    · rename_i hbase
      refine Spec.mono hrealign (fun s hs => ⟨hs.2, ?_⟩) (fun _ _ hs => hs) fun _ hs => hs
      intro state' hstate'
      have hsome : s.proverState = some state := hs.1
      rw [hsome] at hstate'
      obtain rfl := Option.some.inj hstate'
      exact hbase

/-! ## Compiling -/

/-- A step that is folded was satisfied by the circuit, and is one more in the proof. -/
theorem Ivc.proveStep_eq_some {nova nova' : Ivc h} {e : RootExternalInputs}
    (hstep : nova.proveStep e = some nova') :
    nova'.z0 = nova.z0 ∧ nova'.steps = nova.steps ++ [e]
      ∧ rootTransitionStep h transferTreeHeight nova.zi e = some nova'.zi := by
  unfold Ivc.proveStep at hstep
  split at hstep
  · rename_i z hz
    cases hstep
    exact ⟨rfl, rfl, hz⟩
  · cases hstep

/-- The proof that a faithful tree gives for an event leads to the inputs of its transfer. -/
theorem Honest.inputs_eq {cfg : TreeConfig} {s : RootWorld h} (hs : Honest cfg s)
    (hheight : cfg.height = transferTreeHeight) {i : ℕ} {t : Transfer} {proof : HistoricalProof}
    (ht : s.token.events[i]? = some t) (hprove : Indexer.prove h cfg s.tree (i + 1) i = .ok proof) :
    i < 2 ^ transferTreeHeight ∧ ∀ inputs,
      toExternalInputs (entryOf t).address (entryOf t).value.val proof = .ok inputs →
      inputs = transferInputsAt h s.token.events i t := by
  obtain ⟨n, hn, hdb⟩ := hs.tree
  have hlength : ((s.token.events.take n).map entryOf).length = n := by
    rw [List.length_map, List.length_take, min_eq_left hn]
  -- the tree has checked that the index is in its window
  obtain ⟨proofs, hproofs⟩ : ∃ proofs, proveMany h cfg s.tree (i + 1) [i] = .ok proofs := by
    unfold Indexer.prove at hprove
    split at hprove
    · cases hprove
    · rename_i proofs hproofs
      exact ⟨proofs, hproofs⟩
  obtain ⟨-, hle, hwindow, -⟩ := proveMany_checked hdb.latestIndex (List.cons_ne_nil _ _) hproofs
  rw [hlength] at hle hwindow
  have hcapacity := hdb.capacity
  rw [hlength, hheight] at hcapacity
  have htake : (s.token.events.take n)[i]? = some t := by
    rw [List.getElem?_take_of_lt (by omega)]
    exact ht
  have hstep := stepInputs_eq hheight hdb htake (by rw [List.length_take, min_eq_left hn]; omega)
  rw [stepInputs, hprove] at hstep
  refine ⟨by omega, fun inputs hinputs => ?_⟩
  have heq := hinputs.symm.trans hstep
  rw [Except.ok.inj heq, transferInputsAt, transferInputsAt, List.take_take, min_eq_left hle]

/-- A pass that has compiled up to `cur` and has still to compile `events`. -/
structure Compiling (d : DeciderSets) (produceDeciderProof : Ivc h → RootProof) (job : RootProverJob)
    (state : RootProverState) (events : List EventRow) (nova : Ivc h) (cur : ℕ)
    (s : RootWorld h) : Prop where
  knows : Knows d produceDeciderProof job state s
  folds : nova.Folds s.token.events state.baseIndex cur
  le : state.lastCompiledIndex ≤ cur
  records : Compiled s state.baseIndex cur
  events : ∀ e ∈ events, ∃ t, s.token.events[e.eventIndex]? = some t ∧ e.entry = entryOf t

/-- The compilation goes on while the others move. -/
theorem Compiling.move {state : RootProverState} {events : List EventRow} {nova : Ivc h} {cur : ℕ}
    {s s' : RootWorld h} (hs : Compiling d produceDeciderProof job state events nova cur s)
    (hothers : Others h d job.treeConfig s s') :
    Compiling d produceDeciderProof job state events nova cur s' := by
  obtain ⟨-, hlater, hsame⟩ := Others.later hs.knows.inv.honest hothers
  refine ⟨hs.knows.move hothers, hs.folds.extend hlater.events, hs.le,
    hs.records.later hlater.events hsame.ivcProofs, fun e he => ?_⟩
  obtain ⟨t, hget, hentry⟩ := hs.events e he
  exact ⟨t, prefix_getElem?_eq hlater.events hget, hentry⟩

/-- One more event is folded. -/
theorem Ivc.Folds.proveStep {ts : List Transfer} {base i : ℕ} {t : Transfer} {nova nova' : Ivc h}
    (hnova : nova.Folds ts base i) (ht : ts[i]? = some t) (hi : i < 2 ^ transferTreeHeight)
    (hstep : nova.proveStep (transferInputsAt h ts i t) = some nova') :
    nova'.Folds ts base (i + 1) := by
  obtain ⟨hz0, hsteps, hzi⟩ := Ivc.proveStep_eq_some hstep
  rw [hnova.zi, rootTransitionStep_stateAt ht hi] at hzi
  have hle := hnova.le
  refine ⟨by omega, (List.getElem?_eq_some_iff.mp ht).1, hz0.trans hnova.z0,
    (Option.some.inj hzi).symm, ?_⟩
  rw [hsteps, List.length_append, hnova.steps, List.length_singleton]
  omega

/-- A record after the compiled ones is written. -/
theorem Compiling.upsert {state : RootProverState} {events : List EventRow} {nova : Ivc h}
    {cur : ℕ} {s : RootWorld h}
    (hs : Compiling d produceDeciderProof job state events nova cur s) (record : IvcRecord h)
    (hrecord : record.Folds s.token.events state.baseIndex (cur + 1)) :
    Compiling d produceDeciderProof job state events record.ivcProof (cur + 1)
      { s with
        ivcProofs := Function.update s.ivcProofs (cur + 1) (some record)
        compiled := s.compiled ++ [(state.baseIndex, record.ivcProof)] } := by
  have hle := hs.le
  -- the records below the new one stay
  have hrecords : ∀ last ≤ cur, Compiled s state.baseIndex last →
      Compiled { s with
        ivcProofs := Function.update s.ivcProofs (cur + 1) (some record)
        compiled := s.compiled ++ [(state.baseIndex, record.ivcProof)] } state.baseIndex last := by
    intro last hlast hcompiled i hlo hhi
    obtain ⟨old, hold, hfolds⟩ := hcompiled i hlo hhi
    refine ⟨old, ?_, hfolds⟩
    show Function.update s.ivcProofs (cur + 1) (some record) i = some old
    rw [Function.update_of_ne (by omega)]
    exact hold
  have hold := hrecords _ hle hs.knows.records
  refine ⟨⟨⟨hs.knows.inv.honest.tables _ _ _, ?_, ?_, ?_, hs.knows.inv.submissions⟩, hs.knows.row,
    hold⟩, hrecord.ivc, hle.trans (Nat.le_succ cur), ?_, hs.events⟩
  · exact fun row hrow => (hs.knows.inv.row row hrow).later (Later.tables s _ _ _)
  · intro row hrow _
    have hsome := hs.knows.row
    rw [show s.proverState = some row from hrow] at hsome
    obtain rfl := Option.some.inj hsome
    exact hold
  · intro x hx
    rcases List.mem_append.mp hx with hx | hx
    · exact hs.knows.inv.compiled x hx
    · rw [List.mem_singleton.mp hx]
      exact ⟨cur + 1, hrecord.ivc⟩
  · intro i hlo hhi
    -- the new record, or one of those below it
    rcases Nat.lt_or_ge cur i with hlt | hge
    · obtain rfl : i = cur + 1 := by omega
      exact ⟨record, Function.update_self _ _ _, hrecord⟩
    · exact hrecords cur le_rfl hs.records i hlo hge

/-- Recording the folded proof keeps the row as it was, one record ahead of it. -/
theorem upsertIvcProof_spec {state : RootProverState} {events : List EventRow} {nova nova' : Ivc h}
    {cur : ℕ} :
    JobSpec d produceDeciderProof job
      (fun s => Compiling d produceDeciderProof job state events nova cur s
        ∧ nova'.Folds s.token.events state.baseIndex (cur + 1))
      (RootJob.upsertIvcProof state.baseIndex (cur + 1) nova')
      fun _ => Compiling d produceDeciderProof job state events nova' (cur + 1) := by
  have hstable : Stable d produceDeciderProof job
      (fun s => Compiling d produceDeciderProof job state events nova cur s
        ∧ nova'.Folds s.token.events state.baseIndex (cur + 1)) := by
    refine ⟨fun s hs => hs.1.knows.inv, fun s s' hs hmove => ⟨hs.1.move hmove, ?_⟩⟩
    exact hs.2.extend (Others.later hs.1.knows.inv.honest hmove).2.1.events
  refine .bind (u64ToI64_spec hstable) fun _ => .bind (u64ToI64_spec hstable) fun _ =>
    write_spec hstable fun s hs => ?_
  have hnew := hs.1.upsert
    { startIndex := ((s.ivcProofs (cur + 1)).map IvcRecord.startIndex).getD state.baseIndex
      ivcProof := nova'
      stateIndex := cur + 1
      stateHashChain := nova'.zi.hashChain
      stateRoot := nova'.zi.root } ⟨hs.2, rfl⟩
  exact ⟨hnew, hnew.knows.inv⟩

/-- The inputs of the step for an event. -/
def StepInputs (event : EventRow) (inputs : RootExternalInputs) (s : RootWorld h) : Prop :=
  ∃ t, s.token.events[event.eventIndex]? = some t ∧ event.eventIndex < 2 ^ transferTreeHeight
    ∧ inputs = transferInputsAt h s.token.events event.eventIndex t

/-- One event of the loop: its proof is folded, recorded, and then the row moves past it. A crash
between the two leaves a record that the next pass replaces. -/
theorem compileStep_spec (hheight : job.treeConfig.height = transferTreeHeight)
    {state : RootProverState} {event : EventRow} {events : List EventRow} {nova : Ivc h} :
    JobSpec d produceDeciderProof job
      (Compiling d produceDeciderProof job state (event :: events) nova event.eventIndex)
      (RootJob.compileStep job state.baseIndex nova event)
      fun nova' => Compiling d produceDeciderProof job state events nova'
        (event.eventIndex + 1) := by
  unfold RootJob.compileStep
  -- the tree is read, and the rest is computed from its answer
  refine .bind (M := fun answer s =>
    Compiling d produceDeciderProof job state (event :: events) nova event.eventIndex s
      ∧ ∀ proof inputs, answer = .ok proof → toExternalInputs event.entry.address
        event.entry.value.val proof = .ok inputs → StepInputs event inputs s)
    (.read ?_) fun answer => ?_
  · intro s s' hs hmove
    have hs' := hs.move hmove
    refine ⟨⟨hs', fun proof inputs hanswer hinputs => ?_⟩, fun _ => hs'.knows.inv⟩
    obtain ⟨t, ht, hentry⟩ := hs'.events event List.mem_cons_self
    obtain ⟨hroom, heq⟩ := hs'.knows.inv.honest.inputs_eq hheight ht hanswer
    rw [hentry] at hinputs
    exact ⟨t, ht, hroom, heq inputs hinputs⟩
  refine .bind (M := fun proof s =>
    Compiling d produceDeciderProof job state (event :: events) nova event.eventIndex s
      ∧ ∀ inputs, toExternalInputs event.entry.address event.entry.value.val proof = .ok inputs →
        StepInputs event inputs s)
    (.ofExcept ?_ fun _ s _ hs => hs.1.knows.inv) fun proof => ?_
  · intro proof s hproof hs
    exact ⟨hs.1, fun inputs hinputs => hs.2 proof inputs (mapError_eq_ok.mp hproof) hinputs⟩
  refine .bind (M := fun inputs s =>
    Compiling d produceDeciderProof job state (event :: events) nova event.eventIndex s
      ∧ StepInputs event inputs s)
    (.ofExcept ?_ fun _ s _ hs => hs.1.knows.inv) fun inputs => ?_
  · intro inputs s hinputs hs
    exact ⟨hs.1, hs.2 inputs (mapError_eq_ok.mp hinputs)⟩
  refine .bind (M := fun nova' s =>
    Compiling d produceDeciderProof job state (event :: events) nova event.eventIndex s
      ∧ nova'.Folds s.token.events state.baseIndex (event.eventIndex + 1))
    (.ofExcept ?_ fun _ s _ hs => hs.1.knows.inv) fun nova' => ?_
  · intro nova' s hstep hs
    obtain ⟨t, ht, hroom, rfl⟩ := hs.2
    exact ⟨hs.1, hs.1.folds.proveStep ht hroom (Machine.okOr_eq_ok.mp hstep)⟩
  refine .bind upsertIvcProof_spec fun _ => .pure fun s hs => ?_
  exact ⟨hs.knows, hs.folds, hs.le, hs.records, fun e he => hs.events e (List.mem_cons_of_mem _ he)⟩

/-- What is compiled up to `cur` after the loop. -/
structure CompiledTo (d : DeciderSets) (produceDeciderProof : Ivc h → RootProof)
    (job : RootProverJob) (state : RootProverState) (cur : ℕ) (s : RootWorld h) : Prop where
  knows : Knows d produceDeciderProof job state s
  le : state.lastCompiledIndex ≤ cur
  bound : cur ≤ s.token.events.length
  records : Compiled s state.baseIndex cur

/-- What is compiled so far stays so while the others move. -/
theorem CompiledTo.move {state : RootProverState} {cur : ℕ} {s s' : RootWorld h}
    (hs : CompiledTo d produceDeciderProof job state cur s)
    (hothers : Others h d job.treeConfig s s') :
    CompiledTo d produceDeciderProof job state cur s' := by
  obtain ⟨-, hlater, hsame⟩ := Others.later hs.knows.inv.honest hothers
  exact ⟨hs.knows.move hothers, hs.le, hs.bound.trans hlater.events.length_le,
    hs.records.later hlater.events hsame.ivcProofs⟩

/-- Between two events the loop has compiled up to the next one. -/
theorem Compiling.compiledTo {state : RootProverState} {events : List EventRow} {nova : Ivc h}
    {cur : ℕ} {s : RootWorld h} (hs : Compiling d produceDeciderProof job state events nova cur s) :
    CompiledTo d produceDeciderProof job state cur s :=
  ⟨hs.knows, hs.le, hs.folds.bound, hs.records⟩

/-- The loop, by induction on the events. -/
theorem compileLoop_spec (hheight : job.treeConfig.height = transferTreeHeight)
    {state : RootProverState} (events : List EventRow) (nova : Ivc h) (cur : ℕ) :
    JobSpec d produceDeciderProof job
      (Compiling d produceDeciderProof job state events nova cur)
      (RootJob.compileLoop job state.baseIndex events nova cur)
      (CompiledTo d produceDeciderProof job state) := by
  induction events generalizing nova cur with
  | nil => exact .pure fun s hs => hs.compiledTo
  | cons event events ih =>
    unfold RootJob.compileLoop
    split
    · exact .pure fun s hs => hs.compiledTo
    · rename_i hindex
      rw [not_not] at hindex
      subst hindex
      exact .bind (compileStep_spec hheight) fun nova' => ih nova' _

end

end Indexer

end Zerc20
