import Zerc20.Indexer.EventSync
import Zerc20.Indexer.History
import Zerc20.Indexer.Lock
import Mathlib.Data.List.Sort

/-!
# Tree ingestion

`indexer/src/jobs/tree.rs` with `indexer/src/jobs/lock.rs`: any number of workers, in any number of
processes, that move the stored transfer events of one token into its tree. A worker takes a lease,
reads how far the tree is, fetches a batch of events and appends it leaf by leaf. Every statement is
a step of its own, and so is every `append_leaf`, which locks the token row. Between two statements
of a worker the other workers, the event sync and the clock may move; a statement may fail, a worker
may be cancelled and a process may die at any moment.

The key of the lease is a hash of what the process is configured with for the token, its label
among it, so two processes need not use the same row of `leases`.

The lease is not checked again when the batch is appended, and `append_leaf` is not told which index
the worker expects. A worker whose lease has run out meanwhile therefore appends what its successor
has appended already (`not_exactlyOnce`).

The argument has two halves. `ExactlyOnce.step_iff` says which steps go wrong: an append that is not
the next one, and a row that is replaced under its leaf. `LeaseInv` says why the steps that respect
the lease (`Leased`) do not: of the workers that are inside, one at most has its lease row, what
this one has read of the tree is still so, and its batch still consists of stored rows. The two meet
in `exactlyOnce_of_leased`.

`appended` is a ghost: the event that each leaf was made of.
-/

namespace Zerc20

namespace Indexer

open Machine EventIndexer

/-! ## Events and leases -/

/-- What `ingest_events` reads of a row of `indexed_transfer_events`. -/
structure EventRow where
  eventIndex : ℕ
  entry : Entry
  deriving DecidableEq

def toEventRow (e : IndexedEvent) : EventRow := ⟨e.eventIndex, e.entry⟩

/-- `insert_events`, a transaction: a number that does not fit stops all of it. -/
def EventDb.insertEvents (db : EventDb) (rows : List IndexedEvent) : EventDb :=
  if ∀ row ∈ rows, row.eventIndex ≤ i64Max ∧ row.ethBlockNumber ≤ i64Max then
    { db with events := rows.foldl upsertRow db.events }
  else db

/-- `contiguous_event_index`. -/
def contiguousEventIndex (db : EventDb) : Option ℕ :=
  if 0 ≤ contiguousIndex db then some (contiguousIndex db).toNat else none

/-- The batch of `ingest_events`. -/
def fetchEvents (events : List IndexedEvent) (startIndex upperIndex limit : ℕ) : List EventRow :=
  let rows := events.filter fun row => startIndex ≤ row.eventIndex ∧ row.eventIndex ≤ upperIndex
  ((rows.insertionSort fun a b => a.eventIndex ≤ b.eventIndex).take limit).map toEventRow

/-- `COALESCE(MAX(tree_index), 0)`. -/
def latestTreeIndex (db : TreeDb) : ℕ := (db.latestSnapshot.map SnapshotRow.treeIndex).getD 0

/-! ## Workers -/

/-- The statement a worker is at. -/
inductive WorkerPc where
  | tryAcquire
  | locateToken
  | latestIndex
  | contiguousIndex (processed : ℕ)
  | fetch (processed targetEventCount : ℕ)
  | batch (processed targetEventCount : ℕ) (events : List EventRow)
  | release
  | dead
  deriving DecidableEq

structure Worker where
  pc : WorkerPc
  /-- Whether the renewal task is alive. -/
  renewing : Bool
  deriving DecidableEq

structure JobConfig where
  tree : TreeConfig
  batchSize : ℕ → ℕ
  /-- `session_holder`: workers of one process share it. -/
  sessionHolder : ℕ → ℕ
  /-- `lock_key_with_salt` of the token, as the process of the worker is configured. -/
  lockKey : ℕ → ℤ

structure Ingestion where
  db : TreeDb
  eventDb : EventDb
  now : ℕ
  leases : ℤ → Option Lease
  workers : ℕ → Worker
  /-- The keys and holders of dropped guards, whose release is still to come. -/
  dropped : List (ℤ × ℕ)
  appended : List EventRow

inductive IngestAction where
  | registerToken
  | ensureStateRow (initialBlock : ℕ)
  | insertEvents (rows : List IndexedEvent)
  | advanceContiguousIndex
  | tick (ms : ℕ)
  /-- The next statement of a worker. -/
  | advance (w : ℕ)
  /-- The next statement of a worker fails. -/
  | fail (w : ℕ)
  /-- The renewal task of a worker wakes up. -/
  | renew (w : ℕ)
  /-- A worker is cancelled, and its guard dropped. -/
  | drop (w : ℕ)
  /-- The task that a dropped guard has left behind. -/
  | releaseDropped (key : ℤ) (holder : ℕ)
  /-- The process of a worker dies. -/
  | crash (w : ℕ)
  deriving DecidableEq

namespace Ingestion

def initial : Ingestion where
  db := { TreeDb.initial with tokenExists := false }
  eventDb := .initial
  now := 0
  leases _ := none
  workers _ := ⟨.tryAcquire, false⟩
  dropped := []
  appended := []

def setWorker (s : Ingestion) (w : ℕ) (worker : Worker) : Ingestion :=
  { s with workers := Function.update s.workers w worker }

def setPc (s : Ingestion) (w : ℕ) (pc : WorkerPc) : Ingestion :=
  s.setWorker w { s.workers w with pc }

def setLease (s : Ingestion) (key : ℤ) (lease : Option Lease) : Ingestion :=
  { s with leases := Function.update s.leases key lease }

def targetEventCount (s : Ingestion) : ℕ := ((contiguousEventIndex s.eventDb).map (· + 1)).getD 0

section

variable (h : Hashes) (cfg : JobConfig)

/-- `try_acquire_lock`; without a row the worker comes back later. -/
def acquire (s : Ingestion) (w : ℕ) : Ingestion :=
  match tryAcquireLock (s.leases (cfg.lockKey w)) s.now (cfg.sessionHolder w) with
  | (lease, true) => (s.setLease (cfg.lockKey w) lease).setWorker w ⟨.locateToken, true⟩
  | (lease, false) => s.setLease (cfg.lockKey w) lease

/-- `renew_lease`; a failed renewal ends the task. -/
def renew (s : Ingestion) (w : ℕ) : Ingestion :=
  match renewLease (s.leases (cfg.lockKey w)) s.now (cfg.sessionHolder w) with
  | (lease, true) => s.setLease (cfg.lockKey w) lease
  | (lease, false) =>
    (s.setLease (cfg.lockKey w) lease).setWorker w { s.workers w with renewing := false }

/-- `release_lease`. -/
def release (s : Ingestion) (key : ℤ) (holder : ℕ) : Ingestion :=
  s.setLease key (releaseLease (s.leases key) holder).1

/-- The fetch at the head of the loop of `ingest_events`. -/
def fetchBatch (s : Ingestion) (w processed targetEventCount : ℕ) : WorkerPc :=
  if processed ≥ targetEventCount then .release
  else if processed ≤ i64Max ∧ targetEventCount - 1 ≤ i64Max then
    let batch := min (targetEventCount - processed) (cfg.batchSize w)
    match fetchEvents s.eventDb.events processed (targetEventCount - 1) (min batch i64Max) with
    | [] => .release
    | events => .batch processed targetEventCount events
  else .release

/-- One iteration of the loop over the batch. -/
def ingestEvent (s : Ingestion) (w processed targetEventCount : ℕ) (event : EventRow)
    (rest : List EventRow) : Ingestion :=
  if event.eventIndex < processed then s.setPc w (.batch processed targetEventCount rest)
  else if event.eventIndex ≠ processed then s.setPc w .release
  else
    match appendLeaf h cfg.tree s.db event.entry with
    | .error _ => s.setPc w .release
    | .ok (db, append) =>
      -- an unexpected `append.index` is only logged
      { s with db, appended := s.appended ++ [event] }.setPc w
        (.batch append.index targetEventCount rest)

def advanceWorker (s : Ingestion) (w : ℕ) : WorkerPc → Ingestion
  | .tryAcquire => s.acquire cfg w
  | .locateToken => s.setPc w (if s.db.tokenExists then .latestIndex else .release)
  | .latestIndex => s.setPc w (.contiguousIndex (latestTreeIndex s.db))
  | .contiguousIndex processed =>
    s.setPc w (if processed ≥ s.targetEventCount then .release
      else .fetch processed s.targetEventCount)
  | .fetch processed targetEventCount =>
    s.setPc w (s.fetchBatch cfg w processed targetEventCount)
  | .batch processed targetEventCount [] => s.setPc w (.fetch processed targetEventCount)
  | .batch processed targetEventCount (event :: rest) =>
    s.ingestEvent h cfg w processed targetEventCount event rest
  | .release =>
    (s.release (cfg.lockKey w) (cfg.sessionHolder w)).setWorker w ⟨.tryAcquire, false⟩
  | .dead => s

/-- An error ends `ingest_token`, and the lease is released; an error of the release itself is
only logged. -/
def failWorker (s : Ingestion) (w : ℕ) : WorkerPc → Ingestion
  | .tryAcquire | .dead => s
  | .release => s.setWorker w ⟨.tryAcquire, false⟩
  | .locateToken | .latestIndex | .contiguousIndex _ | .fetch _ _ | .batch _ _ _ =>
    s.setPc w .release

/-- The guard of a worker that is cancelled leaves a release behind. -/
def dropWorker (s : Ingestion) (w : ℕ) : WorkerPc → Ingestion
  | .tryAcquire | .dead => s
  | .release => s.setWorker w ⟨.tryAcquire, false⟩
  | .locateToken | .latestIndex | .contiguousIndex _ | .fetch _ _ | .batch _ _ _ =>
    { s with dropped := (cfg.lockKey w, cfg.sessionHolder w) :: s.dropped }.setWorker w
      ⟨.tryAcquire, false⟩

def step (s : Ingestion) : IngestAction → Ingestion
  | .registerToken => { s with db := { s.db with tokenExists := true } }
  | .ensureStateRow initialBlock => { s with
    eventDb := { s.eventDb with
      state := some (s.eventDb.state.getD ⟨-1, none, initialBlock, none⟩) } }
  | .insertEvents rows =>
    if s.db.tokenExists then { s with eventDb := s.eventDb.insertEvents rows } else s
  | .advanceContiguousIndex =>
    { s with eventDb := { s.eventDb with state := advanceRow s.eventDb } }
  | .tick ms => { s with now := s.now + ms }
  | .advance w => s.advanceWorker h cfg w (s.workers w).pc
  | .fail w => s.failWorker w (s.workers w).pc
  | .renew w => if (s.workers w).renewing then s.renew cfg w else s
  | .drop w => s.dropWorker cfg w (s.workers w).pc
  | .releaseDropped key holder =>
    if (key, holder) ∈ s.dropped then
      { (s.release key holder) with dropped := s.dropped.erase (key, holder) }
    else s
  | .crash w => s.setWorker w ⟨.dead, false⟩

end

end Ingestion

/-! ## What an append does to the leaves -/

section

variable {h : Hashes} {cfg : TreeConfig} {db db' : TreeDb} {e : Entry}

variable (h cfg) in
def leafAt (db : TreeDb) (k : ℕ) : Fr :=
  (db.nodes ⟨cfg.height, k⟩).getD (zeroHashForPath h cfg ⟨cfg.height, k⟩)

/-- Recording a row does not move the climb. -/
theorem Climb.record_path (index : ℕ) (c : Climb) : (c.record h cfg index).path = c.path := by
  simp only [Climb.record]
  split <;> rfl

/-- The row that is new stands where the climb is. -/
theorem Climb.record_planned {index : ℕ} {c : Climb} {row : UpdateRow}
    (hrow : row ∈ (c.record h cfg index).planned) : row ∈ c.planned ∨ row.path = c.path := by
  simp only [Climb.record] at hrow
  split at hrow
  · rcases List.mem_append.mp hrow with hold | hnew
    · exact Or.inl hold
    · rw [List.mem_singleton.mp hnew]
      exact Or.inr rfl
  · exact Or.inl hrow

/-- The rows planned before stay planned. -/
theorem Climb.planned_subset_record (index : ℕ) (c : Climb) :
    c.planned ⊆ (c.record h cfg index).planned := by
  simp only [Climb.record]
  split
  · exact List.subset_append_left _ _
  · exact List.Subset.refl _

theorem BitPath.pop_length (p : BitPath) : p.pop.length = p.length - 1 := by
  unfold BitPath.pop
  split
  · omega
  · rfl

/-- Above the leaves: the planned rows about a leaf are `rows`. -/
structure AboveLeaves (cfg : TreeConfig) (rows : List UpdateRow) (c : Climb) : Prop where
  path : c.path.length < cfg.height
  subset : rows ⊆ c.planned
  rest : ∀ row ∈ c.planned, row ∈ rows ∨ row.path.length < cfg.height

/-- Recording a row above the leaves plans no row at a leaf. -/
theorem AboveLeaves.record {rows : List UpdateRow} {c : Climb} (hc : AboveLeaves cfg rows c)
    (index : ℕ) : AboveLeaves cfg rows (c.record h cfg index) where
  path := by
    rw [Climb.record_path]
    exact hc.path
  subset := List.Subset.trans hc.subset (Climb.planned_subset_record index c)
  rest row hrow := by
    rcases Climb.record_planned hrow with hold | hnew
    · exact hc.rest row hold
    · rw [hnew]
      exact Or.inr hc.path

theorem AboveLeaves.step {rows : List UpdateRow} {c : Climb} (hc : AboveLeaves cfg rows c)
    (index : ℕ) : AboveLeaves cfg rows (c.step h cfg index) where
  path := by
    show ((c.record h cfg index).path.pop).length < cfg.height
    rw [BitPath.pop_length]
    have hpath := (hc.record (h := h) index).path
    omega
  subset := (hc.record index).subset
  rest := (hc.record index).rest

/-- The rows that the first iteration of the loop plans. -/
def leafRows (h : Hashes) (cfg : TreeConfig) (index leafIndex : ℕ) (leaf : Fr)
    (existing : BitPath → Option Fr) : List UpdateRow :=
  (Climb.record h cfg index ⟨leaf, ⟨cfg.height, leafIndex⟩, existing, []⟩).planned

variable (h cfg) in
/-- So the climb plans rows above the leaves only, besides that of the leaf itself. -/
theorem climbToRoot_aboveLeaves (index leafIndex : ℕ) (leaf : Fr)
    (existing : BitPath → Option Fr) :
    AboveLeaves cfg (leafRows h cfg index leafIndex leaf existing)
      (climbToRoot h cfg index leafIndex leaf existing) := by
  obtain ⟨m, hm⟩ := Nat.exists_eq_succ_of_ne_zero cfg.height_pos.ne'
  have hfirst : AboveLeaves cfg (leafRows h cfg index leafIndex leaf existing)
      (Climb.step h cfg index ⟨leaf, ⟨cfg.height, leafIndex⟩, existing, []⟩) := by
    refine ⟨?_, List.Subset.refl _, fun row hrow => Or.inl hrow⟩
    show (BitPath.pop (Climb.record h cfg index _).path).length < cfg.height
    rw [BitPath.pop_length, Climb.record_path]
    have hpos := cfg.height_pos
    show cfg.height - 1 < cfg.height
    omega
  have hloop : ∀ n, AboveLeaves cfg (leafRows h cfg index leafIndex leaf existing)
      ((Climb.step h cfg index)^[n]
        (Climb.step h cfg index ⟨leaf, ⟨cfg.height, leafIndex⟩, existing, []⟩)) := by
    intro n
    induction n with
    | zero => exact hfirst
    | succ n ih =>
      rw [Function.iterate_succ_apply']
      exact ih.step index
  have hend := hloop m
  rw [← Function.iterate_succ_apply, ← hm] at hend
  -- the root has a row of its own
  simp only [climbToRoot]
  generalize (Climb.step h cfg index)^[cfg.height] _ = c at hend ⊢
  have hroot : AboveLeaves cfg (leafRows h cfg index leafIndex leaf existing)
      { c with path := .root } := ⟨cfg.height_pos, hend.subset, hend.rest⟩
  exact hroot.record index

variable (h cfg) in
/-- The tree of `db'` is that of `db` with one more leaf. -/
structure LeafAppended (db : TreeDb) (e : Entry) (db' : TreeDb) : Prop where
  latest : latestTreeIndex db' = latestTreeIndex db + 1
  leaf : leafAt h cfg db' (latestTreeIndex db) = leafHash h e
  others : ∀ k, k ≠ latestTreeIndex db → leafAt h cfg db' k = leafAt h cfg db k

/-- The newest snapshot after one with a higher index is inserted. -/
theorem latestTreeIndex_concat {row : SnapshotRow} (hrow : latestTreeIndex db < row.treeIndex)
    (hsnapshots : db'.snapshots = db.snapshots ++ [row]) :
    latestTreeIndex db' = row.treeIndex := by
  unfold latestTreeIndex TreeDb.latestSnapshot at hrow ⊢
  rw [hsnapshots, List.argmax_concat]
  cases hmax : db.snapshots.argmax SnapshotRow.treeIndex with
  | none => rfl
  | some newest =>
    rw [hmax] at hrow
    have hlt : newest.treeIndex < row.treeIndex := hrow
    simp only [if_pos hlt]
    rfl

/-- The row of the leaf: one exactly when the hash at the leaf changes. -/
theorem leafRows_eq (index leafIndex : ℕ) (leaf : Fr) :
    leafRows h cfg index leafIndex leaf (db.loadNodeHashes (fetchPositions cfg leafIndex))
      = if leafAt h cfg db leafIndex ≠ leaf
        then [⟨index, ⟨cfg.height, leafIndex⟩, leafAt h cfg db leafIndex, leaf⟩] else [] := by
  have hold : (db.loadNodeHashes (fetchPositions cfg leafIndex) ⟨cfg.height, leafIndex⟩).getD
      (zeroHashForPath h cfg ⟨cfg.height, leafIndex⟩) = leafAt h cfg db leafIndex := by
    rw [TreeDb.loadNodeHashes, if_pos (by exact List.mem_cons_self)]
    rfl
  simp only [leafRows, Climb.record, hold]
  split <;> rfl

/-- Of the leaves, an append changes only its own. -/
theorem upsert_leaves (index leafIndex : ℕ) (leaf : Fr) (k : ℕ) :
    (upsert db.nodes (climbToRoot h cfg index leafIndex leaf
      (db.loadNodeHashes (fetchPositions cfg leafIndex))).planned ⟨cfg.height, k⟩).getD
        (zeroHashForPath h cfg ⟨cfg.height, k⟩)
      = if k = leafIndex then leaf else leafAt h cfg db k := by
  have habove := climbToRoot_aboveLeaves h cfg index leafIndex leaf
    (db.loadNodeHashes (fetchPositions cfg leafIndex))
  rw [leafRows_eq] at habove
  generalize (climbToRoot h cfg index leafIndex leaf
    (db.loadNodeHashes (fetchPositions cfg leafIndex))) = c at habove ⊢
  -- every row about a leaf is the row of this leaf
  have hleaf : ∀ row ∈ c.planned, row.path = ⟨cfg.height, k⟩ →
      k = leafIndex ∧ row.newHash = leaf ∧ leafAt h cfg db leafIndex ≠ leaf := by
    intro row hrow hpath
    rcases habove.rest row hrow with hmem | hlength
    · split at hmem
      · rename_i hne
        rw [List.mem_singleton.mp hmem] at hpath ⊢
        exact ⟨(BitPath.mk.inj hpath).2.symm, rfl, hne⟩
      · cases hmem
    · rw [hpath] at hlength
      exact absurd hlength (lt_irrefl _)
  by_cases hk : k = leafIndex
  · subst hk
    rw [if_pos rfl]
    by_cases hsame : leafAt h cfg db k = leaf
    · rw [upsert_of_notMem fun row hrow hpath => (hleaf row hrow hpath).2.2 hsame]
      exact hsame
    · rw [if_pos hsame] at habove
      rw [upsert_of_mem (v := leaf) (fun row hrow hpath => (hleaf row hrow hpath).2.1)
        ⟨_, habove.subset List.mem_cons_self, rfl⟩]
      rfl
  · rw [if_neg hk, upsert_of_notMem fun row hrow hpath => hk (hleaf row hrow hpath).1]
    rfl

variable (h cfg) in
/-- **An append**, whatever the tree holds. -/
theorem appendLeaf_ok (e : Entry) (htoken : db.tokenExists = true)
    (hindex : latestTreeIndex db < i64Max) :
    ∃ db' result, appendLeaf h cfg db e = .ok (db', result)
      ∧ result.index = latestTreeIndex db + 1 ∧ LeafAppended h cfg db e db' := by
  have hguard : require (db.tokenExists = true) DbMerkleTreeError.tokenNotFound = .ok () :=
    require_eq_ok.mpr htoken
  have hnext : latestTreeIndex db + 1 ≤ i64Max := hindex
  -- the statement has only the two guards
  have hok : ∃ db' result, appendLeaf h cfg db e = .ok (db', result)
      ∧ result.index = latestTreeIndex db + 1
      ∧ db'.nodes = upsert db.nodes (climbToRoot h cfg (latestTreeIndex db + 1)
        (latestTreeIndex db) (leafHash h e)
        (db.loadNodeHashes (fetchPositions cfg (latestTreeIndex db)))).planned
      ∧ ∃ row : SnapshotRow, row.treeIndex = latestTreeIndex db + 1
        ∧ db'.snapshots = db.snapshots ++ [row] := by
    unfold latestTreeIndex at hnext ⊢
    simp only [appendLeaf, hguard, toI64_of_le _ hnext, planAppend, bind, Except.bind,
      toI64_of_le "gc threshold" (le_trans (Nat.sub_le _ _) hnext)]
    exact ⟨_, _, rfl, rfl, by rw [foldl_writesOf], _, rfl, by rw [foldl_writesOf]⟩
  obtain ⟨db', result, happend, hresult, hnodes, row, hrow, hsnapshots⟩ := hok
  refine ⟨db', result, happend, hresult, ?_, ?_, ?_⟩
  · rw [latestTreeIndex_concat (by omega) hsnapshots, hrow]
  · rw [leafAt, hnodes, upsert_leaves, if_pos rfl]
  · intro k hk
    rw [leafAt, hnodes, upsert_leaves, if_neg hk]

variable (h cfg) in
/-- Without the token, or with the index at the column's bound, nothing is appended. -/
theorem appendLeaf_error (e : Entry)
    (hrefused : ¬ (db.tokenExists = true ∧ latestTreeIndex db < i64Max)) :
    ∃ err, appendLeaf h cfg db e = .error err := by
  cases happend : appendLeaf h cfg db e with
  | error err => exact ⟨err, rfl⟩
  | ok result =>
    exfalso
    unfold appendLeaf at happend
    obtain ⟨_, htoken, happend⟩ := bind_eq_ok.mp happend
    obtain ⟨index, hindex, _⟩ := bind_eq_ok.mp happend
    refine hrefused ⟨require_eq_ok.mp htoken, ?_⟩
    unfold toI64 at hindex
    split at hindex
    · rename_i hle
      exact hle
    · cases hindex

end

/-! ## Exactly once -/

section

variable (h : Hashes) (cfg : JobConfig)

/-- The leaf that a stored event makes. -/
def eventLeaf (events : List IndexedEvent) (index : ℕ) : Option Fr :=
  (rowAt events index).map fun row => leafHash h row.entry

/-- Leaf `k` is made of event `k`, for every `k`. -/
structure ExactlyOnce (s : Ingestion) : Prop where
  order : s.appended.map EventRow.eventIndex = List.range (latestTreeIndex s.db)
  leaves : ∀ k, k < latestTreeIndex s.db →
    eventLeaf h s.eventDb.events k = some (leafAt h cfg.tree s.db k)

/-- An append is the next one, and the event that it was fetched for is still the stored one. -/
def InOrderPc (s : Ingestion) : WorkerPc → Prop
  | .batch processed _ (event :: _) =>
    event.eventIndex = processed → s.db.tokenExists = true → latestTreeIndex s.db < i64Max →
      latestTreeIndex s.db = processed
        ∧ eventLeaf h s.eventDb.events processed = some (leafHash h event.entry)
  | _ => True

/-- Appends are in order, and a row that a leaf was made of is not replaced by one that makes
another leaf. -/
def InOrder (s : Ingestion) : IngestAction → Prop
  | .advance w => InOrderPc h s (s.workers w).pc
  | .insertEvents rows => s.db.tokenExists = true → ∀ k, k < latestTreeIndex s.db →
    eventLeaf h (s.eventDb.insertEvents rows).events k = eventLeaf h s.eventDb.events k
  | _ => True

/-- The leaves of the tree are those of the appended events, in any run. -/
structure AppendedInv (s : Ingestion) : Prop where
  length : s.appended.length = latestTreeIndex s.db
  leaf : ∀ k row, s.appended[k]? = some row → leafAt h cfg.tree s.db k = leafHash h row.entry

end

section

variable {h : Hashes} {cfg : JobConfig} {s s' : Ingestion}

/-- What `ExactlyOnce` looks at. -/
structure SameTree (s s' : Ingestion) : Prop where
  nodes : s'.db.nodes = s.db.nodes
  snapshots : s'.db.snapshots = s.db.snapshots
  events : s'.eventDb.events = s.eventDb.events
  appended : s'.appended = s.appended

theorem SameTree.refl (s : Ingestion) : SameTree s s := ⟨rfl, rfl, rfl, rfl⟩

/-- The same tree has the same latest index. -/
theorem SameTree.latest (hsame : SameTree s s') : latestTreeIndex s'.db = latestTreeIndex s.db := by
  simp only [latestTreeIndex, TreeDb.latestSnapshot, hsame.snapshots]

theorem SameTree.leafAt (hsame : SameTree s s') (k : ℕ) :
    leafAt h cfg.tree s'.db k = leafAt h cfg.tree s.db k := by
  simp only [Indexer.leafAt, hsame.nodes]

/-- Whether every event is in it exactly once depends on the tree and the rows. -/
theorem SameTree.exactlyOnce (hsame : SameTree s s') (hs : ExactlyOnce h cfg s) :
    ExactlyOnce h cfg s' where
  order := by rw [hsame.appended, hsame.latest, hs.order]
  leaves k hk := by
    rw [hsame.latest] at hk
    rw [hsame.events, hsame.leafAt, hs.leaves k hk]

theorem SameTree.appendedInv (hsame : SameTree s s') (hs : AppendedInv h cfg s) :
    AppendedInv h cfg s' where
  length := by rw [hsame.appended, hsame.latest, hs.length]
  leaf k row hrow := by
    rw [hsame.appended] at hrow
    rw [hsame.leafAt, hs.leaf k row hrow]

/-- Taking a lease leaves the tree alone. -/
theorem sameTree_acquire (s : Ingestion) (w : ℕ) : SameTree s (s.acquire cfg w) := by
  unfold Ingestion.acquire
  split <;> exact ⟨rfl, rfl, rfl, rfl⟩

theorem sameTree_renew (s : Ingestion) (w : ℕ) : SameTree s (s.renew cfg w) := by
  unfold Ingestion.renew
  split <;> exact ⟨rfl, rfl, rfl, rfl⟩

theorem sameTree_failWorker (s : Ingestion) (w : ℕ) (pc : WorkerPc) :
    SameTree s (s.failWorker w pc) := by
  cases pc <;> exact ⟨rfl, rfl, rfl, rfl⟩

/-- So does a worker that ends, with the release of its lease. -/
theorem sameTree_dropWorker (s : Ingestion) (w : ℕ) (pc : WorkerPc) :
    SameTree s (s.dropWorker cfg w pc) := by
  cases pc <;> exact ⟨rfl, rfl, rfl, rfl⟩

/-- A worker appends `event`, whose index is the number of events that it takes for processed. -/
structure Appends (h : Hashes) (cfg : JobConfig) (s : Ingestion) (event : EventRow)
    (s' : Ingestion) : Prop where
  token : s.db.tokenExists = true
  index : latestTreeIndex s.db < i64Max
  tree : LeafAppended h cfg.tree s.db event.entry s'.db
  events : s'.eventDb.events = s.eventDb.events
  appended : s'.appended = s.appended ++ [event]

variable (h cfg) in
/-- What one iteration over the batch does to the tree. -/
theorem ingestEvent_cases (s : Ingestion) (w processed target : ℕ) (event : EventRow)
    (rest : List EventRow) :
    (event.eventIndex = processed ∧ Appends h cfg s event
        (s.ingestEvent h cfg w processed target event rest))
      ∨ (¬ (event.eventIndex = processed ∧ s.db.tokenExists = true
          ∧ latestTreeIndex s.db < i64Max)
        ∧ SameTree s (s.ingestEvent h cfg w processed target event rest)) := by
  unfold Ingestion.ingestEvent
  split
  · exact Or.inr ⟨by omega, rfl, rfl, rfl, rfl⟩
  · split
    · rename_i hne
      exact Or.inr ⟨fun hall => hne hall.1, rfl, rfl, rfl, rfl⟩
    · rename_i heq
      replace heq : event.eventIndex = processed := not_not.mp heq
      -- these are the only two ways in which `append_leaf` fails
      by_cases hok : s.db.tokenExists = true ∧ latestTreeIndex s.db < i64Max
      · obtain ⟨db', result, happend, -, htree⟩ :=
          appendLeaf_ok h cfg.tree event.entry hok.1 hok.2
        rw [happend]
        exact Or.inl ⟨heq, hok.1, hok.2, htree, rfl, rfl⟩
      · obtain ⟨err, herr⟩ := appendLeaf_error h cfg.tree event.entry hok
        rw [herr]
        exact Or.inr ⟨fun hall => hok hall.2, rfl, rfl, rfl, rfl⟩

/-- **What a step can do to the tree**, and when it is in order. -/
inductive Effect (h : Hashes) (cfg : JobConfig) (s : Ingestion) (inOrder : Prop)
    (s' : Ingestion) : Prop where
  | same (horder : inOrder) (hsame : SameTree s s')
  | append (event : EventRow) (happend : Appends h cfg s event s')
      (horder : inOrder ↔ latestTreeIndex s.db = event.eventIndex
        ∧ eventLeaf h s.eventDb.events event.eventIndex = some (leafHash h event.entry))
  | replace (eventDb : EventDb) (hstep : s' = { s with eventDb })
      (horder : inOrder ↔ ∀ k, k < latestTreeIndex s.db →
        eventLeaf h eventDb.events k = eventLeaf h s.eventDb.events k)

/-- The worker is about to append the first event of its batch. -/
def AtEvent : WorkerPc → Prop
  | .batch _ _ (_ :: _) => True
  | _ => False

variable (h cfg) in
/-- Of a worker's moves only the one at an event can append. -/
theorem advanceWorker_sameTree (s : Ingestion) (w : ℕ) {pc : WorkerPc} (hpc : ¬ AtEvent pc) :
    SameTree s (s.advanceWorker h cfg w pc) := by
  cases pc with
  | tryAcquire => exact sameTree_acquire s w
  | locateToken => exact ⟨rfl, rfl, rfl, rfl⟩
  | latestIndex => exact ⟨rfl, rfl, rfl, rfl⟩
  | contiguousIndex processed => exact ⟨rfl, rfl, rfl, rfl⟩
  | fetch processed target => exact ⟨rfl, rfl, rfl, rfl⟩
  | batch processed target batch =>
    cases batch with
    | nil => exact ⟨rfl, rfl, rfl, rfl⟩
    | cons event rest => exact absurd trivial hpc
  | release => exact ⟨rfl, rfl, rfl, rfl⟩
  | dead => exact .refl s

variable (h cfg) in
/-- A worker at an event appends that event, if the tree takes it, and does nothing else. -/
theorem advanceWorker_effect (s : Ingestion) (w : ℕ) (pc : WorkerPc) :
    Effect h cfg s (InOrderPc h s pc) (s.advanceWorker h cfg w pc) := by
  cases pc with
  | batch processed target batch =>
    cases batch with
    | nil => exact .same trivial (advanceWorker_sameTree h cfg s w id)
    | cons event rest =>
      rcases ingestEvent_cases h cfg s w processed target event rest with
        ⟨rfl, happend⟩ | ⟨hskip, hsame⟩
      · refine .append event happend ⟨fun hnext => ?_, fun hnext _ _ _ => hnext⟩
        exact hnext rfl happend.token happend.index
      · exact .same (fun heq htoken hindex => absurd ⟨heq, htoken, hindex⟩ hskip) hsame
  | _ => exact .same trivial (advanceWorker_sameTree h cfg s w id)

variable (h cfg) in
/-- The sync writes rows and the pointer, and appends nothing. -/
theorem insertEvents_effect (s : Ingestion) (rows : List IndexedEvent) :
    Effect h cfg s (InOrder h s (.insertEvents rows)) (s.step h cfg (.insertEvents rows)) := by
  by_cases htoken : s.db.tokenExists = true
  · have hiff : InOrder h s (.insertEvents rows) ↔ ∀ k, k < latestTreeIndex s.db →
        eventLeaf h (s.eventDb.insertEvents rows).events k = eventLeaf h s.eventDb.events k :=
      ⟨fun hkeeps => hkeeps htoken, fun hkeeps _ => hkeeps⟩
    refine .replace (s.eventDb.insertEvents rows) ?_ hiff
    simp only [Ingestion.step, if_pos htoken]
  · refine .same (fun htrue => absurd htrue htoken) ?_
    simp only [Ingestion.step, if_neg htoken]
    exact .refl s

variable (h cfg) in
/-- Only an insertion and a worker at an event touch the events and the tree. -/
theorem step_sameTree (s : Ingestion) (a : IngestAction)
    (hinsert : ∀ rows, a ≠ .insertEvents rows)
    (hevent : ∀ w, a = .advance w → ¬ AtEvent (s.workers w).pc) :
    SameTree s (s.step h cfg a) := by
  cases a with
  | registerToken => exact ⟨rfl, rfl, rfl, rfl⟩
  | ensureStateRow initialBlock => exact ⟨rfl, rfl, rfl, rfl⟩
  | insertEvents rows => exact absurd rfl (hinsert rows)
  | advanceContiguousIndex => exact ⟨rfl, rfl, rfl, rfl⟩
  | tick ms => exact ⟨rfl, rfl, rfl, rfl⟩
  | advance w => exact advanceWorker_sameTree h cfg s w (hevent w rfl)
  | fail w => exact sameTree_failWorker s w _
  | renew w =>
    simp only [Ingestion.step]
    split
    · exact sameTree_renew s w
    · exact .refl s
  | drop w => exact sameTree_dropWorker s w _
  | releaseDropped key holder =>
    simp only [Ingestion.step]
    split
    · exact ⟨rfl, rfl, rfl, rfl⟩
    · exact .refl s
  | crash w => exact ⟨rfl, rfl, rfl, rfl⟩

variable (h cfg) in
/-- So every step appends at most one event or leaves the tree alone. -/
theorem step_effect (s : Ingestion) (a : IngestAction) :
    Effect h cfg s (InOrder h s a) (s.step h cfg a) := by
  cases a with
  | insertEvents rows => exact insertEvents_effect h cfg s rows
  | advance w => exact advanceWorker_effect h cfg s w (s.workers w).pc
  | _ => exact .same trivial (step_sameTree h cfg s _ (fun _ => nofun) fun _ => nofun)

/-- An append adds the event to the ledger at the index that it got. -/
theorem Appends.appendedInv {event : EventRow} (happend : Appends h cfg s event s')
    (hs : AppendedInv h cfg s) : AppendedInv h cfg s' where
  length := by
    rw [happend.appended, List.length_append, List.length_singleton, hs.length,
      happend.tree.latest]
  leaf k row hrow := by
    rw [happend.appended, List.getElem?_append] at hrow
    split at hrow
    · rename_i hk
      rw [hs.length] at hk
      rw [happend.tree.others k hk.ne, hs.leaf k row hrow]
    · rename_i hk
      rw [List.getElem?_singleton] at hrow
      split at hrow
      · rename_i hlast
        have hlength := hs.length
        obtain rfl : event = row := Option.some.inj hrow
        obtain rfl : k = latestTreeIndex s.db := by omega
        exact happend.tree.leaf
      · cases hrow

/-- Where every event is in the tree exactly once, an append keeps it so exactly when the event is
the next one and its row is still the one that was fetched. -/
theorem Appends.inOrder_iff {event : EventRow} (happend : Appends h cfg s event s')
    (hs : ExactlyOnce h cfg s) :
    (latestTreeIndex s.db = event.eventIndex
        ∧ eventLeaf h s.eventDb.events event.eventIndex = some (leafHash h event.entry))
      ↔ ExactlyOnce h cfg s' := by
  have horder : s'.appended.map EventRow.eventIndex
      = List.range (latestTreeIndex s.db) ++ [event.eventIndex] := by
    rw [happend.appended, List.map_append, hs.order, List.map_singleton]
  constructor
  · rintro ⟨hnext, hstored⟩
    refine ⟨by rw [horder, happend.tree.latest, List.range_succ, hnext], fun k hk => ?_⟩
    rw [happend.tree.latest] at hk
    rw [happend.events]
    rcases Nat.lt_succ_iff_lt_or_eq.mp hk with hlt | rfl
    · rw [happend.tree.others k hlt.ne, hs.leaves k hlt]
    · rw [happend.tree.leaf, hnext, hstored]
  · intro hs'
    -- conversely, the last event of a list of all indices has the last index
    have hrange := hs'.order
    rw [horder, happend.tree.latest, List.range_succ] at hrange
    have hnext : event.eventIndex = latestTreeIndex s.db := by simpa using hrange
    refine ⟨hnext.symm, ?_⟩
    have hleaf := hs'.leaves (latestTreeIndex s.db) (by rw [happend.tree.latest]; omega)
    rw [happend.events, happend.tree.leaf] at hleaf
    rw [hnext, hleaf]

/-- A step from a state in which every leaf is right keeps them right just if it is in order. -/
theorem ExactlyOnce.step_iff (hs : ExactlyOnce h cfg s) (a : IngestAction) :
    InOrder h s a ↔ ExactlyOnce h cfg (s.step h cfg a) := by
  cases step_effect h cfg s a with
  | same horder hsame => exact ⟨fun _ => hsame.exactlyOnce hs, fun _ => horder⟩
  | append event happend horder => exact horder.trans (happend.inOrder_iff hs)
  | replace eventDb hstep horder =>
    rw [horder, hstep]
    constructor
    · intro hkeeps
      exact ⟨hs.order, fun k hk => (hkeeps k hk).trans (hs.leaves k hk)⟩
    · intro hs' k hk
      rw [hs.leaves k hk]
      exact hs'.leaves k hk

variable (h cfg) in
theorem initial_exactlyOnce : ExactlyOnce h cfg Ingestion.initial :=
  ⟨rfl, fun _ hk => absurd hk (Nat.not_lt_zero _)⟩

end

/-! ## Who has the lease -/

/-- The worker has a guard, so it may be on its way to an append. -/
def WorkerPc.Inside : WorkerPc → Prop
  | .tryAcquire => False
  | .dead => False
  | _ => True

instance : DecidablePred WorkerPc.Inside
  | .tryAcquire | .dead => inferInstanceAs (Decidable False)
  | .locateToken | .latestIndex | .contiguousIndex _ | .fetch _ _ | .batch _ _ _ | .release =>
    inferInstanceAs (Decidable True)

/-- The worker is about to append the first event of its batch. -/
def WorkerPc.Appending : WorkerPc → Prop
  | .batch processed _ (event :: _) => event.eventIndex = processed
  | _ => False

instance : DecidablePred WorkerPc.Appending
  | .batch processed _ (event :: _) => inferInstanceAs (Decidable (event.eventIndex = processed))
  | .batch _ _ [] | .tryAcquire | .dead | .locateToken | .latestIndex | .contiguousIndex _
  | .fetch _ _ | .release => inferInstanceAs (Decidable False)

/-- What is left of the batch. -/
def WorkerPc.fetched : WorkerPc → List EventRow
  | .batch _ _ events => events
  | _ => []

/-- The row of the worker's key has the worker's holder; it may have expired. -/
def Holds (cfg : JobConfig) (s : Ingestion) (w : ℕ) : Prop :=
  (s.leases (cfg.lockKey w)).map Lease.holder = some (cfg.sessionHolder w)

instance (cfg : JobConfig) (s : Ingestion) (w : ℕ) : Decidable (Holds cfg s w) :=
  inferInstanceAs (Decidable (_ = _))

/-- A worker is let in only while the others that are inside have the same key and another holder. -/
def Apart (cfg : JobConfig) (s : Ingestion) (w v : ℕ) : Prop :=
  v ≠ w → (s.workers v).pc.Inside →
    cfg.lockKey v = cfg.lockKey w ∧ cfg.sessionHolder v ≠ cfg.sessionHolder w

/-- The rows that `v` has fetched under its lease keep their leaves. -/
def KeepsFetched (h : Hashes) (cfg : JobConfig) (s : Ingestion) (rows : List IndexedEvent)
    (v : ℕ) : Prop :=
  Holds cfg s v → ∀ event ∈ (s.workers v).pc.fetched,
    eventLeaf h (s.eventDb.insertEvents rows).events event.eventIndex
      = eventLeaf h s.eventDb.events event.eventIndex

/-- **The condition on a step**, for the workers of `V`: who is let in, that nobody appends who has
lost its row, and that no row is replaced which is in the tree or was fetched for it. -/
def LeasedAmong (h : Hashes) (cfg : JobConfig) (V : ℕ → Prop) (s : Ingestion) :
    IngestAction → Prop
  | .advance w => ((s.workers w).pc = .tryAcquire → ∀ v, V v → Apart cfg s w v)
    ∧ ((s.workers w).pc.Appending → Holds cfg s w)
  | .insertEvents rows =>
    (∀ k, k < latestTreeIndex s.db →
      eventLeaf h (s.eventDb.insertEvents rows).events k = eventLeaf h s.eventDb.events k)
    ∧ ∀ v, V v → KeepsFetched h cfg s rows v
  | _ => True

/-- The condition on a step, for all workers. -/
abbrev Leased (h : Hashes) (cfg : JobConfig) : Ingestion → IngestAction → Prop :=
  LeasedAmong h cfg fun _ => True

/-- What a worker has read of the tree is still so, and its batch consists of stored rows. -/
def WorkerPc.Synced (h : Hashes) (s : Ingestion) : WorkerPc → Prop
  | .contiguousIndex processed => processed = latestTreeIndex s.db
  | .fetch processed _ => processed = latestTreeIndex s.db
  | .batch processed _ events => processed = latestTreeIndex s.db
    ∧ ∀ event ∈ events,
      eventLeaf h s.eventDb.events event.eventIndex = some (leafHash h event.entry)
  | _ => True

/-- Of the workers inside one at most has its row, and this one is in step with the tree. -/
structure LeaseInv (h : Hashes) (cfg : JobConfig) (s : Ingestion) : Prop where
  rows : (s.eventDb.events.map IndexedEvent.eventIndex).Nodup
  unique : ∀ v w, (s.workers v).pc.Inside → (s.workers w).pc.Inside → Holds cfg s v →
    Holds cfg s w → v = w
  synced : ∀ w, (s.workers w).pc.Inside → Holds cfg s w → (s.workers w).pc.Synced h s

section

variable {h : Hashes} {cfg : JobConfig} {s s' : Ingestion}

/-! ### The rows -/

/-- `ON CONFLICT (event_index)` keeps one row an index. -/
theorem upsertRow_nodup {events : List IndexedEvent}
    (hrows : (events.map IndexedEvent.eventIndex).Nodup) (row : IndexedEvent) : ((upsertRow events row).map IndexedEvent.eventIndex).Nodup := by
  unfold upsertRow
  split
  · -- the replaced row has the index of the old one
    have hsame : (events.map fun old =>
        if old.eventIndex = row.eventIndex then row else old).map IndexedEvent.eventIndex
        = events.map IndexedEvent.eventIndex := by
      rw [List.map_map]
      refine List.map_congr_left fun old _ => ?_
      show (if old.eventIndex = row.eventIndex then row else old).eventIndex = old.eventIndex
      split
      · rename_i heq
        exact heq.symm
      · rfl
    rw [hsame]
    exact hrows
  · rename_i hnone
    rw [List.map_append, List.map_singleton]
    refine List.nodup_append.mpr ⟨hrows, List.nodup_singleton _, ?_⟩
    rintro index hindex other hother rfl
    rw [List.mem_singleton] at hother
    subst hother
    obtain ⟨old, hold, heq⟩ := List.mem_map.mp hindex
    exact hnone (rowAt_isSome.mpr ⟨old, hold, congrArg Nat.cast heq⟩)

theorem insertEvents_nodup (hrows : (s.eventDb.events.map IndexedEvent.eventIndex).Nodup)
    (rows : List IndexedEvent) :
    ((s.eventDb.insertEvents rows).events.map IndexedEvent.eventIndex).Nodup := by
  have hfold : ∀ (rows events : List IndexedEvent),
      (events.map IndexedEvent.eventIndex).Nodup →
        ((rows.foldl upsertRow events).map IndexedEvent.eventIndex).Nodup := by
    intro rows
    induction rows with
    | nil => exact fun _ hevents => hevents
    | cons row rows ih => exact fun _ hevents => ih _ (upsertRow_nodup hevents row)
  unfold EventDb.insertEvents
  split
  · exact hfold rows _ hrows
  · exact hrows

/-- With one row an index, the row that is found at an index is the one that is there. -/
theorem rowAt_of_mem {events : List IndexedEvent}
    (hrows : (events.map IndexedEvent.eventIndex).Nodup) {row : IndexedEvent} (hrow : row ∈ events) :
    rowAt events row.eventIndex = some row := by
  obtain ⟨found, hfound⟩ := Option.isSome_iff_exists.mp (rowAt_isSome.mpr ⟨row, hrow, rfl⟩)
  rw [hfound, List.inj_on_of_nodup_map hrows (mem_of_rowAt hfound) hrow
    (Nat.cast_injective (eventIndex_of_rowAt hfound))]

/-- A fetched event makes the leaf of its row. -/
theorem eventLeaf_of_fetchEvents (hrows : (s.eventDb.events.map IndexedEvent.eventIndex).Nodup)
    {startIndex upperIndex limit : ℕ} {event : EventRow}
    (hevent : event ∈ fetchEvents s.eventDb.events startIndex upperIndex limit) :
    eventLeaf h s.eventDb.events event.eventIndex = some (leafHash h event.entry) := by
  obtain ⟨row, hrow, rfl⟩ := List.mem_map.mp hevent
  have hmem := (List.mem_filter.mp ((List.mem_insertionSort _).mp (List.mem_of_mem_take hrow))).1
  show (rowAt s.eventDb.events row.eventIndex).map _ = _
  rw [rowAt_of_mem hrows hmem]
  rfl

/-! ### One step -/

/-- A fetched batch is about the rows at its indices and the length of the tree only. -/
theorem WorkerPc.Synced.congr {pc : WorkerPc} (hlatest : latestTreeIndex s'.db = latestTreeIndex s.db)
    (hleaf : ∀ event ∈ pc.fetched, eventLeaf h s'.eventDb.events event.eventIndex
      = eventLeaf h s.eventDb.events event.eventIndex)
    (hpc : pc.Synced h s) : pc.Synced h s' := by
  cases pc with
  | contiguousIndex processed => exact hpc.trans hlatest.symm
  | fetch processed target => exact hpc.trans hlatest.symm
  | batch processed target events =>
    exact ⟨hpc.1.trans hlatest.symm, fun event he => (hleaf event he).trans (hpc.2 event he)⟩
  | _ => trivial

/-- A step that neither lets a worker in nor touches the tree and the rows: a worker inside with its
row was so before, and goes on in step. -/
theorem LeaseInv.frame (hs : LeaseInv h cfg s)
    (hlatest : latestTreeIndex s'.db = latestTreeIndex s.db)
    (hevents : s'.eventDb.events = s.eventDb.events)
    (hworkers : ∀ w, (s'.workers w).pc.Inside → Holds cfg s' w →
      (s.workers w).pc.Inside ∧ Holds cfg s w ∧ (s'.workers w).pc.Synced h s) :
    LeaseInv h cfg s' where
  rows := by
    rw [hevents]
    exact hs.rows
  unique v w hv hw hholdsv hholdsw :=
    hs.unique v w (hworkers v hv hholdsv).1 (hworkers w hw hholdsw).1 (hworkers v hv hholdsv).2.1
      (hworkers w hw hholdsw).2.1
  synced w hw hholds :=
    (hworkers w hw hholds).2.2.congr hlatest fun event _ => by rw [hevents]

/-- The same where only the worker `w` moves. -/
theorem LeaseInv.setWorker (hs : LeaseInv h cfg s) {w : ℕ} {worker : Worker}
    (hlatest : latestTreeIndex s'.db = latestTreeIndex s.db)
    (hevents : s'.eventDb.events = s.eventDb.events)
    (hupdate : s'.workers = Function.update s.workers w worker)
    (hleases : ∀ v, Holds cfg s' v → Holds cfg s v)
    (hworker : worker.pc.Inside → (s.workers w).pc.Inside
      ∧ (Holds cfg s w → worker.pc.Synced h s)) : LeaseInv h cfg s' := by
  refine hs.frame hlatest hevents fun v hv hholds => ?_
  have hheld := hleases v hholds
  rw [hupdate] at hv ⊢
  by_cases hvw : v = w
  · subst hvw
    rw [Function.update_self] at hv ⊢
    exact ⟨(hworker hv).1, hheld, (hworker hv).2 hheld⟩
  · rw [Function.update_of_ne hvw] at hv ⊢
    exact ⟨hv, hheld, hs.synced v hv hheld⟩

/-- The same where no worker moves. -/
theorem LeaseInv.keep (hs : LeaseInv h cfg s)
    (hlatest : latestTreeIndex s'.db = latestTreeIndex s.db)
    (hevents : s'.eventDb.events = s.eventDb.events) (hworkers : s'.workers = s.workers)
    (hleases : ∀ v, Holds cfg s' v → Holds cfg s v) : LeaseInv h cfg s' := by
  refine hs.frame hlatest hevents fun v hv hholds => ?_
  rw [hworkers] at hv ⊢
  exact ⟨hv, hleases v hholds, hs.synced v hv (hleases v hholds)⟩

/-- A statement that gives the row to nobody who did not have it. -/
theorem holds_of_setLease {key : ℤ} {lease : Option Lease}
    (hlease : ∀ holder, lease.map Lease.holder = some holder →
      (s.leases key).map Lease.holder = some holder) {v : ℕ}
    (hv : Holds cfg (s.setLease key lease) v) : Holds cfg s v := by
  unfold Holds Ingestion.setLease at hv
  dsimp only at hv
  by_cases hkey : cfg.lockKey v = key
  · rw [hkey, Function.update_self] at hv
    rw [Holds, hkey]
    exact hlease _ hv
  · rw [Function.update_of_ne hkey] at hv
    exact hv

/-- Releasing a lease gives nobody another one. -/
theorem holds_of_release {key : ℤ} {holder v : ℕ} (hv : Holds cfg (s.release key holder) v) :
    Holds cfg s v := holds_of_setLease (fun _ => holder_of_releaseLease) hv

/-- **A worker is let in.** The others that are inside have lost the row of the common key to it. -/
theorem LeaseInv.acquire (hs : LeaseInv h cfg s) {w : ℕ} (hpc : (s.workers w).pc = .tryAcquire)
    (hapart : ∀ v, Apart cfg s w v) : LeaseInv h cfg (s.acquire cfg w) := by
  have hother : ∀ lease, lease.map Lease.holder = some (cfg.sessionHolder w) →
      ∀ v, v ≠ w → (s.workers v).pc.Inside →
        ¬ Holds cfg (s.setLease (cfg.lockKey w) lease) v := by
    intro lease hlease v hne hinside hholds
    obtain ⟨hkey, hholder⟩ := hapart v hne hinside
    unfold Holds Ingestion.setLease at hholds
    rw [hkey] at hholds
    dsimp only at hholds
    rw [Function.update_self, hlease] at hholds
    exact hholder (Option.some.inj hholds).symm
  unfold Ingestion.acquire
  split
  · rename_i lease hok
    have hlost := hother lease (by rw [tryAcquireLock_of_true hok]; rfl)
    refine ⟨hs.rows, ?_, ?_⟩
    · -- whoever is inside with its row is the worker that was let in
      have honly : ∀ v, (Function.update s.workers w ⟨.locateToken, true⟩ v).pc.Inside →
          Holds cfg (s.setLease (cfg.lockKey w) lease) v → v = w := by
        intro v hv hholds
        by_contra hne
        rw [Function.update_of_ne hne] at hv
        exact hlost v hne hv hholds
      intro v v' hv hv' hholds hholds'
      exact (honly v hv hholds).trans (honly v' hv' hholds').symm
    · intro v hv hholds
      by_cases hvw : v = w
      · subst hvw
        show WorkerPc.Synced h _ (Function.update s.workers v ⟨.locateToken, true⟩ v).pc
        rw [Function.update_self]
        trivial
      · have hinside : (s.workers v).pc.Inside := by
          have hmove : (Function.update s.workers w ⟨.locateToken, true⟩ v).pc.Inside := hv
          rwa [Function.update_of_ne hvw] at hmove
        exact absurd hholds (hlost v hvw hinside)
  · rename_i lease hrefused
    refine hs.keep rfl rfl rfl fun v => holds_of_setLease fun holder hrow => ?_
    have hcases : (s.leases (cfg.lockKey w)).map Lease.holder = some holder
        ∨ (tryAcquireLock (s.leases (cfg.lockKey w)) s.now (cfg.sessionHolder w)).2 = true
          ∧ holder = cfg.sessionHolder w :=
      holder_of_tryAcquireLock (by rw [hrefused]; exact hrow)
    rw [hrefused] at hcases
    exact hcases.resolve_right fun htaken => Bool.noConfusion htaken.1

/-- The worker with the lease appends the next leaf; no other worker is inside with its row. -/
theorem LeaseInv.append (hs : LeaseInv h cfg s) {w target : ℕ} {event : EventRow}
    {rest : List EventRow}
    (hpc : (s.workers w).pc = .batch event.eventIndex target (event :: rest))
    (hholds : Holds cfg s w) :
    LeaseInv h cfg (s.ingestEvent h cfg w event.eventIndex target event rest) := by
  have hinside : (s.workers w).pc.Inside := by rw [hpc]; trivial
  have hsynced := hs.synced w hinside hholds
  rw [hpc] at hsynced
  obtain ⟨hnext, hbatch⟩ := hsynced
  unfold Ingestion.ingestEvent
  rw [if_neg (lt_irrefl _), if_neg (not_not.mpr rfl)]
  split
  · exact hs.setWorker rfl rfl rfl (fun _ hv => hv) fun _ => ⟨hinside, fun _ => trivial⟩
  · rename_i db append happend
    by_cases hok : s.db.tokenExists = true ∧ latestTreeIndex s.db < i64Max
    · obtain ⟨db', result, hresult, hindex, htree⟩ :=
        appendLeaf_ok h cfg.tree event.entry hok.1 hok.2
      obtain ⟨rfl, rfl⟩ := Prod.mk.inj (Except.ok.inj (hresult.symm.trans happend))
      -- the holder of the lease is alone inside, so no other worker is held to the tree
      have hothers : ∀ v, (Function.update s.workers w
          { s.workers w with pc := .batch result.index target rest } v).pc.Inside →
          Holds cfg s v → v = w := by
        intro v hv hheld
        by_contra hne
        rw [Function.update_of_ne hne] at hv
        exact hne (hs.unique v w hv hinside hheld hholds)
      refine ⟨hs.rows, fun v v' hv hv' hheld hheld' =>
        (hothers v hv hheld).trans (hothers v' hv' hheld').symm, fun v hv hheld => ?_⟩
      obtain rfl := hothers v hv hheld
      show WorkerPc.Synced h _ (Function.update s.workers v _ v).pc
      rw [Function.update_self]
      refine ⟨hindex.trans htree.latest.symm, fun event' he => ?_⟩
      exact hbatch event' (List.mem_cons_of_mem event he)
    -- without the token's row, or past the column's range, nothing is appended
    · obtain ⟨err, herr⟩ := appendLeaf_error h cfg.tree event.entry hok
      rw [herr] at happend
      cases happend

/-- A worker takes its next statement. -/
theorem LeaseInv.advance (hs : LeaseInv h cfg s) {w : ℕ} (ha : Leased h cfg s (.advance w)) :
    LeaseInv h cfg (s.advanceWorker h cfg w (s.workers w).pc) := by
  obtain ⟨hapart, happends⟩ := ha
  -- a statement that only moves the worker
  have hmove : ∀ pc : WorkerPc, (s.workers w).pc.Inside → (Holds cfg s w → pc.Synced h s) →
      LeaseInv h cfg (s.setPc w pc) := fun pc hinside hpc =>
    hs.setWorker rfl rfl rfl (fun _ hv => hv) fun _ => ⟨hinside, hpc⟩
  have hsynced := hs.synced w
  cases hpc : (s.workers w).pc with
  | tryAcquire => exact hs.acquire hpc fun v => hapart hpc v trivial
  | locateToken =>
    refine hmove _ (by rw [hpc]; trivial) fun _ => ?_
    split <;> trivial
  | latestIndex => exact hmove _ (by rw [hpc]; trivial) fun _ => rfl
  | contiguousIndex processed =>
    rw [hpc] at hsynced
    refine hmove _ (by rw [hpc]; trivial) fun hholds => ?_
    split
    · trivial
    · exact hsynced trivial hholds
  | fetch processed target =>
    rw [hpc] at hsynced
    refine hmove _ (by rw [hpc]; trivial) fun hholds => ?_
    unfold Ingestion.fetchBatch
    split
    · trivial
    · split
      · dsimp only
        split
        · trivial
        · exact ⟨hsynced trivial hholds, fun event he => eventLeaf_of_fetchEvents hs.rows he⟩
      · trivial
  | batch processed target batch =>
    cases batch with
    | nil =>
      rw [hpc] at hsynced
      exact hmove _ (by rw [hpc]; trivial) fun hholds => (hsynced trivial hholds).1
    | cons event rest =>
      -- the event that comes next is appended, an older one is skipped
      by_cases heq : event.eventIndex = processed
      · subst heq
        exact hs.append hpc (happends (by rw [hpc]; exact rfl))
      · show LeaseInv h cfg (s.ingestEvent h cfg w processed target event rest)
        rw [hpc] at hsynced
        unfold Ingestion.ingestEvent
        split
        · refine hmove _ (by rw [hpc]; trivial) fun hholds => ?_
          obtain ⟨hlatest, hbatch⟩ := hsynced trivial hholds
          exact ⟨hlatest, fun event' he => hbatch event' (List.mem_cons_of_mem event he)⟩
        · exact hmove _ (by rw [hpc]; trivial) fun _ => trivial
  | release =>
    exact hs.setWorker rfl rfl rfl (fun _ hv => holds_of_release hv) fun hinside =>
      False.elim hinside
  | dead => exact hs

/-- A statement that fails, or a worker that is cancelled: the worker leaves. -/
theorem LeaseInv.leave (hs : LeaseInv h cfg s) (w : ℕ) :
    LeaseInv h cfg (s.failWorker w (s.workers w).pc)
      ∧ LeaseInv h cfg (s.dropWorker cfg w (s.workers w).pc) := by
  have hout : LeaseInv h cfg (s.setWorker w ⟨.tryAcquire, false⟩) :=
    hs.setWorker rfl rfl rfl (fun _ hv => hv) fun hinside => False.elim hinside
  have hrelease : (s.workers w).pc.Inside → LeaseInv h cfg (s.setPc w .release) := fun hinside =>
    hs.setWorker rfl rfl rfl (fun _ hv => hv) fun _ => ⟨hinside, fun _ => trivial⟩
  have hdrop : LeaseInv h cfg ({ s with
      dropped := (cfg.lockKey w, cfg.sessionHolder w) :: s.dropped }.setWorker w
        ⟨.tryAcquire, false⟩) := ⟨hout.rows, hout.unique, fun v hv hheld => hout.synced v hv hheld⟩
  cases hpc : (s.workers w).pc with
  | tryAcquire => exact ⟨hs, hs⟩
  | dead => exact ⟨hs, hs⟩
  | release => exact ⟨hout, hout⟩
  | _ => exact ⟨hrelease (by rw [hpc]; trivial), hdrop⟩

/-- New rows leave those alone that the worker with the lease has fetched. -/
theorem LeaseInv.insertEvents (hs : LeaseInv h cfg s) {rows : List IndexedEvent}
    (ha : Leased h cfg s (.insertEvents rows)) :
    LeaseInv h cfg { s with eventDb := s.eventDb.insertEvents rows } where
  rows := insertEvents_nodup hs.rows rows
  unique := hs.unique
  synced w hw hheld :=
    WorkerPc.Synced.congr (s := s) rfl (ha.2 w trivial hheld) (hs.synced w hw hheld)

/-- **One step under leases**: whoever holds a fetched batch holds the lease, is the only one, and
its batch starts where the tree ends. What appends is therefore the next event. -/
theorem LeaseInv.step (hs : LeaseInv h cfg s) {a : IngestAction} (ha : Leased h cfg s a) :
    LeaseInv h cfg (s.step h cfg a) := by
  cases a with
  | registerToken => exact hs.keep rfl rfl rfl fun _ hv => hv
  | ensureStateRow initialBlock => exact hs.keep rfl rfl rfl fun _ hv => hv
  | insertEvents rows =>
    simp only [Ingestion.step]
    split
    · exact hs.insertEvents ha
    · exact hs
  | advanceContiguousIndex => exact hs.keep rfl rfl rfl fun _ hv => hv
  | tick ms => exact hs.keep rfl rfl rfl fun _ hv => hv
  | advance w => exact hs.advance ha
  | fail w => exact (hs.leave w).1
  | renew w =>
    simp only [Ingestion.step]
    split
    -- a renewal writes no other holder into the row
    · have hrow : ∀ holder, ((renewLease (s.leases (cfg.lockKey w)) s.now
          (cfg.sessionHolder w)).1).map Lease.holder = some holder →
          (s.leases (cfg.lockKey w)).map Lease.holder = some holder :=
        fun _ => holder_of_renewLease
      unfold Ingestion.renew
      split
      · rename_i lease hok
        rw [hok] at hrow
        exact hs.keep rfl rfl rfl fun v => holds_of_setLease hrow
      · rename_i lease hfailed
        rw [hfailed] at hrow
        exact hs.setWorker rfl rfl rfl (fun v hv => holds_of_setLease hrow hv) fun hinside =>
          ⟨hinside, hs.synced w hinside⟩
    · exact hs
  | drop w => exact (hs.leave w).2
  | releaseDropped key holder =>
    simp only [Ingestion.step]
    split
    · exact hs.keep rfl rfl rfl fun v hv => holds_of_release hv
    · exact hs
  | crash w => exact hs.setWorker rfl rfl rfl (fun _ hv => hv) fun hinside => False.elim hinside

/-- Under its lease a worker appends the next event, as it is stored. -/
theorem LeaseInv.inOrder (hs : LeaseInv h cfg s) {a : IngestAction} (ha : Leased h cfg s a) :
    InOrder h s a := by
  cases a with
  | insertEvents rows => exact fun _ => ha.1
  | advance w =>
    show InOrderPc h s (s.workers w).pc
    have hsynced := hs.synced w
    have happends := ha.2
    cases hpc : (s.workers w).pc with
    | batch processed target batch =>
      cases batch with
      | nil => trivial
      | cons event rest =>
        intro heq _ _
        rw [hpc] at hsynced happends
        obtain ⟨hlatest, hbatch⟩ := hsynced trivial (happends heq)
        exact ⟨hlatest.symm, heq ▸ hbatch event List.mem_cons_self⟩
    | _ => trivial
  | _ => trivial

variable (h cfg) in
theorem initial_leaseInv : LeaseInv h cfg Ingestion.initial :=
  ⟨List.nodup_nil, fun _ _ hv => False.elim hv, fun _ hw => False.elim hw⟩

end

/-- **Ingestion under the lease is exactly-once.** With any workers, processes, keys, failures and
interleaving: as long as whoever is let in has the key of those inside and a holder of its own, nobody
appends whose row was taken over or deleted, and no row is replaced that is in the tree or was
fetched for it, every leaf is made of the event with its index, no event twice and none skipped. -/
theorem exactlyOnce_of_leased (h : Hashes) (cfg : JobConfig) (acts : List IngestAction)
    (hacts : Along (Ingestion.step h cfg) (Leased h cfg) Ingestion.initial acts) :
    ExactlyOnce h cfg (run (Ingestion.step h cfg) Ingestion.initial acts) := by
  have hinit : LeaseInv h cfg Ingestion.initial ∧ ExactlyOnce h cfg Ingestion.initial :=
    ⟨initial_leaseInv h cfg, initial_exactlyOnce h cfg⟩
  refine (run_induction_along (I := fun s => LeaseInv h cfg s ∧ ExactlyOnce h cfg s) hinit ?_ hacts).2
  intro s a hs ha
  exact ⟨hs.1.step ha, (hs.2.step_iff a).mp (hs.1.inOrder ha)⟩

/-! ### Two processes -/

namespace Demo

/-- Every worker in a process of its own. -/
def job : JobConfig := ⟨⟨2, 1, Nat.two_pos, Nat.one_pos⟩, fun _ => 10, id, fun _ => 7⟩

def twoEvents : List IngestAction :=
  [.registerToken, .ensureStateRow 0, .insertEvents [⟨0, 5, ⟨1, 10⟩, 1⟩, ⟨1, 5, ⟨2, 20⟩, 1⟩],
    .advanceContiguousIndex]

/-- The lease of a worker runs out after it has fetched its batch; another worker appends the batch,
and the first one goes on. -/
def takenOver : List IngestAction :=
  twoEvents ++ List.replicate 5 (.advance 0) ++ [.tick (leaseTtl + 1)]
    ++ List.replicate 10 (.advance 1)
    ++ [.insertEvents [⟨2, 5, ⟨3, 30⟩, 2⟩], .advanceContiguousIndex, .advance 0]

/-- A worker dies after its first append, and another one goes on when the lease has run out. -/
def handedOver : List IngestAction :=
  twoEvents ++ List.replicate 6 (.advance 0) ++ [.crash 0, .tick (leaseTtl + 1)]
    ++ List.replicate 9 (.advance 1)

end Demo

section

variable {h : Hashes} {cfg : JobConfig} {s : Ingestion}

instance (v w : ℕ) : Decidable (Apart cfg s w v) :=
  inferInstanceAs (Decidable (v ≠ w → (s.workers v).pc.Inside →
    cfg.lockKey v = cfg.lockKey w ∧ cfg.sessionHolder v ≠ cfg.sessionHolder w))

instance (rows : List IndexedEvent) (v : ℕ) : Decidable (KeepsFetched h cfg s rows v) :=
  inferInstanceAs (Decidable (Holds cfg s v → ∀ event ∈ (s.workers v).pc.fetched, _ = _))

instance (ws : List ℕ) : (a : IngestAction) → Decidable (LeasedAmong h cfg (· ∈ ws) s a)
  | .advance w => inferInstanceAs (Decidable
    (((s.workers w).pc = .tryAcquire → ∀ v ∈ ws, Apart cfg s w v)
      ∧ ((s.workers w).pc.Appending → Holds cfg s w)))
  | .insertEvents rows => inferInstanceAs (Decidable
    ((∀ k, k < latestTreeIndex s.db → _ = _) ∧ ∀ v ∈ ws, KeepsFetched h cfg s rows v))
  | .registerToken | .ensureStateRow _ | .advanceContiguousIndex | .tick _ | .fail _ | .renew _
  | .drop _ | .releaseDropped _ _ | .crash _ => inferInstanceAs (Decidable True)

/-- The worker that an action is about. -/
def IngestAction.worker : IngestAction → Option ℕ
  | .advance w | .fail w | .renew w | .drop w | .crash w => some w
  | .registerToken | .ensureStateRow _ | .insertEvents _ | .advanceContiguousIndex | .tick _
  | .releaseDropped _ _ => none

/-- The other workers stay where they are. -/
theorem step_workers {a : IngestAction} {v : ℕ} (hv : a.worker ≠ some v) :
    (s.step h cfg a).workers v = s.workers v := by
  have hset : ∀ {w : ℕ}, some w ≠ some v → ∀ worker : Worker,
      Function.update s.workers w worker v = s.workers v := fun hne worker =>
    Function.update_of_ne (fun heq => hne (congrArg some heq).symm) ..
  cases a with
  | advance w =>
    show (s.advanceWorker h cfg w (s.workers w).pc).workers v = _
    cases (s.workers w).pc with
    | tryAcquire =>
      show (s.acquire cfg w).workers v = _
      unfold Ingestion.acquire
      split
      · exact hset hv _
      · rfl
    | batch processed target batch =>
      cases batch with
      | nil => exact hset hv _
      | cons event rest =>
        show (s.ingestEvent h cfg w processed target event rest).workers v = _
        unfold Ingestion.ingestEvent
        repeat' split
        all_goals exact hset hv _
    | dead => rfl
    | _ => exact hset hv _
  | fail w =>
    show (s.failWorker w (s.workers w).pc).workers v = _
    cases (s.workers w).pc with
    | tryAcquire | dead => rfl
    | _ => exact hset hv _
  | renew w =>
    simp only [Ingestion.step]
    split
    · unfold Ingestion.renew
      split
      · rfl
      · exact hset hv _
    · rfl
  | drop w =>
    show (s.dropWorker cfg w (s.workers w).pc).workers v = _
    cases (s.workers w).pc with
    | tryAcquire | dead => rfl
    | _ => exact hset hv _
  | crash w => exact hset hv _
  -- the rest are no statements of a worker
  | _ =>
    simp only [Ingestion.step]
    try split
    all_goals rfl

/-- In a run of the workers `ws` the condition is about these. -/
theorem along_leased (ws : List ℕ) {acts : List IngestAction}
    (hacts : ∀ a ∈ acts, ∀ w, a.worker = some w → w ∈ ws)
    (hs : ∀ v, v ∉ ws → (s.workers v).pc = .tryAcquire)
    (halong : Along (Ingestion.step h cfg) (LeasedAmong h cfg (· ∈ ws)) s acts) :
    Along (Ingestion.step h cfg) (Leased h cfg) s acts := by
  induction acts generalizing s with
  | nil => trivial
  | cons a acts ih =>
    obtain ⟨ha, hrest⟩ := halong
    refine ⟨?_, ih (fun b hb => hacts b (List.mem_cons_of_mem a hb)) (fun v hv => ?_) hrest⟩
    -- a worker outside the list has not acquired anything yet
    · cases a with
      | advance w =>
        refine ⟨fun hpc v _ => ?_, ha.2⟩
        by_cases hv : v ∈ ws
        · exact ha.1 hpc v hv
        · intro _ hinside
          rw [hs v hv] at hinside
          exact False.elim hinside
      | insertEvents rows =>
        refine ⟨ha.1, fun v _ => ?_⟩
        by_cases hv : v ∈ ws
        · exact ha.2 v hv
        · intro _ event hevent
          rw [hs v hv] at hevent
          cases hevent
      | _ => trivial
    · rw [step_workers fun heq => hv (hacts a List.mem_cons_self v heq)]
      exact hs v hv

end

/-- A worker dies in its batch, and its successor appends the rest. -/
theorem exactlyOnce_of_leased_handedOver :
    ExactlyOnce realHashes Demo.job
        (run (Ingestion.step realHashes Demo.job) Ingestion.initial Demo.handedOver)
      ∧ (run (Ingestion.step realHashes Demo.job) Ingestion.initial
        Demo.handedOver).appended.map EventRow.eventIndex = [0, 1] := by
  refine ⟨exactlyOnce_of_leased realHashes Demo.job Demo.handedOver ?_, by decide +kernel⟩
  refine along_leased [0, 1] ?_ (fun _ _ => rfl) ?_
  · decide +kernel
  · decide +kernel

/-- The event appended twice is in the place of the third one. -/
theorem not_exactlyOnce :
    ¬ ExactlyOnce realHashes Demo.job
      (run (Ingestion.step realHashes Demo.job) Ingestion.initial Demo.takenOver) := by
  intro hexact
  have hwrong : eventLeaf realHashes (run (Ingestion.step realHashes Demo.job) Ingestion.initial
      Demo.takenOver).eventDb.events 2 ≠ some (leafAt realHashes Demo.job.tree
        (run (Ingestion.step realHashes Demo.job) Ingestion.initial Demo.takenOver).db 2) := by
    decide +kernel
  exact hwrong (hexact.leaves 2 (by decide +kernel))

end Indexer

end Zerc20
