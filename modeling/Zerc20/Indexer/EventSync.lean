import Zerc20.Indexer.TreeDb
import Zerc20.Lib.Statements

/-!
# Event sync

`indexer/src/events/mod.rs`: `EventIndexer::sync` copies the `IndexedTransfer` events of a token
into a table. It scans the blocks since the last sync, with an overlap, moves a pointer over the
rows that are there without a gap, and then looks for the events that the gaps hide, between the
block of the last row before a gap and that of the first row after it.

Every statement and every call to the provider is a statement of its own; a transaction is one. The
world has, beside the tables of the token and the provider, a component `rest` that the sync does
not touch. `rounds` bounds the rounds of the loops that are followed.
-/

namespace Zerc20

namespace Indexer

open Statements Prog

/-! ## Tables and provider -/

/-- An `IndexedEvent`, and a row of `indexed_transfer_events`. -/
structure IndexedEvent where
  eventIndex : ℕ
  src : Address
  /-- `to` and `value`. -/
  entry : Entry
  ethBlockNumber : ℕ
  deriving DecidableEq

/-- The row of `event_indexer_state`. -/
structure IndexerStateRow where
  contiguousIndex : ℤ
  contiguousBlock : Option ℤ
  lastSyncedBlock : ℤ
  lastSeenContractIndex : Option ℤ
  deriving DecidableEq

/-- The rows of one token. -/
structure EventDb where
  events : List IndexedEvent
  state : Option IndexerStateRow
  deriving DecidableEq

def EventDb.initial : EventDb := ⟨[], none⟩

/-- What the provider of `ZErc20Contract` answers at a moment. -/
structure Provider where
  latestBlock : ℕ
  index : ℕ
  getIndexedTransferEvents : ℕ → ℕ → List IndexedEvent

structure SyncWorld (ρ : Type) where
  db : EventDb
  provider : Provider
  rest : ρ

structure EventIndexer where
  blockSpan : ℕ
  forwardScanOverlap : ℕ
  deployedBlockNumber : ℕ
  /-- `EventIndexerConfig::new` refuses a span of zero. -/
  blockSpan_pos : 0 < blockSpan

inductive EventIndexerError where
  | i64ToU64 (label : String) (value : ℤ)
  | u64ToI64 (label : String) (value : ℕ)
  | database (action : String)
  | contract (action : String)
  /-- A loop is still running after the rounds that are followed. -/
  | outOfRounds
  deriving DecidableEq

abbrev Sync (ρ α : Type) : Type := Prog (SyncWorld ρ) EventIndexerError α

namespace EventIndexer

def toU64 (label : String) (value : ℤ) : Except EventIndexerError ℕ :=
  if 0 ≤ value then .ok value.toNat else .error (.i64ToU64 label value)

def toI64 (label : String) (value : ℕ) : Except EventIndexerError ℕ :=
  if value ≤ i64Max then .ok value else .error (.u64ToI64 label value)

def optI64ToU64 (label : String) : Option ℤ → Except EventIndexerError (Option ℕ)
  | none => .ok none
  | some value => (toU64 label value).map some

/-- The row of `indexed_transfer_events` with an index. -/
def rowAt (events : List IndexedEvent) (index : ℤ) : Option IndexedEvent :=
  events.find? fun row => (row.eventIndex : ℤ) = index

/-- `ON CONFLICT (token_id, event_index) DO UPDATE`. -/
def upsertRow (events : List IndexedEvent) (row : IndexedEvent) : List IndexedEvent :=
  if (rowAt events row.eventIndex).isSome then
    events.map fun old => if old.eventIndex = row.eventIndex then row else old
  else events ++ [row]

section

variable {ρ : Type}

def setState (w : SyncWorld ρ) (row : Option IndexerStateRow) : SyncWorld ρ :=
  { w with db := { w.db with state := row } }

/-- `insert_events`, one transaction. -/
def insertEvents (events : List IndexedEvent) : Sync ρ Unit :=
  if events.isEmpty then pure ()
  else do
    let _ ← ofExcept (events.mapM fun event => toI64 "event index" event.eventIndex)
    let _ ← ofExcept (events.mapM fun event => toI64 "event block number" event.ethBlockNumber)
    write (.database "commit events insert transaction") fun w =>
      { w with db := { w.db with events := events.foldl upsertRow w.db.events } }

/-- `IndexerState`. -/
structure IndexerState where
  contiguousIndex : ℤ
  contiguousBlock : Option ℕ
  lastSyncedBlock : ℕ
  lastSeenContractIndex : Option ℕ
  deriving DecidableEq

def indexerStateFromRow (row : IndexerStateRow) : Except EventIndexerError IndexerState := do
  let contiguousBlock ← optI64ToU64 "contiguous_block" row.contiguousBlock
  let lastSyncedBlock ← toU64 "last_synced_block" row.lastSyncedBlock
  let lastSeenContractIndex ← optI64ToU64 "last_seen_contract_index" row.lastSeenContractIndex
  return ⟨row.contiguousIndex, contiguousBlock, lastSyncedBlock, lastSeenContractIndex⟩

/-- `fetch_one` fails where there is no row. -/
def fetchOne {α : Type} (action : String) : Option α → Sync ρ α
  | some a => pure a
  | none => fail (.database action)

def ensureStateRow (ix : EventIndexer) : Sync ρ IndexerState := do
  let initialBlock ← ofExcept
    (toI64 "deployed_block_number for initial state" ix.deployedBlockNumber)
  write (.database "insert initial indexer state") fun w =>
    setState w (some (w.db.state.getD ⟨-1, none, initialBlock, none⟩))
  let row ← read (.database "load indexer state") fun w => w.db.state
  let row ← fetchOne "load indexer state" row
  if row.lastSyncedBlock < initialBlock then do
    write (.database "update initial last_synced_block") fun w =>
      setState w (w.db.state.map fun row => { row with lastSyncedBlock := initialBlock })
    ofExcept (indexerStateFromRow { row with lastSyncedBlock := initialBlock })
  else ofExcept (indexerStateFromRow row)

def persistSyncWatermark (latestBlock contractNextIndex : ℕ) : Sync ρ Unit := do
  let lastBlock ← ofExcept (toI64 "last_synced_block" latestBlock)
  let nextIndex ← ofExcept (toI64 "last_seen_contract_index" contractNextIndex)
  write (.database "update sync watermark") fun w =>
    setState w (w.db.state.map fun row =>
      { row with lastSyncedBlock := lastBlock, lastSeenContractIndex := some (nextIndex : ℤ) })

/-- The loop of `advance_contiguous_index`, which finds a new row in every iteration but the
last. -/
def advanceLoop (events : List IndexedEvent) : ℕ → IndexerStateRow → IndexerStateRow
  | 0, row => row
  | n + 1, row =>
    match rowAt events (row.contiguousIndex + 1) with
    | some event => advanceLoop events n { row with
        contiguousIndex := event.eventIndex, contiguousBlock := some event.ethBlockNumber }
    | none => row

def advanceRow (db : EventDb) : Option IndexerStateRow :=
  db.state.map (advanceLoop db.events db.events.length)

/-- `advance_contiguous_index`, one transaction. -/
def advanceContiguousIndex : Sync ρ IndexerState := do
  let row ← stmt (.database "commit contiguous advancement") fun w =>
    (advanceRow w.db, setState w (advanceRow w.db))
  let row ← fetchOne "lock indexer state" row
  ofExcept (indexerStateFromRow row)

/-! ## Scans -/

/-- The loop of `scan_chunked`. The `saturating_add` of the source is cut off by `toBlock` before it
could saturate. -/
def scanLoop (ix : EventIndexer) (toBlock : ℕ) : ℕ → ℕ → Sync ρ Unit
  | 0, _ => fail .outOfRounds
  | rounds + 1, fromBlock =>
    if toBlock < fromBlock then pure ()
    else do
      let last := min toBlock (fromBlock + (ix.blockSpan - 1))
      let fetched ← read (.contract "get_indexed_transfer_events") fun w =>
        w.provider.getIndexedTransferEvents fromBlock last
      insertEvents fetched
      if last = toBlock then pure ()
      else scanLoop ix toBlock rounds (last + 1 - min ix.forwardScanOverlap (last + 1))

def scanChunked (ix : EventIndexer) (rounds fromBlock toBlock : ℕ) : Sync ρ Unit :=
  if toBlock < fromBlock then pure () else scanLoop ix toBlock rounds fromBlock

structure GapAnchor where
  fromBlock : ℕ
  toBlock : ℕ

def gapAnchor (fromBlock toBlock : ℕ) : Option GapAnchor :=
  if toBlock < fromBlock then none else some ⟨fromBlock, toBlock⟩

/-- `ORDER BY event_index ASC LIMIT 1`: the row with the least index from `gapStart` on. -/
def nextKnown (events : List IndexedEvent) (gapStart : ℕ) : Option IndexedEvent :=
  ((events.map IndexedEvent.eventIndex).filter fun index => gapStart ≤ index).min?.bind
    fun index => rowAt events index

def findGapAnchor (ix : EventIndexer) (state : IndexerState) (targetLastIndex latestBlock : ℕ) :
    Sync ρ (Option GapAnchor) :=
  let gapStart := (max (state.contiguousIndex + 1) 0).toNat
  let fromBlock := max (state.contiguousBlock.getD ix.deployedBlockNumber) ix.deployedBlockNumber
  if targetLastIndex < gapStart then pure none
  else do
    let _ ← ofExcept (toI64 "gap start index" gapStart)
    let known ← read (.database "locate next known event for gap") fun w =>
      nextKnown w.db.events gapStart
    match known with
    | some row =>
      if row.eventIndex ≤ gapStart then pure none else pure (gapAnchor fromBlock row.ethBlockNumber)
    | none => pure (gapAnchor fromBlock latestBlock)

/-- The loop of `backfill_missing_indices`. -/
def backfillLoop (ix : EventIndexer) (rounds targetLastIndex latestBlock : ℕ) :
    ℕ → IndexerState → Sync ρ IndexerState
  | 0, _ => fail .outOfRounds
  | n + 1, state =>
    if 0 ≤ state.contiguousIndex ∧ targetLastIndex ≤ state.contiguousIndex.toNat then pure state
    else do
      match ← findGapAnchor ix state targetLastIndex latestBlock with
      | none => pure state
      | some anchor => do
        scanChunked ix rounds anchor.fromBlock anchor.toBlock
        let nextState ← advanceContiguousIndex
        if nextState.contiguousIndex ≤ state.contiguousIndex then pure nextState
        else backfillLoop ix rounds targetLastIndex latestBlock n nextState

/-- `expectedLastIndex` is `contract_next_index.checked_sub(1)`. -/
def backfillMissingIndices (ix : EventIndexer) (rounds : ℕ) (state : IndexerState)
    (expectedLastIndex : Option ℕ) (latestBlock : ℕ) : Sync ρ IndexerState :=
  match expectedLastIndex with
  | none => pure state
  | some targetLastIndex => backfillLoop ix rounds targetLastIndex latestBlock rounds state

/-- `EventIndexerPartitions::ensure` changes no row. -/
def ensurePartitions : Sync ρ Unit := do
  write (.database "ensure events partition") id
  write (.database "ensure state partition") id

def checkedPred : ℕ → Option ℕ
  | 0 => none
  | n + 1 => some n

def sync (ix : EventIndexer) (rounds : ℕ) : Sync ρ Unit := do
  ensurePartitions
  let state ← ensureStateRow ix
  let latestBlock ← read (.contract "latest_block") fun w => w.provider.latestBlock
  let contractNextIndex ← read (.contract "index") fun w => w.provider.index
  let forwardStart := max (state.lastSyncedBlock - ix.forwardScanOverlap) ix.deployedBlockNumber
  scanChunked ix rounds forwardStart latestBlock
  persistSyncWatermark latestBlock contractNextIndex
  let state ← advanceContiguousIndex
  let _ ← backfillMissingIndices ix rounds state (checkedPred contractNextIndex) latestBlock
  pure ()

end

/-! ## Rows -/

section

variable {events : List IndexedEvent} {row : IndexedEvent}

theorem eventIndex_of_rowAt {index : ℤ} (hrow : rowAt events index = some row) :
    (row.eventIndex : ℤ) = index := by
  simpa using List.find?_some hrow

theorem mem_of_rowAt {index : ℤ} (hrow : rowAt events index = some row) : row ∈ events :=
  List.mem_of_find?_eq_some hrow

/-- There is a row at an index when one of the rows has it. -/
theorem rowAt_isSome {index : ℤ} :
    (rowAt events index).isSome ↔ ∃ row ∈ events, (row.eventIndex : ℤ) = index := by
  simp [rowAt]

/-- Replacing the row of an index leaves the other rows alone. -/
theorem rowAt_map_replace (events : List IndexedEvent) (row : IndexedEvent) (index : ℤ) :
    rowAt (events.map fun old => if old.eventIndex = row.eventIndex then row else old) index
      = if index = row.eventIndex then (rowAt events index).map fun _ => row
        else rowAt events index := by
  induction events with
  | nil => simp [rowAt]
  | cons old rest ih =>
    simp only [rowAt, List.map_cons, List.find?_cons] at ih ⊢
    by_cases hold : old.eventIndex = row.eventIndex <;> by_cases hindex : index = row.eventIndex
    · simp [hold, hindex]
    · have hne : ¬ (row.eventIndex : ℤ) = index := fun heq => hindex heq.symm
      simp only [hold, hindex, hne, decide_false, if_true, if_false] at ih ⊢
      exact ih
    · have hne : ¬ (old.eventIndex : ℤ) = index := by omega
      simp only [hold, hindex, if_true, if_false] at ih hne ⊢
      simp only [hne, decide_false, ih]
    · simp only [hold, hindex, if_false] at ih ⊢
      split
      · rfl
      · exact ih

/-- The upsert writes the row at its own index. -/
theorem rowAt_upsertRow (events : List IndexedEvent) (row : IndexedEvent) (index : ℤ) :
    rowAt (upsertRow events row) index
      = if index = row.eventIndex then some row else rowAt events index := by
  unfold upsertRow
  split
  · rename_i hsome
    rw [rowAt_map_replace]
    split
    · rename_i hindex
      rw [hindex]
      obtain ⟨old, hold⟩ := Option.isSome_iff_exists.mp hsome
      rw [hold]
      rfl
    · rfl
  · rename_i hnone
    rw [Bool.not_eq_true, Option.isSome_eq_false_iff, Option.isNone_iff_eq_none] at hnone
    unfold rowAt at hnone ⊢
    rw [List.find?_append]
    split
    · rename_i hindex
      rw [hindex, hnone]
      simp
    · rename_i hindex
      have hne : ¬ (row.eventIndex : ℤ) = index := fun heq => hindex heq.symm
      simp [hne]

/-- An inserted batch decides the rows with its indices and leaves the others. -/
theorem rowAt_foldl_upsertRow (batch events : List IndexedEvent) (index : ℤ) :
    (∃ row ∈ batch, (row.eventIndex : ℤ) = index
        ∧ rowAt (batch.foldl upsertRow events) index = some row)
      ∨ ((∀ row ∈ batch, (row.eventIndex : ℤ) ≠ index)
        ∧ rowAt (batch.foldl upsertRow events) index = rowAt events index) := by
  -- the last row of the batch with the index wins
  induction batch generalizing events with
  | nil => exact Or.inr ⟨fun _ hrow => absurd hrow List.not_mem_nil, rfl⟩
  | cons row rest ih =>
    rw [List.foldl_cons]
    rcases ih (upsertRow events row) with ⟨last, hmem, hindex, hlast⟩ | ⟨hnone, hrest⟩
    · exact Or.inl ⟨last, List.mem_cons_of_mem _ hmem, hindex, hlast⟩
    · by_cases hrow : (row.eventIndex : ℤ) = index
      · refine Or.inl ⟨row, List.mem_cons_self, hrow, ?_⟩
        rw [hrest, rowAt_upsertRow, if_pos hrow.symm]
      · refine Or.inr ⟨?_, ?_⟩
        · intro other hother
          rcases List.mem_cons.mp hother with rfl | hother
          · exact hrow
          · exact hnone other hother
        · rw [hrest, rowAt_upsertRow, if_neg fun heq => hrow heq.symm]

theorem rowAt_isSome_foldl (batch : List IndexedEvent) {index : ℤ}
    (hrow : (rowAt events index).isSome) :
    (rowAt (batch.foldl upsertRow events) index).isSome := by
  rcases rowAt_foldl_upsertRow batch events index with ⟨row, -, -, hnew⟩ | ⟨-, hold⟩
  · rw [hnew]
    rfl
  · rw [hold]
    exact hrow

end

/-! ## The contiguous pointer -/

section

variable {events : List IndexedEvent}

/-- All rows up to an index are stored. -/
def StoredTo (events : List IndexedEvent) (last : ℤ) : Prop :=
  ∀ k : ℤ, 0 ≤ k → k ≤ last → (rowAt events k).isSome

theorem StoredTo.succ {last : ℤ} (hlast : StoredTo events last)
    (hnext : (rowAt events (last + 1)).isSome) : StoredTo events (last + 1) := by
  intro k hk hle
  by_cases hnew : k = last + 1
  · rw [hnew]
    exact hnext
  · exact hlast k hk (by omega)

/-- What the loop of `advance_contiguous_index` does with the pointer. -/
theorem advanceLoop_spec (events : List IndexedEvent) (n : ℕ) (row : IndexerStateRow)
    (hrow : StoredTo events row.contiguousIndex) :
    StoredTo events (advanceLoop events n row).contiguousIndex
      ∧ row.contiguousIndex ≤ (advanceLoop events n row).contiguousIndex
      ∧ (advanceLoop events n row).lastSyncedBlock = row.lastSyncedBlock
      ∧ (advanceLoop events n row).lastSeenContractIndex = row.lastSeenContractIndex := by
  induction n generalizing row with
  | zero => exact ⟨hrow, le_refl _, rfl, rfl⟩
  | succ n ih =>
    simp only [advanceLoop]
    cases hnext : rowAt events (row.contiguousIndex + 1) with
    | none => exact ⟨hrow, le_refl _, rfl, rfl⟩
    -- the next row is there, so the pointer moves over it
    | some event =>
      have hindex := eventIndex_of_rowAt hnext
      have hstored : StoredTo events event.eventIndex := by
        rw [hindex]
        exact hrow.succ (by rw [hnext]; rfl)
      obtain ⟨hall, hle, hsynced, hseen⟩ := ih { row with
        contiguousIndex := event.eventIndex, contiguousBlock := some event.ethBlockNumber } hstored
      have hup : row.contiguousIndex ≤ event.eventIndex := by omega
      exact ⟨hall, le_trans hup hle, hsynced, hseen⟩

/-- The rows beyond the pointer. -/
def beyond (events : List IndexedEvent) (last : ℤ) : List IndexedEvent :=
  events.filter fun row => last < row.eventIndex

/-- With every round of the loop there are fewer rows ahead. -/
theorem beyond_lt {last : ℤ} (hnext : (rowAt events (last + 1)).isSome) :
    (beyond events (last + 1)).length < (beyond events last).length := by
  obtain ⟨row, hmem, hindex⟩ := rowAt_isSome.mp hnext
  have hsub : beyond events (last + 1)
      = (beyond events last).filter fun row => last + 1 < row.eventIndex := by
    rw [beyond, beyond, List.filter_filter]
    refine List.filter_congr fun other _ => ?_
    simp only [← Bool.decide_and, decide_eq_decide]
    omega
  rw [hsub]
  refine List.length_filter_lt_length_iff_exists.mpr ⟨row, ?_, ?_⟩
  · rw [beyond, List.mem_filter]
    exact ⟨hmem, by simp; omega⟩
  · simp
    omega

/-- The loop ends at a gap. -/
theorem advanceLoop_gap (events : List IndexedEvent) (n : ℕ) (row : IndexerStateRow)
    (hn : (beyond events row.contiguousIndex).length ≤ n) :
    rowAt events ((advanceLoop events n row).contiguousIndex + 1) = none := by
  -- each turn leaves one row less beyond the pointer
  induction n generalizing row with
  | zero =>
    simp only [advanceLoop]
    cases hnext : rowAt events (row.contiguousIndex + 1) with
    | none => rfl
    | some event =>
      have hlt : (beyond events (row.contiguousIndex + 1)).length
          < (beyond events row.contiguousIndex).length := beyond_lt (by rw [hnext]; rfl)
      omega
  | succ n ih =>
    simp only [advanceLoop]
    cases hnext : rowAt events (row.contiguousIndex + 1) with
    | none => exact hnext
    | some event =>
      have hlt : (beyond events (row.contiguousIndex + 1)).length
          < (beyond events row.contiguousIndex).length := beyond_lt (by rw [hnext]; rfl)
      have hindex := eventIndex_of_rowAt hnext
      refine ih _ ?_
      simp only [hindex]
      omega

end

/-! ## What a sync keeps -/

/-- The tables after a batch. -/
def inserted {ρ : Type} (batch : List IndexedEvent) (w : SyncWorld ρ) : SyncWorld ρ :=
  { w with db := { w.db with events := batch.foldl upsertRow w.db.events } }

/-- What holds throughout a sync because each of its writes keeps it. -/
structure TableInv {ρ : Type} (R : SyncWorld ρ → SyncWorld ρ → Prop) (J : SyncWorld ρ → Prop) :
    Prop where
  move : ∀ w w', J w → R w w' → J w'
  insert : ∀ w batch, J w → J (inserted batch w)
  newRow : ∀ w (block : ℤ), J w → J (setState w (some (w.db.state.getD ⟨-1, none, block, none⟩)))
  /-- A change of the state row that keeps the pointer. -/
  touch : ∀ w (f : IndexerStateRow → IndexerStateRow),
    (∀ row, (f row).contiguousIndex = row.contiguousIndex) → J w →
      J (setState w (w.db.state.map f))
  advance : ∀ w, J w → J (setState w (advanceRow w.db))

section

variable {ρ : Type} {R : SyncWorld ρ → SyncWorld ρ → Prop} {J : SyncWorld ρ → Prop}

/-- A call to the provider writes nothing. -/
theorem fetchOne_keeps {α : Type} (action : String) (a : Option α) :
    Keeps R J (fetchOne action a : Sync ρ α) := by
  cases a with
  | none => exact .fail _
  | some a => exact .pure a

theorem findGapAnchor_keeps (hmove : ∀ w w', J w → R w w' → J w') (ix : EventIndexer)
    (state : IndexerState) (target latest : ℕ) :
    Keeps R J (findGapAnchor ix state target latest : Sync ρ (Option GapAnchor)) := by
  unfold findGapAnchor
  dsimp only
  split
  · exact .pure _
  · refine .bind (.ofExcept _) fun _ => .bind (.read hmove) fun known => ?_
    cases known with
    | none => exact .pure _
    | some row =>
      dsimp only
      split <;> exact .pure _

/-- The loop keeps what its two writes keep. -/
theorem backfillLoop_keeps (hmove : ∀ w w', J w → R w w' → J w') {ix : EventIndexer} {rounds : ℕ}
    (hscan : ∀ a b, Keeps R J (scanChunked ix rounds a b : Sync ρ Unit))
    (hadvance : Keeps R J (advanceContiguousIndex : Sync ρ IndexerState))
    (target latest n : ℕ) (state : IndexerState) :
    Keeps R J (backfillLoop ix rounds target latest n state : Sync ρ IndexerState) := by
  induction n generalizing state with
  | zero => exact .fail _
  | succ n ih =>
    unfold backfillLoop
    split
    · exact .pure _
    · refine .bind (findGapAnchor_keeps hmove ix state target latest) fun anchor => ?_
      cases anchor with
      | none => exact .pure _
      | some anchor =>
        refine .bind (hscan _ _) fun _ => .bind hadvance fun next => ?_
        split
        · exact .pure _
        · exact ih next

theorem backfillMissingIndices_keeps (hmove : ∀ w w', J w → R w w' → J w') {ix : EventIndexer}
    {rounds : ℕ} (hscan : ∀ a b, Keeps R J (scanChunked ix rounds a b : Sync ρ Unit))
    (hadvance : Keeps R J (advanceContiguousIndex : Sync ρ IndexerState))
    (state : IndexerState) (expected : Option ℕ) (latest : ℕ) :
    Keeps R J (backfillMissingIndices ix rounds state expected latest : Sync ρ IndexerState) := by
  unfold backfillMissingIndices
  split
  · exact .pure _
  · exact backfillLoop_keeps hmove hscan hadvance _ latest rounds state

theorem insertEvents_keeps (hJ : TableInv R J) (batch : List IndexedEvent) :
    Keeps R J (insertEvents batch : Sync ρ Unit) := by
  unfold insertEvents
  split
  · exact .pure _
  · exact .bind (.ofExcept _) fun _ => .bind (.ofExcept _) fun _ =>
      .write hJ.move fun w hw => hJ.insert w batch hw

/-- `ensure_state_row` writes the state row, if there is none. -/
theorem ensureStateRow_keeps (hJ : TableInv R J) (ix : EventIndexer) :
    Keeps R J (ensureStateRow ix : Sync ρ IndexerState) := by
  unfold ensureStateRow
  refine .bind (.ofExcept _) fun initialBlock => .bind ?_ fun _ =>
    .bind (.read hJ.move) fun row => .bind (fetchOne_keeps _ _) fun row => ?_
  · exact .write hJ.move fun w hw => hJ.newRow w _ hw
  · split
    · exact .bind (.write hJ.move fun w hw => hJ.touch w _ (fun _ => rfl) hw) fun _ => .ofExcept _
    · exact .ofExcept _

/-- `persist_sync_watermark` writes the watermarks. -/
theorem persistSyncWatermark_keeps (hJ : TableInv R J) (latestBlock contractNextIndex : ℕ) :
    Keeps R J (persistSyncWatermark latestBlock contractNextIndex : Sync ρ Unit) := by
  unfold persistSyncWatermark
  exact .bind (.ofExcept _) fun _ => .bind (.ofExcept _) fun _ =>
    .write hJ.move fun w hw => hJ.touch w _ (fun _ => rfl) hw

/-- `advance_contiguous_index` moves the pointer. -/
theorem advanceContiguousIndex_keeps (hJ : TableInv R J) :
    Keeps R J (advanceContiguousIndex : Sync ρ IndexerState) :=
  .bind (.stmt hJ.move hJ.advance) fun row => .bind (fetchOne_keeps _ row) fun _ => .ofExcept _

/-- The scan inserts the events of one range after the other. -/
theorem scanLoop_keeps (hJ : TableInv R J) (ix : EventIndexer) (toBlock rounds fromBlock : ℕ) :
    Keeps R J (scanLoop ix toBlock rounds fromBlock : Sync ρ Unit) := by
  induction rounds generalizing fromBlock with
  | zero => exact .fail _
  | succ rounds ih =>
    unfold scanLoop
    split
    · exact .pure _
    · refine .bind (.read hJ.move) fun fetched => .bind (insertEvents_keeps hJ _) fun _ => ?_
      split
      · exact .pure _
      · exact ih _

/-- So `scan_chunked` keeps what they keep. -/
theorem scanChunked_keeps (hJ : TableInv R J) (ix : EventIndexer) (rounds fromBlock toBlock : ℕ) :
    Keeps R J (scanChunked ix rounds fromBlock toBlock : Sync ρ Unit) := by
  unfold scanChunked
  split
  · exact .pure _
  · exact scanLoop_keeps hJ ix toBlock rounds fromBlock

/-- **A sync keeps what its writes keep**, wherever it stops and whatever the provider answers. -/
theorem sync_keeps (hJ : TableInv R J) (ix : EventIndexer) (rounds : ℕ) :
    Keeps R J (sync ix rounds : Sync ρ Unit) := by
  unfold sync ensurePartitions
  refine .bind (.bind (.write hJ.move fun _ hw => hw) fun _ => .write hJ.move fun _ hw => hw)
    fun _ => .bind (ensureStateRow_keeps hJ ix) fun state => .bind (.read hJ.move) fun latest =>
    .bind (.read hJ.move) fun index => .bind (scanChunked_keeps hJ ix rounds _ latest) fun _ =>
    .bind (persistSyncWatermark_keeps hJ latest index) fun _ =>
    .bind (advanceContiguousIndex_keeps hJ) fun state => .bind ?_ fun _ => .pure _
  exact backfillMissingIndices_keeps hJ.move (scanChunked_keeps hJ ix rounds)
    (advanceContiguousIndex_keeps hJ) state _ latest

end

/-! ## What a sync never undoes -/

/-- `contiguous_index`, which is `-1` for a token without a row. -/
def contiguousIndex (db : EventDb) : ℤ := (db.state.map IndexerStateRow.contiguousIndex).getD (-1)

/-- Rows `0..=contiguous_index` are stored. -/
def NoGap (db : EventDb) : Prop := StoredTo db.events (contiguousIndex db)

section

variable {ρ : Type}

/-- Others that write to the tables only as a sync does: the pointer does not go back, and no gap
opens below it. -/
def Advances (w w' : SyncWorld ρ) : Prop :=
  NoGap w.db → NoGap w'.db ∧ contiguousIndex w.db ≤ contiguousIndex w'.db

/-- The pointer is over stored rows, and not below `low`. -/
def PointedFrom (low : ℤ) (w : SyncWorld ρ) : Prop := NoGap w.db ∧ low ≤ contiguousIndex w.db

variable {low : ℤ}

/-- The others leave the rows of the sync alone. -/
theorem PointedFrom.move (w w' : SyncWorld ρ) (hw : PointedFrom low w) (hmove : Advances w w') :
    PointedFrom low w' :=
  ⟨(hmove hw.1).1, le_trans hw.2 (hmove hw.1).2⟩

/-- A change of the state row that keeps the pointer. -/
theorem PointedFrom.setState {w : SyncWorld ρ} {row : Option IndexerStateRow}
    (hrow : contiguousIndex ⟨w.db.events, row⟩ = contiguousIndex w.db) (hw : PointedFrom low w) :
    PointedFrom low (setState w row) := by
  refine ⟨?_, ?_⟩
  · show StoredTo w.db.events (contiguousIndex ⟨w.db.events, row⟩)
    rw [hrow]
    exact hw.1
  · show low ≤ contiguousIndex ⟨w.db.events, row⟩
    rw [hrow]
    exact hw.2

/-- An update of the other columns leaves the pointer. -/
theorem contiguousIndex_map (db : EventDb) (f : IndexerStateRow → IndexerStateRow)
    (hf : ∀ row, (f row).contiguousIndex = row.contiguousIndex) :
    contiguousIndex ⟨db.events, db.state.map f⟩ = contiguousIndex db := by
  unfold contiguousIndex
  cases db.state with
  | none => rfl
  | some row => exact hf row

theorem contiguousIndex_getD (db : EventDb) (block : ℤ) :
    contiguousIndex ⟨db.events, some (db.state.getD ⟨-1, none, block, none⟩)⟩
      = contiguousIndex db := by
  unfold contiguousIndex
  cases db.state <;> rfl

theorem PointedFrom.advance (w : SyncWorld ρ) (hw : PointedFrom low w) :
    PointedFrom low (EventIndexer.setState w (advanceRow w.db)) := by
  unfold PointedFrom NoGap contiguousIndex at hw
  show StoredTo w.db.events (contiguousIndex ⟨w.db.events, advanceRow w.db⟩)
    ∧ low ≤ contiguousIndex ⟨w.db.events, advanceRow w.db⟩
  unfold contiguousIndex advanceRow
  cases hstate : w.db.state with
  | none =>
    rw [hstate] at hw
    exact hw
  | some row =>
    rw [hstate] at hw
    obtain ⟨hall, hle, -, -⟩ := advanceLoop_spec w.db.events w.db.events.length row hw.1
    exact ⟨hall, le_trans hw.2 hle⟩

/-- **No write of a sync moves the pointer back or opens a gap below it.** -/
theorem tableInv_pointedFrom (low : ℤ) :
    TableInv (ρ := ρ) Advances (PointedFrom low) where
  move := PointedFrom.move
  insert _ batch hw := ⟨fun k hk hle => rowAt_isSome_foldl batch (hw.1 k hk hle), hw.2⟩
  newRow w block hw := hw.setState (contiguousIndex_getD w.db block)
  touch w f hf hw := hw.setState (contiguousIndex_map w.db f hf)
  advance := PointedFrom.advance

end

end EventIndexer

end Indexer

end Zerc20
