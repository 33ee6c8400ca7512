import Zerc20.Indexer.EventSync

/-!
# What a scan does to the tables

The events of a token on chain are a `TransferLog`. `Sound log start` says of the tables that a scan
of the chain from `start` on puts them right: every row is an event of the log, or one that the scan
overwrites, or one beyond the events of the log that does not stand in the way of the search for
gaps.

`scanChunked_spec` is about one scan, whatever happens to the chain meanwhile. `Ok` is what is known
of a fetched event until it is inserted, and `D` says which events the scan has to have stored in
the end.
-/

namespace Zerc20

namespace Indexer

open Statements Prog

/-! ## The events on chain -/

/-- The `IndexedTransfer` events of a token. -/
structure TransferLog where
  events : List IndexedEvent
  indexed : events.map IndexedEvent.eventIndex = List.range events.length
  /-- Block numbers do not decrease. -/
  ordered : events.Pairwise fun a b => a.ethBlockNumber ≤ b.ethBlockNumber

namespace TransferLog

variable {log : TransferLog} {a b e : IndexedEvent}

/-- The number of events up to a block. -/
def upTo (log : TransferLog) (block : ℕ) : ℕ := log.events.countP fun e => e.ethBlockNumber ≤ block

theorem eventIndex_of_getElem? {k : ℕ} (he : log.events[k]? = some e) : e.eventIndex = k := by
  have hlt : k < log.events.length := (List.getElem?_eq_some_iff.mp he).1
  have hmap : (log.events.map IndexedEvent.eventIndex)[k]? = some e.eventIndex := by
    rw [List.getElem?_map, he]
    rfl
  rw [log.indexed, List.getElem?_range hlt] at hmap
  exact (Option.some.inj hmap).symm

theorem getElem?_of_mem (he : e ∈ log.events) : log.events[e.eventIndex]? = some e := by
  obtain ⟨k, hk⟩ := List.mem_iff_getElem?.mp he
  rw [eventIndex_of_getElem? hk]
  exact hk

theorem eq_of_eventIndex (ha : a ∈ log.events) (hb : b ∈ log.events)
    (hindex : a.eventIndex = b.eventIndex) : a = b := by
  have hget := getElem?_of_mem ha
  rw [hindex, getElem?_of_mem hb] at hget
  exact (Option.some.inj hget).symm

/-- A later event is in no earlier block. -/
theorem block_le (ha : a ∈ log.events) (hb : b ∈ log.events)
    (hindex : a.eventIndex ≤ b.eventIndex) : a.ethBlockNumber ≤ b.ethBlockNumber := by
  rcases Nat.lt_or_eq_of_le hindex with hlt | heq
  · obtain ⟨ha', haget⟩ := List.getElem?_eq_some_iff.mp (getElem?_of_mem ha)
    obtain ⟨hb', hbget⟩ := List.getElem?_eq_some_iff.mp (getElem?_of_mem hb)
    have hle := List.pairwise_iff_getElem.mp log.ordered _ _ ha' hb' hlt
    rw [haget, hbget] at hle
    exact hle
  · rw [eq_of_eventIndex ha hb heq]

/-- In an ordered list, what is at most `block` comes first. -/
theorem getElem?_le_iff {l : List IndexedEvent}
    (hl : l.Pairwise fun a b => a.ethBlockNumber ≤ b.ethBlockNumber) {k block : ℕ}
    (he : l[k]? = some e) :
    e.ethBlockNumber ≤ block ↔ k < l.countP fun e => e.ethBlockNumber ≤ block := by
  -- blocks are ascending: past the first later one all are later
  induction l generalizing k with
  | nil => cases he
  | cons first rest ih =>
    rw [List.pairwise_cons] at hl
    by_cases hfirst : first.ethBlockNumber ≤ block
    · rw [List.countP_cons_of_pos (by simpa using hfirst)]
      cases k with
      | zero =>
        obtain rfl : first = e := by simpa using he
        simp [hfirst]
      | succ k =>
        rw [List.getElem?_cons_succ] at he
        rw [ih hl.2 he]
        omega
    · have hnone : rest.countP (fun e => e.ethBlockNumber ≤ block) = 0 := by
        rw [List.countP_eq_zero]
        intro other hother
        have hle := hl.1 other hother
        simp
        omega
      have hle : first.ethBlockNumber ≤ e.ethBlockNumber := by
        cases k with
        | zero =>
          obtain rfl : first = e := by simpa using he
          exact le_refl _
        | succ k => exact hl.1 e (List.mem_of_getElem? he)
      rw [List.countP_cons_of_neg (by simpa using hfirst), hnone]
      omega

/-- The events up to a block are those below an index. -/
theorem lt_upTo (he : e ∈ log.events) {block : ℕ} :
    e.ethBlockNumber ≤ block ↔ e.eventIndex < log.upTo block :=
  getElem?_le_iff log.ordered (getElem?_of_mem he)

theorem exists_of_le (he : e ∈ log.events) {k : ℕ} (hk : k ≤ e.eventIndex) :
    ∃ e' ∈ log.events, e'.eventIndex = k := by
  obtain ⟨hlt, -⟩ := List.getElem?_eq_some_iff.mp (getElem?_of_mem he)
  have hk' : k < log.events.length := by omega
  exact ⟨log.events[k], List.getElem_mem hk',
    eventIndex_of_getElem? (List.getElem?_eq_getElem hk')⟩

/-- Every index below the count belongs to an event. -/
theorem exists_of_lt_upTo {k block : ℕ} (hk : k < log.upTo block) :
    ∃ e ∈ log.events, e.eventIndex = k := by
  have hlt : k < log.events.length := lt_of_lt_of_le hk List.countP_le_length
  exact ⟨log.events[k], List.getElem_mem hlt,
    eventIndex_of_getElem? (List.getElem?_eq_getElem hlt)⟩

/-- The events of `log`, and more in later blocks than `block`. -/
def Extends (block : ℕ) (log log' : TransferLog) : Prop :=
  ∃ more, log'.events = log.events ++ more ∧ ∀ e ∈ more, block < e.ethBlockNumber

namespace Extends

variable {log' : TransferLog} {block : ℕ}

theorem refl (block : ℕ) (log : TransferLog) : Extends block log log :=
  ⟨[], (List.append_nil _).symm, fun _ he => absurd he List.not_mem_nil⟩

/-- A log with the events of `log`, and no others up to `block`. -/
theorem of_kept (hkept : ∀ e ∈ log.events, e ∈ log'.events)
    (hback : ∀ e ∈ log'.events, e.ethBlockNumber ≤ block → e ∈ log.events) :
    Extends block log log' := by
  -- every event keeps its index, so the old log is the beginning of the new
  have hget : ∀ k, k < log.events.length → log'.events[k]? = log.events[k]? := by
    intro k hk
    have he := List.getElem?_eq_getElem hk
    have hmem := getElem?_of_mem (hkept _ (List.getElem_mem hk))
    rw [eventIndex_of_getElem? he] at hmem
    rw [hmem, he]
  refine ⟨log'.events.drop log.events.length, ?_, fun e he => ?_⟩
  · refine List.ext_getElem? fun k => ?_
    rw [List.getElem?_append]
    split
    · rename_i hk
      exact hget k hk
    · rename_i hk
      rw [List.getElem?_drop]
      congr 1
      omega
  · by_contra hle
    obtain ⟨k, hk⟩ := List.mem_iff_getElem?.mp he
    rw [List.getElem?_drop] at hk
    have hold := hback e (List.mem_of_getElem? hk) (by omega)
    have hlt := (List.getElem?_eq_some_iff.mp (getElem?_of_mem hold)).1
    rw [eventIndex_of_getElem? hk] at hlt
    omega

/-- An extension beyond a later block extends an extension. -/
theorem trans {log'' : TransferLog} {block' : ℕ} (hlog : Extends block log log')
    (hlog' : Extends block' log' log'') (hle : block ≤ block') : Extends block log log'' := by
  obtain ⟨more, heq, hmore⟩ := hlog
  obtain ⟨more', heq', hmore'⟩ := hlog'
  refine ⟨more ++ more', by rw [heq', heq, List.append_assoc], fun e he => ?_⟩
  rcases List.mem_append.mp he with he | he
  · exact hmore e he
  · exact lt_of_le_of_lt hle (hmore' e he)

theorem mem (hlog : Extends block log log') (he : e ∈ log.events) : e ∈ log'.events := by
  obtain ⟨more, heq, -⟩ := hlog
  rw [heq]
  exact List.mem_append_left _ he

theorem mem_of_le (hlog : Extends block log log') (he : e ∈ log'.events)
    (hle : e.ethBlockNumber ≤ block) : e ∈ log.events := by
  obtain ⟨more, heq, hmore⟩ := hlog
  rw [heq] at he
  rcases List.mem_append.mp he with he | he
  · exact he
  · exact absurd (hmore e he) (by omega)

/-- So the count up to an old block stays. -/
theorem upTo_eq (hlog : Extends block log log') : log'.upTo block = log.upTo block := by
  obtain ⟨more, heq, hmore⟩ := hlog
  have hnone : more.countP (fun e => e.ethBlockNumber ≤ block) = 0 := by
    rw [List.countP_eq_zero]
    intro e he
    simpa using hmore e he
  rw [upTo, heq, List.countP_append, hnone]
  rfl

end Extends

end TransferLog

/-- The provider answers with events of the log, and completely up to `block`, which it has; its
`index()` counts at least those. -/
structure Provider.Serves (log : TransferLog) (block : ℕ) (p : Provider) : Prop where
  latest : block ≤ p.latestBlock
  sound : ∀ a b, ∀ e ∈ p.getIndexedTransferEvents a b, e ∈ log.events
  complete : ∀ a b, ∀ e ∈ log.events, a ≤ e.ethBlockNumber → e.ethBlockNumber ≤ b →
    e.ethBlockNumber ≤ block → e ∈ p.getIndexedTransferEvents a b
  index : log.upTo block ≤ p.index

/-- A provider on a chain with these events that answers every range completely. -/
def Provider.ofLog (log : TransferLog) (latestBlock : ℕ) : Provider where
  latestBlock
  index := log.events.length
  getIndexedTransferEvents a b :=
    log.events.filter fun e => a ≤ e.ethBlockNumber ∧ e.ethBlockNumber ≤ b

/-- A provider that answers from the log serves it. -/
theorem Provider.ofLog_serves (log : TransferLog) {latestBlock block : ℕ}
    (hblock : block ≤ latestBlock) : (Provider.ofLog log latestBlock).Serves log block where
  latest := hblock
  sound a b e he := (List.mem_filter.mp he).1
  complete a b e he ha hb _ := List.mem_filter.mpr ⟨he, by simp [ha, hb]⟩
  index := List.countP_le_length

/-- The provider serves the blocks up to the latest one that it reports. -/
def Provider.Honest (log : TransferLog) (p : Provider) : Prop := p.Serves log p.latestBlock

namespace EventIndexer

variable {ρ : Type}

/-! ## Tables that a scan from `start` on puts right -/

section

variable (log : TransferLog) (start : ℕ)

/-- The event is not stored as it is. -/
def Missing (events : List IndexedEvent) (e : IndexedEvent) : Prop :=
  rowAt events e.eventIndex ≠ some e

/-- The pointer: `contiguous_block` is not after the next event, if this is missing and before the
blocks of the scan. -/
structure Pointer (events : List IndexedEvent) (row : IndexerStateRow) : Prop where
  low : -1 ≤ row.contiguousIndex
  stored : StoredTo events row.contiguousIndex
  block : (row.contiguousIndex = -1 ∧ row.contiguousBlock = none)
    ∨ (0 ≤ row.contiguousIndex ∧ ∃ block : ℕ, row.contiguousBlock = some (block : ℤ)
      ∧ ∀ e ∈ log.events, (e.eventIndex : ℤ) = row.contiguousIndex + 1 → e.ethBlockNumber < start →
        Missing events e → block ≤ e.ethBlockNumber)

/-- An event of the log, or one in the blocks of the scan, with the event at its index. -/
def Near (e : IndexedEvent) : Prop :=
  e ∈ log.events
    ∨ (start ≤ e.ethBlockNumber ∧ ∀ e' ∈ log.events, e'.eventIndex = e.eventIndex →
      start ≤ e'.ethBlockNumber)

/-- A stored row is an event of the log. Or the event at its index, if there is one, is in the blocks
of the scan, and the row itself not before the missing events that are not. -/
structure Sound (db : EventDb) : Prop where
  rows : ∀ (k : ℤ) (row : IndexedEvent), rowAt db.events k = some row → row ∈ log.events
    ∨ ((∀ e ∈ log.events, (e.eventIndex : ℤ) = k → start ≤ e.ethBlockNumber)
      ∧ ∀ e ∈ log.events, e.ethBlockNumber < start → Missing db.events e →
        e.ethBlockNumber ≤ row.ethBlockNumber)
  state : ∀ row, db.state = some row → Pointer log start db.events row

end

section

variable {log : TransferLog} {start : ℕ} {batch events : List IndexedEvent}

/-- An event that is stored, or in the batch, is stored after the batch. -/
theorem rowAt_insert_of {e : IndexedEvent}
    (hbatch : ∀ e' ∈ batch, e'.eventIndex = e.eventIndex → e' = e)
    (hin : e ∈ batch ∨ rowAt events e.eventIndex = some e) :
    rowAt (batch.foldl upsertRow events) e.eventIndex = some e := by
  rcases rowAt_foldl_upsertRow batch events e.eventIndex with ⟨other, hmem, hindex, hrow⟩ | hold
  · rw [hrow, hbatch other hmem (by omega)]
  · rcases hin with hin | hin
    · exact absurd rfl (hold.1 e hin)
    · rw [hold.2, hin]

/-- A batch near the log does not hide an event before the blocks of the scan. -/
theorem Missing.of_insert (hbatch : ∀ e ∈ batch, Near log start e) {e : IndexedEvent}
    (he : e ∈ log.events) (hlt : e.ethBlockNumber < start)
    (hmissing : Missing (batch.foldl upsertRow events) e) : Missing events e := by
  intro hrow
  refine hmissing (rowAt_insert_of (fun e' he' heq => ?_) (Or.inr hrow))
  rcases hbatch e' he' with hmem | ⟨-, hscan⟩
  · exact TransferLog.eq_of_eventIndex hmem he heq
  · exact absurd (hscan e he heq.symm) (by omega)

/-- More rows leave the stored ones stored. -/
theorem StoredTo.insert {last : ℤ} (hlast : StoredTo events last) :
    StoredTo (batch.foldl upsertRow events) last :=
  fun k hk hle => rowAt_isSome_foldl batch (hlast k hk hle)

/-- The pointer stays true: an upserted event is the one that was there. -/
theorem Pointer.insert {row : IndexerStateRow} (hbatch : ∀ e ∈ batch, Near log start e)
    (hrow : Pointer log start events row) :
    Pointer log start (batch.foldl upsertRow events) row where
  low := hrow.low
  stored := hrow.stored.insert
  block := by
    rcases hrow.block with hnone | ⟨hpos, block, hsome, hnext⟩
    · exact Or.inl hnone
    · exact Or.inr ⟨hpos, block, hsome, fun e he hindex hlt hmissing =>
        hnext e he hindex hlt (hmissing.of_insert hbatch he hlt)⟩

/-- A batch of near events keeps the database sound. -/
theorem Sound.insert {db : EventDb} (hbatch : ∀ e ∈ batch, Near log start e)
    (hdb : Sound log start db) :
    Sound log start { db with events := batch.foldl upsertRow db.events } where
  rows k row hrow := by
    rcases rowAt_foldl_upsertRow batch db.events k with ⟨e, he, hindex, hnew⟩ | ⟨-, hold⟩
    · obtain rfl : e = row := Option.some.inj (hnew.symm.trans hrow)
      rcases hbatch e he with hmem | ⟨hblock, hscan⟩
      · exact Or.inl hmem
      · refine Or.inr ⟨fun e' he' heq => hscan e' he' ?_, fun e' _ hlt _ => hlt.le.trans hblock⟩
        omega
    · rcases hdb.rows k row (hold.symm.trans hrow) with hmem | ⟨hindex, hbefore⟩
      · exact Or.inl hmem
      · exact Or.inr ⟨hindex, fun e he hlt hmissing =>
          hbefore e he hlt (hmissing.of_insert hbatch he hlt)⟩
  state row hrow := (hdb.state row hrow).insert hbatch

/-- The row of a new token points before every event. -/
theorem Sound.insertState {db : EventDb} (hdb : Sound log start db) (block : ℤ) :
    Sound log start { db with state := some (db.state.getD ⟨-1, none, block, none⟩) } where
  rows := hdb.rows
  state row hrow := by
    obtain rfl := Option.some.inj hrow
    cases hstate : db.state with
    | some row => exact hdb.state row hstate
    | none =>
      refine ⟨le_refl _, fun k hk hle => ?_, Or.inl ⟨rfl, rfl⟩⟩
      change k ≤ -1 at hle
      omega

/-- Of the state row only the pointer matters. -/
theorem Sound.mapState {db : EventDb} (hdb : Sound log start db)
    (f : IndexerStateRow → IndexerStateRow)
    (hf : ∀ row, (f row).contiguousIndex = row.contiguousIndex
      ∧ (f row).contiguousBlock = row.contiguousBlock) :
    Sound log start { db with state := db.state.map f } where
  rows := hdb.rows
  state row hrow := by
    obtain ⟨old, hold, rfl⟩ := Option.map_eq_some_iff.mp hrow
    obtain ⟨hlow, hstored, hblock⟩ := hdb.state old hold
    rw [← (hf old).1] at hlow hstored hblock
    rw [← (hf old).2] at hblock
    exact ⟨hlow, hstored, hblock⟩

/-- The loop of `advance_contiguous_index` keeps the pointer right. -/
theorem Pointer.advanceLoop {db : EventDb} {row : IndexerStateRow} (hdb : Sound log start db)
    (hrow : Pointer log start db.events row) (n : ℕ) :
    Pointer log start db.events (advanceLoop db.events n row) := by
  induction n generalizing row with
  | zero => exact hrow
  | succ n ih =>
    unfold EventIndexer.advanceLoop
    cases hnext : rowAt db.events (row.contiguousIndex + 1) with
    | none => exact hrow
    | some event =>
      have hindex := eventIndex_of_rowAt hnext
      refine ih ⟨?_, ?_, ?_⟩
      · show -1 ≤ (event.eventIndex : ℤ)
        omega
      · show StoredTo db.events event.eventIndex
        rw [hindex]
        exact hrow.stored.succ (by rw [hnext]; rfl)
      · refine Or.inr ⟨Int.natCast_nonneg _, event.ethBlockNumber, rfl, fun e he heq hlt _ => ?_⟩
        change (e.eventIndex : ℤ) = event.eventIndex + 1 at heq
        rcases hdb.rows _ event hnext with hevent | ⟨hstale, -⟩
        · exact TransferLog.block_le hevent he (by omega)
        · -- the chain has an event there too, and in the blocks of the scan
          obtain ⟨prev, hprev, hprevIndex⟩ := TransferLog.exists_of_le he
            (show event.eventIndex ≤ e.eventIndex by omega)
          have hscan := hstale prev hprev (by omega)
          have hle := TransferLog.block_le hprev he (by omega)
          omega

/-- The pointer's block is a block of the log. -/
theorem Pointer.block_nonneg {row : IndexerStateRow} (hrow : Pointer log start events row)
    (block : ℤ) (hblock : row.contiguousBlock = some block) : 0 ≤ block := by
  rcases hrow.block with ⟨-, hnone⟩ | ⟨-, block', hsome, -⟩
  · rw [hnone] at hblock
    cases hblock
  · rw [hsome] at hblock
    obtain rfl := Option.some.inj hblock
    exact Int.natCast_nonneg block'

end

/-! ## Conversions -/

/-- A number that is not negative is read as it is. -/
theorem toU64_eq_ok {label : String} {value : ℤ} (hvalue : 0 ≤ value) :
    toU64 label value = .ok value.toNat := if_pos hvalue

/-- What was read is the number of the row. -/
theorem cast_of_toU64 {label : String} {value : ℤ} {n : ℕ} (hok : toU64 label value = .ok n) :
    value = n := by
  unfold toU64 at hok
  split at hok
  · have heq := Except.ok.inj hok
    omega
  · cases hok

/-- The same for a column that may be null. -/
theorem cast_of_optI64ToU64 {label : String} {value : Option ℤ} {n : Option ℕ}
    (hok : optI64ToU64 label value = .ok n) : value = n.map fun n : ℕ => (n : ℤ) := by
  cases value with
  | none =>
    cases hok
    rfl
  | some value =>
    simp only [optI64ToU64] at hok
    cases hvalue : toU64 label value with
    | error e =>
      rw [hvalue] at hok
      cases hok
    | ok n =>
      rw [hvalue] at hok
      cases hok
      rw [cast_of_toU64 hvalue]
      rfl

/-- A column without a negative number is read. -/
theorem optI64ToU64_eq_ok (label : String) {value : Option ℤ}
    (hvalue : ∀ v, value = some v → 0 ≤ v) : ∃ n, optI64ToU64 label value = .ok n := by
  cases value with
  | none => exact ⟨none, rfl⟩
  | some value =>
    rw [optI64ToU64, toU64_eq_ok (hvalue value rfl)]
    exact ⟨_, rfl⟩

/-- The state row as the sync knows it. -/
structure Reads (row : IndexerStateRow) (known : IndexerState) : Prop where
  contiguousIndex : row.contiguousIndex = known.contiguousIndex
  contiguousBlock : row.contiguousBlock = known.contiguousBlock.map fun block : ℕ => (block : ℤ)
  lastSyncedBlock : row.lastSyncedBlock = known.lastSyncedBlock

/-- The state that was read is that of the row. -/
theorem reads_of_indexerStateFromRow {row : IndexerStateRow} {known : IndexerState}
    (hok : indexerStateFromRow row = .ok known) : Reads row known := by
  unfold indexerStateFromRow at hok
  simp only [Machine.bind_eq_ok] at hok
  obtain ⟨contiguousBlock, hblock, lastSynced, hsynced, lastSeen, -, hret⟩ := hok
  cases hret
  exact ⟨rfl, cast_of_optI64ToU64 hblock, cast_of_toU64 hsynced⟩

/-- A row without negative numbers is read. -/
theorem indexerStateFromRow_eq_ok {row : IndexerStateRow}
    (hblock : ∀ block, row.contiguousBlock = some block → 0 ≤ block)
    (hsynced : 0 ≤ row.lastSyncedBlock)
    (hseen : ∀ seen, row.lastSeenContractIndex = some seen → 0 ≤ seen) :
    ∃ known, indexerStateFromRow row = .ok known := by
  obtain ⟨block, hblock⟩ := optI64ToU64_eq_ok "contiguous_block" hblock
  obtain ⟨seen, hseen⟩ := optI64ToU64_eq_ok "last_seen_contract_index" hseen
  unfold indexerStateFromRow
  rw [hblock, hseen, toU64_eq_ok hsynced]
  exact ⟨_, rfl⟩

/-- A number up to the bound is written as it is. -/
theorem toI64_eq_ok {label : String} {value : ℕ} (hvalue : value ≤ i64Max) :
    toI64 label value = .ok value := if_pos hvalue

theorem eq_of_toI64 {label : String} {value value' : ℕ} (hok : toI64 label value = .ok value') :
    value' = value := by
  unfold toI64 at hok
  split at hok
  · exact (Except.ok.inj hok).symm
  · cases hok

/-! ## A scan -/

/-- What a scan relies on. `J` holds throughout, `Ok` of the fetched events until they are
inserted, and `D` of the events that are to be stored. -/
structure ScanInv (R : SyncWorld ρ → SyncWorld ρ → Prop) (G : Prop) (J : SyncWorld ρ → Prop)
    (Ok D : IndexedEvent → SyncWorld ρ → Prop) : Prop where
  db : ∀ w w', R w w' → w'.db = w.db
  move : ∀ w w', J w → R w w' → J w'
  insert : ∀ w batch, J w → (∀ e ∈ batch, Ok e w) → J (inserted batch w)
  ok_fetch : ∀ w a b, J w → ∀ e ∈ w.provider.getIndexedTransferEvents a b, Ok e w
  ok_move : ∀ w w' e, J w → R w w' → Ok e w → Ok e w'
  ok_fits : G → ∀ w e, J w → Ok e w → e.eventIndex ≤ i64Max ∧ e.ethBlockNumber ≤ i64Max
  due_fetch : ∀ w a b e, J w → D e w → a ≤ e.ethBlockNumber → e.ethBlockNumber ≤ b →
    e ∈ w.provider.getIndexedTransferEvents a b
  due_move : ∀ w w' e, J w → R w w' → D e w' → D e w
  due_insert : ∀ w batch e, D e (inserted batch w) → D e w
  unique : ∀ w e e', J w → D e w → Ok e' w → e'.eventIndex = e.eventIndex → e' = e

/-- The events to be stored, of the blocks from `a` to before `b`, are. -/
def Stored (D : IndexedEvent → SyncWorld ρ → Prop) (a b : ℕ) (w : SyncWorld ρ) : Prop :=
  ∀ e, D e w → a ≤ e.ethBlockNumber → e.ethBlockNumber < b →
    rowAt w.db.events e.eventIndex = some e

section

variable {R : SyncWorld ρ → SyncWorld ρ → Prop} {G : Prop} {J P Q E : SyncWorld ρ → Prop}
  {Ok D : IndexedEvent → SyncWorld ρ → Prop} {ix : EventIndexer}

theorem Stored.mono {w : SyncWorld ρ} {a a' b b' : ℕ} (hw : Stored D a b w) (ha : a ≤ a')
    (hb : b' ≤ b) : Stored D a' b' w :=
  fun e he hlow hhigh => hw e he (by omega) (by omega)

/-- What is stored stays so while the others move. -/
theorem Stored.move {w w' : SyncWorld ρ} {a b : ℕ} (hscan : ScanInv R G J Ok D) (hJ : J w)
    (hR : R w w') (hw : Stored D a b w) : Stored D a b w' := by
  intro e he hlow hhigh
  rw [hscan.db w w' hR]
  exact hw e (hscan.due_move w w' e hJ hR he) hlow hhigh

/-- A conversion fails in a world that does not fit only. -/
theorem toI64_spec {label : String} {value : ℕ} (hvalue : ∀ w, P w → G → value ≤ i64Max)
    (hE : ∀ w, ¬ G → P w → E w) :
    Spec R (¬ G) P (ofExcept (toI64 label value) : Sync ρ ℕ)
      (fun value' w => value' = value ∧ P w) E := by
  refine .ofExcept (fun value' w hok hw => ⟨eq_of_toI64 hok, hw⟩) fun e w herror hw => ?_
  refine hE w (fun hG => ?_) hw
  rw [toI64_eq_ok (hvalue w hw hG)] at herror
  cases herror

theorem mapM_toI64_spec {label : String} {f : IndexedEvent → ℕ} {batch : List IndexedEvent}
    (hbatch : ∀ w, P w → G → ∀ e ∈ batch, f e ≤ i64Max) (hE : ∀ w, ¬ G → P w → E w) :
    Spec R (¬ G) P
      (ofExcept (batch.mapM fun event => toI64 label (f event)) : Sync ρ (List ℕ))
      (fun _ => P) E := by
  refine .ofExcept (fun _ _ _ hw => hw) fun e w herror hw => hE w (fun hG => ?_) hw
  rw [Machine.mapM_eq_ok fun event hevent => toI64_eq_ok (hbatch w hw hG event hevent)] at herror
  cases herror

/-- `insert_events` inserts the batch, or fails when a number does not fit. -/
theorem insertEvents_spec {batch : List IndexedEvent} (hmove : ∀ w w', P w → R w w' → P w')
    (hinsert : ∀ w, P w → Q (inserted batch w))
    (hfits : ∀ w, P w → G → ∀ e ∈ batch, e.eventIndex ≤ i64Max ∧ e.ethBlockNumber ≤ i64Max)
    (hP : ∀ w, ¬ G → P w → E w) (hQ : ∀ w, ¬ G → Q w → E w) :
    Spec R (¬ G) P (insertEvents batch : Sync ρ Unit) (fun _ => Q) E := by
  unfold insertEvents
  split
  · rename_i hempty
    obtain rfl := List.isEmpty_iff.mp hempty
    exact .pure hinsert
  · refine .bind (mapM_toI64_spec (fun w hw hG e he => (hfits w hw hG e he).1) hP) fun _ =>
      .bind (mapM_toI64_spec (fun w hw hG e he => (hfits w hw hG e he).2) hP) fun _ =>
      .write fun w w' hw hR => ?_
    have hw' := hmove w w' hw hR
    exact ⟨hinsert w' hw', fun hG => ⟨hP w' hG hw', hQ _ hG (hinsert w' hw')⟩⟩

/-- A chunk: what was fetched is inserted. -/
theorem chunk_spec (hscan : ScanInv R G J Ok D) (hE : ∀ w, ¬ G → J w → E w)
    (first fromBlock last : ℕ) :
    Spec R (¬ G) (fun w => J w ∧ Stored D first fromBlock w)
      (do
        let fetched ← read (.contract "get_indexed_transfer_events") fun w =>
          w.provider.getIndexedTransferEvents fromBlock last
        insertEvents fetched : Sync ρ Unit)
      (fun _ w => J w ∧ Stored D first (last + 1) w) E := by
  refine .bind (M := fun batch w => (J w ∧ Stored D first fromBlock w) ∧ (∀ e ∈ batch, Ok e w)
    ∧ ∀ e, D e w → fromBlock ≤ e.ethBlockNumber → e.ethBlockNumber ≤ last → e ∈ batch)
    (.read ?_) fun batch => insertEvents_spec ?_ ?_ ?_ (fun w hG hw => hE w hG hw.1.1)
    fun w hG hw => hE w hG hw.1
  · intro w w' hw hR
    have hJ := hscan.move w w' hw.1 hR
    exact ⟨⟨⟨hJ, hw.2.move hscan hw.1 hR⟩, hscan.ok_fetch w' _ _ hJ,
      fun e he => hscan.due_fetch w' _ _ e hJ he⟩, fun hG => hE w' hG hJ⟩
  · intro w w' ⟨hw, hok, hdue⟩ hR
    exact ⟨⟨hscan.move w w' hw.1 hR, hw.2.move hscan hw.1 hR⟩,
      fun e he => hscan.ok_move w w' e hw.1 hR (hok e he),
      fun e he => hdue e (hscan.due_move w w' e hw.1 hR he)⟩
  · intro w ⟨hw, hok, hdue⟩
    refine ⟨hscan.insert w batch hw.1 hok, fun e he hlow hhigh => ?_⟩
    have he' := hscan.due_insert w batch e he
    refine rowAt_insert_of (fun e' hmem heq => hscan.unique w e e' hw.1 he' (hok e' hmem) heq) ?_
    -- stored by an earlier chunk, or in this batch
    by_cases hold : e.ethBlockNumber < fromBlock
    · exact Or.inr (hw.2 e he' hlow hold)
    · exact Or.inl (hdue e he' (by omega) (by omega))
  · exact fun w hw hG e he => hscan.ok_fits hG w e hw.1.1 (hw.2.1 e he)

/-- The loop of a scan: the blocks before `fromBlock` are done, and at the end all are. -/
theorem scanLoop_spec (hscan : ScanInv R G J Ok D) (hE : ∀ w, ¬ G → J w → E w)
    (hoverlap : G → ix.forwardScanOverlap < ix.blockSpan)
    (first toBlock n fromBlock : ℕ) (hrounds : G → toBlock + 1 - fromBlock < n) :
    Spec R (¬ G) (fun w => J w ∧ Stored D first fromBlock w)
      (scanLoop ix toBlock n fromBlock : Sync ρ Unit)
      (fun _ w => J w ∧ Stored D first (toBlock + 1) w) E := by
  -- on the rounds that are left
  induction n generalizing fromBlock with
  | zero =>
    refine .fail fun w hw => hE w (fun hG => ?_) hw.1
    have hlt := hrounds hG
    omega
  | succ n ih =>
    unfold scanLoop
    split
    · exact .pure fun w hw => ⟨hw.1, hw.2.mono (le_refl _) (by omega)⟩
    · have hspan := ix.blockSpan_pos
      have hchunk := chunk_spec hscan hE first fromBlock
        (min toBlock (fromBlock + (ix.blockSpan - 1)))
      refine Spec.bind_assoc (.bind hchunk fun _ => ?_)
      split
      -- the last chunk ends the loop
      · rename_i hlast
        rw [hlast]
        exact .pure fun w hw => hw
      · refine (ih _ fun hG => ?_).mono (fun w hw => ⟨hw.1, hw.2.mono (le_refl _) ?_⟩)
          (fun _ _ hw => hw) fun _ hw => hw
        · have hlt := hrounds hG
          have hlt' := hoverlap hG
          omega
        · omega

/-- **`scan_chunked`**: with an overlap below the span, a scan that returns has stored every event
due in its range. The induction is on the rounds, over the range that is still to be scanned. -/
theorem scanChunked_spec (hscan : ScanInv R G J Ok D) (hE : ∀ w, ¬ G → J w → E w)
    (hoverlap : G → ix.forwardScanOverlap < ix.blockSpan) {rounds : ℕ}
    (fromBlock toBlock : ℕ) (hrounds : G → toBlock + 1 < rounds) :
    Spec R (¬ G) J (scanChunked ix rounds fromBlock toBlock : Sync ρ Unit)
      (fun _ w => J w ∧ Stored D fromBlock (toBlock + 1) w) E := by
  unfold scanChunked
  split
  · exact .pure fun w hw => ⟨hw, fun e _ hlow hhigh => by omega⟩
  · refine (scanLoop_spec hscan hE hoverlap fromBlock toBlock rounds fromBlock fun hG => ?_).mono
      (fun w hw => ⟨hw, fun e _ hlow hhigh => by omega⟩) (fun _ _ hw => hw) fun _ hw => hw
    have hlt := hrounds hG
    omega

end

end EventIndexer

end Indexer

end Zerc20
