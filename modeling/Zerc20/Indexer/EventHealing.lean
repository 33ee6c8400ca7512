import Zerc20.Indexer.EventScan

/-!
# Event sync heals itself

A sync that returns has stored every event up to the latest block it read, and has moved the pointer
over them, whatever gaps the tables had before (`sync_heals`), and it does return when none of its
statements fails (`sync_returns`).

The specifications are for any `Setting`: a world whose events on chain are a function of the
provider and the rest of it, and may become more while the sync runs.
-/

namespace Zerc20

namespace Indexer

open Statements Prog

namespace EventIndexer

variable {ρ : Type}

/-! ## What a sync runs in -/

structure Setting (ρ : Type) where
  /-- The events on chain. -/
  logOf : Provider → ρ → TransferLog
  /-- The block that the forward scan starts at. -/
  start : ℕ
  rounds : ℕ
  /-- The sync is to return. -/
  G : Prop
  /-- What else holds of the world throughout. -/
  X : SyncWorld ρ → Prop

def Setting.log (S : Setting ρ) (w : SyncWorld ρ) : TransferLog := S.logOf w.provider w.rest

/-- The numbers of the chain fit, and the loops need no more than `rounds`. -/
structure Fits (rounds : ℕ) (log : TransferLog) (p : Provider) : Prop where
  event : ∀ e ∈ log.events, e.eventIndex ≤ i64Max ∧ e.ethBlockNumber ≤ i64Max
  block : ∀ e ∈ log.events, e.ethBlockNumber + 1 < rounds
  latestBlock : p.latestBlock ≤ i64Max ∧ p.latestBlock + 1 < rounds
  index : p.index ≤ i64Max ∧ p.index + 1 < rounds

/-- `X` does not depend on the state row, and is kept when events of the chain are inserted. -/
structure Setting.Lawful (S : Setting ρ) (ix : EventIndexer) : Prop where
  honest : ∀ w, S.X w → w.provider.Honest (S.log w)
  deployed : ∀ w, S.X w → ∀ e ∈ (S.log w).events, ix.deployedBlockNumber ≤ e.ethBlockNumber
  fits : S.G → ∀ w, S.X w → Fits S.rounds (S.log w) w.provider
  config : S.G → ix.deployedBlockNumber ≤ i64Max ∧ ix.forwardScanOverlap < ix.blockSpan
  insert : ∀ w batch, S.X w → (∀ e ∈ batch, e ∈ (S.log w).events) → S.X (inserted batch w)
  setState : ∀ w row, S.X w → S.X (setState w row)

/-- While a sync runs, nobody else writes to the tables, and what the provider has served it goes on
serving: the chain becomes longer at most. -/
structure Calm (S : Setting ρ) (w w' : SyncWorld ρ) : Prop where
  db : w'.db = w.db
  extra : S.X w → S.X w'
  serves : ∀ block, S.X w → w.provider.Serves (S.log w) block →
    w'.provider.Serves (S.log w') block ∧ TransferLog.Extends block (S.log w) (S.log w')
  sound : S.X w → Sound (S.log w) S.start w.db → Sound (S.log w') S.start w.db

section

variable (S : Setting ρ) (latest : ℕ)

/-- The event is among those that a sync that has read `latest` has to store. -/
def Due (e : IndexedEvent) (w : SyncWorld ρ) : Prop :=
  e ∈ (S.log w).events ∧ e.ethBlockNumber ≤ latest

/-- A sync that has read `latest`. -/
structure Serving (w : SyncWorld ρ) : Prop where
  extra : S.X w
  serves : w.provider.Serves (S.log w) latest
  sound : Sound (S.log w) S.start w.db
  state : ∃ row, w.db.state = some row
    ∧ (S.G → ∀ seen, row.lastSeenContractIndex = some seen → 0 ≤ seen)
  small : S.G → ∀ (k : ℤ) (row : IndexedEvent), rowAt w.db.events k = some row →
    row.ethBlockNumber + 1 < S.rounds

/-- The forward scan is done, and the watermark set. -/
structure Scanned (w : SyncWorld ρ) : Prop extends Serving S latest w where
  covered : Stored (Due S latest) S.start (latest + 1) w
  synced : ∀ row, w.db.state = some row → row.lastSyncedBlock = latest

/-- The sync knows the state row as `known`, and the row after the pointer is missing. -/
structure AtGap (known : IndexerState) (w : SyncWorld ρ) : Prop extends Scanned S latest w where
  gap : rowAt w.db.events (known.contiguousIndex + 1) = none
  row : ∃ row, w.db.state = some row ∧ row.contiguousIndex = known.contiguousIndex
    ∧ row.contiguousBlock = known.contiguousBlock.map fun block : ℕ => (block : ℤ)

/-- Every event up to `latest` is stored, and the pointer is at the last of them or beyond. -/
structure Healed (w : SyncWorld ρ) : Prop where
  extra : S.X w
  serves : w.provider.Serves (S.log w) latest
  stored : ∀ e ∈ (S.log w).events, e.ethBlockNumber ≤ latest →
    rowAt w.db.events e.eventIndex = some e
  pointer : ((S.log w).upTo latest : ℤ) - 1 ≤ contiguousIndex w.db
  synced : ∃ row, w.db.state = some row ∧ row.lastSyncedBlock = latest

end

section

variable {S : Setting ρ} {ix : EventIndexer} {latest : ℕ} {w w' : SyncWorld ρ}

/-- The setting goes on while the chain moves. -/
theorem Serving.move (hw : Serving S latest w) (hmove : Calm S w w') : Serving S latest w' where
  extra := hmove.extra hw.extra
  serves := (hmove.serves latest hw.extra hw.serves).1
  sound := by
    rw [hmove.db]
    exact hmove.sound hw.extra hw.sound
  state := by
    rw [hmove.db]
    exact hw.state
  small := by
    rw [hmove.db]
    exact hw.small

/-- What is due after the others moved was due before. -/
theorem Due.back {e : IndexedEvent} (hw : Serving S latest w) (hmove : Calm S w w')
    (he : Due S latest e w') : Due S latest e w :=
  ⟨(hmove.serves latest hw.extra hw.serves).2.mem_of_le he.1 he.2, he.2⟩

/-- The blocks that were scanned stay scanned. -/
theorem Scanned.move (hw : Scanned S latest w) (hmove : Calm S w w') : Scanned S latest w' where
  toServing := hw.toServing.move hmove
  covered e he hlow hhigh := by
    rw [hmove.db]
    exact hw.covered e (he.back hw.toServing hmove) hlow hhigh
  synced := by
    rw [hmove.db]
    exact hw.synced

theorem AtGap.move {known : IndexerState} (hw : AtGap S latest known w) (hmove : Calm S w w') :
    AtGap S latest known w' where
  toScanned := hw.toScanned.move hmove
  gap := by
    rw [hmove.db]
    exact hw.gap
  row := by
    rw [hmove.db]
    exact hw.row

/-- Inserting events of the log keeps the rows genuine. -/
theorem Serving.insert {batch : List IndexedEvent} (hS : S.Lawful ix) (hw : Serving S latest w)
    (hbatch : ∀ e ∈ batch, e ∈ (S.log w).events) : Serving S latest (inserted batch w) where
  extra := hS.insert w batch hw.extra hbatch
  serves := hw.serves
  sound := hw.sound.insert fun e he => Or.inl (hbatch e he)
  state := hw.state
  small hG k row hrow := by
    rcases rowAt_foldl_upsertRow batch w.db.events k with ⟨e, he, -, hnew⟩ | ⟨-, hold⟩
    · obtain rfl : e = row := Option.some.inj (hnew.symm.trans hrow)
      exact (hS.fits hG w hw.extra).block e (hbatch e he)
    · exact hw.small hG k row (hold.symm.trans hrow)

/-- And keeps the scanned blocks scanned. -/
theorem Scanned.insert {batch : List IndexedEvent} (hS : S.Lawful ix) (hw : Scanned S latest w)
    (hbatch : ∀ e ∈ batch, e ∈ (S.log w).events) : Scanned S latest (inserted batch w) where
  toServing := hw.toServing.insert hS hbatch
  covered e he hlow hhigh := rowAt_insert_of
    (fun e' he' heq => TransferLog.eq_of_eventIndex (hbatch e' he') he.1 heq)
    (Or.inr (hw.covered e he hlow hhigh))
  synced := hw.synced

/-- A scan by a sync that has read `latest`. -/
theorem scanInv {J : SyncWorld ρ → Prop} (hS : S.Lawful ix) (hJ : ∀ w, J w → Serving S latest w)
    (hmove : ∀ w w', J w → Calm S w w' → J w')
    (hinsert : ∀ w batch, J w → (∀ e ∈ batch, e ∈ (S.log w).events) → J (inserted batch w)) :
    ScanInv (Calm S) S.G J (fun e w => e ∈ (S.log w).events) (Due S latest) where
  db _ _ hR := hR.db
  move := hmove
  insert := hinsert
  ok_fetch w a b hw := (hJ w hw).serves.sound a b
  ok_move w _ _ hw hR he := (hR.serves latest (hJ w hw).extra (hJ w hw).serves).2.mem he
  ok_fits hG w e hw he := (hS.fits hG w (hJ w hw).extra).event e he
  due_fetch w a b e hw he ha hb := (hJ w hw).serves.complete a b e he.1 ha hb he.2
  due_move w _ _ hw hR he := he.back (hJ w hw) hR
  due_insert _ _ _ he := he
  unique _ _ _ _ he he' heq := TransferLog.eq_of_eventIndex he' he.1 heq

/-- The row that the sync has fetched is the one in the table. -/
theorem fetchRow_spec {action : String} {row : Option IndexerStateRow} {P : SyncWorld ρ → Prop}
    (hsome : ∀ w, P w → w.db.state = row ∧ row.isSome) :
    Spec (Calm S) (¬ S.G) P (fetchOne action row : Sync ρ IndexerStateRow)
      (fun found w => w.db.state = some found ∧ P w) (fun _ => ¬ S.G) := by
  cases row with
  | none => exact .fail fun w hw => absurd (hsome w hw).2 (by simp)
  | some row => exact .pure fun w hw => ⟨(hsome w hw).1, hw⟩

/-- The row is read without an error when its numbers are not negative. -/
theorem indexerState_spec {row : IndexerStateRow} {P : SyncWorld ρ → Prop}
    (hrow : ∀ w, P w → S.G → (∀ block, row.contiguousBlock = some block → 0 ≤ block)
      ∧ 0 ≤ row.lastSyncedBlock ∧ ∀ seen, row.lastSeenContractIndex = some seen → 0 ≤ seen) :
    Spec (Calm S) (¬ S.G) P (ofExcept (indexerStateFromRow row) : Sync ρ IndexerState)
      (fun known w => Reads row known ∧ P w) (fun _ => ¬ S.G) := by
  refine .ofExcept (fun known w hok hw => ⟨reads_of_indexerStateFromRow hok, hw⟩)
    fun e w herror hw hG => ?_
  obtain ⟨hblock, hsynced, hseen⟩ := hrow w hw hG
  obtain ⟨known, hknown⟩ := indexerStateFromRow_eq_ok hblock hsynced hseen
  rw [hknown] at herror
  cases herror

/-! ## The pointer -/

/-- The world after `advance_contiguous_index`. -/
theorem Scanned.advance {row : IndexerStateRow} (hS : S.Lawful ix) (hw : Scanned S latest w)
    (hrow : w.db.state = some row) :
    Scanned S latest (setState w (advanceRow w.db))
      ∧ advanceRow w.db = some (advanceLoop w.db.events w.db.events.length row)
      ∧ rowAt w.db.events ((advanceLoop w.db.events w.db.events.length row).contiguousIndex + 1)
        = none
      ∧ row.contiguousIndex
        ≤ (advanceLoop w.db.events w.db.events.length row).contiguousIndex := by
  have hadvance : advanceRow w.db = some (advanceLoop w.db.events w.db.events.length row) := by
    rw [advanceRow, hrow]
    rfl
  have hpointer := hw.sound.state row hrow
  obtain ⟨-, hle, hsynced, hseen⟩ :=
    advanceLoop_spec w.db.events w.db.events.length row hpointer.stored
  refine ⟨⟨⟨hS.setState w _ hw.extra, hw.serves, ⟨hw.sound.rows, ?_⟩, ⟨_, hadvance, ?_⟩, hw.small⟩,
    hw.covered, ?_⟩, hadvance, advanceLoop_gap w.db.events _ row (List.length_filter_le _ _), hle⟩
  · intro row' hrow'
    obtain rfl := Option.some.inj (hadvance.symm.trans hrow')
    exact hpointer.advanceLoop hw.sound _
  · intro hG seen
    rw [hseen]
    obtain ⟨row', hrow', hold⟩ := hw.state
    obtain rfl := Option.some.inj (hrow.symm.trans hrow')
    exact hold hG seen
  · intro row' hrow'
    obtain rfl := Option.some.inj (hadvance.symm.trans hrow')
    rw [hsynced, hw.synced row hrow]

/-- `advance_contiguous_index` leaves the pointer before a gap. `K` is about the rows and the number
of due events, which do not change. -/
theorem advanceContiguousIndex_spec (hS : S.Lawful ix) (low : ℤ)
    (K : ℕ → List IndexedEvent → Prop) :
    Spec (Calm S) (¬ S.G)
      (fun w : SyncWorld ρ => Scanned S latest w ∧ low ≤ contiguousIndex w.db
        ∧ K ((S.log w).upTo latest) w.db.events)
      advanceContiguousIndex
      (fun known w => AtGap S latest known w ∧ low ≤ known.contiguousIndex
        ∧ K ((S.log w).upTo latest) w.db.events) (fun _ => ¬ S.G) := by
  refine .bind (M := fun row w => (row.isSome ∧ w.db.state = row)
    ∧ Scanned S latest w ∧ low ≤ contiguousIndex w.db ∧ K ((S.log w).upTo latest) w.db.events
    ∧ rowAt w.db.events (contiguousIndex w.db + 1) = none) (.stmt ?_) fun row => ?_
  · intro w w' ⟨hw, hlow, hK⟩ hR
    have hw' := hw.move hR
    obtain ⟨row, hrow, -⟩ := hw'.state
    obtain ⟨hscanned, hadvance, hgap, hle⟩ := hw'.advance hS hrow
    -- the index before and after the statement
    have hold : contiguousIndex w.db = row.contiguousIndex := by
      rw [← hR.db, contiguousIndex, hrow]
      rfl
    have hnew : contiguousIndex (setState w' (advanceRow w'.db)).db
        = (advanceLoop w'.db.events w'.db.events.length row).contiguousIndex := by
      rw [hadvance]
      rfl
    refine ⟨⟨⟨by rw [hadvance]; rfl, rfl⟩, hscanned, ?_, ?_, ?_⟩, fun hG => ⟨hG, hG⟩⟩
    · rw [hnew]
      omega
    · show K ((S.log w').upTo latest) w'.db.events
      rw [(hR.serves latest hw.extra hw.serves).2.upTo_eq, hR.db]
      exact hK
    · rw [hnew]
      exact hgap
  -- then the row is read back
  · refine .bind (fetchRow_spec fun w hw => ⟨hw.1.2, hw.1.1⟩) fun row => ?_
    refine (indexerState_spec fun w hw hG => ?_).mono (fun w hw => hw) (fun known w hw => ?_)
      fun _ hw => hw
    · obtain ⟨hrow, -, hscanned, -⟩ := hw
      obtain ⟨row', hrow', hseen⟩ := hscanned.state
      obtain rfl := Option.some.inj (hrow.symm.trans hrow')
      refine ⟨(hscanned.sound.state row hrow).block_nonneg, ?_, hseen hG⟩
      rw [hscanned.synced row hrow]
      exact Int.natCast_nonneg latest
    · obtain ⟨hreads, hrow, -, hscanned, hlow, hK, hgap⟩ := hw
      have hindex : contiguousIndex w.db = known.contiguousIndex := by
        rw [contiguousIndex, hrow, ← hreads.contiguousIndex]
        rfl
      rw [hindex] at hlow hgap
      exact ⟨⟨hscanned, hgap, row, hrow, hreads.contiguousIndex, hreads.contiguousBlock⟩, hlow, hK⟩

/-! ## Gaps -/

/-- The next known row lies behind the gap. -/
theorem nextKnown_eq_some {events : List IndexedEvent} {gapStart : ℕ} {row : IndexedEvent}
    (hrow : nextKnown events gapStart = some row) :
    gapStart ≤ row.eventIndex ∧ rowAt events row.eventIndex = some row := by
  obtain ⟨index, hmin, hrow⟩ := Option.bind_eq_some_iff.mp hrow
  have hindex : row.eventIndex = index := Int.ofNat.inj (eventIndex_of_rowAt hrow)
  have hmem := List.min?_mem hmin
  rw [List.mem_filter, decide_eq_true_eq] at hmem
  rw [hindex]
  exact ⟨hmem.2, hrow⟩

/-- A range that is not empty is an anchor. -/
theorem gapAnchor_eq_some {fromBlock toBlock : ℕ} (hle : fromBlock ≤ toBlock) :
    gapAnchor fromBlock toBlock = some ⟨fromBlock, toBlock⟩ := if_neg (by omega)

/-- The anchor ends where it was asked to. -/
theorem eq_of_gapAnchor {fromBlock toBlock : ℕ} {anchor : GapAnchor}
    (hanchor : gapAnchor fromBlock toBlock = some anchor) : anchor.toBlock = toBlock := by
  unfold gapAnchor at hanchor
  split at hanchor
  · cases hanchor
  · cases hanchor
    rfl

/-- No event is missing after the pointer, or the anchor is around the first one. -/
def Aims (log : TransferLog) (latest : ℕ) (known : IndexerState) (anchor : Option GapAnchor) :
    Prop :=
  (log.upTo latest : ℤ) ≤ known.contiguousIndex + 1
    ∨ ∃ found, anchor = some found ∧ ∃ e ∈ log.events,
      (e.eventIndex : ℤ) = known.contiguousIndex + 1 ∧ e.ethBlockNumber ≤ latest
        ∧ found.fromBlock ≤ e.ethBlockNumber ∧ e.ethBlockNumber ≤ found.toBlock

section

variable {known : IndexerState} {e : IndexedEvent}

theorem AtGap.low (hw : AtGap S latest known w) : -1 ≤ known.contiguousIndex := by
  obtain ⟨row, hrow, hindex, -⟩ := hw.row
  rw [← hindex]
  exact (hw.sound.state row hrow).low

/-- The pointer in memory is the pointer of the row. -/
theorem AtGap.contiguousIndex_eq (hw : AtGap S latest known w) :
    contiguousIndex w.db = known.contiguousIndex := by
  obtain ⟨row, hrow, hindex, -⟩ := hw.row
  rw [contiguousIndex, hrow, ← hindex]
  rfl

/-- The event after the pointer is the one that is missing. -/
theorem AtGap.missing (hw : AtGap S latest known w)
    (hindex : (e.eventIndex : ℤ) = known.contiguousIndex + 1) : Missing w.db.events e := by
  intro hrow
  rw [hindex, hw.gap] at hrow
  cases hrow

/-- The first missing event is not in the blocks of the forward scan. -/
theorem AtGap.before (hw : AtGap S latest known w) (he : Due S latest e w)
    (hindex : (e.eventIndex : ℤ) = known.contiguousIndex + 1) : e.ethBlockNumber < S.start := by
  by_contra hstart
  have hle := he.2
  exact hw.missing hindex (hw.covered e he (by omega) (by omega))

/-- The block the search for a missing event starts at is not after it. -/
theorem AtGap.fromBlock_le (hS : S.Lawful ix) (hw : AtGap S latest known w)
    (he : Due S latest e w) (hindex : (e.eventIndex : ℤ) = known.contiguousIndex + 1) :
    max (known.contiguousBlock.getD ix.deployedBlockNumber) ix.deployedBlockNumber
      ≤ e.ethBlockNumber := by
  have hdeployed := hS.deployed w hw.extra e he.1
  refine max_le ?_ hdeployed
  obtain ⟨row, hrow, hcontiguous, hblock⟩ := hw.row
  rcases (hw.sound.state row hrow).block with ⟨-, hnone⟩ | ⟨-, block, hsome, hnext⟩
  · rw [hnone] at hblock
    have hunknown : known.contiguousBlock = none := Option.map_eq_none_iff.mp hblock.symm
    rw [hunknown]
    exact hdeployed
  · rw [hsome] at hblock
    obtain ⟨block', hknown, hcast⟩ := Option.map_eq_some_iff.mp hblock.symm
    have hle := hnext e he.1 (by omega) (hw.before he hindex) (hw.missing hindex)
    rw [hknown, Option.getD_some]
    omega

/-- The block the search ends at is not before it. -/
theorem AtGap.le_toBlock (hw : AtGap S latest known w) {row : IndexedEvent}
    (he : Due S latest e w) (hindex : (e.eventIndex : ℤ) = known.contiguousIndex + 1)
    (hle : e.eventIndex ≤ row.eventIndex)
    (hrow : rowAt w.db.events row.eventIndex = some row) :
    e.ethBlockNumber ≤ row.ethBlockNumber := by
  rcases hw.sound.rows _ row hrow with hmem | ⟨-, hbefore⟩
  · exact TransferLog.block_le he.1 hmem hle
  · exact hbefore e he.1 (hw.before he hindex) (hw.missing hindex)

/-- An anchor that ends after the first missing event is around it. -/
theorem AtGap.aims (hS : S.Lawful ix) (hw : AtGap S latest known w) {toBlock : ℕ}
    (hto : ∀ e, Due S latest e w → (e.eventIndex : ℤ) = known.contiguousIndex + 1 →
      e.ethBlockNumber ≤ toBlock) :
    Aims (S.log w) latest known (gapAnchor
      (max (known.contiguousBlock.getD ix.deployedBlockNumber) ix.deployedBlockNumber)
      toBlock) := by
  by_cases hdone : ((S.log w).upTo latest : ℤ) ≤ known.contiguousIndex + 1
  · exact Or.inl hdone
  · have hlow := hw.low
    have hlt : (known.contiguousIndex + 1).toNat < (S.log w).upTo latest := by omega
    obtain ⟨e, he, hindex⟩ := TransferLog.exists_of_lt_upTo hlt
    have hnext : (e.eventIndex : ℤ) = known.contiguousIndex + 1 := by omega
    have hlatest := (TransferLog.lt_upTo he).mpr (hindex ▸ hlt)
    have hfrom := hw.fromBlock_le hS ⟨he, hlatest⟩ hnext
    have hle := hto e ⟨he, hlatest⟩ hnext
    exact Or.inr ⟨_, gapAnchor_eq_some (hfrom.trans hle), e, he, hnext, hlatest, hfrom, hle⟩

/-- The search still aims at the missing event when the chain has grown. -/
theorem Aims.move {anchor : Option GapAnchor} (hw : Serving S latest w) (hmove : Calm S w w')
    (haims : Aims (S.log w) latest known anchor) : Aims (S.log w') latest known anchor := by
  have hlog := (hmove.serves latest hw.extra hw.serves).2
  rcases haims with hdone | ⟨found, hfound, e, he, hrest⟩
  · left
    rw [hlog.upTo_eq]
    exact hdone
  · exact Or.inr ⟨found, hfound, e, hlog.mem he, hrest⟩

/-- `find_gap_anchor` gives a range of blocks with the missing event in it, or none when the target
is reached. -/
theorem findGapAnchor_spec (hS : S.Lawful ix) {target : ℕ}
    (hfits : S.G → target ≤ i64Max ∧ latest + 1 < S.rounds) :
    Spec (Calm S) (¬ S.G)
      (fun w : SyncWorld ρ => AtGap S latest known w ∧ (S.log w).upTo latest ≤ target + 1)
      (findGapAnchor ix known target latest)
      (fun anchor w => (S.G → ∀ found, anchor = some found → found.toBlock + 1 < S.rounds)
        ∧ AtGap S latest known w ∧ (S.log w).upTo latest ≤ target + 1
        ∧ Aims (S.log w) latest known anchor) (fun _ => ¬ S.G) := by
  unfold findGapAnchor
  dsimp only
  split
  -- no event is missing below the target
  · rename_i hpast
    refine .pure fun w hw => ⟨fun _ _ hfound => (nomatch hfound), hw.1, hw.2, Or.inl ?_⟩
    have hlow := hw.1.low
    have htarget := hw.2
    omega
  · rename_i hgap
    refine .bind (toI64_spec (fun w hw hG => ?_) fun _ hG _ => hG) fun gapStart => .assume fun _ =>
      .bind (M := fun next w => next
        = nextKnown w.db.events (max (known.contiguousIndex + 1) 0).toNat
          ∧ AtGap S latest known w ∧ (S.log w).upTo latest ≤ target + 1) (.read ?_) fun next => ?_
    · have hle := (hfits hG).1
      omega
    · intro w w' hw hR
      have hlog := (hR.serves latest hw.1.extra hw.1.serves).2
      exact ⟨⟨rfl, hw.1.move hR, hlog.upTo_eq.le.trans hw.2⟩, fun hG => hG⟩
    · cases next with
      -- no event is known past the gap, so it reaches the latest block
      | none =>
        refine .pure fun w hw => ⟨?_, hw.2.1, hw.2.2, hw.2.1.aims hS fun _ he _ => he.2⟩
        intro hG found hfound
        rw [eq_of_gapAnchor hfound]
        exact (hfits hG).2
      | some row =>
        -- the first known event past the gap
        have hrow : ∀ w : SyncWorld ρ, some row
              = nextKnown w.db.events (max (known.contiguousIndex + 1) 0).toNat →
            AtGap S latest known w → known.contiguousIndex + 1 < row.eventIndex
            ∧ rowAt w.db.events row.eventIndex = some row := by
          intro w hnext hw
          obtain ⟨hle, hrow⟩ := nextKnown_eq_some hnext.symm
          have hlow := hw.low
          have hne : (row.eventIndex : ℤ) ≠ known.contiguousIndex + 1 := by
            intro heq
            rw [heq, hw.gap] at hrow
            cases hrow
          exact ⟨by omega, hrow⟩
        dsimp only
        split
        · refine .pure fun w hw => ?_
          have hlt := (hrow w hw.1 hw.2.1).1
          have hlow := hw.2.1.low
          omega
        · refine .pure fun w hw => ⟨?_, hw.2.1, hw.2.2, hw.2.1.aims hS fun e he hindex => ?_⟩
          · intro hG found hfound
            rw [eq_of_gapAnchor hfound]
            exact hw.2.1.small hG _ row (hrow w hw.1 hw.2.1).2
          · obtain ⟨hlt, hrow⟩ := hrow w hw.1 hw.2.1
            exact hw.2.1.le_toBlock he hindex (by omega) hrow

/-- The pointer is past the events up to `latest`, so these are stored as they are on chain. -/
theorem AtGap.healed (hw : AtGap S latest known w)
    (hdone : ((S.log w).upTo latest : ℤ) ≤ known.contiguousIndex + 1) : Healed S latest w := by
  obtain ⟨row, hrow, hindex, -⟩ := hw.row
  have hpointer := hw.contiguousIndex_eq
  refine ⟨hw.extra, hw.serves, fun e he hlatest => ?_, by omega, row, hrow, hw.synced row hrow⟩
  have hlt := (TransferLog.lt_upTo he).mp hlatest
  have hsome : (rowAt w.db.events e.eventIndex).isSome := by
    refine (hw.sound.state row hrow).stored e.eventIndex (Int.natCast_nonneg _) ?_
    omega
  obtain ⟨found, hfound⟩ := Option.isSome_iff_exists.mp hsome
  rcases hw.sound.rows _ found hfound with hmem | ⟨hstale, -⟩
  · have heq : found.eventIndex = e.eventIndex := Int.ofNat.inj (eventIndex_of_rowAt hfound)
    rw [hfound, TransferLog.eq_of_eventIndex hmem he heq]
  · exact hw.covered e ⟨he, hlatest⟩ (hstale e he rfl) (by omega)

/-- What is known while a gap is searched: the anchor is still around the missing event. -/
structure Searching (S : Setting ρ) (latest target : ℕ) (known : IndexerState) (anchor : GapAnchor)
    (w : SyncWorld ρ) : Prop extends Scanned S latest w where
  low : known.contiguousIndex ≤ contiguousIndex w.db
  target : (S.log w).upTo latest ≤ target + 1
  aims : Aims (S.log w) latest known (some anchor)

/-- The search goes on while the others move. -/
theorem Searching.move {target : ℕ} {anchor : GapAnchor}
    (hw : Searching S latest target known anchor w) (hmove : Calm S w w') :
    Searching S latest target known anchor w' where
  toScanned := hw.toScanned.move hmove
  low := by
    rw [hmove.db]
    exact hw.low
  target := by
    rw [(hmove.serves latest hw.extra hw.serves).2.upTo_eq]
    exact hw.target
  aims := hw.aims.move hw.toServing hmove

/-- The scan finds the missing event, unless none is missing. -/
theorem scanGap_spec (hS : S.Lawful ix) (target : ℕ) {anchor : GapAnchor}
    (hsmall : S.G → anchor.toBlock + 1 < S.rounds) :
    Spec (Calm S) (¬ S.G) (Searching (ρ := ρ) S latest target known anchor)
      (scanChunked ix S.rounds anchor.fromBlock anchor.toBlock)
      (fun _ w => Scanned S latest w ∧ known.contiguousIndex ≤ contiguousIndex w.db
        ∧ (S.log w).upTo latest ≤ target + 1
        ∧ (((S.log w).upTo latest : ℤ) ≤ known.contiguousIndex + 1
          ∨ (rowAt w.db.events (known.contiguousIndex + 1)).isSome)) (fun _ => ¬ S.G) := by
  have hinv : ScanInv (Calm S) S.G (Searching (ρ := ρ) S latest target known anchor)
      (fun e w => e ∈ (S.log w).events) (Due S latest) :=
    scanInv hS (fun w hw => hw.toServing) (fun _ _ hw hR => hw.move hR) fun w batch hw hbatch =>
      ⟨hw.toScanned.insert hS hbatch, hw.low, hw.target, hw.aims⟩
  have hscan := scanChunked_spec hinv (fun _ hG _ => hG) (fun hG => (hS.config hG).2)
    anchor.fromBlock anchor.toBlock hsmall
  refine hscan.mono (fun w hw => hw) (fun _ w hw => ?_) fun _ hw => hw
  refine ⟨hw.1.toScanned, hw.1.low, hw.1.target, ?_⟩
  -- the missing event is in the range that was scanned
  rcases hw.1.aims with hdone | ⟨found, hfound, e, he, hindex, hle, hfrom, hto⟩
  · exact Or.inl hdone
  · cases hfound
    rw [← hindex, hw.2 e ⟨he, hle⟩ hfrom (by omega)]
    exact Or.inr rfl

/-- Every round of the loop closes one gap, so that as many rounds as there are indices missing
reach the target. -/
theorem backfillLoop_spec (hS : S.Lawful ix) {target : ℕ}
    (hlatest : S.G → target ≤ i64Max ∧ latest + 1 < S.rounds) (n : ℕ) (known : IndexerState)
    (hn : S.G → (target - known.contiguousIndex).toNat < n) :
    Spec (Calm S) (¬ S.G)
      (fun w : SyncWorld ρ => AtGap S latest known w ∧ (S.log w).upTo latest ≤ target + 1)
      (backfillLoop ix S.rounds target latest n known) (fun _ => Healed S latest)
      (fun _ => ¬ S.G) := by
  induction n generalizing known with
  | zero =>
    refine .fail fun w _ hG => ?_
    have hlt := hn hG
    omega
  | succ n ih =>
    unfold backfillLoop
    split
    · refine .pure fun w hw => hw.1.healed ?_
      have htarget := hw.2
      omega
    · rename_i hmore
      refine .bind (findGapAnchor_spec hS hlatest) fun anchor => .assume fun hsmall => ?_
      cases anchor with
      | none =>
        refine .pure fun w hw => hw.1.healed ?_
        rcases hw.2.2 with hdone | ⟨found, hfound, -⟩
        · exact hdone
        · cases hfound
      | some anchor =>
        refine .bind ((scanGap_spec hS target fun hG => hsmall hG anchor rfl).mono
          (fun w hw => ⟨hw.1.toScanned, hw.1.contiguousIndex_eq.ge, hw.2.1, hw.2.2⟩)
          (fun _ _ hw => hw) fun _ hw => hw) fun _ =>
          .bind (advanceContiguousIndex_spec hS known.contiguousIndex fun due events =>
            due ≤ target + 1 ∧ ((due : ℤ) ≤ known.contiguousIndex + 1
              ∨ (rowAt events (known.contiguousIndex + 1)).isSome)) fun next => ?_
        split
        · -- the pointer has not moved, so there is still a gap after it
          rename_i hstuck
          refine .pure fun w hgap => ?_
          obtain ⟨hw, hlow, -, hnext⟩ := hgap
          refine hw.healed ?_
          have hsame : next.contiguousIndex = known.contiguousIndex := by omega
          rcases hnext with hdone | hsome
          · rw [hsame]
            exact hdone
          · rw [← hsame, hw.gap] at hsome
            cases hsome
        · refine (ih next fun hG => ?_).mono (fun w hw => ⟨hw.1, hw.2.2.1⟩) (fun _ _ hw => hw)
            fun _ hw => hw
          have hlt := hn hG
          omega

/-- `backfill_missing_indices` leaves no gap up to the target. -/
theorem backfillMissingIndices_spec (hS : S.Lawful ix) {index : ℕ}
    (hlatest : S.G → latest + 1 < S.rounds) (hsmall : S.G → index ≤ i64Max ∧ index + 1 < S.rounds)
    (hlow : -1 ≤ known.contiguousIndex) :
    Spec (Calm S) (¬ S.G)
      (fun w : SyncWorld ρ => AtGap S latest known w ∧ (S.log w).upTo latest ≤ index)
      (backfillMissingIndices ix S.rounds known (checkedPred index) latest)
      (fun _ => Healed S latest) (fun _ => ¬ S.G) := by
  cases index with
  | zero =>
    refine .pure fun w hw => hw.1.healed ?_
    have hnone := hw.2
    omega
  | succ target =>
    refine backfillLoop_spec hS (fun hG => ⟨?_, hlatest hG⟩) S.rounds known fun hG => ?_
    · have hle := (hsmall hG).1
      omega
    · have hlt := (hsmall hG).2
      omega

end

/-! ## The whole sync -/

/-- The block that the forward scan starts at. -/
def forwardStart (ix : EventIndexer) (lastSyncedBlock : ℕ) : ℕ :=
  max (lastSyncedBlock - ix.forwardScanOverlap) ix.deployedBlockNumber

/-- The block that a sync of these tables starts its forward scan at. -/
def startOf (ix : EventIndexer) (db : EventDb) : ℕ :=
  forwardStart ix ((db.state.map fun row => row.lastSyncedBlock.toNat).getD 0)

/-- Creating the row does not change where the scan starts. -/
theorem startOf_insertState (ix : EventIndexer) (db : EventDb) :
    startOf ix { db with
      state := some (db.state.getD ⟨-1, none, ix.deployedBlockNumber, none⟩) } = startOf ix db := by
  unfold startOf forwardStart
  cases db.state with
  | some row => rfl
  | none =>
    show max ((ix.deployedBlockNumber : ℤ).toNat - _) _ = max (0 - _) _
    omega

/-- Nor does raising a watermark that is below the deployment. -/
theorem startOf_raise {ix : EventIndexer} {db : EventDb} {row : IndexerStateRow}
    (hrow : db.state = some row) (hlow : row.lastSyncedBlock < ix.deployedBlockNumber) :
    startOf ix { db with state := db.state.map fun row =>
      { row with lastSyncedBlock := (ix.deployedBlockNumber : ℤ) } } = startOf ix db := by
  unfold startOf forwardStart
  rw [hrow]
  show max ((ix.deployedBlockNumber : ℤ).toNat - _) _ = max (row.lastSyncedBlock.toNat - _) _
  omega

/-- Where a sync begins: a scan from its own start on would put the tables right. -/
structure Ready (S : Setting ρ) (ix : EventIndexer) (w : SyncWorld ρ) : Prop where
  extra : S.X w
  sound : Sound (S.log w) S.start w.db
  start : S.start = startOf ix w.db
  seen : S.G → ∀ row, w.db.state = some row →
    ∀ seen, row.lastSeenContractIndex = some seen → 0 ≤ seen
  small : S.G → ∀ (k : ℤ) (row : IndexedEvent), rowAt w.db.events k = some row →
    row.ethBlockNumber + 1 < S.rounds

/-- The setting before the scan goes on while the others move. -/
theorem Ready.move (hw : Ready S ix w) (hmove : Calm S w w') : Ready S ix w' where
  extra := hmove.extra hw.extra
  sound := by
    rw [hmove.db]
    exact hmove.sound hw.extra hw.sound
  start := by
    rw [hmove.db]
    exact hw.start
  seen := by
    rw [hmove.db]
    exact hw.seen
  small := by
    rw [hmove.db]
    exact hw.small

/-- A new state row is as good as none. -/
theorem Ready.insertState (hS : S.Lawful ix) (hw : Ready S ix w) :
    Ready S ix (setState w
      (some (w.db.state.getD ⟨-1, none, ix.deployedBlockNumber, none⟩))) where
  extra := hS.setState w _ hw.extra
  sound := hw.sound.insertState _
  start := hw.start.trans (startOf_insertState ix w.db).symm
  seen hG row hrow seen hseen := by
    obtain rfl := Option.some.inj hrow
    cases hstate : w.db.state with
    | none =>
      rw [hstate] at hseen
      cases hseen
    | some row =>
      rw [hstate] at hseen
      exact hw.seen hG row hstate seen hseen
  small := hw.small

/-- Raising the watermark to the block of deployment does not change the start. -/
theorem Ready.raise {row : IndexerStateRow} (hS : S.Lawful ix) (hw : Ready S ix w)
    (hrow : w.db.state = some row) (hlow : row.lastSyncedBlock < ix.deployedBlockNumber) :
    Ready S ix (setState w (w.db.state.map fun row =>
      { row with lastSyncedBlock := (ix.deployedBlockNumber : ℤ) })) where
  extra := hS.setState w _ hw.extra
  sound := hw.sound.mapState _ fun _ => ⟨rfl, rfl⟩
  start := hw.start.trans (startOf_raise hrow hlow).symm
  seen hG row' hrow' seen hseen := by
    obtain ⟨old, hold, rfl⟩ := Option.map_eq_some_iff.mp hrow'
    exact hw.seen hG old hold seen hseen
  small := hw.small

theorem stateRow_spec {row : IndexerStateRow} (hsynced : 0 ≤ row.lastSyncedBlock) :
    Spec (Calm S) (¬ S.G) (fun w : SyncWorld ρ => w.db.state = some row ∧ Ready S ix w)
      (ofExcept (indexerStateFromRow row))
      (fun known w => S.start = forwardStart ix known.lastSyncedBlock
        ∧ Ready S ix w ∧ w.db.state.isSome) (fun _ => ¬ S.G) := by
  refine (indexerState_spec fun w hw hG => ?_).mono (fun w hw => hw) (fun known w hw => ?_)
    fun _ hw => hw
  · exact ⟨(hw.2.sound.state row hw.1).block_nonneg, hsynced, hw.2.seen hG row hw.1⟩
  · obtain ⟨hreads, hrow, hready⟩ := hw
    refine ⟨?_, hready, by rw [hrow]; rfl⟩
    have hstart := hready.start
    rw [startOf, hrow, Option.map_some, Option.getD_some, hreads.lastSyncedBlock] at hstart
    exact hstart

/-- `ensure_state_row` gives the job a row, and changes no start. -/
theorem ensureStateRow_spec (hS : S.Lawful ix) :
    Spec (Calm S) (¬ S.G) (Ready (ρ := ρ) S ix) (ensureStateRow ix)
      (fun known w => S.start = forwardStart ix known.lastSyncedBlock
        ∧ Ready S ix w ∧ w.db.state.isSome) (fun _ => ¬ S.G) := by
  unfold ensureStateRow
  refine .bind (toI64_spec (fun w _ hG => (hS.config hG).1) fun _ hG _ => hG) fun initialBlock =>
    .assume fun hinitial => ?_
  subst hinitial
  refine .bind (M := fun _ w => Ready S ix w ∧ w.db.state.isSome) (.write ?_) fun _ =>
    .bind (M := fun row w => (row.isSome ∧ w.db.state = row) ∧ Ready S ix w) (.read ?_)
    fun row => .bind (fetchRow_spec fun w hw => ⟨hw.1.2, hw.1.1⟩) fun row => ?_
  · exact fun w w' hw hR => ⟨⟨(hw.move hR).insertState hS, rfl⟩, fun hG => ⟨hG, hG⟩⟩
  · intro w w' hw hR
    refine ⟨⟨⟨?_, rfl⟩, hw.1.move hR⟩, fun hG => hG⟩
    rw [hR.db]
    exact hw.2
  · split
    -- the row is older than the deployment: it is moved up
    · rename_i hlow
      refine .bind (M := fun _ w => w.db.state
          = some { row with lastSyncedBlock := (ix.deployedBlockNumber : ℤ) } ∧ Ready S ix w)
        (.write ?_) fun _ => stateRow_spec (Int.natCast_nonneg _)
      intro w w' hw hR
      have hrow : w'.db.state = some row := by
        rw [hR.db]
        exact hw.1
      refine ⟨⟨?_, (hw.2.2.move hR).raise hS hrow hlow⟩, fun hG => ⟨hG, hG⟩⟩
      rw [hrow]
      rfl
    · refine (stateRow_spec ?_).mono (fun w hw => ⟨hw.1, hw.2.2⟩) (fun _ _ hw => hw)
        fun _ hw => hw
      omega

/-- The watermark is written once the blocks up to the latest are scanned. -/
theorem persistSyncWatermark_spec (hS : S.Lawful ix) {index : ℕ}
    (hlatest : S.G → latest ≤ i64Max ∧ index ≤ i64Max) :
    Spec (Calm S) (¬ S.G)
      (fun w : SyncWorld ρ => (Serving S latest w ∧ (S.log w).upTo latest ≤ index)
        ∧ Stored (Due S latest) S.start (latest + 1) w)
      (persistSyncWatermark latest index)
      (fun _ w => Scanned S latest w ∧ (S.log w).upTo latest ≤ index) (fun _ => ¬ S.G) := by
  unfold persistSyncWatermark
  refine .bind (toI64_spec (fun w _ hG => (hlatest hG).1) fun _ hG _ => hG) fun lastBlock =>
    .assume fun hlast => .bind (toI64_spec (fun w _ hG => (hlatest hG).2) fun _ hG _ => hG)
    fun nextIndex => .assume fun hnext => .write fun w w' hw hR => ⟨?_, fun hG => ⟨hG, hG⟩⟩
  subst hlast hnext
  have hw' := hw.1.1.move hR
  have hlog := (hR.serves _ hw.1.1.extra hw.1.1.serves).2
  obtain ⟨row, hrow, -⟩ := hw'.state
  have hsound := hw'.sound.mapState (fun row => { row with
    lastSyncedBlock := (lastBlock : ℤ), lastSeenContractIndex := some (nextIndex : ℤ) })
    fun _ => ⟨rfl, rfl⟩
  rw [hrow, Option.map_some] at hsound ⊢
  refine ⟨⟨⟨hS.setState w' _ hw'.extra, hw'.serves, hsound, ⟨_, rfl, ?_⟩, hw'.small⟩,
    ?_, ?_⟩, hlog.upTo_eq.le.trans hw.1.2⟩
  -- what the row says is seen, and all that is due is stored
  · rintro - seen hseen
    obtain rfl := Option.some.inj hseen
    exact Int.natCast_nonneg _
  · intro e he hlow hhigh
    show rowAt w'.db.events e.eventIndex = some e
    rw [hR.db]
    exact hw.2 e (Due.back hw.1.1 hR he) hlow hhigh
  · rintro row' hrow'
    obtain rfl := Option.some.inj hrow'
    rfl

/-- Creating the partitions changes no row. -/
theorem ensurePartitions_spec :
    Spec (Calm S) (¬ S.G) (Ready (ρ := ρ) S ix) ensurePartitions (fun _ => Ready S ix)
      (fun _ => ¬ S.G) :=
  .bind (M := fun _ => Ready S ix)
    (.write fun _ _ hw hR => ⟨hw.move hR, fun hG => ⟨hG, hG⟩⟩) fun _ =>
    .write fun _ _ hw hR => ⟨hw.move hR, fun hG => ⟨hG, hG⟩⟩

/-- The scan stores every event from its start to the latest block. -/
theorem forwardScan_spec (hS : S.Lawful ix) (index : ℕ) (hlatest : S.G → latest + 1 < S.rounds) :
    Spec (Calm S) (¬ S.G)
      (fun w : SyncWorld ρ => Serving S latest w ∧ (S.log w).upTo latest ≤ index)
      (scanChunked ix S.rounds S.start latest)
      (fun _ w => (Serving S latest w ∧ (S.log w).upTo latest ≤ index)
        ∧ Stored (Due S latest) S.start (latest + 1) w) (fun _ => ¬ S.G) := by
  refine scanChunked_spec (scanInv hS (fun w hw => hw.1) (fun w w' hw hR => ?_)
    fun w batch hw hbatch => ⟨hw.1.insert hS hbatch, hw.2⟩) (fun _ hG _ => hG)
    (fun hG => (hS.config hG).2) S.start latest hlatest
  exact ⟨hw.1.move hR, (hR.serves latest hw.1.extra hw.1.serves).2.upTo_eq.le.trans hw.2⟩

/-- **A sync heals the tables**, and returns where nothing fails and the numbers fit. -/
theorem sync_spec (hS : S.Lawful ix) :
    Spec (Calm S) (¬ S.G) (Ready (ρ := ρ) S ix) (sync ix S.rounds)
      (fun _ w => ∃ w₀, S.X w₀ ∧ Healed S w₀.provider.latestBlock w) (fun _ => ¬ S.G) := by
  unfold sync
  refine .bind ensurePartitions_spec fun _ => .bind (ensureStateRow_spec hS) fun known =>
    .assume fun hstart => ?_
  -- the latest block and `index()` are read
  refine .bind (M := fun latest w => ((∃ w₀, S.X w₀ ∧ w₀.provider.latestBlock = latest)
      ∧ (S.G → latest ≤ i64Max ∧ latest + 1 < S.rounds)) ∧ Serving S latest w) (.read ?_)
    fun latest => .assume fun ⟨⟨w₀, hw₀, hread⟩, hlatest⟩ => ?_
  · intro w w' hw hR
    have hw' := hw.1.move hR
    refine ⟨⟨⟨⟨w', hw'.extra, rfl⟩, fun hG => (hS.fits hG w' hw'.extra).latestBlock⟩,
      ⟨hw'.extra, hS.honest w' hw'.extra, hw'.sound, ?_, hw'.small⟩⟩, fun hG => hG⟩
    have hsome := hw.2
    rw [← hR.db] at hsome
    obtain ⟨row, hrow⟩ := Option.isSome_iff_exists.mp hsome
    exact ⟨row, hrow, fun hG => hw'.seen hG row hrow⟩
  refine .bind (M := fun index w => (S.G → index ≤ i64Max ∧ index + 1 < S.rounds)
    ∧ Serving S latest w ∧ (S.log w).upTo latest ≤ index) (.read ?_)
    fun index => .assume fun hsmall => ?_
  · intro w w' hw hR
    have hw' := hw.move hR
    exact ⟨⟨fun hG => (hS.fits hG w' hw'.extra).index, hw', hw'.serves.index⟩, fun hG => hG⟩
  dsimp only
  rw [← forwardStart, ← hstart]
  refine .bind (forwardScan_spec hS index fun hG => (hlatest hG).2) fun _ =>
    .bind (persistSyncWatermark_spec hS fun hG => ⟨(hlatest hG).1, (hsmall hG).1⟩) fun _ => ?_
  -- the pointer is moved, and the gaps are searched
  refine .bind (M := fun known w => -1 ≤ known.contiguousIndex
    ∧ AtGap S latest known w ∧ (S.log w).upTo latest ≤ index) ?_ fun known => .assume fun hlow =>
    .bind (backfillMissingIndices_spec hS (fun hG => (hlatest hG).2) hsmall hlow)
      fun _ => .pure fun w hw => ⟨w₀, hw₀, hread ▸ hw⟩
  refine (advanceContiguousIndex_spec hS (-1) fun due _ => due ≤ index).mono
    (fun w hw => ⟨hw.1, ?_, hw.2⟩) (fun _ _ hw => ⟨hw.2.1, hw.1, hw.2.2⟩) fun _ hw => hw
  obtain ⟨row, hrow, -⟩ := hw.1.state
  rw [contiguousIndex, hrow]
  exact (hw.1.sound.state row hrow).low

end

/-! ## Tables of any history -/

/-- The stored rows are events of the log, any of them. The pointer is `-1`, without a block, or
over stored rows with the block of the last of them. -/
structure Genuine (log : TransferLog) (db : EventDb) : Prop where
  rows : ∀ row ∈ db.events, row ∈ log.events
  state : ∀ row, db.state = some row →
    (row.contiguousIndex = -1 ∧ row.contiguousBlock = none)
      ∨ (0 ≤ row.contiguousIndex ∧ StoredTo db.events row.contiguousIndex
        ∧ ∃ last, rowAt db.events row.contiguousIndex = some last
          ∧ row.contiguousBlock = some (last.ethBlockNumber : ℤ))

/-- Whatever the watermark says, a scan from any block on puts genuine tables right. -/
theorem Genuine.sound {log : TransferLog} {db : EventDb} (hdb : Genuine log db) (start : ℕ) :
    Sound log start db where
  rows _ row hrow := Or.inl (hdb.rows row (mem_of_rowAt hrow))
  state row hrow := by
    rcases hdb.state row hrow with ⟨hindex, hblock⟩ | ⟨hpos, hstored, last, hlast, hblock⟩
    · refine ⟨hindex.ge, fun k hk hle => ?_, Or.inl ⟨hindex, hblock⟩⟩
      omega
    · refine ⟨by omega, hstored, Or.inr ⟨hpos, last.ethBlockNumber, hblock, ?_⟩⟩
      intro e he hindex _ _
      have hlastIndex := eventIndex_of_rowAt hlast
      exact TransferLog.block_le (hdb.rows last (mem_of_rowAt hlast)) he (by omega)

/-- A sync on a chain whose events do not change, with the latest block `block`. -/
def fixedSetting (ix : EventIndexer) (log : TransferLog) (db : EventDb) (rounds block : ℕ)
    (G : Prop) : Setting ρ where
  logOf _ _ := log
  start := startOf ix db
  rounds := rounds
  G := G
  X w := w.provider.latestBlock = block ∧ w.provider.Honest log
    ∧ (G → Fits rounds log w.provider)

/-- A provider that does not move is a setting, when the contract was deployed before its first
event. -/
theorem fixedSetting_lawful {ix : EventIndexer} {log : TransferLog} {db : EventDb}
    {rounds block : ℕ} {G : Prop}
    (hdeployed : ∀ e ∈ log.events, ix.deployedBlockNumber ≤ e.ethBlockNumber)
    (hconfig : G → ix.deployedBlockNumber ≤ i64Max ∧ ix.forwardScanOverlap < ix.blockSpan) :
    (fixedSetting (ρ := ρ) ix log db rounds block G).Lawful ix where
  honest _ hw := hw.2.1
  deployed _ _ := hdeployed
  fits hG _ hw := hw.2.2 hG
  config := hconfig
  insert _ _ hw _ := hw
  setState _ _ hw := hw

/-- A database with genuine rows is ready for the sync. -/
theorem Genuine.ready {ix : EventIndexer} {log : TransferLog} {w : SyncWorld ρ} {rounds : ℕ}
    {G : Prop} (hdb : Genuine log w.db) (hhonest : w.provider.Honest log)
    (hfits : G → Fits rounds log w.provider)
    (hseen : G → ∀ row, w.db.state = some row →
      ∀ seen, row.lastSeenContractIndex = some seen → 0 ≤ seen) :
    Ready (fixedSetting ix log w.db rounds w.provider.latestBlock G) ix w where
  extra := ⟨rfl, hhonest, hfits⟩
  sound := hdb.sound _
  start := rfl
  seen := hseen
  small hG _ row hrow := (hfits hG).block row (hdb.rows row (mem_of_rowAt hrow))

/-- During a call nobody else writes to the tables, the latest block is the same, and the provider
goes on serving what it has served. -/
structure Undisturbed (log : TransferLog) (w w' : SyncWorld ρ) : Prop where
  db : w'.db = w.db
  latestBlock : w'.provider.latestBlock = w.provider.latestBlock
  serves : ∀ block, w.provider.Serves log block → w'.provider.Serves log block

/-- The worlds that syncs and others lead to, from empty tables. A sync may stop anywhere, with any
answers of the provider; the others do not open a gap below the pointer. -/
inductive Reachable (ix : EventIndexer) : SyncWorld ρ → Prop where
  | initial (w : SyncWorld ρ) (hw : w.db = EventDb.initial) : Reachable ix w
  | others (w w' : SyncWorld ρ) (hw : Reachable ix w) (hmove : Advances w w') : Reachable ix w'
  | sync (w : SyncWorld ρ) (rounds : ℕ) (env : Env (SyncWorld ρ)) (hw : Reachable ix w)
      (henv : ∀ n w, Advances w (env.move n w)) :
      Reachable ix ((sync ix rounds).outcome env w).2

/-- The pointer of a reachable database has every row up to it. -/
theorem Reachable.noGap {ix : EventIndexer} {w : SyncWorld ρ} (hw : Reachable ix w) :
    NoGap w.db := by
  induction hw with
  | initial w hw =>
    intro k hk hle
    rw [hw] at hle
    change k ≤ -1 at hle
    omega
  | others w w' _ hmove ih => exact (hmove ih).1
  | sync w rounds env _ henv ih => exact ((sync_keeps (tableInv_pointedFrom _) ix rounds).outcome henv
    ⟨ih, le_refl _⟩).1

/-- **Event sync heals itself.** A sync that returns leaves every event up to the latest block
stored and the pointer behind none of them, from any genuine tables. And in every reachable world
the rows up to the pointer are stored, and no sync moves it back, wherever it stops. -/
theorem sync_heals (ix : EventIndexer) (log : TransferLog)
    (hdeployed : ∀ e ∈ log.events, ix.deployedBlockNumber ≤ e.ethBlockNumber) :
    (∀ (w w' : SyncWorld ρ) (rounds : ℕ) (env : Env (SyncWorld ρ)), Genuine log w.db →
        w.provider.Honest log → (∀ n w, Undisturbed log w (env.move n w)) →
        (sync ix rounds).outcome env w = (.ok (), w') →
        (∀ e ∈ log.events, e.ethBlockNumber ≤ w.provider.latestBlock →
          rowAt w'.db.events e.eventIndex = some e)
        ∧ (log.upTo w.provider.latestBlock : ℤ) - 1 ≤ contiguousIndex w'.db)
      ∧ ∀ w : SyncWorld ρ, Reachable ix w → NoGap w.db
        ∧ ∀ (rounds : ℕ) (env : Env (SyncWorld ρ)), (∀ n w, Advances w (env.move n w)) →
          contiguousIndex w.db ≤ contiguousIndex ((sync ix rounds).outcome env w).2.db := by
  refine ⟨fun w w' rounds env hdb hhonest henv hok => ?_, fun w hw => ⟨hw.noGap, ?_⟩⟩
  · -- nothing is claimed of a sync that does not return
    have hready : Ready (fixedSetting ix log w.db rounds w.provider.latestBlock False) ix w :=
      hdb.ready hhonest False.elim False.elim
    have hcalm : ∀ n v, Calm (fixedSetting ix log w.db rounds w.provider.latestBlock False) v
        (env.move n v) := by
      intro n v
      obtain ⟨hsame, hlatest, hserves⟩ := henv n v
      refine ⟨hsame, fun hv => ⟨hlatest.trans hv.1, ?_, False.elim⟩,
        fun block _ hblock => ⟨hserves block hblock, .refl block log⟩, fun _ hsound => hsound⟩
      rw [Provider.Honest, hlatest]
      exact hserves _ hv.2.1
    have hend := (sync_spec (fixedSetting_lawful hdeployed False.elim)).outcome
      ⟨hcalm, Or.inl not_false⟩ hready
    change Ends _ _ ((sync ix rounds).outcome env w) at hend
    rw [hok] at hend
    obtain ⟨w₀, hw₀, hhealed⟩ := hend
    rw [hw₀.1] at hhealed
    exact ⟨hhealed.stored, hhealed.pointer⟩
  · intro rounds env henv
    exact ((sync_keeps (tableInv_pointedFrom _) ix rounds).outcome henv ⟨hw.noGap, le_refl _⟩).2

/-- A sync returns when none of its statements fails. -/
theorem sync_returns {ix : EventIndexer} {log : TransferLog} {rounds : ℕ}
    (hconfig : ix.deployedBlockNumber ≤ i64Max ∧ ix.forwardScanOverlap < ix.blockSpan)
    (hdeployed : ∀ e ∈ log.events, ix.deployedBlockNumber ≤ e.ethBlockNumber)
    {w : SyncWorld ρ} (hdb : Genuine log w.db) (hhonest : w.provider.Honest log)
    (hfits : Fits rounds log w.provider)
    (hseen : ∀ row, w.db.state = some row →
      ∀ seen, row.lastSeenContractIndex = some seen → 0 ≤ seen) :
    ((sync ix rounds).outcome (.still _) w).1 = .ok () := by
  have hready : Ready (fixedSetting ix log w.db rounds w.provider.latestBlock True) ix w :=
    hdb.ready hhonest (fun _ => hfits) fun _ => hseen
  have hstill : (Env.still (SyncWorld ρ)).Obeys
      (Calm (fixedSetting ix log w.db rounds w.provider.latestBlock True)) (¬ True) :=
    ⟨fun _ v => ⟨rfl, fun hv => hv, fun block _ hblock => ⟨hblock, .refl block log⟩,
      fun _ hsound => hsound⟩, Or.inr fun _ => rfl⟩
  have hend := (sync_spec (fixedSetting_lawful hdeployed fun _ => hconfig)).outcome hstill hready
  change Ends _ _ ((sync ix rounds).outcome (.still _) w) at hend
  -- an error would mean that the guarantee was off
  match hrun : (sync ix rounds).outcome (.still _) w with
  | (.ok (), _) => rfl
  | (.error _, _) =>
    rw [hrun] at hend
    exact absurd trivial hend

namespace GapExample

def event (index block : ℕ) : IndexedEvent := ⟨index, 1, ⟨2, 10⟩, block⟩

def log : TransferLog :=
  ⟨[event 0 1, event 1 2, event 2 2, event 3 5], by decide, by decide⟩

def indexer : EventIndexer := ⟨3, 1, 1, by decide⟩

/-- Two events are missing between the rows of an earlier sync. -/
def world : SyncWorld Unit where
  db := ⟨[event 0 1, event 3 5], some ⟨0, some 1, 6, some 4⟩⟩
  provider := .ofLog log 6
  rest := ()

/-- The rows of the example are those of the log. -/
theorem genuine : Genuine log world.db where
  rows := by decide
  state := by
    rintro row hrow
    obtain rfl := Option.some.inj hrow
    refine Or.inr ⟨le_refl _, fun k hk hle => ?_, event 0 1, rfl, rfl⟩
    obtain rfl : k = 0 := le_antisymm hle hk
    rfl

/-- The numbers of the example fit their columns. -/
theorem fits : Fits 20 log world.provider :=
  ⟨by decide, by decide, by decide, by decide⟩

/-- The world after the sync. -/
def after : SyncWorld Unit := ((sync indexer 20).outcome (.still _) world).2

/-- The sync of the example returns, with the gap closed. -/
theorem returns : (sync indexer 20).outcome (.still _) world = (.ok (), after) := by
  refine Prod.ext (sync_returns (by decide) (by decide) genuine
    (Provider.ofLog_serves log (le_refl 6)) fits ?_) rfl
  rintro row hrow seen hseen
  obtain rfl := Option.some.inj hrow
  obtain rfl := Option.some.inj hseen
  decide

end GapExample

/-- The missing events are found. -/
theorem sync_heals_gap :
    (∀ e ∈ GapExample.log.events, rowAt GapExample.after.db.events e.eventIndex = some e)
      ∧ 3 ≤ contiguousIndex GapExample.after.db := by
  obtain ⟨hstored, hpointer⟩ := (sync_heals GapExample.indexer GapExample.log (by decide)).1
    GapExample.world GapExample.after 20 (.still _) GapExample.genuine
    (Provider.ofLog_serves _ (le_refl 6)) (fun _ _ => ⟨rfl, rfl, fun _ => id⟩) GapExample.returns
  have hupTo : GapExample.log.upTo 6 = 4 := by decide
  refine ⟨fun e he => hstored e he ?_, ?_⟩
  · revert e
    decide
  · change ((GapExample.log.upTo 6 : ℕ) : ℤ) - 1 ≤ _ at hpointer
    omega

end EventIndexer

end Indexer

end Zerc20
