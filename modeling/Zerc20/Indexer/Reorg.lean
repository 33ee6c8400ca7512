import Zerc20.Indexer.EventHealing
import Zerc20.Indexer.Ingest

/-!
# Chain reorganisations

The event sync scans the last `forward_scan_overlap` blocks again, so that it comes across the events
that a reorganisation of the chain has replaced, and overwrites their rows. The tree is not told: a
leaf that was made of a replaced event stays. Nor is a row deleted that the new chain has no event
for: it stays below the pointer, and a leaf is made of it.

`ReorgWorld` has the chain that the provider follows and the ingestion of `Zerc20.Indexer.Ingest`
beside the tables. Between any two statements of a sync the workers may take steps and the chain may
grow or be reorganised. `tables_survive` is about the tables: a reorganisation no deeper than the
overlap never puts them beyond what the next sync repairs, also in the middle of a sync.
`reorg_agreement` is about the tree.
-/

namespace Zerc20

namespace Indexer

open Statements Prog Machine

namespace EventIndexer

/-! ## The chain -/

/-- The chain that the provider follows. -/
structure ChainState where
  log : TransferLog
  latestBlock : ℕ
  /-- The highest block that there has been. -/
  highest : ℕ

structure ChainState.Ok (ix : EventIndexer) (c : ChainState) : Prop where
  latest : ∀ e ∈ c.log.events, e.ethBlockNumber ≤ c.latestBlock
  deployed : ∀ e ∈ c.log.events, ix.deployedBlockNumber ≤ e.ethBlockNumber
  highest : c.latestBlock ≤ c.highest

/-- The chain `c'` has the blocks of `c` up to `fork`, which is no deeper than the overlap. -/
structure ChainState.Reorganised (ix : EventIndexer) (fork : ℕ) (c c' : ChainState) : Prop where
  depth : c.highest ≤ fork + ix.forwardScanOverlap
  kept : ∀ e : IndexedEvent, e.ethBlockNumber ≤ fork → (e ∈ c.log.events ↔ e ∈ c'.log.events)
  latest : fork ≤ c'.latestBlock
  highest : c'.highest = max c.highest c'.latestBlock
  ok : c'.Ok ix

section

variable {ix : EventIndexer} {fork start : ℕ} {c c' : ChainState}

/-- The bound on the blocks that a sync need not scan again. -/
def ChainState.safe (ix : EventIndexer) (c : ChainState) : ℕ := forwardStart ix c.highest

/-- The safe block of a chain never falls. -/
theorem ChainState.Reorganised.safe_le (hc : c.Reorganised ix fork c') :
    c.safe ix ≤ c'.safe ix := by
  have hhigh := hc.highest
  unfold ChainState.safe forwardStart
  omega

/-- The events before what a sync scans again are the same. -/
theorem ChainState.Reorganised.mem_iff (hc : c.Reorganised ix fork c') (hok : c.Ok ix)
    (hstart : start ≤ c.safe ix) {e : IndexedEvent} (he : e.ethBlockNumber < start) :
    e ∈ c.log.events ↔ e ∈ c'.log.events := by
  by_cases hfork : e.ethBlockNumber ≤ fork
  · exact hc.kept e hfork
  · -- the bound is then the block of deployment, before which there is no event
    have hlt : e.ethBlockNumber < ix.deployedBlockNumber := by
      have hdepth := hc.depth
      unfold ChainState.safe forwardStart at hstart
      omega
    constructor
    · intro hmem
      have hle := hok.deployed e hmem
      omega
    · intro hmem
      have hle := hc.ok.deployed e hmem
      omega

/-- An event of a safe block stays in the log. -/
theorem Near.reorganised {e : IndexedEvent} (hc : c.Reorganised ix fork c') (hok : c.Ok ix)
    (hstart : start ≤ c.safe ix) (he : Near c.log start e) : Near c'.log start e := by
  have hindex : start ≤ e.ethBlockNumber → (∀ e' ∈ c.log.events, e'.eventIndex = e.eventIndex →
      start ≤ e'.ethBlockNumber) → Near c'.log start e := by
    intro hblock hold
    refine Or.inr ⟨hblock, fun e' he' heq => ?_⟩
    by_contra hlt
    have hmem := (hc.mem_iff hok hstart (by omega)).mpr he'
    exact hlt (hold e' hmem heq)
  rcases he with hmem | ⟨hblock, hold⟩
  · by_cases hlt : e.ethBlockNumber < start
    · exact Or.inl ((hc.mem_iff hok hstart hlt).mp hmem)
    · refine hindex (by omega) fun e' he' heq => ?_
      rw [TransferLog.eq_of_eventIndex he' hmem heq]
      omega
  · exact hindex hblock hold

/-- **A reorganisation leaves the tables such that a sync repairs them.** -/
theorem Sound.reorganised {db : EventDb} (hc : c.Reorganised ix fork c') (hok : c.Ok ix)
    (hstart : start ≤ c.safe ix) (hdb : Sound c.log start db) : Sound c'.log start db where
  rows k row hrow := by
    have hindex := eventIndex_of_rowAt hrow
    -- events before the safe start are the same on both forks
    have hold : ∀ e ∈ c'.log.events, e.ethBlockNumber < start → e ∈ c.log.events :=
      fun e he hlt => (hc.mem_iff hok hstart hlt).mpr he
    rcases hdb.rows k row hrow with hmem | ⟨hscan, hbefore⟩
    · have hnear : Near c'.log start row := Near.reorganised hc hok hstart (Or.inl hmem)
      rcases hnear with hmem | ⟨hblock, hscan⟩
      · exact Or.inl hmem
      · refine Or.inr ⟨fun e he heq => hscan e he (by omega), fun e _ hlt _ => hlt.le.trans hblock⟩
    · refine Or.inr ⟨fun e he heq => ?_, fun e he hlt => hbefore e (hold e he hlt) hlt⟩
      by_contra hlt
      exact hlt (hscan e (hold e he (by omega)) heq)
  state row hrow := by
    obtain ⟨hlow, hstored, hblock⟩ := hdb.state row hrow
    refine ⟨hlow, hstored, ?_⟩
    rcases hblock with hnone | ⟨hpos, block, hsome, hnext⟩
    · exact Or.inl hnone
    · refine Or.inr ⟨hpos, block, hsome, fun e he hindex hlt => ?_⟩
      exact hnext e ((hc.mem_iff hok hstart hlt).mpr he) hindex hlt

/-- When the events in between are stored, a sync may start its scan later. -/
theorem Sound.restart {log : TransferLog} {db : EventDb} {start' : ℕ} (hdb : Sound log start db)
    (hstored : ∀ e ∈ log.events, start ≤ e.ethBlockNumber → e.ethBlockNumber < start' →
      rowAt db.events e.eventIndex = some e) : Sound log start' db where
  rows k row hrow := by
    have hearlier : ∀ e ∈ log.events, e.ethBlockNumber < start' → Missing db.events e →
        e.ethBlockNumber < start := by
      intro e he hlt hmissing
      by_contra hge
      exact hmissing (hstored e he (by omega) hlt)
    rcases hdb.rows k row hrow with hmem | ⟨hscan, hbefore⟩
    · exact Or.inl hmem
    -- a row of an abandoned block is met again by the scan
    · by_cases hgenuine : row ∈ log.events
      · exact Or.inl hgenuine
      · refine Or.inr ⟨fun e he hindex => ?_, fun e he hlt hmissing =>
          hbefore e he (hearlier e he hlt hmissing) hmissing⟩
        by_contra hlt
        have hfound := hstored e he (hscan e he hindex) (by omega)
        rw [hindex, hrow] at hfound
        rw [Option.some.inj hfound] at hgenuine
        exact hgenuine he
  state row hrow := by
    obtain ⟨hlow, hrows, hblock⟩ := hdb.state row hrow
    refine ⟨hlow, hrows, ?_⟩
    rcases hblock with hnone | ⟨hpos, block, hsome, hnext⟩
    · exact Or.inl hnone
    · refine Or.inr ⟨hpos, block, hsome, fun e he hindex hlt hmissing => ?_⟩
      refine hnext e he hindex ?_ hmissing
      by_contra hge
      exact hmissing (hstored e he (by omega) hlt)

end

/-! ## The world of a sync -/

structure ReorgRest where
  ingestion : Ingestion
  chain : ChainState

abbrev ReorgWorld : Type := SyncWorld ReorgRest

def initialWorld (c : ChainState) : ReorgWorld :=
  ⟨.initial, .ofLog c.log c.latestBlock, .initial, c⟩

/-- The ingestion, which reads the tables of the sync. -/
def ingestionOf (w : ReorgWorld) : Ingestion := { w.rest.ingestion with eventDb := w.db }

/-- What happens beside the sync: a step of the ingestion, or the provider follows another chain
with the same blocks up to `fork`. -/
inductive OtherAction where
  | ingest (a : IngestAction)
  | chain (c : ChainState) (fork : ℕ)

section

variable (h : Hashes) (cfg : JobConfig)

/-- A step of the ingestion; the rows and the pointer are written by the sync alone. -/
def stepIngestion (w : ReorgWorld) : IngestAction → ReorgWorld
  | .ensureStateRow _ | .insertEvents _ | .advanceContiguousIndex => w
  | a => { w with rest := { w.rest with ingestion := (ingestionOf w).step h cfg a } }

def otherStep (w : ReorgWorld) : OtherAction → ReorgWorld
  | .ingest a => stepIngestion h cfg w a
  | .chain c _ => { w with
    provider := .ofLog c.log c.latestBlock
    rest := { w.rest with chain := c } }

/-- Any number of steps that meet `C`. -/
def Others (C : ReorgWorld → OtherAction → Prop) : ReorgWorld → ReorgWorld → Prop :=
  Relation.ReflTransGen fun w w' => ∃ a, C w a ∧ w' = otherStep h cfg w a

end

/-- The chain grows, or is reorganised no deeper than the overlap. -/
def Possible (ix : EventIndexer) (w : ReorgWorld) : OtherAction → Prop
  | .ingest _ => True
  | .chain c fork => w.rest.chain.Reorganised ix fork c

section

variable {h : Hashes} {cfg : JobConfig} {ix : EventIndexer} {w w' : ReorgWorld}

/-- What every step of the others keeps, they keep. -/
theorem Others.keep {C : ReorgWorld → OtherAction → Prop} {P : ReorgWorld → Prop}
    (hstep : ∀ w a, C w a → P w → P (otherStep h cfg w a)) (hmoves : Others h cfg C w w')
    (hw : P w) : P w' := by
  induction hmoves with
  | refl => exact hw
  | tail _ hlast ih =>
    obtain ⟨a, ha, rfl⟩ := hlast
    exact hstep _ a ha ih

section

variable (h cfg)

theorem stepIngestion_db (w : ReorgWorld) (a : IngestAction) :
    (stepIngestion h cfg w a).db = w.db := by
  cases a <;> rfl

theorem stepIngestion_provider (w : ReorgWorld) (a : IngestAction) :
    (stepIngestion h cfg w a).provider = w.provider := by
  cases a <;> rfl

theorem stepIngestion_chain (w : ReorgWorld) (a : IngestAction) :
    (stepIngestion h cfg w a).rest.chain = w.rest.chain := by
  cases a <;> rfl

end

theorem Others.db {C : ReorgWorld → OtherAction → Prop} (hmoves : Others h cfg C w w') :
    w'.db = w.db := by
  refine hmoves.keep (P := fun v => v.db = w.db) (fun v a _ hv => ?_) rfl
  cases a with
  | ingest a => exact (stepIngestion_db h cfg v a).trans hv
  | chain c fork => exact hv

/-! ## The tables survive -/

/-- The tables are such that a sync repairs them. -/
structure Steady (ix : EventIndexer) (w : ReorgWorld) : Prop where
  provider : w.provider = .ofLog w.rest.chain.log w.rest.chain.latestBlock
  ok : w.rest.chain.Ok ix
  bound : startOf ix w.db ≤ w.rest.chain.safe ix
  sound : Sound w.rest.chain.log (startOf ix w.db) w.db

/-- One step of the others keeps the chain steady. -/
theorem Steady.otherStep (w : ReorgWorld) (a : OtherAction) (ha : Possible ix w a)
    (hw : Steady ix w) : Steady ix (otherStep h cfg w a) := by
  cases a with
  | ingest a =>
    obtain ⟨hprovider, hok, hstart, hsound⟩ := hw
    rw [← stepIngestion_chain h cfg w a] at hprovider hok hstart hsound
    rw [← stepIngestion_db h cfg w a] at hstart hsound
    rw [← stepIngestion_provider h cfg w a] at hprovider
    exact ⟨hprovider, hok, hstart, hsound⟩
  | chain c fork =>
    exact ⟨rfl, ha.ok, hw.bound.trans ha.safe_le, hw.sound.reorganised ha hw.ok hw.bound⟩

theorem Steady.move (w w' : ReorgWorld) (hw : Steady ix w)
    (hmoves : Others h cfg (Possible ix) w w') : Steady ix w' :=
  hmoves.keep Steady.otherStep hw

/-- A sync that has read `latest`, and found the tables to be scanned from `start` on. -/
structure Drifting (ix : EventIndexer) (start latest : ℕ) (w : ReorgWorld) : Prop
    extends Steady ix w where
  startOf_eq : startOf ix w.db = start
  latest : forwardStart ix latest ≤ w.rest.chain.safe ix

variable {start latest : ℕ}

theorem Drifting.start_le (hw : Drifting ix start latest w) : start ≤ w.rest.chain.safe ix :=
  hw.startOf_eq.ge.trans hw.bound

/-- Ingestion, again, is no step of the chain. -/
theorem otherStep_chain_of_ingest (w : ReorgWorld) (a : IngestAction) :
    (otherStep h cfg w (.ingest a)).rest.chain = w.rest.chain := stepIngestion_chain h cfg w a

/-- While a sync is running the chain may be reorganised above its safe block. -/
theorem Drifting.otherStep (w : ReorgWorld) (a : OtherAction) (ha : Possible ix w a)
    (hw : Drifting ix start latest w) : Drifting ix start latest (otherStep h cfg w a) := by
  refine ⟨hw.toSteady.otherStep w a ha, ?_, ?_⟩
  · have hdb : (EventIndexer.otherStep h cfg w a).db = w.db :=
      Others.db (.single ⟨a, ha, rfl⟩)
    rw [hdb]
    exact hw.startOf_eq
  · cases a with
    | ingest a =>
      rw [otherStep_chain_of_ingest]
      exact hw.latest
    | chain c fork => exact hw.latest.trans ha.safe_le

/-- What is known of an event that was fetched a while ago. -/
def NearBoth (ix : EventIndexer) (start latest : ℕ) (e : IndexedEvent) (w : ReorgWorld) : Prop :=
  Near w.rest.chain.log start e ∧ Near w.rest.chain.log (forwardStart ix latest) e

/-- The events that must be stored before the watermark is set to `latest`. -/
def Behind (ix : EventIndexer) (latest : ℕ) (e : IndexedEvent) (w : ReorgWorld) : Prop :=
  e ∈ w.rest.chain.log.events ∧ e.ethBlockNumber < forwardStart ix latest

/-- An event that is in both logs stays in both. -/
theorem nearBoth_otherStep (w : ReorgWorld) (a : OtherAction) (ha : Possible ix w a)
    {e : IndexedEvent} (hw : Drifting ix start latest w) (he : NearBoth ix start latest e w) :
    NearBoth ix start latest e (otherStep h cfg w a) := by
  cases a with
  | ingest a =>
    unfold NearBoth at he ⊢
    rw [otherStep_chain_of_ingest]
    exact he
  | chain c fork =>
    exact ⟨he.1.reorganised ha hw.ok hw.start_le, he.2.reorganised ha hw.ok hw.latest⟩

/-- What is behind the scan was behind it before. -/
theorem behind_otherStep (w : ReorgWorld) (a : OtherAction) (ha : Possible ix w a)
    {e : IndexedEvent} (hw : Drifting ix start latest w)
    (he : Behind ix latest e (otherStep h cfg w a)) : Behind ix latest e w := by
  cases a with
  | ingest a =>
    unfold Behind at he ⊢
    rw [otherStep_chain_of_ingest] at he
    exact he
  | chain c fork => exact ⟨(ha.mem_iff hw.ok hw.latest he.2).mpr he.1, he.2⟩

/-- A scan while the chain may be reorganised. -/
theorem scanInv_drifting :
    ScanInv (Others h cfg (Possible ix)) False (Drifting ix start latest)
      (NearBoth ix start latest) (Behind ix latest) where
  db _ _ hR := hR.db
  move _ _ hw hR := hR.keep Drifting.otherStep hw
  insert w batch hw hbatch := by
    have hstart := hw.startOf_eq
    refine ⟨⟨hw.provider, hw.ok, hw.bound, ?_⟩, hstart, hw.latest⟩
    refine hw.sound.insert fun e he => ?_
    show Near w.rest.chain.log (startOf ix w.db) e
    rw [hstart]
    exact (hbatch e he).1
  ok_fetch w a b hw e he := by
    rw [hw.provider] at he
    have hmem := (List.mem_filter.mp he).1
    exact ⟨Or.inl hmem, Or.inl hmem⟩
  ok_move w w' e hw hR he := by
    refine (hR.keep (P := fun v => Drifting ix start latest v ∧ NearBoth ix start latest e v)
      (fun v a ha hv => ?_) ⟨hw, he⟩).2
    exact ⟨hv.1.otherStep v a ha, nearBoth_otherStep v a ha hv.1 hv.2⟩
  ok_fits hG := hG.elim
  due_fetch w a b e hw he ha hb := by
    rw [hw.provider]
    exact List.mem_filter.mpr ⟨he.1, by simp [ha, hb]⟩
  due_move w w' e hw hR he := by
    by_contra hnot
    refine (hR.keep (P := fun v => Drifting ix start latest v ∧ ¬ Behind ix latest e v)
      (fun v a ha hv => ?_) ⟨hw, hnot⟩).2 he
    exact ⟨hv.1.otherStep v a ha, fun hbehind => hv.2 (behind_otherStep v a ha hv.1 hbehind)⟩
  due_insert _ _ _ he := he
  -- a replaced event is scanned, so it is not behind the window
  unique w e e' _ he he' heq := by
    rcases he'.2 with hmem | ⟨-, hscan⟩
    · exact TransferLog.eq_of_eventIndex hmem he.1 heq
    · exact absurd (hscan e he.1 heq.symm) (not_le.mpr he.2)

/-- Another state row keeps the chain steady, if the scan starts at the same block. -/
theorem Steady.setState {row : Option IndexerStateRow} (hw : Steady ix w)
    (hstart : startOf ix { w.db with state := row } = startOf ix w.db)
    (hsound : Sound w.rest.chain.log (startOf ix w.db) { w.db with state := row }) :
    Steady ix (setState w row) where
  provider := hw.provider
  ok := hw.ok
  bound := hstart.le.trans hw.bound
  sound := by
    show Sound w.rest.chain.log (startOf ix { w.db with state := row }) _
    rw [hstart]
    exact hsound

/-- The pointer does not matter for the start. -/
theorem startOf_advance (ix : EventIndexer) (w : ReorgWorld) :
    startOf ix { w.db with state := advanceRow w.db } = startOf ix w.db := by
  unfold startOf advanceRow
  cases w.db.state with
  | none => rfl
  | some row =>
    have hsynced : ∀ (n : ℕ) (row : IndexerStateRow),
        (advanceLoop w.db.events n row).lastSyncedBlock = row.lastSyncedBlock := by
      intro n
      induction n with
      | zero => exact fun _ => rfl
      | succ n ih =>
        intro row
        unfold advanceLoop
        split
        · exact ih _
        · rfl
    show forwardStart ix (advanceLoop _ _ row).lastSyncedBlock.toNat = _
    rw [hsynced]
    rfl

/-- Moving the pointer changes no start. -/
theorem Steady.advance (hw : Steady ix w) :
    Steady ix (EventIndexer.setState w (advanceRow w.db)) := by
  refine hw.setState (startOf_advance ix w) ⟨hw.sound.rows, fun row hrow => ?_⟩
  obtain ⟨old, hold, rfl⟩ := Option.map_eq_some_iff.mp hrow
  exact (hw.sound.state old hold).advanceLoop hw.sound _

/-- The watermark is set once the events before the next start are stored. -/
theorem Drifting.watermark (hw : Drifting ix start latest w)
    (hstored : Stored (Behind ix latest) start (latest + 1) w) (index : ℕ) :
    Steady ix (EventIndexer.setState w (w.db.state.map fun row => { row with
      lastSyncedBlock := (latest : ℤ), lastSeenContractIndex := some (index : ℤ) })) := by
  cases hstate : w.db.state with
  | none =>
    have heq : EventIndexer.setState w none = w := by
      rw [← hstate]
      rfl
    rw [Option.map_none, heq]
    exact hw.toSteady
  | some row =>
    -- all of the scanned blocks is stored, so the scan may start later
    have hsound : Sound w.rest.chain.log (forwardStart ix latest) w.db := by
      refine hw.sound.restart fun e he hlow hhigh => ?_
      rw [hw.startOf_eq] at hlow
      refine hstored e ⟨he, hhigh⟩ hlow ?_
      have hdeployed := hw.ok.deployed e he
      unfold forwardStart at hhigh
      omega
    have hmap := hsound.mapState (fun row => { row with
      lastSyncedBlock := (latest : ℤ), lastSeenContractIndex := some (index : ℤ) })
      fun _ => ⟨rfl, rfl⟩
    rw [hstate, Option.map_some] at hmap
    exact ⟨hw.provider, hw.ok, hw.latest, hmap⟩

/-- So advancing it keeps the chain steady. -/
theorem advanceContiguousIndex_steady :
    Keeps (Others h cfg (Possible ix)) (Steady ix)
      (advanceContiguousIndex : Sync ReorgRest IndexerState) :=
  .bind (.stmt Steady.move fun _ hw => hw.advance) fun row => .bind (fetchOne_keeps _ row)
    fun _ => .ofExcept _

/-- The scan stores every event of the safe blocks, whatever is reorganised above them. -/
theorem scanChunked_drifting (rounds start a latest : ℕ) {b : ℕ} :
    Spec (Others h cfg (Possible ix)) True (Drifting ix start latest)
      (scanChunked ix rounds a b : Sync ReorgRest Unit)
      (fun _ w => Drifting ix start latest w ∧ Stored (Behind ix latest) a (b + 1) w)
      (Steady ix) :=
  (scanChunked_spec scanInv_drifting (fun _ _ hw => hw.toSteady) False.elim a b False.elim).rely
    (fun _ _ hR => hR) fun _ => not_false

/-- A scan, whatever it is for. -/
theorem scanChunked_steady (rounds a b : ℕ) :
    Keeps (Others h cfg (Possible ix)) (Steady ix)
      (scanChunked ix rounds a b : Sync ReorgRest Unit) := by
  refine Spec.mono (Spec.exists fun start => (scanChunked_drifting rounds start a 0).mono
    (fun _ hw => hw) (fun _ _ hw => hw.1.toSteady) fun _ hw => hw)
    (fun w hw => ⟨startOf ix w.db, hw, rfl, ?_⟩) (fun _ _ hw => hw) fun _ hw => hw
  unfold ChainState.safe forwardStart
  omega

/-- The scan starts where the state row says. -/
theorem ensureStateRow_steady :
    Spec (Others h cfg (Possible ix)) True (Steady ix)
      (ensureStateRow ix : Sync ReorgRest IndexerState)
      (fun known w => forwardStart ix known.lastSyncedBlock = startOf ix w.db ∧ Steady ix w)
      (Steady ix) := by
  -- the row that was read, as it is in the table
  have hlast : ∀ row : IndexerStateRow, Spec (Others h cfg (Possible ix)) True
      (fun w : ReorgWorld => w.db.state = some row ∧ Steady ix w)
      (ofExcept (indexerStateFromRow row) : Sync ReorgRest IndexerState)
      (fun known w => forwardStart ix known.lastSyncedBlock = startOf ix w.db ∧ Steady ix w)
      (Steady ix) := by
    intro row
    refine .ofExcept (fun known w hok hw => ⟨?_, hw.2⟩) fun _ _ _ hw => hw.2
    rw [startOf, hw.1, Option.map_some, Option.getD_some,
      (reads_of_indexerStateFromRow hok).lastSyncedBlock]
    rfl
  unfold ensureStateRow
  refine .bind (M := fun block w => block = ix.deployedBlockNumber ∧ Steady ix w)
    (.ofExcept (fun _ _ hok hw => ⟨eq_of_toI64 hok, hw⟩) fun _ _ _ hw => hw) fun block =>
    .assume fun hblock => ?_
  subst hblock
  refine .bind (M := fun _ => Steady ix) (.write ?_) fun _ =>
    .bind (M := fun row w => w.db.state = row ∧ Steady ix w) (.read ?_) fun row =>
    .bind (M := fun row w => w.db.state = some row ∧ Steady ix w) ?_ fun row => ?_
  · intro w w' hw hR
    have hw' := Steady.move w w' hw hR
    have hnew := hw'.setState (startOf_insertState ix w'.db) (hw'.sound.insertState _)
    exact ⟨hnew, fun _ => ⟨hw', hnew⟩⟩
  · intro w w' hw hR
    have hw' := Steady.move w w' hw hR
    exact ⟨⟨rfl, hw'⟩, fun _ => hw'⟩
  · cases row with
    | none => exact .fail fun _ hw => hw.2
    | some row => exact .pure fun _ hw => hw
  · split
    · rename_i hlow
      refine .bind (M := fun _ w => w.db.state
          = some { row with lastSyncedBlock := (ix.deployedBlockNumber : ℤ) } ∧ Steady ix w)
        (.write ?_) fun _ => hlast _
      intro w w' hw hR
      have hw' := Steady.move w w' hw.2 hR
      have hrow : w'.db.state = some row := by
        rw [hR.db]
        exact hw.1
      have hnew := hw'.setState (startOf_raise hrow hlow) (hw'.sound.mapState _ fun _ => ⟨rfl, rfl⟩)
      refine ⟨⟨?_, hnew⟩, fun _ => ⟨hw', hnew⟩⟩
      rw [hrow]
      rfl
    · exact hlast row

/-- The watermark is raised to the latest block that was read, so the next scan starts at a safe
block again. -/
theorem persistSyncWatermark_steady (latest index : ℕ) :
    Spec (Others h cfg (Possible ix)) True
      (fun w => Drifting ix start latest w ∧ Stored (Behind ix latest) start (latest + 1) w)
      (persistSyncWatermark latest index : Sync ReorgRest Unit) (fun _ => Steady ix)
      (Steady ix) := by
  unfold persistSyncWatermark
  refine .bind (M := fun block w => block = latest ∧ Drifting ix start latest w
      ∧ Stored (Behind ix latest) start (latest + 1) w)
    (.ofExcept (fun _ _ hok hw => ⟨eq_of_toI64 hok, hw⟩) fun _ _ _ hw => hw.1.toSteady)
    fun block => .assume fun hblock => .bind (M := fun next w => next = index
      ∧ Drifting ix start latest w ∧ Stored (Behind ix latest) start (latest + 1) w)
    (.ofExcept (fun _ _ hok hw => ⟨eq_of_toI64 hok, hw⟩) fun _ _ _ hw => hw.1.toSteady)
    fun next => .assume fun hnext => .write fun w w' hw hR => ?_
  subst hblock hnext
  have hw' := scanInv_drifting.move w w' hw.1 hR
  have hnew := hw'.watermark (hw.2.move scanInv_drifting hw.1 hR) next
  exact ⟨hnew, fun _ => ⟨hw'.toSteady, hnew⟩⟩

/-- **The tables survive.** A sync keeps them such that the next one repairs them, wherever it
stops, while the chain is reorganised. -/
theorem sync_steady (rounds : ℕ) :
    Keeps (Others h cfg (Possible ix)) (Steady ix) (sync ix rounds : Sync ReorgRest Unit) := by
  unfold sync ensurePartitions Keeps
  refine .bind (Keeps.bind (.write Steady.move fun _ hw => hw) fun _ =>
    .write Steady.move fun _ hw => hw) fun _ => .bind ensureStateRow_steady fun known => ?_
  refine .bind (M := fun latest => Drifting ix (forwardStart ix known.lastSyncedBlock) latest)
    (.read ?_) fun latest => .bind
    (M := fun _ => Drifting ix (forwardStart ix known.lastSyncedBlock) latest) (.read ?_)
    fun index => ?_
  · intro w w' ⟨hstart, hw⟩ hR
    have hw' := Steady.move w w' hw hR
    refine ⟨⟨hw', ?_, ?_⟩, fun _ => hw'⟩
    · rw [hR.db, hstart]
    · have hle := hw'.ok.highest
      rw [hw'.provider]
      show forwardStart ix w'.rest.chain.latestBlock ≤ forwardStart ix w'.rest.chain.highest
      unfold forwardStart
      omega
  · intro w w' hw hR
    have hw' := scanInv_drifting.move w w' hw hR
    exact ⟨hw', fun _ => hw'.toSteady⟩
  refine .bind (scanChunked_drifting rounds _ _ latest) fun _ =>
    .bind (persistSyncWatermark_steady latest index) fun _ =>
    Keeps.bind advanceContiguousIndex_steady fun state => Keeps.bind
      (backfillMissingIndices_keeps Steady.move (scanChunked_steady rounds)
        advanceContiguousIndex_steady state _ latest) fun _ => .pure _

end

end EventIndexer

end Indexer

end Zerc20
