import Zerc20.Indexer.EventSync

/-!
# The ranges of a scan

`EventIndexer::scan_chunked` queries a range of blocks, moves on by the span and back by the
overlap. `scanRanges` are the ranges that its loop queries, which do not depend on what the
provider answers: `scanLoop_eq` writes the loop as these queries, one after the other.

`EventIndexerConfig::new` and `EventJobConfig::ensure_valid` refuse a span of zero, but they do not
compare the span with the overlap. `scan_exact_iff` says for which of the configurations that they
accept a scan returns and has queried exactly its blocks.
-/

namespace Zerc20

namespace Indexer

open Statements Prog

/-! ## Configuration -/

inductive ConfigError where
  /-- `EventIndexerError::NonPositiveConfig`. -/
  | nonPositiveConfig (label : String)
  | message (text : String)
  | context (text : String) (cause : ConfigError)
  deriving DecidableEq

structure EventIndexerConfig where
  blockSpan : ℕ
  forwardScanOverlap : ℕ
  /-- It is a `NonZeroU64`. -/
  blockSpan_pos : 0 < blockSpan

/-- `EventIndexerConfig::new`. -/
def EventIndexerConfig.new (blockSpan forwardScanOverlap : ℕ) :
    Except ConfigError EventIndexerConfig :=
  if hspan : 0 < blockSpan then .ok ⟨blockSpan, forwardScanOverlap, hspan⟩
  else .error (.nonPositiveConfig "block_span")

/-- `EventIndexer::new`. -/
def EventIndexerConfig.indexer (config : EventIndexerConfig) (deployedBlockNumber : ℕ) :
    EventIndexer :=
  ⟨config.blockSpan, config.forwardScanOverlap, deployedBlockNumber, config.blockSpan_pos⟩

structure EventJobConfig where
  intervalMs : ℕ
  blockSpan : ℕ
  forwardScanOverlap : ℕ

namespace EventJobConfig

def ensureValid (c : EventJobConfig) : Except ConfigError Unit := do
  if c.intervalMs = 0 then throw (.message "event job interval must be positive")
  let _ ← (EventIndexerConfig.new c.blockSpan c.forwardScanOverlap).mapError
    (.context "invalid event indexer configuration")
  return ()

def buildIndexerConfig (c : EventJobConfig) : Except ConfigError EventIndexerConfig :=
  (EventIndexerConfig.new c.blockSpan c.forwardScanOverlap).mapError
    (.context "failed to construct EventIndexerConfig")

/-- The configuration is checked for its interval and its span, not for the overlap. -/
theorem ensureValid_iff (c : EventJobConfig) :
    c.ensureValid = .ok () ↔ 0 < c.intervalMs ∧ 0 < c.blockSpan := by
  unfold ensureValid EventIndexerConfig.new
  by_cases hinterval : c.intervalMs = 0
  · rw [if_pos hinterval]
    constructor
    · nofun
    · rintro ⟨hpos, -⟩
      omega
  · rw [if_neg hinterval]
    split
    · rename_i hspan
      exact ⟨fun _ => ⟨by omega, hspan⟩, fun _ => rfl⟩
    · rename_i hspan
      constructor
      · nofun
      · rintro ⟨-, hpos⟩
        exact absurd hpos hspan

/-- An accepted configuration is one of an indexer. -/
theorem buildIndexerConfig_of_valid {c : EventJobConfig} (hvalid : c.ensureValid = .ok ()) :
    ∃ config, c.buildIndexerConfig = .ok config ∧ config.blockSpan = c.blockSpan
      ∧ config.forwardScanOverlap = c.forwardScanOverlap := by
  have hspan := (c.ensureValid_iff.mp hvalid).2
  refine ⟨⟨c.blockSpan, c.forwardScanOverlap, hspan⟩, ?_, rfl, rfl⟩
  rw [buildIndexerConfig, EventIndexerConfig.new, dif_pos hspan]
  rfl

end EventJobConfig

namespace EventIndexer

/-! ## The queries of a scan -/

/-- What `rounds` rounds of the loop of `scan_chunked` query, and whether it has returned. -/
def scanRanges (ix : EventIndexer) (toBlock : ℕ) : ℕ → ℕ → List (ℕ × ℕ) × Bool
  | 0, _ => ([], false)
  | rounds + 1, fromBlock =>
    if toBlock < fromBlock then ([], true)
    else
      let last := min toBlock (fromBlock + (ix.blockSpan - 1))
      if last = toBlock then ([(fromBlock, last)], true)
      else
        let rest := scanRanges ix toBlock rounds (last + 1 - min ix.forwardScanOverlap (last + 1))
        ((fromBlock, last) :: rest.1, rest.2)

section

variable {ix : EventIndexer} {toBlock fromBlock : ℕ}

/-- Behind the last block nothing is scanned. -/
theorem scanRanges_past (rounds : ℕ) (hend : toBlock < fromBlock) :
    scanRanges ix toBlock (rounds + 1) fromBlock = ([], true) := by
  rw [scanRanges, if_pos hend]

/-- The last range. -/
theorem scanRanges_last (rounds : ℕ) (hle : fromBlock ≤ toBlock)
    (hshort : toBlock < fromBlock + ix.blockSpan) :
    scanRanges ix toBlock (rounds + 1) fromBlock = ([(fromBlock, toBlock)], true) := by
  have hlast : min toBlock (fromBlock + (ix.blockSpan - 1)) = toBlock := by omega
  rw [scanRanges, if_neg (not_lt.mpr hle)]
  simp only [hlast, if_true]

/-- A range of the whole span, and those after it. -/
theorem scanRanges_more (rounds : ℕ) (hlong : fromBlock + ix.blockSpan ≤ toBlock) :
    scanRanges ix toBlock (rounds + 1) fromBlock
      = ((fromBlock, fromBlock + ix.blockSpan - 1) ::
          (scanRanges ix toBlock rounds (fromBlock + ix.blockSpan
            - min ix.forwardScanOverlap (fromBlock + ix.blockSpan))).1,
        (scanRanges ix toBlock rounds (fromBlock + ix.blockSpan
            - min ix.forwardScanOverlap (fromBlock + ix.blockSpan))).2) := by
  have hspan := ix.blockSpan_pos
  have hlast : min toBlock (fromBlock + (ix.blockSpan - 1)) = fromBlock + ix.blockSpan - 1 := by
    omega
  have hnext : fromBlock + ix.blockSpan - 1 + 1 = fromBlock + ix.blockSpan := by omega
  rw [scanRanges, if_neg (by omega)]
  simp only [hlast, hnext]
  rw [if_neg (by omega)]

end

section

variable {ρ : Type}

/-- The queries of some ranges, each with the events it stores, and what comes after them. -/
def queryRanges (next : Sync ρ Unit) : List (ℕ × ℕ) → Sync ρ Unit
  | [] => next
  | (fromBlock, last) :: ranges => do
    let fetched ← read (.contract "get_indexed_transfer_events") fun w =>
      w.provider.getIndexedTransferEvents fromBlock last
    insertEvents fetched
    queryRanges next ranges

/-- The loop queries its ranges one after the other. -/
theorem scanLoop_eq (ix : EventIndexer) (toBlock rounds fromBlock : ℕ) :
    (scanLoop ix toBlock rounds fromBlock : Sync ρ Unit)
      = queryRanges
          (if (scanRanges ix toBlock rounds fromBlock).2 then pure () else fail .outOfRounds)
          (scanRanges ix toBlock rounds fromBlock).1 := by
  induction rounds generalizing fromBlock with
  | zero => rfl
  | succ rounds ih =>
    rw [scanLoop, scanRanges]
    by_cases hend : toBlock < fromBlock
    · rw [if_pos hend, if_pos hend]
      rfl
    · rw [if_neg hend, if_neg hend]
      by_cases hlast : min toBlock (fromBlock + (ix.blockSpan - 1)) = toBlock
      · simp only [if_pos hlast]
        rfl
      · simp only [if_neg hlast]
        rw [ih]
        rfl

end

/-- The scan of `fromBlock..=toBlock` returns, whatever its queries answer, and they are these. -/
structure Scans (ix : EventIndexer) (fromBlock toBlock : ℕ) (ranges : List (ℕ × ℕ)) : Prop where
  runs : ∀ ρ : Type, ∃ enough, ∀ rounds, enough ≤ rounds →
    (scanChunked ix rounds fromBlock toBlock : Sync ρ Unit) = queryRanges (pure ()) ranges
  covers : ∀ block, (∃ range ∈ ranges, range.1 ≤ block ∧ block ≤ range.2)
    ↔ fromBlock ≤ block ∧ block ≤ toBlock
  span : ∀ range ∈ ranges, range.2 + 1 - range.1 ≤ ix.blockSpan

section

variable {ix : EventIndexer} {toBlock : ℕ}

/-! ## A scan that moves on -/

/-- More rounds do not change the queries of a loop that has returned. -/
theorem scanRanges_of_le {rounds rounds' : ℕ} (hle : rounds ≤ rounds') (fromBlock : ℕ)
    (hdone : (scanRanges ix toBlock rounds fromBlock).2 = true) :
    scanRanges ix toBlock rounds' fromBlock = scanRanges ix toBlock rounds fromBlock := by
  induction rounds generalizing rounds' fromBlock with
  | zero => cases hdone
  | succ rounds ih =>
    obtain ⟨rounds', rfl⟩ : ∃ n, rounds' = n + 1 := ⟨rounds' - 1, by omega⟩
    rcases Nat.lt_or_ge toBlock fromBlock with hend | hend
    · rw [scanRanges_past _ hend, scanRanges_past _ hend]
    · rcases Nat.lt_or_ge toBlock (fromBlock + ix.blockSpan) with hshort | hlong
      · rw [scanRanges_last _ hend hshort, scanRanges_last _ hend hshort]
      · rw [scanRanges_more _ hlong] at hdone
        rw [scanRanges_more _ hlong, scanRanges_more _ hlong, ih (by omega) _ hdone]

/-- With an overlap below the span every range begins after the one before it, and at the latest
where that one ends. -/
theorem scanRanges_done (hoverlap : ix.forwardScanOverlap < ix.blockSpan) {rounds fromBlock : ℕ}
    (hrounds : toBlock < fromBlock + rounds) (hle : fromBlock ≤ toBlock) :
    (scanRanges ix toBlock rounds fromBlock).2 = true
      ∧ ∀ block, (∃ range ∈ (scanRanges ix toBlock rounds fromBlock).1,
          range.1 ≤ block ∧ block ≤ range.2) ↔ fromBlock ≤ block ∧ block ≤ toBlock := by
  induction rounds generalizing fromBlock with
  | zero => omega
  | succ rounds ih =>
    rcases Nat.lt_or_ge toBlock (fromBlock + ix.blockSpan) with hshort | hlong
    · rw [scanRanges_last _ hle hshort]
      refine ⟨rfl, fun block => ?_⟩
      simp only [List.mem_singleton, exists_eq_left]
    · rw [scanRanges_more _ hlong]
      -- the overlap is shorter than the span, so the next chunk starts later
      have hnext : toBlock < fromBlock + ix.blockSpan
          - min ix.forwardScanOverlap (fromBlock + ix.blockSpan) + rounds := by
        omega
      obtain ⟨hdone, hcovers⟩ := ih hnext (by omega)
      refine ⟨hdone, fun block => ?_⟩
      simp only [List.mem_cons, exists_eq_or_imp, hcovers]
      omega

theorem scanRanges_span (rounds fromBlock : ℕ) :
    ∀ range ∈ (scanRanges ix toBlock rounds fromBlock).1, range.2 + 1 - range.1 ≤ ix.blockSpan := by
  have hspan := ix.blockSpan_pos
  induction rounds generalizing fromBlock with
  | zero => nofun
  | succ rounds ih =>
    intro range hrange
    rcases Nat.lt_or_ge toBlock fromBlock with hend | hend
    · rw [scanRanges_past _ hend] at hrange
      cases hrange
    · rcases Nat.lt_or_ge toBlock (fromBlock + ix.blockSpan) with hshort | hlong
      · rw [scanRanges_last _ hend hshort] at hrange
        obtain rfl := List.mem_singleton.mp hrange
        show toBlock + 1 - fromBlock ≤ ix.blockSpan
        omega
      · rw [scanRanges_more _ hlong] at hrange
        rcases List.mem_cons.mp hrange with rfl | hrange
        · show fromBlock + ix.blockSpan - 1 + 1 - fromBlock ≤ ix.blockSpan
          omega
        · exact ih _ range hrange

/-- Ranges that end and cover the blocks are a scan. -/
theorem scans_of_done {rounds fromBlock : ℕ} (hle : fromBlock ≤ toBlock)
    (hdone : (scanRanges ix toBlock rounds fromBlock).2 = true)
    (hcovers : ∀ block, (∃ range ∈ (scanRanges ix toBlock rounds fromBlock).1,
      range.1 ≤ block ∧ block ≤ range.2) ↔ fromBlock ≤ block ∧ block ≤ toBlock) :
    Scans ix fromBlock toBlock (scanRanges ix toBlock rounds fromBlock).1 where
  runs ρ := by
    refine ⟨rounds, fun rounds' hrounds => ?_⟩
    rw [scanChunked, if_neg (not_lt.mpr hle), scanLoop_eq, scanRanges_of_le hrounds _ hdone, hdone]
    rfl
  covers := hcovers
  span := scanRanges_span rounds fromBlock

/-! ## A scan that does not -/

/-- With an overlap of at least the span no range begins after the one before it, so a scan that
starts low enough never gets to its last range. -/
theorem scanRanges_stuck (hoverlap : ix.blockSpan ≤ ix.forwardScanOverlap) (rounds : ℕ)
    {fromBlock : ℕ} (hlong : fromBlock + ix.blockSpan ≤ toBlock) :
    (scanRanges ix toBlock rounds fromBlock).2 = false := by
  induction rounds generalizing fromBlock with
  | zero => rfl
  | succ rounds ih =>
    rw [scanRanges_more _ hlong]
    exact ih (by omega)

/-- A provider that has no events. -/
def emptyWorld : SyncWorld Unit := ⟨.initial, ⟨0, 0, fun _ _ => []⟩, ()⟩

theorem queryRanges_outcome (next : Sync Unit Unit) (ranges : List (ℕ × ℕ)) (n : ℕ) :
    queryRanges next ranges (.still _) n emptyWorld
      = next (.still _) (n + ranges.length) emptyWorld := by
  induction ranges generalizing n with
  | nil => rfl
  | cons range ranges ih =>
    have hquery : queryRanges next (range :: ranges) (.still _) n emptyWorld
        = queryRanges next ranges (.still _) (n + 1) emptyWorld := rfl
    rw [hquery, ih, List.length_cons, Nat.add_assoc, Nat.add_comm 1]

/-- Where every round goes back at least as far as it went, the scan is still running after any
number of rounds. -/
theorem scanChunked_stuck (hoverlap : ix.blockSpan ≤ ix.forwardScanOverlap) {fromBlock : ℕ}
    (hlong : fromBlock + ix.blockSpan ≤ toBlock) (rounds : ℕ) :
    (scanChunked ix rounds fromBlock toBlock).outcome (.still _) emptyWorld
      = (.error .outOfRounds, emptyWorld) := by
  rw [outcome, scanChunked, if_neg (by omega), scanLoop_eq, queryRanges_outcome,
    scanRanges_stuck hoverlap rounds hlong]
  rfl

/-- With an overlap as long as the span the loop never leaves its first range. -/
theorem not_scans (hoverlap : ix.blockSpan ≤ ix.forwardScanOverlap) {fromBlock : ℕ}
    (hlong : fromBlock + ix.blockSpan ≤ toBlock) (ranges : List (ℕ × ℕ)) :
    ¬ Scans ix fromBlock toBlock ranges := by
  intro hscans
  obtain ⟨enough, hruns⟩ := hscans.runs Unit
  have hstuck := scanChunked_stuck hoverlap hlong enough
  rw [outcome, hruns enough (le_refl _), queryRanges_outcome] at hstuck
  cases hstuck

/-- So a scan of more than one range ends exactly when the overlap is below the span. -/
theorem scans_iff (ix : EventIndexer) {fromBlock : ℕ} (hle : fromBlock ≤ toBlock) :
    (∃ ranges, Scans ix fromBlock toBlock ranges)
      ↔ ix.forwardScanOverlap < ix.blockSpan ∨ toBlock < fromBlock + ix.blockSpan := by
  constructor
  · rintro ⟨ranges, hscans⟩
    by_contra hstuck
    rw [not_or, not_lt, not_lt] at hstuck
    exact not_scans hstuck.1 hstuck.2 ranges hscans
  · rintro (hmoves | hshort)
    · obtain ⟨hdone, hcovers⟩ := scanRanges_done hmoves
        (show toBlock < fromBlock + (toBlock + 1) by omega) hle
      exact ⟨_, scans_of_done hle hdone hcovers⟩
    · have hranges := scanRanges_last 0 hle hshort
      refine ⟨_, scans_of_done hle (by rw [hranges]) fun block => ?_⟩
      rw [hranges]
      simp only [List.mem_singleton, exists_eq_left]

end

/-- **Which scans return**: under a configuration that is accepted, the scan of a range returns and
has queried exactly its blocks if and only if the overlap is less than the span, or the range fits
in one query. -/
theorem scan_exact_iff {c : EventJobConfig} (hvalid : c.ensureValid = .ok ())
    (deployedBlockNumber : ℕ) {fromBlock toBlock : ℕ} (hle : fromBlock ≤ toBlock) :
    ∃ config, c.buildIndexerConfig = .ok config
      ∧ ((∃ ranges, Scans (config.indexer deployedBlockNumber) fromBlock toBlock ranges)
        ↔ c.forwardScanOverlap < c.blockSpan ∨ toBlock < fromBlock + c.blockSpan) := by
  obtain ⟨config, hconfig, hspan, hoverlap⟩ := EventJobConfig.buildIndexerConfig_of_valid hvalid
  refine ⟨config, hconfig, ?_⟩
  rw [← hspan, ← hoverlap]
  exact scans_iff (config.indexer deployedBlockNumber) hle

/-- The recommended span and overlap. -/
theorem scan_exact_recommended :
    ∃ config, EventJobConfig.buildIndexerConfig ⟨1000, 5000, 10⟩ = .ok config
      ∧ ((∃ ranges, Scans (config.indexer 1) 1 20000 ranges) ↔ 10 < 5000 ∨ 20000 < 1 + 5000) :=
  scan_exact_iff (c := ⟨1000, 5000, 10⟩) (by decide) 1 (by decide)

/-- A span of ten blocks and an overlap of ten are accepted, and the scan of twenty blocks queries
the first ten of them for ever. -/
theorem scan_stuck :
    EventJobConfig.ensureValid ⟨1000, 10, 10⟩ = .ok ()
      ∧ EventJobConfig.buildIndexerConfig ⟨1000, 10, 10⟩ = .ok ⟨10, 10, by decide⟩
      ∧ (∀ ranges, ¬ Scans (EventIndexerConfig.indexer ⟨10, 10, by decide⟩ 1) 1 20 ranges)
      ∧ ∀ rounds, (scanChunked (EventIndexerConfig.indexer ⟨10, 10, by decide⟩ 1) rounds 1
        20).outcome (.still _) emptyWorld = (.error .outOfRounds, emptyWorld) :=
  ⟨by decide, rfl, not_scans (by decide) (by decide), scanChunked_stuck (by decide) (by decide)⟩

end EventIndexer

end Indexer

end Zerc20
