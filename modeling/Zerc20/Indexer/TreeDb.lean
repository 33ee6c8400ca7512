import Zerc20.Hash.Basic
import Zerc20.Lib.Machine
import Mathlib.Data.List.MinMax

/-!
# The Merkle tree in the database

`indexer/src/trees/db.rs` with `zkp/src/utils/tree/bit_path.rs`. The tree of one token is three
tables: the current nodes, the old and new hash of every changed node for the last appends, and
the root and hash chain after every append. This module has the tables, the SQL statements as
functions of them, and `append_leaf` and `prove_many` as sequences of statements; what happens
when statements of several transactions interleave is another module's subject.

Hashes and paths are stored as values, not as their byte strings, and every `tree_index` is below
`2 ^ 63`.
-/

namespace Zerc20

namespace Indexer

open Machine Radix

/-! ## The host hash chain -/

/-- `hash_chain`: `digest[0] = 0`. -/
def hashChainHost (h : Hashes) (prev : ℕ) (addr : Address) (value : ℕ) : ℕ :=
  ofBytesBE ((h.sha256 (bytesBE 32 prev ++ bytesBE 20 addr.val ++ bytesBE 32 value)).set 0 0)

theorem ofBytesBE_set_zero (l : List UInt8) : ofBytesBE (l.set 0 0) = ofBytesBE l.tail := by
  cases l with
  | nil => rfl
  | cons b l => simp [ofBytesBE]

/-- Clearing the first byte is masking the word. -/
theorem hashChainHost_eq (h : Hashes) (prev : ℕ) (addr : Address) (value : ℕ) :
    hashChainHost h prev addr value = hashChain h prev addr.val value := by
  rw [hashChainHost, ofBytesBE_set_zero, ofBytesBE_tail, h.sha256_length, hashChain_eq_mod,
    packTransfer]
  norm_num

/-! ## Bit paths -/

structure BitPath where
  length : ℕ
  value : ℕ
  deriving DecidableEq

namespace BitPath

/-- The path left by `pop`. -/
def pop (p : BitPath) : BitPath := if p.length = 0 then p else ⟨p.length - 1, p.value / 2⟩

def sibling (p : BitPath) : BitPath := ⟨p.length, p.value ^^^ 1⟩

/-- `BitPath::default()`. -/
def root : BitPath := ⟨0, 0⟩

end BitPath

/-! ## Tables -/

/-- A row of `merkle_node_updates`. -/
structure UpdateRow where
  treeIndex : ℕ
  path : BitPath
  oldHash : Fr
  newHash : Fr
  deriving DecidableEq

/-- A row of `merkle_snapshots`. -/
structure SnapshotRow where
  treeIndex : ℕ
  rootHash : Fr
  hashChain : ℕ
  deriving DecidableEq

/-- The rows of one token. -/
structure TreeDb where
  tokenExists : Bool
  /-- `merkle_nodes_current`. -/
  nodes : BitPath → Option Fr
  updates : List UpdateRow
  snapshots : List SnapshotRow

def TreeDb.initial : TreeDb where
  tokenExists := true
  nodes _ := none
  updates := []
  snapshots := []

inductive DbMerkleTreeError where
  | invalidProofTargetZero
  | treeEmpty
  | targetIndexTooHigh (target latest : ℕ)
  | retentionWindowExceeded (target window : ℕ)
  | leafIndexOutOfBounds (leafIndex targetIndex : ℕ)
  | tokenNotFound
  | missingRoot (index : ℕ)
  | missingHashChain (index : ℕ)
  | u64ToI64 (label : String) (value : ℕ)
  deriving DecidableEq

/-- `DbIncrementalMerkleTree::new` refuses a height of zero, `DbMerkleTreeConfig::new` a window
of zero. -/
structure TreeConfig where
  height : ℕ
  historyWindow : ℕ
  height_pos : 0 < height
  historyWindow_pos : 0 < historyWindow

/-- The address and value of an appended leaf. -/
structure Entry where
  address : Address
  value : Fin (2 ^ 256)
  deriving DecidableEq

structure AppendResult where
  index : ℕ
  leafIndex : ℕ
  root : Fr
  hashChain : ℕ
  deriving DecidableEq

structure HistoricalProof where
  targetIndex : ℕ
  leafIndex : ℕ
  root : Fr
  hashChain : ℕ
  /-- `proof.siblings`, from the leaf up. -/
  siblings : List Fr
  deriving DecidableEq

def i64Max : ℕ := 2 ^ 63 - 1

/-- `i64::try_from`. -/
def toI64 (label : String) (value : ℕ) : Except DbMerkleTreeError ℕ :=
  if value ≤ i64Max then .ok value else .error (.u64ToI64 label value)

/-! ## Statements -/

namespace TreeDb

/-- `ORDER BY tree_index DESC LIMIT 1`. -/
def latestSnapshot (db : TreeDb) : Option SnapshotRow :=
  db.snapshots.argmax SnapshotRow.treeIndex

def snapshotAt (db : TreeDb) (index : ℕ) : Option SnapshotRow :=
  db.snapshots.find? fun row => row.treeIndex = index

/-- `root_at_internal`. -/
def rootAt (db : TreeDb) (index : ℕ) : Except DbMerkleTreeError (Option Fr) := do
  let index ← toI64 "historical root index" index
  return (db.snapshotAt index).map SnapshotRow.rootHash

/-- `hash_chain_at_internal`. -/
def hashChainAt (db : TreeDb) (index : ℕ) : Except DbMerkleTreeError (Option ℕ) := do
  let index ← toI64 "historical hash chain index" index
  return (db.snapshotAt index).map SnapshotRow.hashChain

/-- `load_node_hashes`. -/
def loadNodeHashes (db : TreeDb) (paths : List BitPath) : BitPath → Option Fr :=
  fun p => if p ∈ paths then db.nodes p else none

/-- `load_overlay`: the first old hash of every path among the rows, in the order of their
index. -/
def loadOverlay (db : TreeDb) (fromIndex toIndex : ℕ) :
    Except DbMerkleTreeError (BitPath → Option Fr) :=
  if fromIndex > toIndex then return fun _ => none
  else do
    let fromIndex ← toI64 "overlay lower bound" fromIndex
    let toIndex ← toI64 "overlay upper bound" toIndex
    let rows := (db.updates.filter fun row =>
      fromIndex ≤ row.treeIndex ∧ row.treeIndex ≤ toIndex).mergeSort
        fun a b => a.treeIndex ≤ b.treeIndex
    return rows.foldl (fun overlay row =>
      if (overlay row.path).isSome then overlay
      else Function.update overlay row.path (some row.oldHash)) fun _ => none

end TreeDb

/-- The writes of an append, each one statement. -/
inductive Write where
  | insertUpdates (rows : List UpdateRow)
  | upsertNodes (rows : List UpdateRow)
  | insertSnapshot (row : SnapshotRow)
  | deleteUpdates (bound : ℕ)
  deriving DecidableEq

/-- `ON CONFLICT DO UPDATE`, row by row. -/
def upsert (nodes : BitPath → Option Fr) (rows : List UpdateRow) : BitPath → Option Fr :=
  rows.foldl (fun nodes row => Function.update nodes row.path (some row.newHash)) nodes

def Write.apply (db : TreeDb) : Write → TreeDb
  | .insertUpdates rows => { db with updates := db.updates ++ rows }
  | .upsertNodes rows => { db with nodes := upsert db.nodes rows }
  | .insertSnapshot row => { db with snapshots := db.snapshots ++ [row] }
  | .deleteUpdates bound => { db with
    updates := db.updates.filter fun row => ¬ row.treeIndex ≤ bound }

/-! ## Appending -/

variable (h : Hashes) (cfg : TreeConfig)

def leafHash (e : Entry) : Fr := h.poseidon2 (addressToFr e.address) (u256ToFr e.value.val)

/-- `compute_zero_hashes`. -/
def computeZeroHashes (height : ℕ) : List Fr :=
  (List.range height).foldl
    (fun hashes _ => hashes ++ [h.poseidon2 (hashes.getLastD 0) (hashes.getLastD 0)]) [0]

def zeroHashForPath (p : BitPath) : Fr :=
  let zeroHashes := computeZeroHashes h cfg.height
  zeroHashes.getD (cfg.height - p.length) (zeroHashes.getLastD 0)

/-- The siblings and ancestors above a path. -/
def positionsAbove : ℕ → BitPath → List BitPath
  | 0, _ => []
  | n + 1, p => p.sibling :: p.pop :: if p.pop.length = 0 then [] else positionsAbove n p.pop

/-- `fetch_positions`. -/
def fetchPositions (leafIndex : ℕ) : List BitPath :=
  ⟨cfg.height, leafIndex⟩ :: positionsAbove cfg.height ⟨cfg.height, leafIndex⟩

/-- The variables of the loop from the leaf to the root. -/
structure Climb where
  nodeHash : Fr
  path : BitPath
  existing : BitPath → Option Fr
  planned : List UpdateRow

/-- Plan the update of the current node if its hash changes. -/
def Climb.record (index : ℕ) (c : Climb) : Climb :=
  let oldHash := (c.existing c.path).getD (zeroHashForPath h cfg c.path)
  if oldHash ≠ c.nodeHash then
    { c with
      planned := c.planned ++ [⟨index, c.path, oldHash, c.nodeHash⟩]
      existing := Function.update c.existing c.path (some c.nodeHash) }
  else c

/-- One level of the loop. -/
def Climb.step (index : ℕ) (c : Climb) : Climb :=
  let c := c.record h cfg index
  let sibling := (c.existing c.path.sibling).getD (zeroHashForPath h cfg c.path.sibling)
  let nodeHash := if c.path.value % 2 = 0 then h.poseidon2 c.nodeHash sibling
    else h.poseidon2 sibling c.nodeHash
  { c with nodeHash, path := c.path.pop }

/-- The loop and the update of the root. -/
def climbToRoot (index leafIndex : ℕ) (leaf : Fr) (existing : BitPath → Option Fr) : Climb :=
  let start : Climb := ⟨leaf, ⟨cfg.height, leafIndex⟩, existing, []⟩
  let c := (Climb.step h cfg index)^[cfg.height] start
  { c with path := .root }.record h cfg index

def writesOf (rows : List UpdateRow) (snapshot : SnapshotRow) (gcThreshold : ℕ) : List Write :=
  (if rows = [] then [] else [.insertUpdates rows, .upsertNodes rows])
    ++ [.insertSnapshot snapshot, .deleteUpdates gcThreshold]

/-- What an append does with what it has read: the writes and the result. -/
def planAppend (e : Entry) (latestIndex prevHashChain : ℕ) (existing : BitPath → Option Fr) :
    Except DbMerkleTreeError (List Write × AppendResult) := do
  let nextIndex := latestIndex + 1
  let c := climbToRoot h cfg nextIndex latestIndex (leafHash h e) existing
  let newHashChain := hashChainHost h prevHashChain e.address e.value.val
  let gcThreshold ← toI64 "gc threshold" (nextIndex - cfg.historyWindow)
  return (writesOf c.planned ⟨nextIndex, c.nodeHash, newHashChain⟩ gcThreshold,
    { index := nextIndex, leafIndex := latestIndex, root := c.nodeHash, hashChain := newHashChain })

/-- `append_leaf`, with no other transaction in between. -/
def appendLeaf (db : TreeDb) (e : Entry) : Except DbMerkleTreeError (TreeDb × AppendResult) := do
  require (db.tokenExists = true) .tokenNotFound
  let latestIndex := (db.latestSnapshot.map SnapshotRow.treeIndex).getD 0
  let prevHashChain := (db.latestSnapshot.map SnapshotRow.hashChain).getD 0
  let _ ← toI64 "merkle index during append" (latestIndex + 1)
  let existing := db.loadNodeHashes (fetchPositions cfg latestIndex)
  let (writes, result) ← planAppend h cfg e latestIndex prevHashChain existing
  return (writes.foldl Write.apply db, result)

/-! ## Proving -/

/-- The loop over the requested leaves. -/
def checkLeafIndices (targetIndex : ℕ) : List ℕ → Except DbMerkleTreeError Unit
  | [] => .ok ()
  | i :: rest =>
    if i ≥ targetIndex then .error (.leafIndexOutOfBounds i targetIndex)
    else checkLeafIndices targetIndex rest

/-- The checks of `prove_many` on the latest index. -/
def checkTarget (latestIndex targetIndex : ℕ) (leafIndices : List ℕ) :
    Except DbMerkleTreeError Unit := do
  require (latestIndex ≠ 0) .treeEmpty
  require (targetIndex ≤ latestIndex) (.targetIndexTooHigh targetIndex latestIndex)
  require (latestIndex - targetIndex ≤ cfg.historyWindow)
    (.retentionWindowExceeded targetIndex cfg.historyWindow)
  checkLeafIndices targetIndex leafIndices

/-- The paths whose siblings a proof has. -/
def pathsToRoot : ℕ → BitPath → List BitPath
  | 0, _ => []
  | n + 1, p => p :: pathsToRoot n p.pop

def siblingPaths (leafIndex : ℕ) : List BitPath :=
  (pathsToRoot cfg.height ⟨cfg.height, leafIndex⟩).map BitPath.sibling

/-- `prefetch_paths`. -/
def prefetchPaths (overlay : BitPath → Option Fr) (leafIndices : List ℕ) : List BitPath :=
  (leafIndices.flatMap (siblingPaths cfg)).filter fun p => overlay p = none

/-- One proof, from the overlay and the fetched nodes. -/
def assembleProof (overlay cache : BitPath → Option Fr) (targetIndex : ℕ) (root : Fr)
    (hashChain leafIndex : ℕ) : HistoricalProof where
  targetIndex := targetIndex
  leafIndex := leafIndex
  root := root
  hashChain := hashChain
  siblings := (siblingPaths cfg leafIndex).map fun p =>
    match overlay p with
    | some hash => hash
    | none => (cache p).getD (zeroHashForPath h cfg p)

/-- `ok_or`. -/
def okOr {α : Type} (x : Option α) (e : DbMerkleTreeError) : Except DbMerkleTreeError α :=
  match x with
  | some a => .ok a
  | none => .error e

/-- `prove_many`, with no other transaction in between. -/
def proveMany (db : TreeDb) (targetIndex : ℕ) (leafIndices : List ℕ) :
    Except DbMerkleTreeError (List HistoricalProof) :=
  if leafIndices = [] then return []
  else do
    require (targetIndex ≠ 0) .invalidProofTargetZero
    let latestIndex := (db.latestSnapshot.map SnapshotRow.treeIndex).getD 0
    checkTarget cfg latestIndex targetIndex leafIndices
    let overlay ← db.loadOverlay (targetIndex + 1) latestIndex
    let root ← okOr (← db.rootAt targetIndex) (.missingRoot targetIndex)
    let hashChain ← okOr (← db.hashChainAt targetIndex) (.missingHashChain targetIndex)
    let cache := db.loadNodeHashes (prefetchPaths cfg overlay leafIndices)
    return leafIndices.map (assembleProof h cfg overlay cache targetIndex root hashChain)

end Indexer

end Zerc20
