import Zerc20.Indexer.TreeDb
import Zerc20.Hash.Sha256
import Zerc20.Lib.HashTree
import Zerc20.Lib.UndoLog

/-!
# What the database tree represents

The tables of a token with the entries `es` represent the Merkle tree of `es`: `Represents` says
which node, update and snapshot rows there are. An append keeps that (`appendLeaf_represents`),
so it holds after any number of appends; the pruning of an append cuts the update log to the
history window. A proof for an earlier index `T` reads the nodes of the tree of the first `T`
entries through the update log, as an undo log (`Zerc20.Lib.UndoLog`), and is that tree's own
path (`historical_proofs_exact`).
-/

namespace Zerc20

namespace Indexer

open Machine HashTree

variable (h : Hashes) (cfg : TreeConfig)

/-! ## The tree of a list of entries -/

def entryLeaves (es : List Entry) : ℕ → Fr := leavesOf 0 (es.map (leafHash h))

/-- The node of the tree at a path. -/
def nodeAt (es : List Entry) (p : BitPath) : Fr :=
  node h.poseidon2 (entryLeaves h es) (cfg.height - p.length) p.value

def entryRoot (es : List Entry) : Fr := node h.poseidon2 (entryLeaves h es) cfg.height 0

def entryChain (es : List Entry) : ℕ :=
  es.foldl (fun acc e => hashChain h acc e.address.val e.value.val) 0

/-- The ancestor of leaf `i`, `k` levels up. -/
def ancestor (i k : ℕ) : BitPath := ⟨cfg.height - k, i / 2 ^ k⟩

def snapshotRow (es : List Entry) (t : ℕ) : SnapshotRow :=
  ⟨t, entryRoot h cfg (es.take t), entryChain h (es.take t)⟩

/-- The change of one ancestor of the entry that was appended as number `t`. -/
def updateRow (es : List Entry) (t k : ℕ) : Option UpdateRow :=
  let p := ancestor cfg (t - 1) k
  if nodeAt h cfg (es.take (t - 1)) p ≠ nodeAt h cfg (es.take t) p then
    some ⟨t, p, nodeAt h cfg (es.take (t - 1)) p, nodeAt h cfg (es.take t) p⟩
  else none

def updateRows (es : List Entry) (t : ℕ) : List UpdateRow :=
  (List.range (cfg.height + 1)).filterMap (updateRow h cfg es t)

/-- The tables hold the tree of `es`. -/
structure Represents (db : TreeDb) (es : List Entry) : Prop where
  token : db.tokenExists = true
  capacity : es.length ≤ 2 ^ cfg.height
  index_le : es.length ≤ i64Max
  nodes : ∀ p, p.length ≤ cfg.height →
    (db.nodes p).getD (zeroHashForPath h cfg p) = nodeAt h cfg es p
  updates : db.updates = UndoLog.log (updateRows h cfg es) (es.length - cfg.historyWindow + 1)
    (min es.length cfg.historyWindow)
  snapshots : db.snapshots = (List.range' 1 es.length).map (snapshotRow h cfg es)

variable {h cfg} {es : List Entry} {db : TreeDb}

/-! ## Zero hashes -/

/-- The table of zero hashes lists the roots of the empty subtrees, from the leaf upwards. -/
theorem computeZeroHashes_eq (n : ℕ) :
    computeZeroHashes h n = (List.range (n + 1)).map (zeroAt h.poseidon2 0) := by
  induction n with
  | zero => rfl
  | succ n ih =>
    unfold computeZeroHashes at ih ⊢
    rw [List.range_succ, List.foldl_append, ih, List.range_succ (n := n + 1), List.map_append,
      List.foldl_cons, List.foldl_nil]
    have hlast : ((List.range (n + 1)).map (zeroAt h.poseidon2 0)).getLastD 0
        = zeroAt h.poseidon2 0 n := by
      rw [List.range_succ, List.map_append, List.map_singleton, List.getLastD_concat]
    rw [hlast]
    rfl

/-- The default of a position is the root of the empty subtree that hangs there. -/
theorem zeroHashForPath_eq (p : BitPath) :
    zeroHashForPath h cfg p = zeroAt h.poseidon2 0 (cfg.height - p.length) := by
  have hlt : cfg.height - p.length < cfg.height + 1 := by omega
  simp only [zeroHashForPath, computeZeroHashes_eq]
  rw [List.getD_eq_getElem?_getD, List.getElem?_map, List.getElem?_range hlt]
  rfl

/-! ## One more entry -/

/-- An append writes one leaf, at the first free index. -/
theorem entryLeaves_update (e : Entry) :
    entryLeaves h (es ++ [e]) = Function.update (entryLeaves h es) es.length (leafHash h e) := by
  rw [entryLeaves, List.map_append, List.map_singleton, leavesOf_concat, List.length_map]
  rfl

theorem entryLeaves_concat {e : Entry} {j : ℕ} (hj : j ≠ es.length) :
    entryLeaves h (es ++ [e]) j = entryLeaves h es j := by
  rw [entryLeaves_update, Function.update_of_ne hj]

/-- The leaf that it writes is the hash of the entry. -/
theorem entryLeaves_last (e : Entry) : entryLeaves h (es ++ [e]) es.length = leafHash h e := by
  rw [entryLeaves_update, Function.update_self]

/-- Only the ancestors of the new leaf change. -/
theorem nodeAt_concat {e : Entry} {p : BitPath}
    (hp : es.length / 2 ^ (cfg.height - p.length) ≠ p.value) :
    nodeAt h cfg (es ++ [e]) p = nodeAt h cfg es p := by
  refine node_congr h.poseidon2 _ _ fun j hj => entryLeaves_concat ?_
  rintro rfl
  exact hp hj

/-- Only the ancestors of leaf `t` change when the tree grows from `t` leaves to `t + 1`. -/
theorem nodeAt_take_succ {t : ℕ} {p : BitPath}
    (hp : t / 2 ^ (cfg.height - p.length) ≠ p.value) :
    nodeAt h cfg (es.take (t + 1)) p = nodeAt h cfg (es.take t) p := by
  rcases Nat.lt_or_ge t es.length with hlt | hge
  · have htake : es.take (t + 1) = es.take t ++ [es[t]] := by
      rw [List.take_add_one, List.getElem?_eq_getElem hlt, Option.toList_some]
    rw [htake]
    refine nodeAt_concat ?_
    rwa [List.length_take, min_eq_left hlt.le]
  · rw [List.take_of_length_le hge, List.take_of_length_le (by omega)]

/-- The rows of an earlier append depend on the entries up to it only, so a later append does not
change them. -/
theorem updateRows_concat (e : Entry) {t : ℕ} (ht : t ≤ es.length) :
    updateRows h cfg (es ++ [e]) t = updateRows h cfg es t := by
  unfold updateRows updateRow
  rw [List.take_append_of_le_length ht, List.take_append_of_le_length (by omega)]

/-- Nor does it change the snapshots that are there. -/
theorem snapshotRow_concat (e : Entry) {t : ℕ} (ht : t ≤ es.length) :
    snapshotRow h cfg (es ++ [e]) t = snapshotRow h cfg es t := by
  rw [snapshotRow, List.take_append_of_le_length ht, snapshotRow]

/-- The stored hash chain is extended as the contract extends its own. -/
theorem entryChain_concat (e : Entry) :
    entryChain h (es ++ [e]) = hashChain h (entryChain h es) e.address.val e.value.val := by
  rw [entryChain, List.foldl_append]
  rfl

/-! ## The climb from the new leaf -/

/-- The sibling is another position, since its last bit is flipped. -/
theorem BitPath.sibling_ne (p : BitPath) : p.sibling ≠ p := by
  intro heq
  exact xor_one_ne p.value (congrArg BitPath.value heq)

/-- The climb goes from one ancestor to the next. -/
theorem ancestor_pop {i k : ℕ} (hk : k < cfg.height) :
    (ancestor cfg i k).pop = ancestor cfg i (k + 1) := by
  unfold BitPath.pop ancestor
  rw [if_neg (show ¬ cfg.height - k = 0 by omega), Nat.div_div_eq_div_mul, Nat.pow_succ]
  rfl

/-- The positions above `v` include, at every level below `m`, the sibling of the ancestor and the
next ancestor. -/
theorem mem_positionsAbove (m v : ℕ) {k : ℕ} (hk : k < m) :
    (⟨m - k, v / 2 ^ k⟩ : BitPath).sibling ∈ positionsAbove m ⟨m, v⟩
      ∧ (⟨m - (k + 1), v / 2 ^ (k + 1)⟩ : BitPath) ∈ positionsAbove m ⟨m, v⟩ := by
  induction m generalizing v k with
  | zero => omega
  | succ m ih =>
    have hpop : (⟨m + 1, v⟩ : BitPath).pop = ⟨m, v / 2⟩ := rfl
    rw [positionsAbove, hpop]
    cases k with
    | zero => simp
    | succ k =>
      have hm : m ≠ 0 := by omega
      obtain ⟨hsibling, habove⟩ := ih (v / 2) (k := k) (by omega)
      rw [if_neg hm, Nat.pow_succ' (n := k), ← Nat.div_div_eq_div_mul,
        Nat.pow_succ' (n := k + 1), ← Nat.div_div_eq_div_mul,
        show m + 1 - (k + 1) = m - k by omega, show m + 1 - (k + 1 + 1) = m - (k + 1) by omega]
      exact ⟨List.mem_cons_of_mem _ (List.mem_cons_of_mem _ hsibling),
        List.mem_cons_of_mem _ (List.mem_cons_of_mem _ habove)⟩

/-- The query of an append asks for every ancestor of the new leaf, the leaf itself included. -/
theorem ancestor_mem_fetchPositions (i : ℕ) {k : ℕ} (hk : k ≤ cfg.height) :
    ancestor cfg i k ∈ fetchPositions cfg i := by
  cases k with
  | zero => simp [ancestor, fetchPositions]
  | succ k => exact List.mem_cons_of_mem _ (mem_positionsAbove _ _ (by omega)).2

/-- It asks for the sibling of each of them, too. -/
theorem sibling_mem_fetchPositions (i : ℕ) {k : ℕ} (hk : k < cfg.height) :
    (ancestor cfg i k).sibling ∈ fetchPositions cfg i :=
  List.mem_cons_of_mem _ (mem_positionsAbove _ _ hk).1

/-- What the append has fetched of the ancestors and their siblings. -/
theorem Represents.fetched (hdb : Represents h cfg db es) {p : BitPath} {i : ℕ}
    (hlen : p.length ≤ cfg.height) (hp : p ∈ fetchPositions cfg i) :
    ((db.loadNodeHashes (fetchPositions cfg i)) p).getD (zeroHashForPath h cfg p)
      = nodeAt h cfg es p := by
  rw [TreeDb.loadNodeHashes, if_pos hp]
  exact hdb.nodes p hlen

variable (h cfg) in
/-- The loop after `k` levels. -/
structure ClimbInv (es : List Entry) (e : Entry) (existing : BitPath → Option Fr) (k : ℕ)
    (c : Climb) : Prop where
  nodeHash : c.nodeHash = nodeAt h cfg (es ++ [e]) (ancestor cfg es.length k)
  path : c.path = ancestor cfg es.length k
  existing : ∀ p : BitPath, p.length ≤ cfg.height - k → c.existing p = existing p
  planned : c.planned = (List.range k).filterMap (updateRow h cfg (es ++ [e]) (es.length + 1))

/-- The row that the append owes at level `k`: there is one exactly when the hash at that ancestor
changes. -/
theorem updateRow_concat (e : Entry) (k : ℕ) :
    updateRow h cfg (es ++ [e]) (es.length + 1) k
      = if nodeAt h cfg es (ancestor cfg es.length k)
          ≠ nodeAt h cfg (es ++ [e]) (ancestor cfg es.length k)
        then some ⟨es.length + 1, ancestor cfg es.length k,
          nodeAt h cfg es (ancestor cfg es.length k),
          nodeAt h cfg (es ++ [e]) (ancestor cfg es.length k)⟩
        else none := by
  unfold updateRow
  rw [Nat.add_sub_cancel, List.take_left, List.take_of_length_le (by simp)]

/-- Recording the current node plans its row, and leaves the levels above it alone. -/
theorem ClimbInv.record {e : Entry} {k : ℕ} {c : Climb} (hdb : Represents h cfg db es)
    (hk : k ≤ cfg.height)
    (hc : ClimbInv h cfg es e (db.loadNodeHashes (fetchPositions cfg es.length)) k c) :
    (c.record h cfg (es.length + 1)).nodeHash = c.nodeHash
      ∧ (c.record h cfg (es.length + 1)).path = c.path
      ∧ (∀ p, p ≠ c.path → (c.record h cfg (es.length + 1)).existing p = c.existing p)
      ∧ (c.record h cfg (es.length + 1)).planned = (List.range (k + 1)).filterMap
        (updateRow h cfg (es ++ [e]) (es.length + 1)) := by
  have hlen : (ancestor cfg es.length k).length = cfg.height - k := rfl
  -- what the loop takes for the old hash is the node of the tree before
  have hold : (c.existing c.path).getD (zeroHashForPath h cfg c.path)
      = nodeAt h cfg es (ancestor cfg es.length k) := by
    rw [hc.path, hc.existing _ hlen.le]
    exact hdb.fetched (by omega) (ancestor_mem_fetchPositions _ hk)
  have hplanned : (List.range (k + 1)).filterMap (updateRow h cfg (es ++ [e]) (es.length + 1))
      = c.planned ++ (updateRow h cfg (es ++ [e]) (es.length + 1) k).toList := by
    rw [List.range_succ, List.filterMap_append, hc.planned]
    rfl
  rw [hplanned, updateRow_concat, ← hc.nodeHash]
  simp only [Climb.record, hold]
  by_cases hchanged : nodeAt h cfg es (ancestor cfg es.length k) ≠ c.nodeHash
  · rw [if_pos hchanged, if_pos hchanged, Option.toList_some]
    refine ⟨rfl, rfl, ?_, ?_⟩
    · intro p hp
      exact Function.update_of_ne hp _ _
    · rw [hc.path]
  · rw [if_neg hchanged, if_neg hchanged]
    exact ⟨rfl, rfl, fun _ _ => rfl, (List.append_nil _).symm⟩

/-- A node from its child on the path and that child's sibling. -/
theorem nodeAt_ancestor_succ (es : List Entry) {i k : ℕ} (hk : k < cfg.height) :
    nodeAt h cfg es (ancestor cfg i (k + 1))
      = if (ancestor cfg i k).value % 2 = 0
        then h.poseidon2 (nodeAt h cfg es (ancestor cfg i k))
          (nodeAt h cfg es (ancestor cfg i k).sibling)
        else h.poseidon2 (nodeAt h cfg es (ancestor cfg i k).sibling)
          (nodeAt h cfg es (ancestor cfg i k)) := by
  have hup : cfg.height - (cfg.height - (k + 1)) = k + 1 := by omega
  have hhere : cfg.height - (cfg.height - k) = k := by omega
  simp only [nodeAt, ancestor, BitPath.sibling, hup, hhere]
  rw [Nat.pow_succ, ← Nat.div_div_eq_div_mul, node_parent]

/-- The sibling of an ancestor is not an ancestor. -/
theorem nodeAt_concat_sibling (e : Entry) {k : ℕ} (hk : k ≤ cfg.height) :
    nodeAt h cfg (es ++ [e]) (ancestor cfg es.length k).sibling
      = nodeAt h cfg es (ancestor cfg es.length k).sibling := by
  refine nodeAt_concat ?_
  show es.length / 2 ^ (cfg.height - (cfg.height - k)) ≠ es.length / 2 ^ k ^^^ 1
  rw [show cfg.height - (cfg.height - k) = k by omega]
  exact (xor_one_ne _).symm

/-- One level of the climb: the hash at hand is combined with the sibling that was loaded, and the
row of the parent is recorded if the parent changed. -/
theorem ClimbInv.step {e : Entry} {k : ℕ} {c : Climb} (hdb : Represents h cfg db es)
    (hk : k < cfg.height)
    (hc : ClimbInv h cfg es e (db.loadNodeHashes (fetchPositions cfg es.length)) k c) :
    ClimbInv h cfg es e (db.loadNodeHashes (fetchPositions cfg es.length)) (k + 1)
      (c.step h cfg (es.length + 1)) := by
  obtain ⟨hhash, hpath, hexisting, hplanned⟩ := hc.record hdb hk.le
  have hne : c.path.sibling ≠ c.path := BitPath.sibling_ne _
  -- the sibling is read, not written: it is not on the path of the new leaf
  have hsibling : ((c.record h cfg (es.length + 1)).existing c.path.sibling).getD
      (zeroHashForPath h cfg c.path.sibling)
      = nodeAt h cfg (es ++ [e]) (ancestor cfg es.length k).sibling := by
    rw [hexisting _ hne, hc.path, hc.existing _ le_rfl,
      hdb.fetched (Nat.sub_le _ _) (sibling_mem_fetchPositions _ hk),
      nodeAt_concat_sibling e hk.le]
  refine ⟨?_, ?_, ?_, hplanned⟩
  · simp only [Climb.step]
    rw [hpath, hhash, hsibling, hc.path, hc.nodeHash, nodeAt_ancestor_succ _ hk]
  · simp only [Climb.step]
    rw [hpath, hc.path, ancestor_pop hk]
  · intro p hp
    simp only [Climb.step]
    rw [hexisting p ?_, hc.existing p (by omega)]
    rintro rfl
    rw [hc.path] at hp
    have hlen : (ancestor cfg es.length k).length = cfg.height - k := rfl
    omega

/-- After `k` levels the climb holds the new hash of the `k`-th ancestor and the rows up to it. -/
theorem climb_inv (hdb : Represents h cfg db es) (e : Entry) {k : ℕ} (hk : k ≤ cfg.height) :
    ClimbInv h cfg es e (db.loadNodeHashes (fetchPositions cfg es.length)) k
      ((Climb.step h cfg (es.length + 1))^[k] ⟨leafHash h e, ⟨cfg.height, es.length⟩,
        db.loadNodeHashes (fetchPositions cfg es.length), []⟩) := by
  induction k with
  | zero =>
    refine ⟨?_, ?_, fun _ _ => rfl, rfl⟩
    · show leafHash h e = node h.poseidon2 _ (cfg.height - cfg.height) (es.length / 2 ^ 0)
      rw [Nat.sub_self, node, Nat.pow_zero, Nat.div_one, entryLeaves_last]
    · simp [ancestor]
  | succ k ih =>
    rw [Function.iterate_succ_apply']
    exact (ih (by omega)).step hdb hk

/-- The climb of an index in range ends at the root. -/
theorem ancestor_height {i : ℕ} (hi : i < 2 ^ cfg.height) :
    ancestor cfg i cfg.height = .root := by
  rw [ancestor, Nat.sub_self, Nat.div_eq_of_lt hi]
  rfl

/-- The node at the root is the root of the tree. -/
theorem nodeAt_root (es : List Entry) : nodeAt h cfg es .root = entryRoot h cfg es := rfl

/-- **The climb** computes the root of the tree with the new entry, and plans the rows of all
nodes that change. -/
theorem climbToRoot_eq (hdb : Represents h cfg db es) (e : Entry)
    (hroom : es.length < 2 ^ cfg.height) :
    (climbToRoot h cfg (es.length + 1) es.length (leafHash h e)
        (db.loadNodeHashes (fetchPositions cfg es.length))).nodeHash = entryRoot h cfg (es ++ [e])
      ∧ (climbToRoot h cfg (es.length + 1) es.length (leafHash h e)
        (db.loadNodeHashes (fetchPositions cfg es.length))).planned
          = updateRows h cfg (es ++ [e]) (es.length + 1) := by
  have hc := climb_inv hdb e le_rfl
  -- the path left at the end of the loop is the root's, unless the tree is full
  have hroot : ancestor cfg es.length cfg.height = .root := ancestor_height hroom
  unfold climbToRoot
  dsimp only
  generalize (Climb.step h cfg (es.length + 1))^[cfg.height] _ = c at hc ⊢
  have hpath : { c with path := .root } = c := by
    rw [← hroot, ← hc.path]
  rw [hpath]
  obtain ⟨hhash, -, -, hplanned⟩ := hc.record hdb le_rfl
  exact ⟨by rw [hhash, hc.nodeHash, hroot, nodeAt_root], hplanned⟩

/-! ## Tables after the writes -/

/-- The statements of one append, taken together: the nodes are upserted, the rows and the snapshot
appended and what left the window pruned. -/
theorem foldl_writesOf (rows : List UpdateRow) (snapshot : SnapshotRow) (bound : ℕ) :
    (writesOf rows snapshot bound).foldl Write.apply db = { db with
      nodes := upsert db.nodes rows
      updates := (db.updates ++ rows).filter fun row => ¬ row.treeIndex ≤ bound
      snapshots := db.snapshots ++ [snapshot] } := by
  unfold writesOf
  split
  · rename_i hrows
    subst hrows
    simp [Write.apply, upsert]
  · simp [Write.apply]

/-- Positions without a row keep their hash. -/
theorem upsert_of_notMem {nodes : BitPath → Option Fr} {rows : List UpdateRow} {p : BitPath}
    (hp : ∀ row ∈ rows, row.path ≠ p) :
    upsert nodes rows p = nodes p := by
  unfold upsert
  induction rows generalizing nodes with
  | nil => rfl
  | cons row rows ih =>
    rw [List.foldl_cons, ih fun r hr => hp r (List.mem_cons_of_mem _ hr),
      Function.update_of_ne (hp row List.mem_cons_self).symm]

/-- Where all the rows of a position agree, the upsert stores what they say. -/
theorem upsert_of_mem {nodes : BitPath → Option Fr} {rows : List UpdateRow} {p : BitPath} {v : Fr}
    (hv : ∀ row ∈ rows, row.path = p → row.newHash = v) (hp : ∃ row ∈ rows, row.path = p) :
    upsert nodes rows p = some v := by
  induction rows generalizing nodes with
  | nil => obtain ⟨row, hrow, -⟩ := hp; cases hrow
  | cons row rows ih =>
    have hcons : upsert nodes (row :: rows)
        = upsert (Function.update nodes row.path (some row.newHash)) rows := rfl
    rw [hcons]
    by_cases hrest : ∃ r ∈ rows, r.path = p
    · exact ih (fun r hr => hv r (List.mem_cons_of_mem _ hr)) hrest
    · rw [upsert_of_notMem fun r hr heq => hrest ⟨r, hr, heq⟩]
      obtain ⟨r, hr, heq⟩ := hp
      rcases List.mem_cons.mp hr with rfl | hr
      · rw [← heq, Function.update_self, hv r List.mem_cons_self heq]
      · exact absurd ⟨r, hr, heq⟩ hrest

/-- A row of append `t` stands at an ancestor of its leaf where the hash changed, with the hashes
before and after. -/
theorem mem_updateRows {t : ℕ} {row : UpdateRow} :
    row ∈ updateRows h cfg es t ↔ ∃ k ≤ cfg.height, row.path = ancestor cfg (t - 1) k
      ∧ nodeAt h cfg (es.take (t - 1)) row.path ≠ nodeAt h cfg (es.take t) row.path
      ∧ row = ⟨t, row.path, nodeAt h cfg (es.take (t - 1)) row.path,
        nodeAt h cfg (es.take t) row.path⟩ := by
  unfold updateRows updateRow
  rw [List.mem_filterMap]
  constructor
  · rintro ⟨k, hk, hrow⟩
    rw [List.mem_range] at hk
    dsimp only at hrow
    split at hrow
    · cases hrow
      exact ⟨k, by omega, rfl, ‹_›, rfl⟩
    · cases hrow
  · rintro ⟨k, hk, hpath, hne, heq⟩
    refine ⟨k, List.mem_range.mpr (by omega), ?_⟩
    dsimp only
    rw [← hpath, if_pos hne, ← heq]

/-- A node that changed has a row. -/
theorem exists_updateRow {t : ℕ} {p : BitPath} (hlen : p.length ≤ cfg.height)
    (hne : nodeAt h cfg (es.take t) p ≠ nodeAt h cfg (es.take (t + 1)) p) :
    ∃ row ∈ updateRows h cfg es (t + 1), row.path = p := by
  have hpath : t / 2 ^ (cfg.height - p.length) = p.value := by
    by_contra hoff
    exact hne (nodeAt_take_succ hoff).symm
  have hp : p = ancestor cfg t (cfg.height - p.length) := by
    rw [ancestor, hpath, show cfg.height - (cfg.height - p.length) = p.length by omega]
  exact ⟨⟨t + 1, p, nodeAt h cfg (es.take t) p, nodeAt h cfg (es.take (t + 1)) p⟩,
    mem_updateRows.mpr ⟨_, Nat.sub_le _ _, hp, hne, rfl⟩, rfl⟩

/-- The node table after the writes of an append. -/
theorem Represents.upsert (hdb : Represents h cfg db es) (e : Entry) {p : BitPath}
    (hlen : p.length ≤ cfg.height) :
    (upsert db.nodes (updateRows h cfg (es ++ [e]) (es.length + 1)) p).getD
      (zeroHashForPath h cfg p) = nodeAt h cfg (es ++ [e]) p := by
  have hold : (es ++ [e]).take es.length = es := List.take_left
  have hnew : (es ++ [e]).take (es.length + 1) = es ++ [e] := List.take_of_length_le (by simp)
  by_cases hrow : ∃ row ∈ updateRows h cfg (es ++ [e]) (es.length + 1), row.path = p
  · rw [upsert_of_mem (v := nodeAt h cfg (es ++ [e]) p) ?_ hrow, Option.getD_some]
    intro row hmem hpath
    obtain ⟨k, -, -, -, heq⟩ := mem_updateRows.mp hmem
    rw [heq, hnew, hpath]
  · rw [upsert_of_notMem fun row hmem hpath => hrow ⟨row, hmem, hpath⟩, hdb.nodes p hlen]
    by_contra hne
    refine hrow (exists_updateRow hlen ?_)
    rw [hold, hnew]
    exact hne

/-- Every row of append `t` is labelled `t`. -/
theorem updateRows_treeIndex (t : ℕ) : ∀ row ∈ updateRows h cfg es t, row.treeIndex = t := by
  intro row hrow
  obtain ⟨k, -, -, -, heq⟩ := mem_updateRows.mp hrow
  rw [heq]

/-- The update log after the writes of an append: one more index, cut to a window. -/
theorem Represents.pruned_window (hdb : Represents h cfg db es) (e : Entry) {window kept : ℕ}
    (hwindow : 0 < window) (hkept : kept = min (cfg.historyWindow + 1) window) :
    (db.updates ++ updateRows h cfg (es ++ [e]) (es.length + 1)).filter
        (fun row => ¬ row.treeIndex ≤ es.length + 1 - window)
      = UndoLog.log (updateRows h cfg (es ++ [e])) (es.length + 1 - kept + 1)
        (min (es.length + 1) kept) := by
  have hpos := cfg.historyWindow_pos
  -- before the deletion the log has one index too many
  have hlog : db.updates ++ updateRows h cfg (es ++ [e]) (es.length + 1)
      = UndoLog.log (updateRows h cfg (es ++ [e])) (es.length - cfg.historyWindow + 1)
        (min es.length cfg.historyWindow + 1) := by
    rw [UndoLog.log_succ, hdb.updates, show es.length - cfg.historyWindow + 1
      + min es.length cfg.historyWindow = es.length + 1 by omega]
    congr 1
    exact UndoLog.log_congr fun t _ ht => (updateRows_concat e (by omega)).symm
  rw [hlog, UndoLog.filter_log UpdateRow.treeIndex updateRows_treeIndex
    (fun t => ¬ t ≤ es.length + 1 - window), UndoLog.log]
  congr 1
  have hrange : (List.range' (es.length - cfg.historyWindow + 1)
        (min es.length cfg.historyWindow + 1)).filter (fun t => ¬ t ≤ es.length + 1 - window)
      = (List.range' (es.length - cfg.historyWindow + 1)
        (min es.length cfg.historyWindow + 1)).filter
          (fun t => es.length + 1 - window + 1 ≤ t ∧ t ≤ es.length + 1) := by
    refine List.filter_congr fun t ht => ?_
    rw [List.mem_range'_1] at ht
    exact decide_eq_decide.mpr (by omega)
  rw [hrange, UndoLog.filter_range']
  congr 1 <;> omega

/-- After the pruning of an append the log again holds the window of the last appends: one that is
new, and none that is too old. -/
theorem Represents.pruned (hdb : Represents h cfg db es) (e : Entry) :
    (db.updates ++ updateRows h cfg (es ++ [e]) (es.length + 1)).filter
        (fun row => ¬ row.treeIndex ≤ es.length + 1 - cfg.historyWindow)
      = UndoLog.log (updateRows h cfg (es ++ [e])) (es.length + 1 - cfg.historyWindow + 1)
        (min (es.length + 1) cfg.historyWindow) :=
  hdb.pruned_window e cfg.historyWindow_pos (by omega)

/-! ## The newest snapshot -/

/-- `ORDER BY tree_index DESC LIMIT 1` over the snapshots of the appends `1` to `n` finds that of
append `n`. -/
theorem argmax_snapshots (n : ℕ) (row : ℕ → SnapshotRow) (hrow : ∀ t, (row t).treeIndex = t) :
    ((List.range' 1 n).map row).argmax SnapshotRow.treeIndex
      = if n = 0 then none else some (row n) := by
  induction n with
  | zero => rfl
  | succ n ih =>
    rw [List.range'_concat, List.map_append, List.map_singleton, List.argmax_concat, ih]
    by_cases hn : n = 0
    · subst hn
      rfl
    · rw [if_neg hn, if_neg (Nat.succ_ne_zero n)]
      simp only [hrow, Nat.one_mul]
      rw [if_pos (by omega), Nat.add_comm]

/-- So the latest snapshot is that of the last append, and there is none for the empty tree. -/
theorem Represents.latestSnapshot (hdb : Represents h cfg db es) :
    db.latestSnapshot = if es.length = 0 then none else some (snapshotRow h cfg es es.length) := by
  rw [TreeDb.latestSnapshot, hdb.snapshots]
  exact argmax_snapshots _ _ fun _ => rfl

/-- The tree index that an append reads is the number of entries. -/
theorem Represents.latestIndex (hdb : Represents h cfg db es) :
    (db.latestSnapshot.map SnapshotRow.treeIndex).getD 0 = es.length := by
  rw [hdb.latestSnapshot]
  split
  · rename_i hzero
    exact hzero.symm
  · rfl

/-- The hash chain that it reads is that of the entries. -/
theorem Represents.latestHashChain (hdb : Represents h cfg db es) :
    (db.latestSnapshot.map SnapshotRow.hashChain).getD 0 = entryChain h es := by
  rw [hdb.latestSnapshot]
  split
  · rename_i hzero
    rw [List.length_eq_zero_iff.mp hzero]
    rfl
  · show entryChain h (es.take es.length) = _
    rw [List.take_length]

/-! ## Appends -/

variable (h cfg) in
/-- What an append returns. -/
def appendResult (es : List Entry) (e : Entry) : AppendResult where
  index := es.length + 1
  leafIndex := es.length
  root := entryRoot h cfg (es ++ [e])
  hashChain := entryChain h (es ++ [e])

/-- A number that fits the column is stored as it is. -/
theorem toI64_of_le (label : String) {value : ℕ} (hle : value ≤ i64Max) :
    toI64 label value = .ok value := if_pos hle

variable (h cfg) in
/-- The writes of an append. -/
def appendWrites (es : List Entry) (e : Entry) : List Write :=
  writesOf (updateRows h cfg (es ++ [e]) (es.length + 1))
    (snapshotRow h cfg (es ++ [e]) (es.length + 1)) (es.length + 1 - cfg.historyWindow)

/-- With what it reads of a database that represents `es`, an append plans the next entry. -/
theorem Represents.planAppend (hdb : Represents h cfg db es) (e : Entry)
    (hroom : es.length < 2 ^ cfg.height) (hindex : es.length + 1 ≤ i64Max) :
    planAppend h cfg e es.length (entryChain h es)
        (db.loadNodeHashes (fetchPositions cfg es.length))
      = .ok (appendWrites h cfg es e, appendResult h cfg es e) := by
  obtain ⟨hroot, hplanned⟩ := climbToRoot_eq hdb e hroom
  have hsnapshot : snapshotRow h cfg (es ++ [e]) (es.length + 1)
      = ⟨es.length + 1, entryRoot h cfg (es ++ [e]), entryChain h (es ++ [e])⟩ := by
    rw [snapshotRow, List.take_of_length_le (by simp)]
  rw [Indexer.planAppend, toI64_of_le _ (by omega)]
  simp only [hroot, hplanned, hashChainHost_eq, ← entryChain_concat]
  rw [appendWrites, hsnapshot]
  rfl

/-- The statements of an append take tables that represent `es` to tables that represent `es ++
[e]`. -/
theorem Represents.appendWrites (hdb : Represents h cfg db es) (e : Entry)
    (hroom : es.length < 2 ^ cfg.height) (hindex : es.length + 1 ≤ i64Max) :
    Represents h cfg ((appendWrites h cfg es e).foldl Write.apply db) (es ++ [e]) := by
  have hlen : (es ++ [e]).length = es.length + 1 := by simp
  rw [Indexer.appendWrites, foldl_writesOf]
  refine ⟨hdb.token, by omega, by omega, fun p hp => hdb.upsert e hp, ?_, ?_⟩
  · rw [hlen]
    exact hdb.pruned e
  · show db.snapshots ++ [_] = _
    rw [hlen, List.range'_concat, List.map_append, List.map_singleton, hdb.snapshots, Nat.one_mul,
      Nat.add_comm 1]
    congr 1
    refine List.map_congr_left fun t ht => ?_
    rw [List.mem_range'_1] at ht
    exact (snapshotRow_concat e (by omega)).symm

/-- **An append** adds the next entry and returns the root and hash chain with it. -/
theorem appendLeaf_represents (hdb : Represents h cfg db es) (e : Entry)
    (hroom : es.length < 2 ^ cfg.height) (hindex : es.length + 1 ≤ i64Max) :
    ∃ db', appendLeaf h cfg db e = .ok (db', appendResult h cfg es e)
      ∧ Represents h cfg db' (es ++ [e]) := by
  refine ⟨_, ?_, hdb.appendWrites e hroom hindex⟩
  have htoken : require (db.tokenExists = true) DbMerkleTreeError.tokenNotFound = .ok () :=
    require_eq_ok.mpr hdb.token
  rw [appendLeaf, htoken, hdb.latestIndex, hdb.latestHashChain]
  simp only [toI64_of_le "merkle index during append" hindex, bind, Except.bind]
  rw [hdb.planAppend e hroom hindex]
  rfl

/-- After the last index that fits, an append fails. -/
theorem Represents.appendLeaf_error (hdb : Represents h cfg db es) (e : Entry)
    (hfull : es.length = i64Max) :
    appendLeaf h cfg db e = .error (.u64ToI64 "merkle index during append" (i64Max + 1)) := by
  have htoken : require (db.tokenExists = true) DbMerkleTreeError.tokenNotFound = .ok () :=
    require_eq_ok.mpr hdb.token
  rw [appendLeaf, htoken, hdb.latestIndex, hfull]
  rfl

/-- The empty tables represent the empty tree. -/
theorem initial_represents : Represents h cfg TreeDb.initial [] := by
  refine ⟨rfl, Nat.zero_le _, Nat.zero_le _, ?_, ?_, rfl⟩
  · intro p _
    show zeroHashForPath h cfg p = node h.poseidon2 (entryLeaves h []) _ _
    rw [zeroHashForPath_eq]
    exact (node_leavesOf_of_le h.poseidon2 0 (l := []) (Nat.zero_le _)).symm
  · rw [List.length_nil, Nat.zero_min]
    rfl

/-! ## Proofs -/

/-- The loop of `load_overlay` keeps the first row that it meets at a position, which is what the
undo log's overlay is. -/
theorem foldl_overlay (rows : List UpdateRow) (p : BitPath) (overlay : BitPath → Option Fr) :
    rows.foldl (fun overlay row => if (overlay row.path).isSome then overlay
        else Function.update overlay row.path (some row.oldHash)) overlay p
      = (overlay p).or (UndoLog.overlay UpdateRow.path UpdateRow.oldHash rows p) := by
  induction rows generalizing overlay with
  | nil => simp [UndoLog.overlay]
  | cons row rows ih =>
    rw [List.foldl_cons, ih]
    -- the oldest row of a path is kept
    by_cases hpath : row.path = p
    · subst hpath
      cases hsome : overlay row.path with
      | some v => simp [hsome]
      | none => simp [UndoLog.overlay]
    · have hskip : UndoLog.overlay UpdateRow.path UpdateRow.oldHash (row :: rows) p
          = UndoLog.overlay UpdateRow.path UpdateRow.oldHash rows p := by
        simp [UndoLog.overlay, hpath]
      rw [hskip]
      split
      · rfl
      · rw [Function.update_of_ne (Ne.symm hpath)]

/-- The rows between an index in the window and the latest one. -/
theorem Represents.updates_between (hdb : Represents h cfg db es) {T : ℕ} (hT : T ≤ es.length)
    (hwindow : es.length - T ≤ cfg.historyWindow) :
    db.updates.filter (fun row => T + 1 ≤ row.treeIndex ∧ row.treeIndex ≤ es.length)
      = UndoLog.log (updateRows h cfg es) (T + 1) (es.length - T) := by
  rw [hdb.updates, UndoLog.filter_log UpdateRow.treeIndex updateRows_treeIndex
    (fun t => T + 1 ≤ t ∧ t ≤ es.length), UndoLog.filter_range', UndoLog.log]
  congr 2 <;> omega

/-- Within the window the overlay of tree `T` is made of the rows of all the later appends, none of
which is pruned. -/
theorem Represents.loadOverlay (hdb : Represents h cfg db es) {T : ℕ} (hT : T ≤ es.length)
    (hwindow : es.length - T ≤ cfg.historyWindow) :
    db.loadOverlay (T + 1) es.length = .ok (UndoLog.overlay UpdateRow.path UpdateRow.oldHash
      (UndoLog.log (updateRows h cfg es) (T + 1) (es.length - T))) := by
  have hindex := hdb.index_le
  unfold TreeDb.loadOverlay
  split
  · rw [show es.length - T = 0 by omega]
    rfl
  · rename_i hlt
    rw [toI64_of_le _ (by omega), toI64_of_le _ hindex]
    simp only [bind, Except.bind]
    rw [hdb.updates_between hT hwindow, List.mergeSort_of_pairwise]
    · refine congrArg Except.ok (funext fun p => ?_)
      rw [foldl_overlay, Option.none_or]
    · refine (UndoLog.pairwise_log UpdateRow.treeIndex updateRows_treeIndex _ _).imp ?_
      exact fun hle => decide_eq_true hle

/-- **The node of an earlier tree**: the first change after `T`, or else the current node. -/
theorem Represents.overlay_getD (hdb : Represents h cfg db es) {T : ℕ} (hT : T ≤ es.length)
    {p : BitPath} (hlen : p.length ≤ cfg.height) :
    (UndoLog.overlay UpdateRow.path UpdateRow.oldHash
        (UndoLog.log (updateRows h cfg es) (T + 1) (es.length - T)) p).getD
      ((db.nodes p).getD (zeroHashForPath h cfg p)) = nodeAt h cfg (es.take T) p := by
  have hlatest : nodeAt h cfg es p = nodeAt h cfg (es.take (T + (es.length - T))) p := by
    rw [Nat.add_sub_cancel' hT, List.take_length]
  rw [hdb.nodes p hlen, hlatest]
  refine UndoLog.overlay_eq (V := fun t p => nodeAt h cfg (es.take t) p) ?_ ?_ T _
  · intro t row hrow hpath
    obtain ⟨k, -, -, -, heq⟩ := mem_updateRows.mp hrow
    rw [heq, ← hpath]
    rfl
  · exact fun t hne => exists_updateRow hlen hne

/-- A path to the root goes upwards only. -/
theorem length_of_mem_pathsToRoot {n v : ℕ} {q : BitPath} (hq : q ∈ pathsToRoot n ⟨n, v⟩) :
    q.length ≤ n := by
  induction n generalizing v with
  | zero => cases hq
  | succ n ih =>
    rw [pathsToRoot, List.mem_cons] at hq
    rcases hq with rfl | hq
    · exact le_rfl
    · exact (ih hq).trans (Nat.le_succ n)

/-- The siblings of a proof lie in the tree. -/
theorem length_of_mem_siblingPaths {i : ℕ} {p : BitPath} (hp : p ∈ siblingPaths cfg i) :
    p.length ≤ cfg.height := by
  obtain ⟨q, hq, rfl⟩ := List.mem_map.mp hp
  have hlength : q.length ≤ cfg.height := length_of_mem_pathsToRoot hq
  exact hlength

/-- The siblings on the way up, as nodes of a tree. -/
theorem map_sibling_pathsToRoot (f : ℕ → Fr) (height n v : ℕ) (hn : n ≤ height) :
    ((pathsToRoot n ⟨n, v⟩).map BitPath.sibling).map
        (fun p => node h.poseidon2 f (height - p.length) p.value)
      = path h.poseidon2 f (height - n) v n := by
  induction n generalizing v with
  | zero => rfl
  | succ n ih =>
    have hpop : (⟨n + 1, v⟩ : BitPath).pop = ⟨n, v / 2⟩ := rfl
    rw [pathsToRoot, hpop, List.map_cons, List.map_cons, ih _ (by omega), path,
      show height - (n + 1) + 1 = height - n by omega]
    rfl

/-- The siblings of a leaf, as nodes of its tree. -/
theorem map_siblingPaths (es : List Entry) (i : ℕ) :
    (siblingPaths cfg i).map (nodeAt h cfg es)
      = path h.poseidon2 (entryLeaves h es) 0 i cfg.height := by
  have hall := map_sibling_pathsToRoot (h := h) (entryLeaves h es) cfg.height cfg.height i le_rfl
  rwa [Nat.sub_self] at hall

/-- The proof that the tables give for leaf `i` at index `T`. -/
theorem Represents.assembleProof (hdb : Represents h cfg db es) {T : ℕ} (hT : T ≤ es.length)
    {leafIndices : List ℕ} {i : ℕ} (hi : i ∈ leafIndices) (root : Fr) (chain : ℕ) :
    (assembleProof h cfg (UndoLog.overlay UpdateRow.path UpdateRow.oldHash
        (UndoLog.log (updateRows h cfg es) (T + 1) (es.length - T)))
      (db.loadNodeHashes (prefetchPaths cfg (UndoLog.overlay UpdateRow.path UpdateRow.oldHash
        (UndoLog.log (updateRows h cfg es) (T + 1) (es.length - T))) leafIndices))
      T root chain i)
      = ⟨T, i, root, chain, path h.poseidon2 (entryLeaves h (es.take T)) 0 i cfg.height⟩ := by
  rw [Indexer.assembleProof, ← map_siblingPaths]
  congr 1
  refine List.map_congr_left fun p hp => ?_
  rw [← hdb.overlay_getD hT (length_of_mem_siblingPaths hp)]
  generalize hover : UndoLog.overlay UpdateRow.path UpdateRow.oldHash
    (UndoLog.log (updateRows h cfg es) (T + 1) (es.length - T)) = overlay
  cases hsome : overlay p with
  | some hash => rfl
  | none =>
    -- a path without an old hash is prefetched
    have hmem : p ∈ prefetchPaths cfg overlay leafIndices := by
      refine List.mem_filter.mpr ⟨List.mem_flatMap.mpr ⟨i, hi, hp⟩, ?_⟩
      rw [hsome]
      rfl
    simp only [TreeDb.loadNodeHashes, if_pos hmem, Option.getD_none]

/-- Snapshots are never pruned: that of every earlier tree is found. -/
theorem Represents.snapshotAt (hdb : Represents h cfg db es) {T : ℕ} (hpos : 0 < T)
    (hT : T ≤ es.length) : db.snapshotAt T = some (snapshotRow h cfg es T) := by
  rw [TreeDb.snapshotAt, hdb.snapshots, List.find?_eq_some_iff_append]
  refine ⟨by simp [snapshotRow], (List.range' 1 (T - 1)).map (snapshotRow h cfg es),
    (List.range' (T + 1) (es.length - T)).map (snapshotRow h cfg es), ?_, ?_⟩
  · have hsplit : List.range' 1 es.length
        = List.range' 1 (T - 1) ++ (T :: List.range' (T + 1) (es.length - T)) := by
      have happend := List.range'_append_1 (s := 1) (m := T - 1) (n := es.length - T + 1)
      rw [show 1 + (T - 1) = T by omega, show T - 1 + (es.length - T + 1) = es.length by omega]
        at happend
      rw [← happend, List.range'_succ]
    rw [hsplit, List.map_append, List.map_cons]
  · intro row hrow
    obtain ⟨t, ht, rfl⟩ := List.mem_map.mp hrow
    rw [List.mem_range'_1] at ht
    have hne : t ≠ T := by omega
    simp [snapshotRow, hne]

variable (h cfg) in
/-- The proof of leaf `i` in the tree of the first `T` entries. -/
def proofAt (es : List Entry) (T i : ℕ) : HistoricalProof where
  targetIndex := T
  leafIndex := i
  root := entryRoot h cfg (es.take T)
  hashChain := entryChain h (es.take T)
  siblings := path h.poseidon2 (entryLeaves h (es.take T)) 0 i cfg.height

/-- The check passes exactly when every leaf is in the tree asked for. -/
theorem checkLeafIndices_eq_ok {T : ℕ} {leafIndices : List ℕ} :
    checkLeafIndices T leafIndices = .ok () ↔ ∀ i ∈ leafIndices, i < T := by
  induction leafIndices with
  | nil => exact iff_of_true rfl nofun
  | cons i rest ih =>
    rw [checkLeafIndices, List.forall_mem_cons]
    split
    · rename_i hge
      exact iff_of_false nofun fun hall => absurd hall.1 (Nat.not_lt.mpr hge)
    · rename_i hlt
      rw [ih, and_iff_right (Nat.lt_of_not_le hlt)]

/-- What the latest index has to be. -/
theorem checkTarget_eq_ok {latest T : ℕ} {leafIndices : List ℕ} :
    checkTarget cfg latest T leafIndices = .ok () ↔ latest ≠ 0 ∧ T ≤ latest
      ∧ latest - T ≤ cfg.historyWindow ∧ ∀ i ∈ leafIndices, i < T := by
  simp only [checkTarget, bind_eq_ok, require_eq_ok, exists_const, checkLeafIndices_eq_ok]

/-- For a tree within the window and leaves in it, `prove_many` answers with the proofs of that
historical tree. -/
theorem Represents.proveMany_ok (hdb : Represents h cfg db es) {T : ℕ} {leafIndices : List ℕ}
    (hne : leafIndices ≠ []) (hpos : 0 < T) (hT : T ≤ es.length)
    (hwindow : es.length - T ≤ cfg.historyWindow) (hbound : ∀ i ∈ leafIndices, i < T) :
    proveMany h cfg db T leafIndices = .ok (leafIndices.map (proofAt h cfg es T)) := by
  have hcheck : checkTarget cfg es.length T leafIndices = .ok () :=
    checkTarget_eq_ok.mpr ⟨by omega, hT, hwindow, hbound⟩
  have hzero : require (T ≠ 0) DbMerkleTreeError.invalidProofTargetZero = .ok () :=
    require_eq_ok.mpr (by omega)
  have hindex : T ≤ i64Max := hT.trans hdb.index_le
  rw [proveMany, if_neg hne, hzero, hdb.latestIndex]
  simp only [bind, Except.bind, hcheck, hdb.loadOverlay hT hwindow, TreeDb.rootAt,
    TreeDb.hashChainAt, toI64_of_le _ hindex, hdb.snapshotAt hpos hT, pure, Except.pure, okOr,
    Option.map_some]
  refine congrArg Except.ok (List.map_congr_left fun i hi => ?_)
  rw [hdb.assembleProof hT hi]
  rfl

/-- What `prove_many` has checked. -/
theorem proveMany_checked {n T : ℕ} {leafIndices : List ℕ} {proofs : List HistoricalProof}
    (hlatest : (db.latestSnapshot.map SnapshotRow.treeIndex).getD 0 = n)
    (hempty : leafIndices ≠ []) (hok : proveMany h cfg db T leafIndices = .ok proofs) :
    0 < T ∧ T ≤ n ∧ n - T ≤ cfg.historyWindow ∧ ∀ i ∈ leafIndices, i < T := by
  rw [proveMany, if_neg hempty, hlatest] at hok
  obtain ⟨_, hzero, hok⟩ := bind_eq_ok.mp hok
  obtain ⟨_, hcheck, -⟩ := bind_eq_ok.mp hok
  obtain ⟨-, hT, hwindow, hbound⟩ := checkTarget_eq_ok.mp hcheck
  exact ⟨Nat.pos_of_ne_zero (require_eq_ok.mp hzero), hT, hwindow, hbound⟩

/-- When `prove_many` succeeds. -/
theorem Represents.proveMany_iff (hdb : Represents h cfg db es) (T : ℕ) (leafIndices : List ℕ) :
    (∃ proofs, proveMany h cfg db T leafIndices = .ok proofs) ↔ leafIndices = []
      ∨ (0 < T ∧ T ≤ es.length ∧ es.length - T ≤ cfg.historyWindow ∧ ∀ i ∈ leafIndices, i < T) := by
  by_cases hempty : leafIndices = []
  · subst hempty
    exact iff_of_true ⟨[], rfl⟩ (Or.inl rfl)
  · constructor
    · rintro ⟨proofs, hok⟩
      exact Or.inr (proveMany_checked hdb.latestIndex hempty hok)
    · rintro (hnil | ⟨hpos, hT, hwindow, hbound⟩)
      · exact absurd hnil hempty
      · exact ⟨_, hdb.proveMany_ok hempty hpos hT hwindow hbound⟩

/-- The siblings of a proof fold its leaf to its root. -/
theorem climb_proofAt {T i : ℕ} (hi : i < T) (hT : T ≤ es.length)
    (hcapacity : es.length ≤ 2 ^ cfg.height) :
    ∃ e, es[i]? = some e ∧ climb h.poseidon2 (leafHash h e)
      ((Radix.bitsLE cfg.height i).zip (proofAt h cfg es T i).siblings)
        = (proofAt h cfg es T i).root := by
  have hlt : i < es.length := by omega
  refine ⟨es[i], List.getElem?_eq_getElem hlt, ?_⟩
  have hleaf : node h.poseidon2 (entryLeaves h (es.take T)) 0 i = leafHash h es[i] := by
    simp [node, entryLeaves, leavesOf, List.getD_eq_getElem?_getD, hi, hlt]
  have hclimb := climb_path h.poseidon2 (entryLeaves h (es.take T)) 0 i cfg.height
  rw [hleaf, Nat.zero_add, Nat.div_eq_of_lt (by omega)] at hclimb
  exact hclimb

variable (h cfg)

/-- One `append_leaf` call; a failed one changes nothing. -/
def appendStep (db : TreeDb) (e : Entry) : TreeDb :=
  commit db ((appendLeaf h cfg db e).map Prod.fst)

/-- The entries that are appended: past the last index, `append_leaf` fails. -/
def appendedEntries (es : List Entry) : List Entry := es.take i64Max

variable {h cfg}

/-- Any number of appends to the empty tables represents the tree of the entries that were accepted.
-/
theorem run_represents (es : List Entry) (hcapacity : es.length ≤ 2 ^ cfg.height) :
    Represents h cfg (run (appendStep h cfg) TreeDb.initial es) (appendedEntries es) := by
  induction es using List.reverseRecOn with
  | nil => exact initial_represents
  | append_singleton es e ih =>
    rw [List.length_append, List.length_singleton] at hcapacity
    replace ih := ih (by omega)
    rw [run_concat]
    rcases Nat.lt_or_ge es.length i64Max with hlt | hge
    · have hold : appendedEntries es = es := List.take_of_length_le hlt.le
      have hnew : appendedEntries (es ++ [e]) = es ++ [e] :=
        List.take_of_length_le (by rw [List.length_append, List.length_singleton]; omega)
      rw [hold] at ih
      obtain ⟨db', hok, hdb'⟩ := appendLeaf_represents ih e (by omega) hlt
      rw [hnew, appendStep, hok]
      exact hdb'
    · -- the next index does not fit
      have hsame : appendedEntries (es ++ [e]) = appendedEntries es :=
        List.take_append_of_le_length hge
      have hlen : (appendedEntries es).length = i64Max := by
        rw [appendedEntries, List.length_take, min_eq_left hge]
      rw [hsame, appendStep, ih.appendLeaf_error e hlen]
      exact ih

variable (h cfg) in
/-- What a proof at index `T` has to be. -/
structure ExactProof (db : TreeDb) (es : List Entry) (T : ℕ) (p : HistoricalProof) : Prop where
  target : p.targetIndex = T
  recorded : db.snapshotAt T = some ⟨T, p.root, p.hashChain⟩
  root : p.root = entryRoot h cfg (es.take T)
  hashChain : p.hashChain = entryChain h (es.take T)
  siblings : p.siblings
    = path h.poseidon2 (entryLeaves h (es.take T)) 0 p.leafIndex cfg.height
  folds : ∃ e, es[p.leafIndex]? = some e ∧ climb h.poseidon2 (leafHash h e)
    ((Radix.bitsLE cfg.height p.leafIndex).zip p.siblings) = p.root

variable (h cfg)

/-- **Historical proofs are exact.** After any sequence of appends, in a tree of any height and
with any history window. -/
theorem historical_proofs_exact (es : List Entry) (hcapacity : es.length ≤ 2 ^ cfg.height)
    (db : TreeDb) (hdb : run (appendStep h cfg) TreeDb.initial es = db)
    (T : ℕ) (leafIndices : List ℕ) :
    ((∃ proofs, proveMany h cfg db T leafIndices = .ok proofs) ↔ leafIndices = []
        ∨ (0 < T ∧ T ≤ (appendedEntries es).length
          ∧ (appendedEntries es).length - T ≤ cfg.historyWindow ∧ ∀ i ∈ leafIndices, i < T))
      ∧ ∀ proofs, proveMany h cfg db T leafIndices = .ok proofs →
        proofs.map HistoricalProof.leafIndex = leafIndices
          ∧ ∀ p ∈ proofs, ExactProof h cfg db (appendedEntries es) T p := by
  have hrep : Represents h cfg db (appendedEntries es) := hdb ▸ run_represents es hcapacity
  have hiff := hrep.proveMany_iff T leafIndices
  refine ⟨hiff, fun proofs hok => ?_⟩
  by_cases hempty : leafIndices = []
  · subst hempty
    cases hok
    exact ⟨rfl, nofun⟩
  · obtain ⟨hpos, hT, hwindow, hbound⟩ := (hiff.mp ⟨proofs, hok⟩).resolve_left hempty
    rw [hrep.proveMany_ok hempty hpos hT hwindow hbound] at hok
    cases hok
    refine ⟨by simp [proofAt, Function.comp_def], ?_⟩
    intro p hp
    obtain ⟨i, hi, rfl⟩ := List.mem_map.mp hp
    exact ⟨rfl, hrep.snapshotAt hpos hT, rfl, rfl, rfl,
      climb_proofAt (hbound i hi) hT hrep.capacity⟩

/-- A proof at the second index of a tree of height 2 with three leaves. -/
theorem historical_proofs_exact_earlier :
    ∃ proofs, proveMany realHashes ⟨2, 1, by decide, by decide⟩
      (run (appendStep realHashes ⟨2, 1, by decide, by decide⟩) TreeDb.initial
        [⟨1, 10⟩, ⟨2, 20⟩, ⟨3, 30⟩]) 2 [0, 1] = .ok proofs :=
  (historical_proofs_exact realHashes ⟨2, 1, by decide, by decide⟩ [⟨1, 10⟩, ⟨2, 20⟩, ⟨3, 30⟩]
    (by decide) _ rfl 2 [0, 1]).1.mpr (Or.inr (by decide))

end Indexer

end Zerc20
