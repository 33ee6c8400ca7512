import Zerc20.Indexer.History
import Zerc20.Contracts.Token

/-!
# The in-memory tree, the database tree and the chain

`zkp/src/utils/tree/merkle_tree.rs` and `incremental_merkle_tree.rs`: the tree that tests and
tools keep in memory, a hash map of the nodes on the paths of the inserted leaves. It holds the
same tree of entries as the tables of the indexer (`Zerc20.Indexer.History`), written in another
way: every node of a path is inserted, changed or not.

The hash chain of both is computed by the host function `hash_chain`, which clears the first byte
of the digest where the contract masks the word.
-/

namespace Zerc20

namespace Indexer

open Machine HashTree Radix

/-! ## The trees -/

structure MerkleTree where
  height : ℕ
  nodeHashes : BitPath → Option Fr
  zeroHashes : List Fr

namespace MerkleTree

variable (h : Hashes)

/-- The loop of `new` that computes the zero hashes is that of the database tree. -/
def new (height : ℕ) : MerkleTree where
  height := height
  nodeHashes _ := none
  zeroHashes := computeZeroHashes h height

def getNodeHash (t : MerkleTree) (p : BitPath) : Fr :=
  match t.nodeHashes p with
  | some hash => hash
  | none => t.zeroHashes.getD (t.height - p.length) 0

def getRoot (t : MerkleTree) : Fr := t.getNodeHash .root

/-- `node_hashes.insert`. -/
def insert (t : MerkleTree) (p : BitPath) (hash : Fr) : MerkleTree :=
  { t with nodeHashes := Function.update t.nodeHashes p (some hash) }

/-- The variables of the loop of `update_leaf`. -/
structure Walk where
  tree : MerkleTree
  path : BitPath
  hash : Fr

def Walk.step (c : Walk) : Walk :=
  let sibling := c.tree.getNodeHash c.path.sibling
  let hash := if c.path.value % 2 = 1 then h.poseidon2 sibling c.hash
    else h.poseidon2 c.hash sibling
  let path := c.path.pop
  ⟨c.tree.insert path hash, path, hash⟩

def updateLeaf (t : MerkleTree) (index : ℕ) (leafHash : Fr) : MerkleTree :=
  let path : BitPath := ⟨t.height, index⟩
  ((Walk.step h)^[t.height] ⟨t.insert path leafHash, path, leafHash⟩).tree

/-- The siblings that `prove` returns, from the leaf up. -/
def prove (t : MerkleTree) (index : ℕ) : List Fr :=
  ((pathsToRoot t.height ⟨t.height, index⟩).map BitPath.sibling).map t.getNodeHash

end MerkleTree

structure IncrementalMerkleTree where
  tree : MerkleTree
  index : ℕ
  hashChain : ℕ
  leaves : ℕ → Option Entry
  addressToIndices : Address → List ℕ

namespace IncrementalMerkleTree

variable (h : Hashes)

def new (height : ℕ) : IncrementalMerkleTree where
  tree := .new h height
  index := 0
  hashChain := 0
  leaves _ := none
  addressToIndices _ := []

/-- `insert`, without the returned index; `index` is a `u64`. -/
def insert (t : IncrementalMerkleTree) (e : Entry) : IncrementalMerkleTree where
  tree := t.tree.updateLeaf h t.index (leafHash h e)
  index := (t.index + 1) % 2 ^ 64
  hashChain := hashChainHost h t.hashChain e.address e.value.val
  leaves := Function.update t.leaves t.index (some e)
  addressToIndices := Function.update t.addressToIndices e.address
    (t.addressToIndices e.address ++ [t.index])

def getRoot (t : IncrementalMerkleTree) : Fr := t.tree.getRoot

def prove (t : IncrementalMerkleTree) (index : ℕ) : List Fr := t.tree.prove index

end IncrementalMerkleTree

/-! ## The tree in memory holds the entries -/

variable {h : Hashes} {cfg : TreeConfig} {es : List Entry}

namespace MerkleTree

variable {t : MerkleTree}

/-- The nodes are those of the tree with leaves `f`. -/
structure Holds (h : Hashes) (depth : ℕ) (t : MerkleTree) (f : ℕ → Fr) : Prop where
  height : t.height = depth
  nodes : ∀ p, p.length ≤ depth →
    t.getNodeHash p = node h.poseidon2 f (depth - p.length) p.value

variable {depth : ℕ} {f : ℕ → Fr}

theorem getNodeHash_insert (t : MerkleTree) (p q : BitPath) (hash : Fr) :
    (t.insert p hash).getNodeHash q = if q = p then hash else t.getNodeHash q := by
  by_cases hq : q = p
  · subst hq
    simp [getNodeHash, insert]
  · simp [getNodeHash, insert, hq]

theorem new_holds (depth : ℕ) : (new h depth).Holds h depth fun _ => 0 := by
  refine ⟨rfl, fun p hp => ?_⟩
  have hlt : depth - p.length < depth + 1 := by omega
  show (computeZeroHashes h depth).getD (depth - p.length) 0 = _
  rw [computeZeroHashes_eq, List.getD_eq_getElem?_getD, List.getElem?_map,
    List.getElem?_range hlt]
  exact (node_const h.poseidon2 0 _ _ _ fun _ _ => rfl).symm

/-- The node `k` levels above leaf `i`. -/
def above (depth i k : ℕ) : BitPath := ⟨depth - k, i / 2 ^ k⟩

/-- The loop after `k` levels: the ancestors of the leaf up to level `k` are those of the new
tree, all other nodes those of the old one. -/
structure WalkInv (h : Hashes) (depth : ℕ) (f : ℕ → Fr) (i : ℕ) (leaf : Fr) (k : ℕ)
    (c : Walk) : Prop where
  height : c.tree.height = depth
  path : c.path = above depth i k
  hash : c.hash = node h.poseidon2 (Function.update f i leaf) k (i / 2 ^ k)
  done : ∀ j ≤ k, c.tree.getNodeHash (above depth i j)
    = node h.poseidon2 (Function.update f i leaf) j (i / 2 ^ j)
  other : ∀ p, p.length ≤ depth → (∀ j ≤ k, p ≠ above depth i j) →
    c.tree.getNodeHash p = node h.poseidon2 f (depth - p.length) p.value

/-- Nodes that are not above the leaf do not change. -/
theorem node_update_of_ne (leaf : Fr) {i k p : ℕ} (hp : i / 2 ^ k ≠ p) :
    node h.poseidon2 (Function.update f i leaf) k p = node h.poseidon2 f k p := by
  refine node_congr h.poseidon2 k p fun j hj => Function.update_of_ne ?_ _ _
  rintro rfl
  exact hp hj

theorem walkInv_start (ht : t.Holds h depth f) (i : ℕ) (leaf : Fr) :
    WalkInv h depth f i leaf 0 ⟨t.insert ⟨depth, i⟩ leaf, ⟨depth, i⟩, leaf⟩ := by
  have hstart : above depth i 0 = ⟨depth, i⟩ := by simp [above]
  have hleaf : node h.poseidon2 (Function.update f i leaf) 0 (i / 2 ^ 0) = leaf := by
    rw [Nat.pow_zero, Nat.div_one, node, Function.update_self]
  refine ⟨ht.height, hstart.symm, hleaf.symm, ?_, ?_⟩
  · intro j hj
    obtain rfl : j = 0 := Nat.le_zero.mp hj
    rw [getNodeHash_insert, if_pos hstart, hleaf]
  · intro p hp hoff
    rw [getNodeHash_insert, if_neg (hstart ▸ hoff 0 le_rfl)]
    exact ht.nodes p hp

/-- The sibling of an ancestor is no ancestor. -/
theorem above_sibling_ne {i j k : ℕ} (hj : j ≤ depth) (hk : k ≤ depth) :
    (above depth i k).sibling ≠ above depth i j := by
  intro heq
  have hlength : depth - k = depth - j := congrArg BitPath.length heq
  have hjk : j = k := by omega
  subst hjk
  exact BitPath.sibling_ne _ heq

/-- One level up: the parent is written with the hash of its two children. -/
theorem WalkInv.step {i : ℕ} {leaf : Fr} {k : ℕ} {c : Walk} (hc : WalkInv h depth f i leaf k c)
    (hk : k < depth) : WalkInv h depth f i leaf (k + 1) (c.step h) := by
  have hsibling : c.tree.getNodeHash c.path.sibling
      = node h.poseidon2 (Function.update f i leaf) k (i / 2 ^ k ^^^ 1) := by
    rw [hc.path, hc.other _ (Nat.sub_le _ _) fun j hj => above_sibling_ne (by omega) hk.le]
    show node h.poseidon2 f (depth - (depth - k)) (i / 2 ^ k ^^^ 1) = _
    rw [show depth - (depth - k) = k by omega, node_update_of_ne leaf (xor_one_ne _).symm]
  have hpath : c.path.pop = above depth i (k + 1) := by
    have hne : depth - k ≠ 0 := by omega
    rw [hc.path, above, BitPath.pop, if_neg hne, above, Nat.pow_succ, ← Nat.div_div_eq_div_mul,
      Nat.sub_sub]
  have hhash : (c.step h).hash
      = node h.poseidon2 (Function.update f i leaf) (k + 1) (i / 2 ^ (k + 1)) := by
    simp only [Walk.step]
    rw [hsibling, hc.hash, hc.path, Nat.pow_succ, ← Nat.div_div_eq_div_mul, node_parent]
    show (if i / 2 ^ k % 2 = 1 then _ else _) = _
    rcases Nat.mod_two_eq_zero_or_one (i / 2 ^ k) with heven | hodd
    · rw [if_neg (by omega), if_pos heven]
    · rw [if_pos hodd, if_neg (by omega)]
  have htree : (c.step h).tree = c.tree.insert (above depth i (k + 1)) (c.step h).hash := by
    simp only [Walk.step, hpath]
  refine ⟨?_, hpath, hhash, ?_, ?_⟩
  · rw [htree]
    exact hc.height
  · intro j hj
    rw [htree, getNodeHash_insert]
    rcases Nat.lt_or_eq_of_le hj with hlt | rfl
    · -- a node on another level
      have hne : above depth i j ≠ above depth i (k + 1) := by
        intro heq
        have hlength : depth - j = depth - (k + 1) := congrArg BitPath.length heq
        omega
      rw [if_neg hne]
      exact hc.done j (by omega)
    · rw [if_pos rfl, hhash]
  · intro p hp hoff
    rw [htree, getNodeHash_insert, if_neg (hoff (k + 1) le_rfl)]
    exact hc.other p hp fun j hj => hoff j (by omega)

/-- **`update_leaf`** changes one leaf. -/
theorem updateLeaf_holds (ht : t.Holds h depth f) (i : ℕ) (leaf : Fr) :
    (t.updateLeaf h i leaf).Holds h depth (Function.update f i leaf) := by
  -- on the levels that the walk has climbed
  have hwalk : ∀ k ≤ depth, WalkInv h depth f i leaf k
      ((Walk.step h)^[k] ⟨t.insert ⟨depth, i⟩ leaf, ⟨depth, i⟩, leaf⟩) := by
    intro k hk
    induction k with
    | zero => exact walkInv_start ht i leaf
    | succ k ih =>
      rw [Function.iterate_succ_apply']
      exact (ih (by omega)).step hk
  have hend := hwalk depth le_rfl
  unfold updateLeaf
  rw [ht.height]
  refine ⟨hend.height, ?_⟩
  intro p hp
  -- a node on the path of the leaf, or beside it
  by_cases hon : i / 2 ^ (depth - p.length) = p.value
  · have hp' : p = above depth i (depth - p.length) := by
      rw [above, hon, Nat.sub_sub_self hp]
    have hdone := hend.done (depth - p.length) (Nat.sub_le _ _)
    rw [← hp', hon] at hdone
    exact hdone
  · rw [hend.other p hp ?_, node_update_of_ne leaf hon]
    rintro j hj rfl
    refine hon ?_
    show i / 2 ^ (depth - (depth - j)) = i / 2 ^ j
    rw [Nat.sub_sub_self hj]

/-- The root of a tree that holds the leaves is theirs. -/
theorem Holds.getRoot (ht : t.Holds h depth f) : t.getRoot = node h.poseidon2 f depth 0 :=
  ht.nodes .root (Nat.zero_le _)

/-- `prove` returns the siblings of the leaf. -/
theorem Holds.prove (ht : t.Holds h depth f) (i : ℕ) :
    t.prove i = path h.poseidon2 f 0 i depth := by
  have hsiblings := map_sibling_pathsToRoot (h := h) f depth depth i le_rfl
  rw [Nat.sub_self] at hsiblings
  rw [MerkleTree.prove, ht.height, ← hsiblings]
  refine List.map_congr_left fun p hp => ?_
  obtain ⟨q, hq, rfl⟩ := List.mem_map.mp hp
  have hlength : q.length ≤ depth := length_of_mem_pathsToRoot hq
  exact ht.nodes q.sibling hlength

end MerkleTree

namespace IncrementalMerkleTree

structure Holds (h : Hashes) (cfg : TreeConfig) (t : IncrementalMerkleTree) (es : List Entry) :
    Prop where
  tree : t.tree.Holds h cfg.height (entryLeaves h es)
  index : t.index = es.length
  hashChain : t.hashChain = entryChain h es

/-- Inserting an entry keeps root, index and hash chain those of the entries. -/
theorem insert_holds {t : IncrementalMerkleTree} (ht : t.Holds h cfg es) (e : Entry)
    (hindex : es.length + 1 < 2 ^ 64) :
    (t.insert h e).Holds h cfg (es ++ [e]) := by
  refine ⟨?_, ?_, ?_⟩
  · simp only [insert, ht.index]
    rw [entryLeaves_update]
    exact MerkleTree.updateLeaf_holds ht.tree es.length (leafHash h e)
  · simp only [insert, ht.index, List.length_append, List.length_singleton]
    exact Nat.mod_eq_of_lt hindex
  · simp only [insert, ht.hashChain]
    rw [hashChainHost_eq, entryChain_concat]

/-- The tree after inserting `es` in order. -/
theorem run_holds (es : List Entry) (hindex : es.length < 2 ^ 64) :
    (run (insert h) (new h cfg.height) es).Holds h cfg es := by
  induction es using List.reverseRecOn with
  | nil => exact ⟨MerkleTree.new_holds cfg.height, rfl, rfl⟩
  | append_singleton es e ih =>
    rw [List.length_append, List.length_singleton] at hindex
    rw [run_concat]
    exact insert_holds (ih (by omega)) e hindex

end IncrementalMerkleTree

/-! ## The contract -/

/-- What the indexer stores of an `IndexedTransfer`. -/
def entryOf (t : Transfer) : Entry := ⟨t.dst, ⟨t.value.val, t.value.isLt.trans (by norm_num)⟩⟩

/-- The `_afterTokenTransfer` calls of the transfers, in order. -/
def recordTransfers (h : Hashes) (token : Token) : List Transfer → Except TokenError Token
  | [] => .ok token
  | t :: ts => do
    let token ← token.afterTokenTransfer h t.src t.dst t.value.val
    recordTransfers h token ts

/-- The contract takes as many transfers as its index has room for. -/
theorem recordTransfers_ok (token : Token) (ts : List Transfer)
    (hindex : token.index + ts.length < 2 ^ 64) :
    ∃ token', recordTransfers h token ts = .ok token'
      ∧ token'.index = token.index + ts.length
      ∧ token'.hashChain = (ts.map entryOf).foldl
        (fun acc e => hashChain h acc e.address.val e.value.val) token.hashChain := by
  induction ts generalizing token with
  | nil => exact ⟨token, rfl, rfl, rfl⟩
  | cons t ts ih =>
    have hvalue : t.value.val ≤ uint248Max := Nat.le_pred_of_lt t.value.isLt
    rw [List.length_cons] at hindex
    have hroom : token.index < uint256Max := by
      have hlarge : 2 ^ 64 < uint256Max := by decide
      omega
    obtain ⟨token', hok, hindex', hchain'⟩ := ih { token with
      hashChain := hashChain h token.hashChain t.dst.val t.value.val
      index := token.index + 1
      events := token.events ++ [t] } (by show token.index + 1 + ts.length < 2 ^ 64; omega)
    refine ⟨token', ?_, ?_, hchain'⟩
    · rw [recordTransfers, Token.afterTokenTransfer, dif_pos hvalue, if_pos hroom]
      exact hok
    · rw [hindex', List.length_cons]
      show token.index + 1 + ts.length = _
      omega

/-- The result of an append agrees with the in-memory tree, the padded tree and the contract. -/
structure AgreesWith (h : Hashes) (cfg : TreeConfig) (r : AppendResult) (ts : List Transfer)
    (owner : Address) : Prop where
  index : r.index = ts.length
  plainIndex : (run (IncrementalMerkleTree.insert h) (.new h cfg.height) (ts.map entryOf)).index
    = ts.length
  plainRoot : r.root
    = (run (IncrementalMerkleTree.insert h) (.new h cfg.height) (ts.map entryOf)).getRoot
  root : r.root = node h.poseidon2 (leavesOf 0 (ts.map (Transfer.leaf h))) cfg.height 0
  plainChain : r.hashChain
    = (run (IncrementalMerkleTree.insert h) (.new h cfg.height) (ts.map entryOf)).hashChain
  chain : ∃ token, recordTransfers h (Token.initial owner) ts = .ok token
    ∧ token.hashChain = r.hashChain ∧ token.index = ts.length

/-- The leaves of the indexer are those of the transfers. -/
theorem entryLeaves_entryOf (ts : List Transfer) :
    entryLeaves h (ts.map entryOf) = leavesOf 0 (ts.map (Transfer.leaf h)) := by
  rw [entryLeaves, List.map_map]
  rfl

/-- What an append returns is what the contract and the tree have. -/
theorem appendResult_agrees (ts : List Transfer) (t : Transfer) (owner : Address)
    (hindex : ts.length + 1 ≤ i64Max) :
    AgreesWith h cfg (appendResult h cfg (ts.map entryOf) (entryOf t)) (ts ++ [t]) owner := by
  have hlength : (ts ++ [t]).length = ts.length + 1 := by simp
  have hsmall : ts.length + 1 < 2 ^ 64 := hindex.trans_lt (by decide)
  have hentries : ts.map entryOf ++ [entryOf t] = (ts ++ [t]).map entryOf := by simp
  have hplain : (run (IncrementalMerkleTree.insert h) (.new h cfg.height)
      ((ts ++ [t]).map entryOf)).Holds h cfg ((ts ++ [t]).map entryOf) := by
    refine IncrementalMerkleTree.run_holds _ ?_
    rw [List.length_map, hlength]
    exact hsmall
  obtain ⟨token, hok, htokenIndex, htokenChain⟩ := recordTransfers_ok (h := h)
    (Token.initial owner) (ts ++ [t]) (by
      show 0 + (ts ++ [t]).length < 2 ^ 64
      omega)
  refine ⟨?_, ?_, ?_, ?_, ?_, token, hok, ?_, ?_⟩
  · rw [hlength, appendResult, List.length_map]
  · rw [hplain.index, List.length_map]
  · rw [IncrementalMerkleTree.getRoot, hplain.tree.getRoot, ← hentries, appendResult, entryRoot]
  · rw [appendResult, hentries, entryRoot, entryLeaves_entryOf]
  · rw [hplain.hashChain, ← hentries, appendResult]
  · rw [htokenChain, appendResult, hentries]
    rfl
  · rw [htokenIndex]
    exact Nat.zero_add _

/-- **The database tree refines the plain tree and the on-chain chain**, after every append; an
append fails only when the index does not fit a `BIGINT`. -/
theorem database_tree_refines (h : Hashes) (cfg : TreeConfig) (ts : List Transfer)
    (hcapacity : ts.length ≤ 2 ^ cfg.height) (owner : Address) (n : ℕ) (t : Transfer)
    (ht : ts[n]? = some t) (db : TreeDb)
    (hdb : run (appendStep h cfg) TreeDb.initial ((ts.take n).map entryOf) = db) :
    ((∃ db' r, appendLeaf h cfg db (entryOf t) = .ok (db', r)) ↔ n + 1 ≤ i64Max)
      ∧ ∀ db' r, appendLeaf h cfg db (entryOf t) = .ok (db', r) →
        AgreesWith h cfg r (ts.take (n + 1)) owner := by
  have hn : n < ts.length := (List.getElem?_eq_some_iff.mp ht).1
  have hlength : (ts.take n).length = n := by
    rw [List.length_take]
    omega
  have htake : ts.take (n + 1) = ts.take n ++ [t] := take_succ_of_getElem? ht
  have hrep : Represents h cfg db (appendedEntries ((ts.take n).map entryOf)) := by
    rw [← hdb]
    refine run_represents _ ?_
    rw [List.length_map, hlength]
    omega
  rcases Nat.lt_or_ge n i64Max with hlt | hge
  · have hall : appendedEntries ((ts.take n).map entryOf) = (ts.take n).map entryOf := by
      refine List.take_of_length_le ?_
      rw [List.length_map, hlength]
      exact hlt.le
    have hentries : ((ts.take n).map entryOf).length = n := by rw [List.length_map, hlength]
    rw [hall] at hrep
    obtain ⟨db', hok, -⟩ := appendLeaf_represents hrep (entryOf t)
      (by rw [hentries]; omega) (by rw [hentries]; exact hlt)
    refine ⟨iff_of_true ⟨_, _, hok⟩ hlt, ?_⟩
    intro db'' r hr
    rw [hok] at hr
    cases hr
    rw [htake]
    exact appendResult_agrees _ t owner (by rw [hlength]; exact hlt)
  · -- the next index does not fit
    have hfull : (appendedEntries ((ts.take n).map entryOf)).length = i64Max := by
      rw [appendedEntries, List.length_take, List.length_map, hlength, min_eq_left hge]
    have herror := hrep.appendLeaf_error (entryOf t) hfull
    refine ⟨iff_of_false ?_ (Nat.not_le.mpr (Nat.lt_succ_of_le hge)), ?_⟩
    · rintro ⟨db', r, hok⟩
      rw [herror] at hok
      cases hok
    · intro db' r hok
      rw [herror] at hok
      cases hok

/-- The second of two transfers, in a tree of height 1. -/
theorem database_tree_refines_second :
    ∃ db r, appendLeaf realHashes ⟨1, 1, by decide, by decide⟩
        (run (appendStep realHashes ⟨1, 1, by decide, by decide⟩) TreeDb.initial
          [entryOf ⟨0, 7, 5⟩]) (entryOf ⟨7, 8, 2⟩) = .ok (db, r)
      ∧ AgreesWith realHashes ⟨1, 1, by decide, by decide⟩ r [⟨0, 7, 5⟩, ⟨7, 8, 2⟩] 1 := by
  have hrefines := database_tree_refines realHashes ⟨1, 1, by decide, by decide⟩
    [⟨0, 7, 5⟩, ⟨7, 8, 2⟩] (by decide) 1 1 ⟨7, 8, 2⟩ rfl _ rfl
  obtain ⟨db, r, hok⟩ := hrefines.1.mpr (by decide)
  exact ⟨db, r, hok, hrefines.2 db r hok⟩

end Indexer

end Zerc20
