import Zerc20.Contracts.Hub
import Zerc20.Client.MerkleProofs
import Zerc20.Lib.Text

/-!
# The aggregation root, computed three times

The Hub folds the leaves level by level in one memory array and pads an odd level with the zero hash
of its depth. The Rust client and the wasm module of the front end keep a sparse tree and write the
nonzero leaves only. All compute the root of the full tree over the leaves padded with zeros, and
the siblings the clients take for a leaf fold to it (`aggregationRoot_agrees`).

The contract's loop is followed on naturals, over the hash `hashPair`; the tree over naturals is
the tree over field elements (`hashPair_cast`), because the hash reduces its inputs.
-/

namespace Zerc20

open Machine HashTree Radix Indexer

variable (h : Hashes)

/-! ## The contract's array -/

/-- One turn of the inner loop: `leaves[i] = _hashPair(left, right)`. -/
def hashLevelStep (pad count : ℕ) (leaves : List ℕ) (i : ℕ) : List ℕ :=
  let left := leaves.getD (2 * i) 0
  let right := if 2 * i + 1 < count then leaves.getD (2 * i + 1) 0 else pad
  leaves.set i (hashPair h left right)

/-- The inner loop, over the first `count` entries. -/
def hashLevelInPlace (pad count : ℕ) (leaves : List ℕ) : List ℕ :=
  (List.range ((count + 1) / 2)).foldl (hashLevelStep h pad count) leaves

/-- The `while` loop and what follows it. -/
def aggregateInPlace (zeroHash : ℕ → ℕ) (count depth : ℕ) (leaves : List ℕ) : ℕ :=
  if 1 < count then
    aggregateInPlace zeroHash ((count + 1) / 2) (depth + 1)
      (hashLevelInPlace h (zeroHash depth) count leaves)
  else padToRoot h zeroHash (leaves.getD 0 0) depth
termination_by count

/-- `computeAggregationRoot`, on the array `leaves`. -/
def computeAggregationRootInPlace (zeroHash : ℕ → ℕ) (leaves : List ℕ) : ℕ :=
  if leaves.length = 0 then zeroHash TREE_HEIGHT
  else aggregateInPlace h zeroHash leaves.length 0 leaves

variable {h}

/-- The pairs of a level, by position. -/
theorem hashLevel_getD {pad : ℕ} (leaves : List ℕ) {p : ℕ} (hp : 2 * p < leaves.length) (x : ℕ) :
    (hashLevel h pad leaves).getD p x
      = hashPair h (leaves.getD (2 * p) 0)
          (if 2 * p + 1 < leaves.length then leaves.getD (2 * p + 1) 0 else pad) := by
  induction leaves using hashLevel.induct generalizing p with
  | case1 => simp at hp
  -- a last leaf without a sibling is hashed with the padding
  | case2 left =>
    obtain rfl : p = 0 := by
      rw [List.length_singleton] at hp
      omega
    simp [hashLevel]
  | case3 left right rest ih =>
    cases p with
    | zero => simp [hashLevel]
    | succ p =>
      rw [List.length_cons, List.length_cons] at hp
      rw [hashLevel, List.getD_cons_succ, ih (by omega), Nat.mul_succ]
      simp only [List.getD_cons_succ, List.length_cons]
      congr 1
      exact if_congr (by omega) rfl rfl

/-- The inner loop after `n` turns: the first `n` entries are those of the next level, the others are
still there. -/
theorem hashLevelStep_run (pad count : ℕ) (leaves : List ℕ) (hcount : count ≤ leaves.length) (n : ℕ)
    (hn : n ≤ (count + 1) / 2) :
    let leaves' := (List.range n).foldl (hashLevelStep h pad count) leaves
    leaves'.length = leaves.length
      ∧ ∀ j, leaves'.getD j 0 = if j < n then (hashLevel h pad (leaves.take count)).getD j 0
        else leaves.getD j 0 := by
  induction n with
  | zero => exact ⟨rfl, fun j => by simp⟩
  | succ n ih =>
    obtain ⟨hlength, hentries⟩ := ih (by omega)
    rw [List.range_succ, List.foldl_append]
    generalize (List.range n).foldl (hashLevelStep h pad count) leaves = leaves' at hlength hentries ⊢
    refine ⟨?_, ?_⟩
    · show (leaves'.set n _).length = _
      rw [List.length_set, hlength]
    intro j
    show (leaves'.set n _).getD j 0 = _
    have htake : (leaves.take count).length = count := by
      rw [List.length_take]
      omega
    have hget : ∀ i < count, (leaves.take count).getD i 0 = leaves.getD i 0 := by
      intro i hi
      rw [List.getD_eq_getElem?_getD, List.getElem?_take_of_lt hi, ← List.getD_eq_getElem?_getD]
    by_cases hj : j = n
    · subst hj
      -- what is read was not overwritten yet
      have hleft : leaves'.getD (2 * j) 0 = (leaves.take count).getD (2 * j) 0 := by
        rw [hentries, if_neg (by omega), hget _ (by omega)]
      have hright : (if 2 * j + 1 < count then leaves'.getD (2 * j + 1) 0 else pad)
          = if 2 * j + 1 < count then (leaves.take count).getD (2 * j + 1) 0 else pad := by
        by_cases hlt : 2 * j + 1 < count
        · rw [if_pos hlt, if_pos hlt, hentries, if_neg (by omega), hget _ hlt]
        · rw [if_neg hlt, if_neg hlt]
      rw [List.getD_eq_getElem?_getD, List.getElem?_set_self (by omega), Option.getD_some,
        if_pos (Nat.lt_succ_self j), hashLevel_getD (leaves.take count) (by omega), htake, hleft,
        hright]
    · rw [List.getD_eq_getElem?_getD, List.getElem?_set_ne (Ne.symm hj),
        ← List.getD_eq_getElem?_getD, hentries]
      exact if_congr (by omega) rfl rfl

/-- The array and the list of the level agree on the entries that count. -/
theorem hashLevelInPlace_take (pad : ℕ) {count : ℕ} {leaves : List ℕ}
    (hcount : count ≤ leaves.length) :
    (hashLevelInPlace h pad count leaves).take ((count + 1) / 2)
      = hashLevel h pad (leaves.take count)
    ∧ (hashLevelInPlace h pad count leaves).length = leaves.length := by
  obtain ⟨hlength, hentries⟩ := hashLevelStep_run (h := h) pad count leaves hcount _ le_rfl
  refine ⟨List.ext_getElem? fun j => ?_, hlength⟩
  have hlevel : (hashLevel h pad (leaves.take count)).length = (count + 1) / 2 := by
    rw [hashLevel_length, List.length_take, min_eq_left hcount]
  have hsize : (count + 1) / 2 ≤ leaves.length := by omega
  rcases Nat.lt_or_ge j ((count + 1) / 2) with hj | hj
  · have hentry := hentries j
    rw [if_pos hj, List.getD_eq_getElem _ _ (by omega), List.getD_eq_getElem _ _ (by omega)]
      at hentry
    rw [List.getElem?_take_of_lt hj, List.getElem?_eq_getElem (by unfold hashLevelInPlace; omega),
      List.getElem?_eq_getElem (by omega)]
    exact congrArg some hentry
  · rw [List.getElem?_eq_none (by rw [List.length_take]; omega),
      List.getElem?_eq_none (by omega)]

/-- The loop in memory overwrites only what it has read, so it computes level after level. -/
theorem aggregateInPlace_eq {zeroHash : ℕ → ℕ} {count depth : ℕ} {leaves : List ℕ}
    (hpos : 0 < count) (hcount : count ≤ leaves.length) :
    aggregateInPlace h zeroHash count depth leaves
      = aggregateFrom h zeroHash depth (leaves.take count) := by
  -- a level halves the count; above one leaf there are at least two
  induction count using Nat.strong_induction_on generalizing depth leaves with
  | _ count ih =>
    unfold aggregateInPlace
    split
    · rename_i hlt
      obtain ⟨hlevel, hlength⟩ :=
        hashLevelInPlace_take (h := h) (zeroHash depth) hcount
      rw [ih _ (by omega) (by omega) (by omega), hlevel]
      obtain ⟨left, right, rest, hlist⟩ : ∃ left right rest,
          leaves.take count = left :: right :: rest := by
        have htake : (leaves.take count).length = count := by
          rw [List.length_take, min_eq_left hcount]
        match leaves.take count, htake with
        | [], htake => simp at htake; omega
        | [_], htake => simp at htake; omega
        | left :: right :: rest, _ => exact ⟨left, right, rest, rfl⟩
      rw [hlist, aggregateFrom]
    -- one leaf is the root
    · obtain rfl : count = 1 := by omega
      cases leaves with
      | nil => simp at hcount
      | cons root leaves =>
        rw [List.take_succ_cons, List.take_zero, aggregateFrom]
        rfl

/-- The loops compute the fold over the list. -/
theorem computeAggregationRootInPlace_eq (zeroHash : ℕ → ℕ) (leaves : List ℕ) :
    computeAggregationRootInPlace h zeroHash leaves = computeAggregationRoot h zeroHash leaves := by
  unfold computeAggregationRootInPlace computeAggregationRoot
  split
  · rfl
  · rw [aggregateInPlace_eq (by omega) le_rfl, List.take_length]

/-! ## The contract's tree -/

theorem hashPair_cast (x y : ℕ) : ((hashPair h x y : ℕ) : Fr) = h.poseidon2 (x : Fr) (y : Fr) :=
  ZMod.natCast_zmod_val _

/-- A level, padded with the zero hash of its depth, is the level of the full tree. -/
theorem leavesOf_hashLevel (pad : ℕ) (leaves : List ℕ) (p : ℕ) :
    leavesOf (hashPair h pad pad) (hashLevel h pad leaves) p
      = hashPair h (leavesOf pad leaves (2 * p)) (leavesOf pad leaves (2 * p + 1)) := by
  unfold leavesOf
  induction leaves using hashLevel.induct generalizing p with
  | case1 => simp [hashLevel]
  | case2 left =>
    cases p with
    | zero => simp [hashLevel]
    | succ p => simp [hashLevel, Nat.mul_succ]
  | case3 left right rest ih =>
    cases p with
    | zero => simp [hashLevel]
    | succ p =>
      rw [hashLevel, List.getD_cons_succ, ih, Nat.mul_succ]
      simp only [List.getD_cons_succ]

/-- One level less to hash. -/
theorem node_hashLevel (pad : ℕ) (leaves : List ℕ) (k : ℕ) :
    node (hashPair h) (leavesOf pad leaves) (k + 1) 0
      = node (hashPair h) (leavesOf (hashPair h pad pad) (hashLevel h pad leaves)) k 0 := by
  rw [node_succ]
  exact node_congr _ _ _ fun j _ => (leavesOf_hashLevel pad leaves j).symm

/-- Hashing with empty subtrees climbs to the root of the padded tree. -/
theorem padToRoot_eq (root : ℕ) {depth k : ℕ} (hk : depth + k = TREE_HEIGHT) :
    padToRoot h (generateZeroHashes h) root depth
      = node (hashPair h) (leavesOf (generateZeroHashes h depth) [root]) k 0 := by
  induction k generalizing root depth with
  | zero =>
    obtain rfl : depth = TREE_HEIGHT := hk
    rfl
  | succ k ih =>
    rw [node_hashLevel]
    have hnext := ih (hashPair h root (generateZeroHashes h depth))
      (show depth + 1 + k = TREE_HEIGHT by omega)
    rw [padToRoot, show TREE_HEIGHT - (depth + 1) = k by omega] at hnext
    rw [padToRoot, show TREE_HEIGHT - depth = k + 1 by omega, List.range'_succ, List.foldl_cons]
    exact hnext

/-- Aggregating level after level gives the root of the full tree. -/
theorem aggregateFrom_eq {depth k : ℕ} {leaves : List ℕ} (hk : depth + k = TREE_HEIGHT)
    (hne : leaves ≠ []) (hlen : leaves.length ≤ 2 ^ k) :
    aggregateFrom h (generateZeroHashes h) depth leaves
      = node (hashPair h) (leavesOf (generateZeroHashes h depth) leaves) k 0 := by
  induction depth, leaves using aggregateFrom.induct h (generateZeroHashes h) generalizing k with
  | case1 => exact absurd rfl hne
  -- one node is left: it is padded up to the root
  | case2 depth root =>
    rw [aggregateFrom]
    exact padToRoot_eq root hk
  | case3 depth left right rest ih =>
    obtain ⟨k, rfl⟩ : ∃ k', k = k' + 1 := by
      refine Nat.exists_eq_succ_of_ne_zero ?_
      rintro rfl
      simp at hlen
    rw [aggregateFrom, node_hashLevel]
    refine ih (by omega) ?_ ?_
    · rw [hashLevel]
      exact List.cons_ne_nil _ _
    · rw [hashLevel_length]
      rw [Nat.pow_succ] at hlen
      omega

/-- The table of the contract is that of the empty subtrees. -/
theorem generateZeroHashes_eq (k : ℕ) : generateZeroHashes h k = zeroAt (hashPair h) 0 k := by
  induction k with
  | zero => rfl
  | succ k ih => rw [generateZeroHashes, zeroAt, ih]

/-- The contract computes the root of the full tree over the padded leaves. -/
theorem computeAggregationRoot_eq {leaves : List ℕ} (hlen : leaves.length ≤ MAX_LEAVES) :
    computeAggregationRoot h (generateZeroHashes h) leaves
      = (node h.poseidon2 (leavesOf 0 (leaves.map u256ToFr)) TREE_HEIGHT 0).val := by
  have hnat : computeAggregationRoot h (generateZeroHashes h) leaves
      = node (hashPair h) (leavesOf 0 leaves) TREE_HEIGHT 0 := by
    unfold computeAggregationRoot
    split
    · rename_i hzero
      rw [generateZeroHashes_eq]
      refine (node_leavesOf_of_le _ _ ?_).symm
      rw [hzero]
      exact Nat.zero_le _
    · rename_i hne
      exact aggregateFrom_eq (Nat.zero_add _) (fun hnil => hne (by rw [hnil]; rfl)) hlen
  -- the words of the contract as field elements
  have hcast : ((computeAggregationRoot h (generateZeroHashes h) leaves : ℕ) : Fr)
      = node h.poseidon2 (leavesOf 0 (leaves.map u256ToFr)) TREE_HEIGHT 0 := by
    rw [hnat, node_map (φ := fun x : ℕ => (x : Fr)) hashPair_cast]
    refine node_congr _ _ _ fun j _ => ?_
    rw [leavesOf, leavesOf, List.getD_eq_getElem?_getD, List.getD_eq_getElem?_getD,
      List.getElem?_map]
    cases leaves[j]? with
    | none => exact Nat.cast_zero
    | some x => rfl
  rw [← hcast, ZMod.val_natCast_of_lt (computeAggregationRoot_lt leaves)]


/-! ## The wasm module -/

namespace Client

inductive WasmError where
  | emptyHexValue
  | invalidHex
  | aggregationIndexExceeds
  deriving DecidableEq

/-- `char::is_whitespace`. -/
def isWhitespace (c : Char) : Bool :=
  let n := c.toNat
  (0x9 ≤ n && n ≤ 0xd) || (0x2000 ≤ n && n ≤ 0x200a)
    || [0x20, 0x85, 0xa0, 0x1680, 0x2028, 0x2029, 0x202f, 0x205f, 0x3000].contains n

def trim (value : List Char) : List Char :=
  ((value.dropWhile isWhitespace).reverse.dropWhile isWhitespace).reverse

/-- `strip_prefix("0x")`, where there is one. -/
def normalized : List Char → List Char
  | '0' :: 'x' :: digits => digits
  | trimmed => trimmed

/-- `parse_u256_hex`; `fromStrRadix16` is `U256::from_str_radix` of the integer library. -/
def parseU256Hex (fromStrRadix16 : List Char → Option Word) (value : String) :
    Except WasmError Word := do
  let trimmed := trim value.toList
  require (trimmed ≠ []) .emptyHexValue
  match fromStrRadix16 (normalized trimmed) with
  | some x => .ok x
  | none => .error .invalidHex

/-- `fr_to_hex`. -/
def frToHex (value : Fr) : String := "0x" ++ Text.hex (bytesBE 32 value.val)

section

variable (h : Hashes) (fromStrRadix16 : List Char → Option Word)

/-- The loop of `aggregation_root` and of `aggregation_merkle_proof`. -/
def snapshotTree (snapshotHex : List String) : Except WasmError MerkleTree :=
  snapshotHex.zipIdx.foldlM (fun tree entry => do
    let value ← parseU256Hex fromStrRadix16 entry.1
    if value.val = 0 then return tree
    else return tree.updateLeaf h entry.2 (u256ToFr value.val)) (.new h aggregationHeight)

def wasmAggregationRoot (snapshotHex : List String) : Except WasmError String := do
  let tree ← snapshotTree h fromStrRadix16 snapshotHex
  return frToHex tree.getRoot

def wasmAggregationMerkleProof (snapshotHex : List String) (index : ℕ) :
    Except WasmError (List String) := do
  let tree ← snapshotTree h fromStrRadix16 snapshotHex
  require (index < 2 ^ aggregationHeight) .aggregationIndexExceeds
  return (tree.prove index).map frToHex

end

variable {fromStrRadix16 : List Char → Option Word}

/-- The wasm module builds the tree of the other clients. -/
theorem snapshotTree_eq {texts : List String} {leaves : List Word}
    (hparse : texts.mapM (parseU256Hex fromStrRadix16) = .ok leaves) :
    snapshotTree h fromStrRadix16 texts = .ok (aggregationTree h leaves) := by
  induction texts using List.reverseRecOn generalizing leaves with
  | nil =>
    cases hparse
    rfl
  | append_singleton texts text ih =>
    obtain ⟨before, leaf, hbefore, hleaf, rfl⟩ := mapM_concat_eq_ok hparse
    have hlength : before.length = texts.length := mapM_length hbefore
    have hinit := ih hbefore
    rw [snapshotTree, List.zipIdx_append, List.foldlM_append, aggregationTree_concat, hlength]
    refine bind_eq_ok.mpr ⟨_, hinit, ?_⟩
    rw [List.zipIdx_singleton, List.foldlM_cons, Nat.zero_add]
    refine bind_eq_ok.mpr ⟨_, bind_eq_ok.mpr ⟨leaf, hleaf, ?_⟩, rfl⟩
    -- the snapshot skips the empty leaves
    by_cases hzero : leaf.val = 0
    · rw [if_pos hzero, if_neg (not_not.mpr hzero)]
      rfl
    · rw [if_neg hzero, if_pos hzero]
      rfl

end Client

open Client in
/-- **The aggregation root agrees everywhere**: on chain, in the Rust client and in the wasm module,
it is the root of the full tree over the leaves padded with zeros; and the clients' siblings of a
position fold its leaf to that root. -/
theorem aggregationRoot_agrees (h : Hashes) (fromStrRadix16 : List Char → Option Word)
    (leaves : List Word) (hlen : leaves.length ≤ MAX_LEAVES) :
    let root := node h.poseidon2 (leavesOf 0 (leaves.map fun x => u256ToFr x.val)) TREE_HEIGHT 0
    computeAggregationRootInPlace h (generateZeroHashes h) (leaves.map Fin.val) = root.val
      ∧ (aggregationTree h leaves).getRoot = root
      ∧ (∀ a < MAX_LEAVES, getRoot h ((aggregationTree h leaves).prove a)
          (leavesOf 0 (leaves.map fun x => u256ToFr x.val) a) a = root)
      ∧ ∀ texts, texts.mapM (parseU256Hex fromStrRadix16) = .ok leaves →
        wasmAggregationRoot h fromStrRadix16 texts = .ok (frToHex root)
          ∧ ∀ a < MAX_LEAVES, wasmAggregationMerkleProof h fromStrRadix16 texts a
            = .ok (((aggregationTree h leaves).prove a).map frToHex) := by
  have hholds := aggregationTree_holds (h := h) leaves
  refine ⟨?_, hholds.getRoot, fun a ha => (getRoot_prove hholds ha).trans hholds.getRoot, ?_⟩
  · rw [computeAggregationRootInPlace_eq, computeAggregationRoot_eq (by rwa [List.length_map]),
      List.map_map]
    rfl
  · intro texts hparse
    refine ⟨?_, fun a ha => ?_⟩
    · rw [wasmAggregationRoot, snapshotTree_eq hparse]
      exact congrArg (fun x => Except.ok (frToHex x)) hholds.getRoot
    · rw [wasmAggregationMerkleProof, snapshotTree_eq hparse]
      exact bind_eq_ok.mpr ⟨_, rfl, bind_eq_ok.mpr ⟨(), require_of ha, rfl⟩⟩

namespace Client

/-- `U256::from_str_radix` on lower-case digits, as far as the example needs it. -/
def fromHexDigits (digits : List Char) : Option Word :=
  let value? (c : Char) : Option ℕ :=
    if '0' ≤ c ∧ c ≤ '9' then some (c.toNat - '0'.toNat)
    else if 'a' ≤ c ∧ c ≤ 'f' then some (c.toNat - 'a'.toNat + 10)
    else none
  (digits.mapM value?).map fun values => Fin.ofNat _ (values.foldl (fun x v => 16 * x + v) 0)

/-- What the front end passes for three leaves, the second still zero. -/
def threeTexts : List String := ["0x5", "0x0", "0xff"]

theorem threeTexts_parse : threeTexts.mapM (parseU256Hex fromHexDigits) = .ok [5, 0, 255] := by
  decide +kernel

end Client

/-- Three leaves: the contract, and the front end with the texts of the leaves. -/
theorem aggregationRoot_agrees_three :
    computeAggregationRootInPlace realHashes (generateZeroHashes realHashes) [5, 0, 255]
        = (Client.aggregationTree realHashes [5, 0, 255]).getRoot.val
      ∧ Client.wasmAggregationRoot realHashes Client.fromHexDigits Client.threeTexts
        = .ok (Client.frToHex (Client.aggregationTree realHashes [5, 0, 255]).getRoot) := by
  have hagree := aggregationRoot_agrees realHashes Client.fromHexDigits [5, 0, 255] (by decide)
  refine ⟨hagree.1.trans (congrArg ZMod.val hagree.2.1.symm), ?_⟩
  rw [(hagree.2.2.2 _ Client.threeTexts_parse).1, hagree.2.1]

end Zerc20
