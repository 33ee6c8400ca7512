import Zerc20.Hash.Basic
import Zerc20.Lib.HashTree

/-!
# The transfer history and what commits to it

zERC20 numbers its transfers (mints and burns included) and commits to the pairs
`(to, value)` twice: on chain by a SHA-256 hash chain, off chain by a Merkle tree whose leaf
`i` is `Poseidon(to, value)` of transfer `i`. This module states both for an arbitrary list
of transfers, which is what the contracts, the circuits and the indexer are compared with.

* `transferChain` — the hash chain, `ShaHashChainLib.compute` folded from `0`;
* `transferRoot` — the root of the depth-40 tree, zero after the last transfer;
* `chainInputs` / `transferInputs` — the hash inputs of either, for naming collisions.
-/

namespace Zerc20

open HashTree

/-- `TRANSFER_TREE_HEIGHT`. -/
def transferTreeHeight : ℕ := 40

theorem transferTreeHeight_pos : 0 < transferTreeHeight := by decide

/-- An `IndexedTransfer`; its index is its place in the history. zERC20 only records
values of at most 248 bits. -/
structure Transfer where
  src : Address
  dst : Address
  value : Fin (2 ^ 248)
  deriving DecidableEq

variable (h : Hashes)

def Transfer.leaf (t : Transfer) : Fr := h.poseidon2 (addressToFr t.dst) (u256ToFr t.value.val)

/-- The leaves of the transfer tree, zero after the last transfer. -/
def transferLeaves (ts : List Transfer) : ℕ → Fr := leavesOf 0 (ts.map (Transfer.leaf h))

def transferRoot (ts : List Transfer) : Fr :=
  node h.poseidon2 (transferLeaves h ts) transferTreeHeight 0

def transferChain (ts : List Transfer) : ℕ :=
  ts.foldl (fun acc t => hashChain h acc t.dst.val t.value.val) 0

/-! ## Hash inputs -/

abbrev ChainInput := ℕ × ℕ × ℕ

def hashChainOf (q : ChainInput) : ℕ := hashChain h q.1 q.2.1 q.2.2

/-- The inputs of the hash chain of every prefix of `ts`. -/
def chainInputs (ts : List Transfer) : Set ChainInput :=
  {q | ∃ n t, ts[n]? = some t ∧ q = (transferChain h (ts.take n), t.dst.val, t.value.val)}

/-- The Poseidon inputs of the leaves and of the trees of every prefix of `ts`. -/
def transferInputs (ts : List Transfer) : Set (Fr × Fr) :=
  {q | ∃ t ∈ ts, q = (addressToFr t.dst, u256ToFr t.value.val)}
    ∪ {q | ∃ n, q ∈ treeInputs h.poseidon2 (transferLeaves h (ts.take n)) transferTreeHeight}

theorem u256ToFr_val (v : Fin (2 ^ 248)) : (u256ToFr v.val).val = v.val :=
  val_natCast_of_lt_two_pow (n := 248) (by omega) v.isLt

/-- One more transfer extends the hash chain. -/
@[simp] theorem transferChain_concat (ts : List Transfer) (t : Transfer) :
    transferChain h (ts ++ [t]) = hashChain h (transferChain h ts) t.dst.val t.value.val := by
  simp [transferChain]

/-- The first `n + 1` are the first `n` and the next. -/
theorem take_succ_of_getElem? {α : Type*} {l : List α} {n : ℕ} {a : α} (hget : l[n]? = some a) :
    l.take (n + 1) = l.take n ++ [a] := by
  rw [List.take_add_one, hget, Option.toList_some]

/-- The last hash of the chain of a prefix is one of the recorded inputs. -/
theorem transferChain_take_succ {ts : List Transfer} {n : ℕ} {t : Transfer}
    (hget : ts[n]? = some t) :
    transferChain h (ts.take (n + 1))
      = hashChainOf h (transferChain h (ts.take n), t.dst.val, t.value.val) := by
  rw [take_succ_of_getElem? hget, transferChain_concat, hashChainOf]

/-- Inserting the next transfer's leaf along the tree's own siblings. -/
theorem climb_transfer {ts : List Transfer} {n : ℕ} {t : Transfer} (hget : ts[n]? = some t)
    (hn : n < 2 ^ transferTreeHeight) :
    climb h.poseidon2 (t.leaf h) ((Radix.bitsLE transferTreeHeight n).zip
        (path h.poseidon2 (transferLeaves h (ts.take n)) 0 n transferTreeHeight))
      = transferRoot h (ts.take (n + 1)) := by
  have hlt : n < ts.length := (List.getElem?_eq_some_iff.mp hget).1
  have hlen : ((ts.take n).map (Transfer.leaf h)).length = n := by
    simp only [List.length_map, List.length_take]
    omega
  have hclimb := climb_append h.poseidon2 0 ((ts.take n).map (Transfer.leaf h)) (t.leaf h)
    (d := transferTreeHeight) (by rw [hlen]; exact hn)
  rw [hlen] at hclimb
  rw [transferLeaves, hclimb, transferRoot, transferLeaves, take_succ_of_getElem? hget,
    List.map_append, List.map_singleton]

/-- Beyond the transfers the leaves are empty. -/
theorem transferLeaves_of_le {ts : List Transfer} {n : ℕ} (hn : ts.length ≤ n) :
    transferLeaves h ts n = 0 := by
  rw [transferLeaves, leavesOf, List.getD_eq_default _ _ (by simpa using hn)]

/-- Without transfers the root is that of the empty tree. -/
theorem transferRoot_nil : transferRoot h [] = zeroAt h.poseidon2 0 transferTreeHeight :=
  node_const h.poseidon2 0 _ _ _ fun j _ => transferLeaves_of_le h (Nat.zero_le j)

/-- The leaf of a transfer is at its index. -/
theorem transferLeaves_of_getElem? {ts : List Transfer} {n : ℕ} {t : Transfer}
    (hget : ts[n]? = some t) : transferLeaves h ts n = t.leaf h := by
  simp [transferLeaves, leavesOf, List.getD_eq_getElem?_getD, hget]

theorem chainInputs_mono {ts us : List Transfer} (hpre : ts <+: us) :
    chainInputs h ts ⊆ chainInputs h us := by
  rintro q ⟨n, t, hget, rfl⟩
  obtain ⟨rest, rfl⟩ := hpre
  have hlt : n < ts.length := (List.getElem?_eq_some_iff.mp hget).1
  refine ⟨n, t, ?_, ?_⟩
  · rw [List.getElem?_append_left hlt, hget]
  · rw [List.take_append_of_le_length hlt.le]

theorem transferInputs_mono {ts us : List Transfer} (hpre : ts <+: us) :
    transferInputs h ts ⊆ transferInputs h us := by
  obtain ⟨rest, rfl⟩ := hpre
  rintro q (⟨t, ht, rfl⟩ | ⟨n, hq⟩)
  · exact Or.inl ⟨t, List.mem_append_left _ ht, rfl⟩
  · -- a prefix of the shorter history is a prefix of the longer one
    refine Or.inr ⟨min n ts.length, ?_⟩
    rw [List.take_append_of_le_length (Nat.min_le_right _ _), List.take_eq_take_min.symm]
    exact hq

end Zerc20
