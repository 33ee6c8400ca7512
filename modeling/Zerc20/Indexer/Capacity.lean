import Zerc20.Indexer.PlainTree
import Zerc20.Indexer.RootWitness

/-!
# The capacity of a tree

A tree of height `n` has `2 ^ n` leaves. Neither `append_leaf` of the database tree nor `insert` of
the one in memory compares the next index with it. A `BitPath` is not masked to its length, so the
path of a leaf beyond the last one avoids every node of the tree; at its end the database writes the
slot of the root, and the tree in memory a node beside it.

`AppendTree` is what the two trees have in common, and `Enforces` what a tree that keeps to its
capacity does along a sequence of appends. `capacity_enforced_iff` says that both do so as long as
there are no more appends than leaves, and never after.
-/

namespace Zerc20

namespace Indexer

open Machine HashTree Radix

/-! ## Trees that leaves are appended to -/

/-- What one can read of a tree. -/
structure TreeView where
  index : ℕ
  root : Fr
  hashChain : ℕ
  node : BitPath → Fr
  /-- The siblings of a leaf. -/
  proof : ℕ → Option (List Fr)

/-- A tree with its `append`, which fails with `none` and then changes nothing. -/
structure AppendTree (σ : Type) where
  initial : σ
  append : σ → Entry → Option σ
  view : σ → TreeView

namespace AppendTree

variable {σ : Type} (tree : AppendTree σ)

def step (s : σ) (e : Entry) : σ := (tree.append s e).getD s

/-- The state after some appends. -/
def after (es : List Entry) : σ := run tree.step tree.initial es

/-- Beyond `capacity` leaves an append fails, and there is nothing else to see than before. -/
def Refuses (capacity : ℕ) (es : List Entry) : Prop :=
  ∀ es₁ e es₂, es = es₁ ++ e :: es₂ → capacity ≤ es₁.length →
    tree.append (tree.after es₁) e = none
      ∧ tree.view (tree.after (es₁ ++ [e])) = tree.view (tree.after es₁)

end AppendTree

section

variable (h : Hashes) (cfg : TreeConfig)

/-- The tree of `es`, each entry at a position of its own, with proofs that verify. -/
structure TreeView.Exact (v : TreeView) (es : List Entry) : Prop where
  positions : es.length ≤ 2 ^ cfg.height
  index : v.index = es.length
  root : v.root = entryRoot h cfg es
  hashChain : v.hashChain = entryChain h es
  node : ∀ p, p.length ≤ cfg.height → v.node p = nodeAt h cfg es p
  proof : ∀ i e, es[i]? = some e → ∃ siblings, v.proof i = some siblings
    ∧ siblings.length = cfg.height
    ∧ climb h.poseidon2 (leafHash h e) ((bitsLE cfg.height i).zip siblings) = v.root

/-- The tree keeps to its capacity along `es`: it refuses what does not fit, and whatever it has
recorded is the tree of the entries that fit. -/
structure AppendTree.Enforces {σ : Type} (tree : AppendTree σ) (es : List Entry) : Prop where
  refuses : tree.Refuses (2 ^ cfg.height) es
  exact : ∀ es₁, es₁ <+: es →
    (tree.view (tree.after es₁)).Exact h cfg (es₁.take (2 ^ cfg.height))

/-- The tree in the tables. -/
def tablesTree : AppendTree TreeDb where
  initial := .initial
  append db e := (appendLeaf h cfg db e).toOption.map Prod.fst
  view db :=
    let index := (db.latestSnapshot.map SnapshotRow.treeIndex).getD 0
    { index
      root := (db.latestSnapshot.map SnapshotRow.rootHash).getD (zeroRoot h cfg)
      hashChain := (db.latestSnapshot.map SnapshotRow.hashChain).getD 0
      node p := (db.nodes p).getD (zeroHashForPath h cfg p)
      proof i := ((proveMany h cfg db index [i]).toOption.bind List.head?).map
        HistoricalProof.siblings }

/-- The tree in memory; its `insert` has no way to fail. -/
def plainTree : AppendTree IncrementalMerkleTree where
  initial := .new h cfg.height
  append t e := some (t.insert h e)
  view t :=
    { index := t.index
      root := t.getRoot
      hashChain := t.hashChain
      node := t.tree.getNodeHash
      proof i := some (t.prove i) }

end

/-! ## Trees without a check -/

variable {h : Hashes} {cfg : TreeConfig} {es : List Entry}

/-- A tree that is exact up to its capacity and then takes one more leaf. -/
theorem AppendTree.enforces_iff {σ : Type} {tree : AppendTree σ}
    (hexact : ∀ es : List Entry, es.length ≤ 2 ^ cfg.height →
      (tree.view (tree.after es)).Exact h cfg es)
    (hover : ∀ (es : List Entry) (e : Entry), es.length = 2 ^ cfg.height →
      ∃ s, tree.append (tree.after es) e = some s ∧ (tree.view s).index = 2 ^ cfg.height + 1)
    (es : List Entry) : tree.Enforces h cfg es ↔ es.length ≤ 2 ^ cfg.height := by
  constructor
  · intro henforces
    by_contra hlong
    rw [not_le] at hlong
    -- the append after the last one that fits
    have hlength : (es.take (2 ^ cfg.height)).length = 2 ^ cfg.height := by
      rw [List.length_take]
      omega
    obtain ⟨s, happend, -⟩ := hover (es.take (2 ^ cfg.height)) es[2 ^ cfg.height] hlength
    have hsplit : es = es.take (2 ^ cfg.height) ++ es[2 ^ cfg.height]
        :: es.drop (2 ^ cfg.height + 1) := by
      rw [List.getElem_cons_drop, List.take_append_drop]
    have hrefused := (henforces.refuses _ _ _ hsplit hlength.ge).1
    rw [happend] at hrefused
    cases hrefused
  · intro hfits
    refine ⟨?_, fun es₁ hleading => ?_⟩
    · rintro es₁ e es₂ rfl hfull
      rw [List.length_append, List.length_cons] at hfits
      omega
    · have hfit : es₁.length ≤ 2 ^ cfg.height := hleading.length_le.trans hfits
      rw [List.take_of_length_le hfit]
      exact hexact es₁ hfit

/-- What it records from then on is no tree. -/
theorem TreeView.not_exact {v : TreeView} (hindex : v.index = 2 ^ cfg.height + 1)
    (kept : List Entry) : ¬ v.Exact h cfg kept := by
  intro hexact
  have hpositions := hexact.positions
  rw [← hexact.index, hindex] at hpositions
  omega

/-! ## The tables -/

theorem tablesTree_step (db : TreeDb) (e : Entry) :
    (tablesTree h cfg).step db e = appendStep h cfg db e := by
  show ((appendLeaf h cfg db e).toOption.map Prod.fst).getD db
    = commit db ((appendLeaf h cfg db e).map Prod.fst)
  cases appendLeaf h cfg db e <;> rfl

theorem tablesTree_after (es : List Entry) :
    (tablesTree h cfg).after es = run (appendStep h cfg) TreeDb.initial es := by
  have hstep : (tablesTree h cfg).step = appendStep h cfg := by
    funext db e
    exact tablesTree_step db e
  rw [AppendTree.after, hstep]
  rfl

/-- The root in the latest snapshot is that of the entries. -/
theorem Represents.latestRoot {db : TreeDb} (hdb : Represents h cfg db es) :
    (db.latestSnapshot.map SnapshotRow.rootHash).getD (zeroRoot h cfg) = entryRoot h cfg es := by
  rw [hdb.latestSnapshot]
  split
  · rename_i hzero
    rw [List.length_eq_zero_iff.mp hzero, Option.map_none, Option.getD_none, zeroRoot_eq]
    exact (node_leavesOf_of_le h.poseidon2 0 (l := []) (Nat.zero_le _)).symm
  · rw [Option.map_some, Option.getD_some, snapshotRow, List.take_length]

/-- Tables that represent the entries are exact. -/
theorem Represents.exact {db : TreeDb} (hdb : Represents h cfg db es) :
    ((tablesTree h cfg).view db).Exact h cfg es where
  positions := hdb.capacity
  index := hdb.latestIndex
  root := hdb.latestRoot
  hashChain := hdb.latestHashChain
  node := hdb.nodes
  proof i e he := by
    have hi : i < es.length := (List.getElem?_eq_some_iff.mp he).1
    have hproof : proveMany h cfg db es.length [i] = .ok ([i].map (proofAt h cfg es es.length)) :=
      hdb.proveMany_ok (List.cons_ne_nil _ _) (by omega) (le_refl es.length) (by omega)
        (by simpa using hi)
    obtain ⟨e', he', hfolds⟩ := climb_proofAt (h := h) hi (le_refl es.length) hdb.capacity
    obtain rfl : e = e' := Option.some.inj (he.symm.trans he')
    refine ⟨(proofAt h cfg es es.length i).siblings, ?_, path_length _ _ _ _ _, ?_⟩
    · show ((proveMany h cfg db ((db.latestSnapshot.map SnapshotRow.treeIndex).getD 0)
        [i]).toOption.bind List.head?).map HistoricalProof.siblings = _
      rw [hdb.latestIndex, hproof]
      rfl
    · rw [hfolds, proofAt, List.take_length]
      exact hdb.latestRoot.symm

/-- An append writes the next index, whatever it does with the nodes. -/
theorem Represents.appendLeaf_index {db : TreeDb} (hdb : Represents h cfg db es) (e : Entry)
    (hindex : es.length + 1 ≤ i64Max) :
    ∃ db' r, appendLeaf h cfg db e = .ok (db', r)
      ∧ (db'.latestSnapshot.map SnapshotRow.treeIndex).getD 0 = es.length + 1 := by
  have htoken : require (db.tokenExists = true) DbMerkleTreeError.tokenNotFound = .ok () :=
    require_eq_ok.mpr hdb.token
  rw [appendLeaf, htoken, hdb.latestIndex, hdb.latestHashChain]
  simp only [toI64_of_le "merkle index during append" hindex, bind, Except.bind,
    Indexer.planAppend,
    toI64_of_le "gc threshold" (show es.length + 1 - cfg.historyWindow ≤ i64Max by omega), pure,
    Except.pure]
  refine ⟨_, _, rfl, ?_⟩
  rw [foldl_writesOf, TreeDb.latestSnapshot, List.argmax_concat]
  have hlatest := hdb.latestSnapshot
  rw [TreeDb.latestSnapshot] at hlatest
  rw [hlatest]
  -- the new snapshot is the newest, also when it is the first
  by_cases hzero : es.length = 0
  · rw [if_pos hzero]
    rfl
  · rw [if_neg hzero]
    have hlt : (snapshotRow h cfg es es.length).treeIndex < es.length + 1 := Nat.lt_succ_self _
    simp only [if_pos hlt]
    rfl

/-- Up to the capacity the tables represent what was appended. -/
theorem tablesTree_exact (hheight : cfg.height ≤ 62) (es : List Entry)
    (hfits : es.length ≤ 2 ^ cfg.height) :
    Represents h cfg ((tablesTree h cfg).after es) es := by
  have hmax : 2 ^ cfg.height ≤ i64Max :=
    (Nat.pow_le_pow_right (by decide) hheight).trans (by decide)
  have hrun := run_represents (h := h) es hfits
  rw [appendedEntries, List.take_of_length_le (hfits.trans hmax)] at hrun
  rw [tablesTree_after]
  exact hrun

/-- In the full tree the next append goes through all the same. -/
theorem tablesTree_over (hheight : cfg.height ≤ 62) (es : List Entry) (e : Entry)
    (hfull : es.length = 2 ^ cfg.height) :
    ∃ db, (tablesTree h cfg).append ((tablesTree h cfg).after es) e = some db
      ∧ ((tablesTree h cfg).view db).index = 2 ^ cfg.height + 1 := by
  have hmax : 2 ^ cfg.height + 1 ≤ i64Max :=
    (Nat.succ_le_succ (Nat.pow_le_pow_right (by decide) hheight)).trans (by decide)
  obtain ⟨db, r, hok, hindex⟩ := (tablesTree_exact (h := h) hheight es hfull.le).appendLeaf_index e
    (by omega)
  refine ⟨db, ?_, by rw [← hfull]; exact hindex⟩
  show (appendLeaf h cfg _ e).toOption.map Prod.fst = some db
  rw [hok]
  rfl

/-! ## The tree in memory -/

theorem plainTree_after (es : List Entry) : (plainTree h cfg).after es
    = run (IncrementalMerkleTree.insert h) (.new h cfg.height) es := rfl

/-- A tree in memory that holds the entries is exact. -/
theorem IncrementalMerkleTree.Holds.exact {t : IncrementalMerkleTree} (ht : t.Holds h cfg es)
    (hfits : es.length ≤ 2 ^ cfg.height) : ((plainTree h cfg).view t).Exact h cfg es where
  positions := hfits
  index := ht.index
  root := ht.tree.getRoot
  hashChain := ht.hashChain
  node := ht.tree.nodes
  proof i e he := by
    have hi : i < es.length := (List.getElem?_eq_some_iff.mp he).1
    obtain ⟨e', he', hfolds⟩ := climb_proofAt (h := h) hi (le_refl es.length) hfits
    obtain rfl : e = e' := Option.some.inj (he.symm.trans he')
    rw [proofAt, List.take_length] at hfolds
    refine ⟨t.prove i, rfl, ?_, ?_⟩
    · rw [IncrementalMerkleTree.prove, ht.tree.prove, path_length]
    · show climb _ _ ((bitsLE cfg.height i).zip (t.tree.prove i)) = t.tree.getRoot
      rw [ht.tree.prove, ht.tree.getRoot]
      exact hfolds

/-- Up to the capacity it holds what was inserted. -/
theorem plainTree_exact (hheight : cfg.height ≤ 62) (es : List Entry)
    (hfits : es.length ≤ 2 ^ cfg.height) : ((plainTree h cfg).after es).Holds h cfg es := by
  have hmax : 2 ^ cfg.height < 2 ^ 64 := Nat.pow_lt_pow_right (by decide) (by omega)
  rw [plainTree_after]
  exact IncrementalMerkleTree.run_holds es (by omega)

theorem plainTree_over (hheight : cfg.height ≤ 62) (es : List Entry) (e : Entry)
    (hfull : es.length = 2 ^ cfg.height) :
    ∃ t, (plainTree h cfg).append ((plainTree h cfg).after es) e = some t
      ∧ ((plainTree h cfg).view t).index = 2 ^ cfg.height + 1 := by
  have hmax : 2 ^ cfg.height ≤ 2 ^ 62 := Nat.pow_le_pow_right (by decide) hheight
  have hholds := IncrementalMerkleTree.insert_holds (plainTree_exact (h := h) hheight es hfull.le) e
    (by omega)
  refine ⟨_, rfl, ?_⟩
  show (((plainTree h cfg).after es).insert h e).index = _
  rw [hholds.index, List.length_append, List.length_singleton, hfull]

/-- A leaf beyond the last one is not below the root. -/
theorem entryRoot_concat (e : Entry) (hfull : es.length = 2 ^ cfg.height) :
    entryRoot h cfg (es ++ [e]) = entryRoot h cfg es := by
  rw [entryRoot, entryLeaves_update, hfull]
  refine MerkleTree.node_update_of_ne _ ?_
  rw [Nat.div_self (Nat.two_pow_pos _)]
  exact one_ne_zero

/-- The tree in memory counts the leaf that is not in its root. -/
theorem plainTree_over_root (hheight : cfg.height ≤ 62) (es : List Entry) (e : Entry)
    (hfull : es.length = 2 ^ cfg.height) :
    (((plainTree h cfg).after es).insert h e).getRoot = ((plainTree h cfg).after es).getRoot := by
  have hmax : 2 ^ cfg.height ≤ 2 ^ 62 := Nat.pow_le_pow_right (by decide) hheight
  have hbefore := plainTree_exact (h := h) hheight es hfull.le
  have hafter := IncrementalMerkleTree.insert_holds hbefore e (by omega)
  exact hafter.tree.getRoot.trans ((entryRoot_concat e hfull).trans hbefore.tree.getRoot.symm)

/-! ## Along a sequence of appends -/

/-- So the tables enforce the capacity along the appends exactly when these fit: they refuse
nothing. -/
theorem tablesTree_enforces_iff (hheight : cfg.height ≤ 62) (es : List Entry) :
    (tablesTree h cfg).Enforces h cfg es ↔ es.length ≤ 2 ^ cfg.height :=
  AppendTree.enforces_iff (fun es hfits => (tablesTree_exact hheight es hfits).exact)
    (tablesTree_over hheight) es

theorem plainTree_enforces_iff (hheight : cfg.height ≤ 62) (es : List Entry) :
    (plainTree h cfg).Enforces h cfg es ↔ es.length ≤ 2 ^ cfg.height :=
  AppendTree.enforces_iff (fun es hfits => (plainTree_exact hheight es hfits).exact hfits)
    (plainTree_over hheight) es

/-- **When the capacity is enforced**: for every height up to 62 and every sequence of appends, both
trees refuse what does not fit, and have recorded a tree whose proofs verify all along, if and only
if there is nothing to refuse. -/
theorem capacity_enforced_iff (h : Hashes) (cfg : TreeConfig) (hheight : cfg.height ≤ 62)
    (es : List Entry) :
    ((tablesTree h cfg).Enforces h cfg es ↔ es.length ≤ 2 ^ cfg.height)
      ∧ ((plainTree h cfg).Enforces h cfg es ↔ es.length ≤ 2 ^ cfg.height) :=
  ⟨tablesTree_enforces_iff hheight es, plainTree_enforces_iff hheight es⟩

namespace CapacityExample

/-- A tree of height one. -/
def small : TreeConfig := ⟨1, 1, Nat.one_pos, Nat.one_pos⟩

def first : Entry := ⟨1, 10⟩

/-- As many entries as there are leaves. -/
def entries : List Entry := [first, ⟨2, 20⟩]

def beyond : Entry := ⟨3, 30⟩

/-- What the tables show after one entry too many. -/
def shown : TreeView :=
  (tablesTree realHashes small).view ((tablesTree realHashes small).after (entries ++ [beyond]))

end CapacityExample

/-- Two leaves of height one. -/
theorem capacity_enforced_two :
    ((tablesTree realHashes CapacityExample.small).Enforces realHashes CapacityExample.small
        CapacityExample.entries ↔ 2 ≤ 2 ^ 1)
      ∧ ((plainTree realHashes CapacityExample.small).Enforces realHashes CapacityExample.small
        CapacityExample.entries ↔ 2 ≤ 2 ^ 1) :=
  capacity_enforced_iff realHashes CapacityExample.small (by decide) CapacityExample.entries

open CapacityExample in
/-- A third leaf: the tables have index 3 and a root that the proof of the first leaf does not lead
to, the tree in memory has index 3 and the root of two leaves. -/
theorem capacity_exceeded :
    shown.index = 3
      ∧ (shown.proof 0).map (fun siblings => decide (climb realHashes.poseidon2
        (leafHash realHashes first) ((bitsLE small.height 0).zip siblings) = shown.root)) = some false
      ∧ ((plainTree realHashes small).view
        ((plainTree realHashes small).after (CapacityExample.entries ++ [beyond]))).index = 3
      ∧ ((plainTree realHashes small).after (CapacityExample.entries ++ [beyond])).getRoot
        = ((plainTree realHashes small).after CapacityExample.entries).getRoot
      ∧ ¬ (tablesTree realHashes small).Enforces realHashes small
        (CapacityExample.entries ++ [beyond])
      ∧ ¬ (plainTree realHashes small).Enforces realHashes small
        (CapacityExample.entries ++ [beyond]) := by
  have hshown : shown.index = 3
      ∧ (shown.proof 0).map (fun siblings => decide (climb realHashes.poseidon2
        (leafHash realHashes first) ((bitsLE small.height 0).zip siblings) = shown.root))
          = some false := by
    decide +kernel
  have hroot : ((plainTree realHashes small).after (CapacityExample.entries ++ [beyond])).getRoot
      = ((plainTree realHashes small).after CapacityExample.entries).getRoot :=
    plainTree_over_root (by decide) CapacityExample.entries beyond rfl
  refine ⟨hshown.1, hshown.2, rfl, hroot, ?_, ?_⟩
  · rw [tablesTree_enforces_iff (by decide)]
    decide
  · rw [plainTree_enforces_iff (by decide)]
    decide

end Indexer

end Zerc20
