import Zerc20.Indexer.Transactions
import Mathlib.Data.PNat.Basic

/-!
# Handles with different history windows

Every `DbIncrementalMerkleTree` handle has a `history_window` of its own: another process, or the
same one after a restart with another `TREE_HISTORY_WINDOW`. An append deletes the old hashes that
its own window does not reach; `prove_many` refuses what is beyond its own. After a window has become
wider, `prove_many` therefore answers for indices whose old hashes are gone, with what the tree has
become since (`widened_not_exact`).

`pruned` is a ghost: the index up to which old hashes have been deleted. `proofs_exact_iff` says which
answers are right: the ones whose siblings are the same in the tree of that many leaves.
-/

namespace Zerc20

namespace Indexer

open Machine HashTree

/-- A handle on a tree. -/
def handle (height window : ℕ+) : TreeConfig := ⟨height, window, height.pos, window.pos⟩

structure Windows where
  db : TreeDb
  entries : List Entry
  /-- The rows of `merkle_node_updates` up to here have been deleted. -/
  pruned : ℕ
  returned : List Returned

inductive WindowAction where
  | append (window : ℕ+) (e : Entry)
  | prove (window : ℕ+) (targetIndex : ℕ) (leafIndices : List ℕ)

namespace Windows

def initial : Windows := ⟨.initial, [], 0, []⟩

variable (h : Hashes) (height : ℕ+)

/-- One call, of a handle with any window; a failed one changes nothing. -/
def step (s : Windows) : WindowAction → Windows
  | .append window e =>
    match appendLeaf h (handle height window) s.db e with
    | .ok (db, result) =>
      { s with db, entries := s.entries ++ [e], pruned := max s.pruned (result.index - window) }
    | .error _ => s
  | .prove window targetIndex leafIndices =>
    match proveMany h (handle height window) s.db targetIndex leafIndices with
    | .ok proofs => { s with returned := s.returned ++ [⟨targetIndex, leafIndices, proofs⟩] }
    | .error _ => s

/-- Every returned proof is that of its leaf in the tree of the first entries. -/
def ProofsExact (s : Windows) : Prop :=
  ∀ r ∈ s.returned, r.proofs.map HistoricalProof.leafIndex = r.leafIndices
    ∧ ∀ p ∈ r.proofs, ValidProof h (handle height 1) s.entries r.targetIndex p

/-- The request is within the tree and the window. -/
def Answered (s : Windows) (window : ℕ+) (targetIndex : ℕ) (leafIndices : List ℕ) : Prop :=
  0 < targetIndex ∧ targetIndex ≤ s.entries.length ∧ s.entries.length - targetIndex ≤ window
    ∧ ∀ i ∈ leafIndices, i < targetIndex

/-- An answer is about hashes that the appends up to `pruned` have left as they were. -/
def Intact (s : Windows) : WindowAction → Prop
  | .append _ _ => True
  | .prove window targetIndex leafIndices => s.Answered window targetIndex leafIndices →
    ∀ i ∈ leafIndices, ∀ p ∈ siblingPaths (handle height 1) i,
      nodeAt h (handle height 1) (s.entries.take (max targetIndex s.pruned)) p
        = nodeAt h (handle height 1) (s.entries.take targetIndex) p

/-- There is room for one more leaf. -/
def Room (s : Windows) : WindowAction → Prop
  | .append _ _ => s.entries.length < 2 ^ (height : ℕ)
  | .prove _ _ _ => True

end Windows

/-! ## Appends and proofs of any handle -/

section

variable {h : Hashes} {height kept : ℕ+} {db : TreeDb} {es : List Entry}

/-- The plan of an append depends on the window at the pruning only. -/
theorem Represents.planAppend_handle (hdb : Represents h (handle height kept) db es) (e : Entry)
    (hroom : es.length < 2 ^ (height : ℕ)) (hindex : es.length + 1 ≤ i64Max) (window : ℕ+) :
    Indexer.planAppend h (handle height window) e es.length (entryChain h es)
        (db.loadNodeHashes (fetchPositions (handle height window) es.length))
      = .ok (Indexer.appendWrites h (handle height window) es e,
        appendResult h (handle height window) es e) := by
  -- only the deletion depends on the window
  obtain ⟨hroot, hplanned⟩ := climbToRoot_eq hdb e hroom
  change (climbToRoot h (handle height window) _ _ _ _).nodeHash
    = entryRoot h (handle height window) _ at hroot
  change (climbToRoot h (handle height window) _ _ _ _).planned
    = updateRows h (handle height window) _ _ at hplanned
  have hsnapshot : snapshotRow h (handle height window) (es ++ [e]) (es.length + 1)
      = ⟨es.length + 1, entryRoot h (handle height window) (es ++ [e]),
        entryChain h (es ++ [e])⟩ := by
    rw [snapshotRow, List.take_of_length_le (by simp)]
  rw [Indexer.planAppend, toI64_of_le _ (by omega)]
  simp only [hashChainHost_eq, ← entryChain_concat]
  rw [Indexer.appendWrites, hsnapshot, ← hplanned, ← hroot]
  exact congrArg Except.ok (Prod.ext rfl (by rw [appendResult, ← hroot]; rfl))

/-- **An append** of a handle with any window leaves the old hashes that all windows have left. -/
theorem appendLeaf_handle (hdb : Represents h (handle height kept) db es) (e : Entry)
    (hroom : es.length < 2 ^ (height : ℕ)) (hindex : es.length + 1 ≤ i64Max) (window : ℕ+) :
    ∃ db', appendLeaf h (handle height window) db e
        = .ok (db', appendResult h (handle height window) es e)
      ∧ Represents h (handle height (min (kept + 1) window)) db' (es ++ [e]) := by
  refine ⟨(appendWrites h (handle height window) es e).foldl Write.apply db, ?_, ?_⟩
  · have htoken : require (db.tokenExists = true) DbMerkleTreeError.tokenNotFound = .ok () :=
      require_eq_ok.mpr hdb.token
    rw [appendLeaf, htoken, hdb.latestIndex, hdb.latestHashChain]
    simp only [toI64_of_le "merkle index during append" hindex, bind, Except.bind]
    rw [hdb.planAppend_handle e hroom hindex window]
    rfl
  · have hsame := hdb.appendWrites e hroom hindex
    rw [appendWrites, foldl_writesOf] at hsame ⊢
    refine ⟨hsame.token, hsame.capacity, hsame.index_le, hsame.nodes, ?_, hsame.snapshots⟩
    -- the shorter of what was kept and the window of this append
    have hmin : ((min (kept + 1) window : ℕ+) : ℕ) = min ((kept : ℕ) + 1) window := by
      rcases le_total (kept + 1) window with hle | hle
      · rw [min_eq_left hle, min_eq_left (by exact_mod_cast hle)]
        rfl
      · rw [min_eq_right hle, min_eq_right (by exact_mod_cast hle)]
    rw [List.length_append, List.length_singleton]
    exact hdb.pruned_window e window.pos hmin

/-- Old hashes that have been deleted are not found. -/
theorem Represents.loadOverlay_pruned (hdb : Represents h (handle height kept) db es) {T : ℕ}
    (hT : T ≤ es.length) :
    db.loadOverlay (T + 1) es.length
      = .ok (UndoLog.overlay UpdateRow.path UpdateRow.oldHash
        (UndoLog.log (updateRows h (handle height kept) es) (max T (es.length - kept) + 1)
          (es.length - max T (es.length - kept)))) := by
  have hpos := kept.pos
  have hindex := hdb.index_le
  rw [← hdb.loadOverlay (T := max T (es.length - kept)) (by omega)
    (by show _ ≤ (kept : ℕ); omega)]
  unfold TreeDb.loadOverlay
  by_cases hlast : T = es.length
  · rw [if_pos (by omega), if_pos (by omega)]
  · rw [if_neg (by omega), if_neg (by omega), toI64_of_le _ (by omega), toI64_of_le _ hindex,
      toI64_of_le _ (by omega)]
    simp only [bind, Except.bind]
    -- below the kept ones there are no rows, so the bound may be moved up
    have hfilter : (db.updates.filter fun row =>
          T + 1 ≤ row.treeIndex ∧ row.treeIndex ≤ es.length)
        = db.updates.filter fun row =>
          max T (es.length - kept) + 1 ≤ row.treeIndex ∧ row.treeIndex ≤ es.length := by
      refine List.filter_congr fun row hrow => ?_
      have hkept : es.length - kept + 1 ≤ row.treeIndex := by
        rw [hdb.updates, UndoLog.log, List.mem_flatMap] at hrow
        obtain ⟨t, ht, hrow⟩ := hrow
        rw [List.mem_range'_1] at ht
        rw [updateRows_treeIndex t row hrow]
        exact ht.1
      exact decide_eq_decide.mpr (by omega)
    rw [hfilter]

variable (h height) in
/-- What a handle answers for leaf `i` at index `T` when the old hashes up to `pruned` are gone. -/
def prunedProof (es : List Entry) (pruned T i : ℕ) : HistoricalProof :=
  { proofAt h (handle height 1) es T i with
    siblings := path h.poseidon2 (entryLeaves h (es.take (max T pruned))) 0 i height }

/-- **A proof** of a handle with any window. -/
theorem Represents.proveMany_handle (hdb : Represents h (handle height kept) db es) (window : ℕ+)
    {T : ℕ} {leafIndices : List ℕ} (hne : leafIndices ≠ []) (hpos : 0 < T) (hT : T ≤ es.length)
    (hwindow : es.length - T ≤ window) (hbound : ∀ i ∈ leafIndices, i < T) :
    proveMany h (handle height window) db T leafIndices
      = .ok (leafIndices.map (prunedProof h height es (es.length - kept) T)) := by
  have hcheck : checkTarget (handle height window) es.length T leafIndices = .ok () :=
    checkTarget_eq_ok.mpr ⟨by omega, hT, hwindow, hbound⟩
  have hzero : require (T ≠ 0) DbMerkleTreeError.invalidProofTargetZero = .ok () :=
    require_eq_ok.mpr (by omega)
  have hindex : T ≤ i64Max := hT.trans hdb.index_le
  rw [proveMany, if_neg hne, hzero, hdb.latestIndex]
  simp only [bind, Except.bind, hcheck, hdb.loadOverlay_pruned hT, TreeDb.rootAt,
    TreeDb.hashChainAt, toI64_of_le _ hindex, hdb.snapshotAt hpos hT, pure, Except.pure, okOr,
    Option.map_some]
  refine congrArg Except.ok (List.map_congr_left fun i hi => ?_)
  have hproof := hdb.assembleProof (T := max T (es.length - kept)) (by omega) hi
    (snapshotRow h (handle height kept) es T).rootHash
    (snapshotRow h (handle height kept) es T).hashChain
  exact congrArg (fun p : HistoricalProof => { p with targetIndex := T }) hproof

/-- The answer is right just if its siblings are. -/
theorem prunedProof_valid_iff {pruned T i : ℕ} (hi : i < T) (hT : T ≤ es.length)
    (hcapacity : es.length ≤ 2 ^ (height : ℕ)) :
    ValidProof h (handle height 1) es T (prunedProof h height es pruned T i)
      ↔ ∀ p ∈ siblingPaths (handle height 1) i,
        nodeAt h (handle height 1) (es.take (max T pruned)) p
          = nodeAt h (handle height 1) (es.take T) p := by
  rw [← List.map_inj_left, map_siblingPaths, map_siblingPaths]
  constructor
  · intro hvalid
    exact hvalid.siblings
  · intro hsame
    have hclimb : ∃ e, es[i]? = some e ∧ climb h.poseidon2 (leafHash h e)
        ((Radix.bitsLE (handle height 1).height i).zip
          (proofAt h (handle height 1) es T i).siblings)
          = (proofAt h (handle height 1) es T i).root := climb_proofAt hi hT hcapacity
    obtain ⟨e, he, hfold⟩ := hclimb
    refine ⟨⟨rfl, hT⟩, rfl, hsame, e, he, ?_⟩
    show climb h.poseidon2 (leafHash h e) ((Radix.bitsLE (handle height 1).height i).zip
      (path h.poseidon2 (entryLeaves h (es.take (max T pruned))) 0 i (handle height 1).height)) = _
    rw [hsame]
    exact hfold

end

/-! ## Runs -/

section

variable {h : Hashes} {height : ℕ+} {s : Windows}

/-- The tables hold the tree, with the old hashes since `pruned`. -/
structure WindowInv (h : Hashes) (height : ℕ+) (s : Windows) : Prop where
  represents : ∃ kept : ℕ+, Represents h (handle height kept) s.db s.entries
    ∧ s.entries.length - kept = s.pruned

theorem initial_windowInv : WindowInv h height Windows.initial :=
  ⟨1, initial_represents, rfl⟩

/-- An append with any window keeps the invariant. What it prunes can never come back. -/
theorem WindowInv.append (hs : WindowInv h height s) (window : ℕ+) (e : Entry)
    (hroom : s.entries.length < 2 ^ (height : ℕ)) :
    WindowInv h height (s.step h height (.append window e))
      ∧ (s.step h height (.append window e)).returned = s.returned
      ∧ ∃ more, (s.step h height (.append window e)).entries = s.entries ++ more
        ∧ more.length ≤ 1 := by
  obtain ⟨kept, hdb, hpruned⟩ := hs.represents
  simp only [Windows.step]
  -- an index past the range of the column is refused
  rcases Nat.lt_or_ge s.entries.length i64Max with hlt | hge
  · obtain ⟨db', hok, hdb'⟩ := appendLeaf_handle hdb e hroom hlt window
    rw [hok]
    refine ⟨⟨_, hdb', ?_⟩, rfl, [e], rfl, le_refl _⟩
    show (s.entries ++ [e]).length - ((min (kept + 1) window : ℕ+) : ℕ)
      = max s.pruned (s.entries.length + 1 - window)
    rw [List.length_append, List.length_singleton, ← hpruned]
    -- the window cuts, or there is still room in it
    rcases le_total (kept + 1) window with hle | hle
    · rw [min_eq_left hle, PNat.add_coe, PNat.one_coe]
      have hle' : (kept : ℕ) + 1 ≤ window := by exact_mod_cast hle
      omega
    · rw [min_eq_right hle]
      have hle' : (window : ℕ) ≤ kept + 1 := by exact_mod_cast hle
      omega
  · have hfull : s.entries.length = i64Max := le_antisymm hdb.index_le hge
    have hwindow : appendLeaf h (handle height window) s.db e
        = .error (.u64ToI64 "merkle index during append" (i64Max + 1)) := by
      have htoken : require (s.db.tokenExists = true) DbMerkleTreeError.tokenNotFound = .ok () :=
        require_eq_ok.mpr hdb.token
      rw [appendLeaf, htoken, hdb.latestIndex, hfull]
      rfl
    rw [hwindow]
    exact ⟨hs, rfl, [], (List.append_nil _).symm, Nat.zero_le _⟩

/-- What `prove_many` answers. -/
theorem WindowInv.proveMany (hs : WindowInv h height s) (window : ℕ+) {T : ℕ}
    {leafIndices : List ℕ} (hne : leafIndices ≠ []) :
    (s.Answered window T leafIndices ∧ Indexer.proveMany h (handle height window) s.db T leafIndices
        = .ok (leafIndices.map (prunedProof h height s.entries s.pruned T)))
      ∨ (¬ s.Answered window T leafIndices
        ∧ ∃ e, Indexer.proveMany h (handle height window) s.db T leafIndices = .error e) := by
  obtain ⟨kept, hdb, hpruned⟩ := hs.represents
  by_cases hanswered : s.Answered window T leafIndices
  · obtain ⟨hpos, hT, hwindow, hbound⟩ := hanswered
    rw [← hpruned]
    exact Or.inl ⟨⟨hpos, hT, hwindow, hbound⟩,
      hdb.proveMany_handle window hne hpos hT hwindow hbound⟩
  · refine Or.inr ⟨hanswered, ?_⟩
    cases hresult : Indexer.proveMany h (handle height window) s.db T leafIndices with
    | ok proofs => exact absurd (proveMany_checked hdb.latestIndex hne hresult) hanswered
    | error e => exact ⟨e, rfl⟩

theorem WindowInv.step (s : Windows) (a : WindowAction) (hs : WindowInv h height s)
    (ha : s.Room height a) : WindowInv h height (s.step h height a) := by
  cases a with
  | append window e => exact (hs.append window e ha).1
  | prove window T leafIndices =>
    simp only [Windows.step]
    split
    · exact ⟨hs.represents⟩
    · exact hs

/-- There is room for what was appended. -/
theorem WindowInv.length_le (hs : WindowInv h height s) :
    s.entries.length ≤ 2 ^ (height : ℕ) := by
  obtain ⟨kept, hdb, -⟩ := hs.represents
  exact hdb.capacity

/-- Answers stay right when leaves are appended. -/
theorem WindowInv.append_proofsExact (hs : WindowInv h height s) (window : ℕ+) (e : Entry)
    (hroom : s.entries.length < 2 ^ (height : ℕ)) (hexact : s.ProofsExact h height) :
    (s.step h height (.append window e)).ProofsExact h height := by
  obtain ⟨-, hreturned, more, hentries, hmore⟩ := hs.append window e hroom
  intro r hr
  rw [hreturned] at hr
  rw [hentries]
  refine ⟨(hexact r hr).1, fun p hp => ?_⟩
  have hvalid := (hexact r hr).2 p hp
  match more, hmore with
  | [], _ => rwa [List.append_nil]
  | [x], _ => exact hvalid.concat x

/-- A step from right answers leads to right answers just if it meets the condition. -/
theorem WindowInv.step_iff (s : Windows) (a : WindowAction) (hs : WindowInv h height s)
    (hexact : s.ProofsExact h height) (ha : s.Room height a) :
    s.Intact h height a ↔ (s.step h height a).ProofsExact h height := by
  cases a with
  | append window e => exact iff_of_true trivial (hs.append_proofsExact window e ha hexact)
  | prove window T leafIndices =>
    by_cases hempty : leafIndices = []
    · subst hempty
      refine iff_of_true (fun _ i hi => absurd hi List.not_mem_nil) fun r hr => ?_
      rcases List.mem_append.mp hr with hr | hr
      · exact hexact r hr
      · rw [List.mem_singleton.mp hr]
        exact ⟨rfl, fun p hp => absurd hp List.not_mem_nil⟩
    rcases hs.proveMany window hempty (T := T) with ⟨hanswered, hok⟩ | ⟨hnot, e, herror⟩
    · -- one more answer
      have hbound := hanswered.2.2.2
      have hstep : s.step h height (.prove window T leafIndices) = { s with
          returned := s.returned ++ [⟨T, leafIndices,
            leafIndices.map (prunedProof h height s.entries s.pruned T)⟩] } := by
        simp only [Windows.step, hok]
      have hiff : ∀ i ∈ leafIndices,
          (ValidProof h (handle height 1) s.entries T (prunedProof h height s.entries s.pruned T i)
            ↔ ∀ p ∈ siblingPaths (handle height 1) i,
              nodeAt h (handle height 1) (s.entries.take (max T s.pruned)) p
                = nodeAt h (handle height 1) (s.entries.take T) p) := fun i hi =>
        prunedProof_valid_iff (hbound i hi) hanswered.2.1 hs.length_le
      rw [hstep]
      constructor
      · intro hintact r hr
        rcases List.mem_append.mp hr with hr | hr
        · exact hexact r hr
        · rw [List.mem_singleton.mp hr]
          refine ⟨by simp [Function.comp_def, prunedProof, proofAt], fun p hp => ?_⟩
          obtain ⟨i, hi, rfl⟩ := List.mem_map.mp hp
          exact (hiff i hi).mpr (hintact hanswered i hi)
      · intro hnew _ i hi
        have hlast := hnew _ (List.mem_append_right _ (List.mem_singleton.mpr rfl))
        exact (hiff i hi).mp (hlast.2 _ (List.mem_map.mpr ⟨i, hi, rfl⟩))
    · have hstep : s.step h height (.prove window T leafIndices) = s := by
        simp only [Windows.step, herror]
      rw [hstep]
      exact iff_of_true (fun hanswered => absurd hanswered hnot) hexact

variable (h height)

/-- **Which answers are right.** As long as the tree has room for its leaves, all proofs that are
returned in a run are those of the tree of the first leaves just if every answer is about hashes that
the appends up to `pruned` have left as they were. -/
theorem proofs_exact_iff (acts : List WindowAction)
    (hroom : Along (Windows.step h height) (Windows.Room height) .initial acts) :
    Along (Windows.step h height) (Windows.Intact h height) .initial acts
      ↔ ∀ n, (run (Windows.step h height) .initial (acts.take n)).ProofsExact h height :=
  along_iff_under WindowInv.step WindowInv.step_iff initial_windowInv
    (fun _ hr => absurd hr List.not_mem_nil) hroom

/-- An index that no window has cut off is enough. -/
theorem Windows.intact_of_le {window : ℕ+} {T : ℕ} {leafIndices : List ℕ} (hT : s.pruned ≤ T) :
    s.Intact h height (.prove window T leafIndices) := by
  intro _ i _ p _
  rw [max_eq_left hT]

end

instance (s : Windows) : (a : WindowAction) → Decidable (s.Room height a)
  | .append _ _ => inferInstanceAs (Decidable (_ < _))
  | .prove _ _ _ => inferInstanceAs (Decidable True)

instance (s : Windows) (window : ℕ+) (T : ℕ) (leafIndices : List ℕ) :
    Decidable (s.Answered window T leafIndices) :=
  inferInstanceAs (Decidable (_ ∧ _ ∧ _ ∧ _))

namespace Demo

def threeAppends : List WindowAction :=
  [.append 1 ⟨1, 10⟩, .append 1 ⟨2, 20⟩, .append 1 ⟨3, 30⟩]

/-- Appends with the window 1, and a handle with the window 3. -/
def widened (T : ℕ) : List WindowAction := threeAppends ++ [.prove 3 T [0]]

/-- The tree after the appends. -/
def threeLeaves : Windows := run (Windows.step realHashes 2) .initial threeAppends

theorem widened_room (T : ℕ) :
    Along (Windows.step realHashes 2) (Windows.Room 2) .initial (widened T) := by
  rw [widened, Along.append]
  exact ⟨by decide +kernel, trivial, trivial⟩

theorem threeLeaves_inv : WindowInv realHashes 2 threeLeaves :=
  run_induction_along initial_windowInv WindowInv.step (Along.append.mp (widened_room 1)).1

/-- In the example the window is widened after a narrow append. -/
theorem run_widened (T : ℕ) : run (Windows.step realHashes 2) .initial (widened T)
    = threeLeaves.step realHashes 2 (.prove 3 T [0]) := by
  rw [widened, run_append]
  rfl

end Demo

/-- The old hash beside the first leaf is gone, and the second leaf is in its place. -/
theorem widened_not_exact :
    ¬ (run (Windows.step realHashes 2) .initial (Demo.widened 1)).ProofsExact realHashes 2 := by
  rw [Demo.run_widened]
  intro hexact
  have hnone : Demo.threeLeaves.returned = [] := by decide +kernel
  have hbefore : Demo.threeLeaves.ProofsExact realHashes 2 := by
    intro r hr
    rw [hnone] at hr
    cases hr
  have hintact := (Demo.threeLeaves_inv.step_iff _ (.prove 3 1 [0]) hbefore trivial).mpr hexact
  have hanswered : Demo.threeLeaves.Answered 3 1 [0] := by decide +kernel
  have hsame := hintact hanswered 0 List.mem_cons_self ⟨2, 1⟩ (by decide)
  exact absurd hsame (by decide +kernel)

/-- The handle with the wider window, for the tree of two leaves. -/
theorem proofs_exact_widened :
    Demo.threeLeaves.Answered 3 2 [0]
      ∧ ∀ n, (run (Windows.step realHashes 2) .initial
        ((Demo.widened 2).take n)).ProofsExact realHashes 2 := by
  refine ⟨by decide +kernel,
    (proofs_exact_iff realHashes 2 (Demo.widened 2) (Demo.widened_room 2)).mp ?_⟩
  rw [Demo.widened, Along.append]
  refine ⟨⟨trivial, trivial, trivial, trivial⟩, Windows.intact_of_le realHashes 2 ?_, trivial⟩
  show Demo.threeLeaves.pruned ≤ 2
  decide +kernel

end Indexer

end Zerc20
