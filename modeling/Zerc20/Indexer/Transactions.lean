import Zerc20.Indexer.History

/-!
# Concurrent transactions on the tree

Any number of `append_leaf` and `prove_many` transactions, statement by statement, under READ
COMMITTED: a statement reads what is committed when it starts, and the writes of a transaction
appear when it commits. `SELECT … FOR UPDATE` is two steps. It first picks its row, and it goes on
once no other transaction holds the lock of that row; it then returns the row it picked, since
snapshot rows are never modified. Locks are held until the transaction ends. A transaction may be
rolled back at any moment.

`append_leaf` locks the token row first, so appends come one after the other. `prove_many` locks
the newest snapshot row only. If it has to wait for an append, the row it picked is no longer the
newest when it is granted, and the proof mixes two trees (`proofs_not_valid`); otherwise no append
commits while it reads (`proofs_valid`).

`entries` and `returned` are ghosts: the appended entries and the proofs that `prove_many` has
returned.
-/

namespace Zerc20

namespace Indexer

open Machine HashTree

/-- How far an append is. -/
inductive AppendPc where
  | start
  | locked
  | pickedIndex (row : Option SnapshotRow)
  | haveIndex (latestIndex : ℕ)
  | pickedChain (latestIndex : ℕ) (row : Option SnapshotRow)
  | haveChain (latestIndex prevHashChain : ℕ)
  | writing (done todo : List Write)

/-- How far a proof is. -/
inductive ProvePc where
  | start
  | picked (row : Option SnapshotRow)
  | haveIndex (latestIndex : ℕ)
  | haveOverlay (overlay : BitPath → Option Fr)
  | haveRoot (overlay : BitPath → Option Fr) (root : Fr)
  | haveChain (overlay : BitPath → Option Fr) (root : Fr) (hashChain : ℕ)
  | haveNodes (overlay : BitPath → Option Fr) (root : Fr) (hashChain : ℕ)
      (cache : BitPath → Option Fr)

inductive Txn where
  | append (e : Entry) (pc : AppendPc)
  | prove (targetIndex : ℕ) (leafIndices : List ℕ) (pc : ProvePc)

/-- What a `prove_many` call has returned. -/
structure Returned where
  targetIndex : ℕ
  leafIndices : List ℕ
  proofs : List HistoricalProof

structure Store where
  db : TreeDb
  txns : ℕ → Option Txn
  /-- Who holds the lock of the token row. -/
  tokenLock : Option ℕ
  /-- Who holds the lock of a snapshot row. -/
  rowLocks : ℕ → Option ℕ
  entries : List Entry
  returned : List Returned

inductive TxAction where
  | beginAppend (id : ℕ) (e : Entry)
  | beginProve (id targetIndex : ℕ) (leafIndices : List ℕ)
  /-- The next statement, or the lock that the current one waits for. -/
  | advance (id : ℕ)
  | rollback (id : ℕ)

namespace Store

def initial : Store where
  db := TreeDb.initial
  txns _ := none
  tokenLock := none
  rowLocks _ := none
  entries := []
  returned := []

def setTxn (s : Store) (id : ℕ) (t : Txn) : Store :=
  { s with txns := Function.update s.txns id (some t) }

/-- The end of a transaction releases its locks. -/
def finish (s : Store) (id : ℕ) : Store :=
  { s with
    txns := Function.update s.txns id none
    tokenLock := if s.tokenLock = some id then none else s.tokenLock
    rowLocks := fun r => if s.rowLocks r = some id then none else s.rowLocks r }

def canLock (s : Store) (id row : ℕ) : Prop := s.rowLocks row = none ∨ s.rowLocks row = some id

instance (s : Store) (id row : ℕ) : Decidable (s.canLock id row) :=
  inferInstanceAs (Decidable (_ ∨ _))

def lockRow (s : Store) (id row : ℕ) : Store :=
  { s with rowLocks := Function.update s.rowLocks row (some id) }

/-- `SELECT … FOR UPDATE` goes on with the row it picked, or waits. -/
def grant (s : Store) (id : ℕ) (row : Option SnapshotRow) (next : Txn) : Store :=
  match row with
  | none => s.setTxn id next
  | some row =>
    if s.canLock id row.treeIndex then (s.lockRow id row.treeIndex).setTxn id next else s

section

variable (h : Hashes) (cfg : TreeConfig)

def advanceAppend (s : Store) (id : ℕ) (e : Entry) : AppendPc → Store
  | .start =>
    if s.db.tokenExists = false then s.finish id
    else if s.tokenLock = none ∨ s.tokenLock = some id then
      { s with tokenLock := some id }.setTxn id (.append e .locked)
    else s
  | .locked => s.setTxn id (.append e (.pickedIndex s.db.latestSnapshot))
  | .pickedIndex row =>
    s.grant id row (.append e (.haveIndex ((row.map SnapshotRow.treeIndex).getD 0)))
  | .haveIndex latestIndex =>
    s.setTxn id (.append e (.pickedChain latestIndex s.db.latestSnapshot))
  | .pickedChain latestIndex row =>
    s.grant id row
      (.append e (.haveChain latestIndex ((row.map SnapshotRow.hashChain).getD 0)))
  | .haveChain latestIndex prevHashChain =>
    if latestIndex + 1 ≤ i64Max then
      let existing := s.db.loadNodeHashes (fetchPositions cfg latestIndex)
      match planAppend h cfg e latestIndex prevHashChain existing with
      | .error _ => s.finish id
      | .ok (writes, _) => s.setTxn id (.append e (.writing [] writes))
    else s.finish id
  | .writing done (w :: todo) => s.setTxn id (.append e (.writing (done ++ [w]) todo))
  | .writing done [] =>
    -- commit
    { s with db := done.foldl Write.apply s.db, entries := s.entries ++ [e] }.finish id

def advanceProve (s : Store) (id targetIndex : ℕ) (leafIndices : List ℕ) : ProvePc → Store
  | .start => s.setTxn id (.prove targetIndex leafIndices (.picked s.db.latestSnapshot))
  | .picked row =>
    s.grant id row
      (.prove targetIndex leafIndices (.haveIndex ((row.map SnapshotRow.treeIndex).getD 0)))
  | .haveIndex latestIndex =>
    match checkTarget cfg latestIndex targetIndex leafIndices with
    | .error _ => s.finish id
    | .ok () =>
      match s.db.loadOverlay (targetIndex + 1) latestIndex with
      | .error _ => s.finish id
      | .ok overlay => s.setTxn id (.prove targetIndex leafIndices (.haveOverlay overlay))
  | .haveOverlay overlay =>
    match s.db.rootAt targetIndex with
    | .ok (some root) => s.setTxn id (.prove targetIndex leafIndices (.haveRoot overlay root))
    | _ => s.finish id
  | .haveRoot overlay root =>
    match s.db.hashChainAt targetIndex with
    | .ok (some chain) =>
      s.setTxn id (.prove targetIndex leafIndices (.haveChain overlay root chain))
    | _ => s.finish id
  | .haveChain overlay root chain =>
    let cache := s.db.loadNodeHashes (prefetchPaths cfg overlay leafIndices)
    s.setTxn id (.prove targetIndex leafIndices (.haveNodes overlay root chain cache))
  | .haveNodes overlay root chain cache =>
    let proofs := leafIndices.map (assembleProof h cfg overlay cache targetIndex root chain)
    let r : Returned := { targetIndex, leafIndices, proofs }
    { s with returned := s.returned ++ [r] }.finish id

def step (s : Store) : TxAction → Store
  | .beginAppend id e => if s.txns id = none then s.setTxn id (.append e .start) else s
  | .beginProve id targetIndex leafIndices =>
    if leafIndices ≠ [] ∧ targetIndex ≠ 0 ∧ s.txns id = none then
      s.setTxn id (.prove targetIndex leafIndices .start)
    else s
  | .advance id =>
    match s.txns id with
    | none => s
    | some (.append e pc) => s.advanceAppend h cfg id e pc
    | some (.prove targetIndex leafIndices pc) =>
      s.advanceProve h cfg id targetIndex leafIndices pc
  | .rollback id => s.finish id

end

end Store

variable (h : Hashes) (cfg : TreeConfig)

/-- Every returned proof is the path of its leaf in the tree of the first entries. -/
structure ValidProof (es : List Entry) (T : ℕ) (p : HistoricalProof) : Prop where
  target : p.targetIndex = T ∧ T ≤ es.length
  root : p.root = entryRoot h cfg (es.take T)
  siblings : p.siblings
    = path h.poseidon2 (entryLeaves h (es.take T)) 0 p.leafIndex cfg.height
  folds : ∃ e, es[p.leafIndex]? = some e ∧ climb h.poseidon2 (leafHash h e)
    ((Radix.bitsLE cfg.height p.leafIndex).zip p.siblings) = p.root

/-- All proofs returned so far, each for the leaves it was asked for. -/
def ProofsValid (s : Store) : Prop :=
  ∀ r ∈ s.returned, r.proofs.map HistoricalProof.leafIndex = r.leafIndices
    ∧ ∀ p ∈ r.proofs, ValidProof h cfg s.entries r.targetIndex p

def OrderlyTxn (s : Store) (id : ℕ) : Txn → Prop
  | .prove _ _ (.picked (some row)) =>
    s.canLock id row.treeIndex → s.db.latestSnapshot = some row
  | .append _ (.writing _ []) => s.entries.length < 2 ^ cfg.height
  | _ => True

/-- A proof is granted the lock of a row only while the row is the newest, and no append commits
to a full tree. -/
def Orderly (s : Store) : TxAction → Prop
  | .advance id => ∀ t ∈ s.txns id, OrderlyTxn cfg s id t
  | _ => True

/-! ## The invariant -/

/-- The transaction has the newest snapshot row. -/
def HoldsNewest (s : Store) (id : ℕ) : Prop :=
  s.entries.length ≠ 0 → s.rowLocks s.entries.length = some id

/-- The overlay that a proof reads. -/
def overlayAt (es : List Entry) (T : ℕ) : BitPath → Option Fr :=
  UndoLog.overlay UpdateRow.path UpdateRow.oldHash
    (UndoLog.log (updateRows h cfg es) (T + 1) (es.length - T))

/-- A proof past its checks. -/
structure Checked (s : Store) (id T : ℕ) (leafIndices : List ℕ) : Prop where
  pos : 0 < T
  le : T ≤ s.entries.length
  window : s.entries.length - T ≤ cfg.historyWindow
  bound : ∀ i ∈ leafIndices, i < T
  lock : s.rowLocks s.entries.length = some id

def AppendInv (s : Store) (id : ℕ) (e : Entry) : AppendPc → Prop
  | .start => True
  | .locked => s.tokenLock = some id
  | .pickedIndex row => s.tokenLock = some id ∧ row = s.db.latestSnapshot
  | .haveIndex latest =>
    s.tokenLock = some id ∧ latest = s.entries.length ∧ HoldsNewest s id
  | .pickedChain latest row =>
    s.tokenLock = some id ∧ latest = s.entries.length ∧ HoldsNewest s id
      ∧ row = s.db.latestSnapshot
  | .haveChain latest chain =>
    s.tokenLock = some id ∧ latest = s.entries.length ∧ HoldsNewest s id
      ∧ chain = entryChain h s.entries
  | .writing done todo =>
    s.tokenLock = some id ∧ HoldsNewest s id ∧ s.entries.length + 1 ≤ i64Max
      ∧ (s.entries.length < 2 ^ cfg.height → done ++ todo = appendWrites h cfg s.entries e)

def ProveInv (s : Store) (id T : ℕ) (leafIndices : List ℕ) : ProvePc → Prop
  | .start => T ≠ 0
  | .picked _ => T ≠ 0
  | .haveIndex latest => T ≠ 0 ∧ (latest ≠ 0 → latest = s.entries.length
    ∧ s.rowLocks s.entries.length = some id)
  | .haveOverlay overlay =>
    Checked cfg s id T leafIndices ∧ overlay = overlayAt h cfg s.entries T
  | .haveRoot overlay root =>
    Checked cfg s id T leafIndices ∧ overlay = overlayAt h cfg s.entries T
      ∧ root = entryRoot h cfg (s.entries.take T)
  | .haveChain overlay root chain =>
    Checked cfg s id T leafIndices ∧ overlay = overlayAt h cfg s.entries T
      ∧ root = entryRoot h cfg (s.entries.take T) ∧ chain = entryChain h (s.entries.take T)
  | .haveNodes overlay root chain cache =>
    Checked cfg s id T leafIndices ∧ overlay = overlayAt h cfg s.entries T
      ∧ root = entryRoot h cfg (s.entries.take T) ∧ chain = entryChain h (s.entries.take T)
      ∧ cache = s.db.loadNodeHashes (prefetchPaths cfg (overlayAt h cfg s.entries T) leafIndices)

def TxnInv (s : Store) (id : ℕ) : Txn → Prop
  | .append e pc => AppendInv h cfg s id e pc
  | .prove T leafIndices pc => ProveInv h cfg s id T leafIndices pc

structure StoreInv (s : Store) : Prop where
  db : Represents h cfg s.db s.entries
  txns : ∀ id t, s.txns id = some t → TxnInv h cfg s id t
  returned : ProofsValid h cfg s

variable {h cfg} {s : Store}

/-! ## Frames -/

/-- A transaction depends on the tables and on the locks it holds. -/
theorem TxnInv.frame {s' : Store} {id : ℕ} {t : Txn} (ht : TxnInv h cfg s id t)
    (hdb : s'.db = s.db) (hentries : s'.entries = s.entries)
    (htoken : s.tokenLock = some id → s'.tokenLock = some id)
    (hrows : ∀ r, s.rowLocks r = some id → s'.rowLocks r = some id) : TxnInv h cfg s' id t := by
  have hnewest : HoldsNewest s id → HoldsNewest s' id := by
    intro hold hne
    rw [hentries] at hne ⊢
    exact hrows _ (hold hne)
  -- each stage reads only the state and the locks it holds
  cases t with
  | append e pc =>
    cases pc with
    | start => trivial
    | locked => exact htoken ht
    | pickedIndex row => exact ⟨htoken ht.1, by rw [hdb]; exact ht.2⟩
    | haveIndex latest => exact ⟨htoken ht.1, by rw [hentries]; exact ht.2.1, hnewest ht.2.2⟩
    | pickedChain latest row =>
      exact ⟨htoken ht.1, by rw [hentries]; exact ht.2.1, hnewest ht.2.2.1,
        by rw [hdb]; exact ht.2.2.2⟩
    | haveChain latest chain =>
      exact ⟨htoken ht.1, by rw [hentries]; exact ht.2.1, hnewest ht.2.2.1,
        by rw [hentries]; exact ht.2.2.2⟩
    | writing done todo =>
      exact ⟨htoken ht.1, hnewest ht.2.1, by rw [hentries]; exact ht.2.2⟩
  | prove T leafIndices pc =>
    have hchecked : Checked cfg s id T leafIndices → Checked cfg s' id T leafIndices := by
      intro hc
      refine ⟨hc.pos, ?_, ?_, hc.bound, ?_⟩
      · rw [hentries]; exact hc.le
      · rw [hentries]; exact hc.window
      · rw [hentries]; exact hrows _ hc.lock
    cases pc with
    | start => exact ht
    | picked row => exact ht
    | haveIndex latest =>
      refine ⟨ht.1, fun hne => ?_⟩
      rw [hentries]
      exact ⟨(ht.2 hne).1, hrows _ (ht.2 hne).2⟩
    | haveOverlay overlay => exact ⟨hchecked ht.1, by rw [hentries]; exact ht.2⟩
    | haveRoot overlay root => exact ⟨hchecked ht.1, by rw [hentries]; exact ht.2⟩
    | haveChain overlay root chain => exact ⟨hchecked ht.1, by rw [hentries]; exact ht.2⟩
    | haveNodes overlay root chain cache =>
      exact ⟨hchecked ht.1, by rw [hentries, hdb]; exact ht.2⟩

/-- Moving one transaction on, with locks it takes. -/
theorem StoreInv.setTxn {s' : Store} {id : ℕ} {t : Txn} (hs : StoreInv h cfg s)
    (hdb : s'.db = s.db) (hentries : s'.entries = s.entries) (hreturned : s'.returned = s.returned)
    (htxns : s'.txns = Function.update s.txns id (some t))
    (htoken : ∀ id' ≠ id, s.tokenLock = some id' → s'.tokenLock = some id')
    (hrows : ∀ id' ≠ id, ∀ r, s.rowLocks r = some id' → s'.rowLocks r = some id')
    (ht : TxnInv h cfg s' id t) : StoreInv h cfg s' := by
  refine ⟨by rw [hdb, hentries]; exact hs.db, ?_, ?_⟩
  · intro id' t' ht'
    rw [htxns] at ht'
    by_cases heq : id' = id
    · subst heq
      rw [Function.update_self, Option.some.injEq] at ht'
      exact ht' ▸ ht
    · rw [Function.update_of_ne heq] at ht'
      exact (hs.txns id' t' ht').frame hdb hentries (htoken id' heq) (hrows id' heq)
  · intro r hr
    rw [hreturned] at hr
    rw [hentries]
    exact hs.returned r hr

/-- Moving one transaction on, without new locks. -/
theorem StoreInv.advance {id : ℕ} {t : Txn} (hs : StoreInv h cfg s) (ht : TxnInv h cfg s id t) :
    StoreInv h cfg (s.setTxn id t) :=
  hs.setTxn rfl rfl rfl rfl (fun _ _ hlock => hlock) (fun _ _ _ hlock => hlock)
    (ht.frame rfl rfl (fun hlock => hlock) (fun _ hlock => hlock))

/-- The end of one transaction leaves the lock of another. -/
theorem finish_tokenLock {id id' : ℕ} (hne : id' ≠ id) (hlock : s.tokenLock = some id') :
    (s.finish id).tokenLock = some id' := by
  unfold Store.finish
  dsimp only
  rw [if_neg (by rw [hlock]; simpa using hne), hlock]

theorem finish_rowLocks {id id' r : ℕ} (hne : id' ≠ id) (hlock : s.rowLocks r = some id') :
    (s.finish id).rowLocks r = some id' := by
  unfold Store.finish
  dsimp only
  rw [if_neg (by rw [hlock]; simpa using hne), hlock]

/-- A transaction ends, and has changed nothing. -/
theorem StoreInv.finish (hs : StoreInv h cfg s) (id : ℕ) : StoreInv h cfg (s.finish id) := by
  refine ⟨hs.db, ?_, hs.returned⟩
  intro id' t ht
  change Function.update s.txns id none id' = some t at ht
  by_cases heq : id' = id
  · subst heq
    rw [Function.update_self] at ht
    cases ht
  · rw [Function.update_of_ne heq] at ht
    exact (hs.txns id' t ht).frame rfl rfl (finish_tokenLock heq) fun r => finish_rowLocks heq

/-- A `SELECT … FOR UPDATE` waits, or goes on with the lock of its row. -/
theorem StoreInv.grant {id : ℕ} {row : Option SnapshotRow} {t : Txn} (hs : StoreInv h cfg s)
    (hnone : row = none → TxnInv h cfg s id t)
    (hsome : ∀ r, row = some r → s.canLock id r.treeIndex →
      TxnInv h cfg (s.lockRow id r.treeIndex) id t) :
    StoreInv h cfg (s.grant id row t) := by
  cases row with
  | none => exact hs.advance (hnone rfl)
  | some r =>
    unfold Store.grant
    dsimp only
    split
    · rename_i hcan
      refine hs.setTxn rfl rfl rfl rfl (fun _ _ hlock => hlock) ?_
        ((hsome r rfl hcan).frame rfl rfl (fun hlock => hlock) (fun _ hlock => hlock))
      intro id' hne r' hlock
      show Function.update s.rowLocks r.treeIndex (some id) r' = some id'
      by_cases heq : r' = r.treeIndex
      · -- nobody else has the row
        rw [heq] at hlock
        rcases hcan with hfree | hown
        · rw [hfree] at hlock
          cases hlock
        · rw [hown, Option.some.injEq] at hlock
          exact absurd hlock.symm hne
      · rw [Function.update_of_ne heq, hlock]
    · exact hs

/-! ## Steps -/

theorem lockRow_self (id row : ℕ) : (s.lockRow id row).rowLocks row = some id :=
  Function.update_self ..

/-- The row picked by an append is the newest one, and its lock is the newest row's. -/
theorem holdsNewest_lockRow (hdb : Represents h cfg s.db s.entries) {id : ℕ} {r : SnapshotRow}
    (hr : s.db.latestSnapshot = some r) : HoldsNewest (s.lockRow id r.treeIndex) id := by
  intro hne
  have hindex := hdb.latestIndex
  rw [hr, Option.map_some, Option.getD_some] at hindex
  show (s.lockRow id r.treeIndex).rowLocks s.entries.length = some id
  rw [← hindex]
  exact lockRow_self id r.treeIndex

/-- A returned proof stays valid when entries are appended. -/
theorem ValidProof.concat {es : List Entry} {T : ℕ} {p : HistoricalProof} (e : Entry)
    (hp : ValidProof h cfg es T p) : ValidProof h cfg (es ++ [e]) T p := by
  have htake : (es ++ [e]).take T = es.take T := List.take_append_of_le_length hp.target.2
  obtain ⟨x, hx, hfold⟩ := hp.folds
  refine ⟨⟨hp.target.1, ?_⟩, by rw [htake]; exact hp.root, by rw [htake]; exact hp.siblings,
    x, ?_, hfold⟩
  · rw [List.length_append]
    exact hp.target.2.trans (Nat.le_add_right _ _)
  · rw [List.getElem?_append_left (List.getElem?_eq_some_iff.mp hx).1, hx]

/-- **The commit of an append.** It has the token row and the newest snapshot row, so every other
transaction is before its first lock, or is a proof that waits for one. -/
theorem StoreInv.commit (hs : StoreInv h cfg s) {id : ℕ} {e : Entry}
    (htoken : s.tokenLock = some id) (hnewest : HoldsNewest s id)
    (hroom : s.entries.length < 2 ^ cfg.height) (hindex : s.entries.length + 1 ≤ i64Max) :
    StoreInv h cfg ({ s with
      db := (appendWrites h cfg s.entries e).foldl Write.apply s.db
      entries := s.entries ++ [e] }.finish id) := by
  refine ⟨hs.db.appendWrites e hroom hindex, ?_, ?_⟩
  · intro id' t ht
    change Function.update s.txns id none id' = some t at ht
    by_cases heq : id' = id
    · subst heq
      rw [Function.update_self] at ht
      cases ht
    · rw [Function.update_of_ne heq] at ht
      have hinv := hs.txns id' t ht
      -- nobody else has the token row, so no other append is past its start;
      -- nobody else has the newest row, so no proof is between its lock and its return
      have hno : ∀ {p : Prop}, s.tokenLock = some id' → p := by
        intro p hlock
        rw [htoken, Option.some.injEq] at hlock
        exact absurd hlock.symm heq
      have hnorow : ∀ {p : Prop}, s.entries.length ≠ 0 →
          s.rowLocks s.entries.length = some id' → p := by
        intro p hne hlock
        rw [hnewest hne, Option.some.injEq] at hlock
        exact absurd hlock.symm heq
      have hnochecked : ∀ {p : Prop} {T : ℕ} {leafIndices : List ℕ},
          Checked cfg s id' T leafIndices → p := by
        intro p T leafIndices hc
        have hpos := hc.pos
        have hle := hc.le
        exact hnorow (by omega) hc.lock
      cases t with
      | append e' pc =>
        cases pc with
        | start => trivial
        | locked => exact hno hinv
        | pickedIndex row => exact hno hinv.1
        | haveIndex latest => exact hno hinv.1
        | pickedChain latest row => exact hno hinv.1
        | haveChain latest chain => exact hno hinv.1
        | writing done todo => exact hno hinv.1
      | prove T leafIndices pc =>
        cases pc with
        | start => exact hinv
        | picked row => exact hinv
        | haveIndex latest =>
          refine ⟨hinv.1, fun hne => ?_⟩
          obtain ⟨hlatest, hlock⟩ := hinv.2 hne
          exact hnorow (hlatest ▸ hne) hlock
        | haveOverlay overlay => exact hnochecked hinv.1
        | haveRoot overlay root => exact hnochecked hinv.1
        | haveChain overlay root chain => exact hnochecked hinv.1
        | haveNodes overlay root chain cache => exact hnochecked hinv.1
  · intro r hr
    obtain ⟨hleaves, hproofs⟩ := hs.returned r hr
    exact ⟨hleaves, fun p hp => (hproofs p hp).concat e⟩

/-- A statement of an append: the transaction that holds the row is the only one whose writes are
pending. -/
theorem StoreInv.advanceAppend (hs : StoreInv h cfg s) {id : ℕ} {e : Entry} {pc : AppendPc}
    (hcur : s.txns id = some (.append e pc))
    (hroom : ∀ done, pc = .writing done [] → s.entries.length < 2 ^ cfg.height) :
    StoreInv h cfg (s.advanceAppend h cfg id e pc) := by
  have ht := hs.txns id _ hcur
  cases pc with
  | start =>
    simp only [Store.advanceAppend]
    split
    · exact hs.finish id
    · split
      -- the lock was free, so no other transaction loses it
      · rename_i hfree
        refine hs.setTxn rfl rfl rfl rfl ?_ (fun _ _ _ hlock => hlock) rfl
        intro id' hne hlock
        rw [hlock] at hfree
        rcases hfree with hnone | hown
        · cases hnone
        · exact absurd (Option.some.inj hown) hne
      · exact hs
  | locked => exact hs.advance ⟨ht, rfl⟩
  | pickedIndex row =>
    obtain ⟨htoken, hrow⟩ := ht
    have hindex := hs.db.latestIndex
    rw [← hrow] at hindex
    refine hs.grant ?_ ?_
    · rintro rfl
      refine ⟨htoken, hindex, fun hne => absurd ?_ hne⟩
      exact hindex.symm
    · intro r hr _
      exact ⟨htoken, hindex, holdsNewest_lockRow hs.db (hrow ▸ hr)⟩
  | haveIndex latest =>
    obtain ⟨htoken, hlatest, hnewest⟩ := ht
    exact hs.advance ⟨htoken, hlatest, hnewest, rfl⟩
  | pickedChain latest row =>
    obtain ⟨htoken, hlatest, hnewest, hrow⟩ := ht
    have hchain := hs.db.latestHashChain
    rw [← hrow] at hchain
    refine hs.grant ?_ ?_
    · rintro rfl
      exact ⟨htoken, hlatest, hnewest, hchain⟩
    · intro r hr _
      exact ⟨htoken, hlatest, holdsNewest_lockRow hs.db (hrow ▸ hr), hchain⟩
  | haveChain latest chain =>
    obtain ⟨htoken, rfl, hnewest, rfl⟩ := ht
    simp only [Store.advanceAppend]
    split
    · rename_i hindex
      split
      · exact hs.finish id
      -- what was read is the current tree, since both locks are held
      · rename_i writes result hplan
        refine hs.advance ⟨htoken, hnewest, hindex, fun hlt => ?_⟩
        rw [hs.db.planAppend e hlt hindex] at hplan
        cases hplan
        rfl
    · exact hs.finish id
  | writing done todo =>
    obtain ⟨htoken, hnewest, hindex, hwrites⟩ := ht
    cases todo with
    | cons w todo =>
      refine hs.advance ⟨htoken, hnewest, hindex, fun hlt => ?_⟩
      rw [List.append_assoc, List.singleton_append]
      exact hwrites hlt
    | nil =>
      have hlt := hroom done rfl
      have hdone : done = appendWrites h cfg s.entries e := by
        rw [← hwrites hlt, List.append_nil]
      subst hdone
      exact hs.commit htoken hnewest hlt hindex

/-- Reads of a checked proof. -/
theorem Checked.snapshotAt {id T : ℕ} {leafIndices : List ℕ} (hs : StoreInv h cfg s)
    (hc : Checked cfg s id T leafIndices) :
    toI64 "historical root index" T = .ok T ∧ toI64 "historical hash chain index" T = .ok T
      ∧ s.db.snapshotAt T = some (snapshotRow h cfg s.entries T) := by
  have hindex : T ≤ i64Max := hc.le.trans hs.db.index_le
  exact ⟨toI64_of_le _ hindex, toI64_of_le _ hindex, hs.db.snapshotAt hc.pos hc.le⟩

/-- What a checked transaction has read is put together to the proofs of the historical tree. -/
theorem Checked.assembled {id T : ℕ} {leafIndices : List ℕ} (hs : StoreInv h cfg s)
    (hc : Checked cfg s id T leafIndices) :
    leafIndices.map (assembleProof h cfg (overlayAt h cfg s.entries T)
        (s.db.loadNodeHashes (prefetchPaths cfg (overlayAt h cfg s.entries T) leafIndices)) T
        (entryRoot h cfg (s.entries.take T)) (entryChain h (s.entries.take T)))
      = leafIndices.map (proofAt h cfg s.entries T) :=
  List.map_congr_left fun _ hi => hs.db.assembleProof hc.le hi _ _

/-- The proofs that a checked transaction returns. -/
theorem Checked.validProofs {id T : ℕ} {leafIndices : List ℕ} (hs : StoreInv h cfg s)
    (hc : Checked cfg s id T leafIndices) :
    let proofs := leafIndices.map (assembleProof h cfg (overlayAt h cfg s.entries T)
      (s.db.loadNodeHashes (prefetchPaths cfg (overlayAt h cfg s.entries T) leafIndices)) T
      (entryRoot h cfg (s.entries.take T)) (entryChain h (s.entries.take T)))
    proofs.map HistoricalProof.leafIndex = leafIndices
      ∧ ∀ p ∈ proofs, ValidProof h cfg s.entries T p := by
  intro proofs
  rw [show proofs = _ from hc.assembled hs]
  refine ⟨by simp [proofAt, Function.comp_def], ?_⟩
  intro p hp
  obtain ⟨i, hi, rfl⟩ := List.mem_map.mp hp
  exact ⟨⟨rfl, hc.le⟩, rfl, rfl, climb_proofAt (hc.bound i hi) hc.le hs.db.capacity⟩

/-- The last move of a proof returns what `prove_many` as one statement would answer then. -/
theorem StoreInv.returns_proveMany (hs : StoreInv h cfg s) {id T : ℕ} {leafIndices : List ℕ}
    {overlay cache : BitPath → Option Fr} {root : Fr} {chain : ℕ}
    (hcur : s.txns id = some (.prove T leafIndices (.haveNodes overlay root chain cache))) :
    ∃ proofs, proveMany h cfg s.db T leafIndices = .ok proofs
      ∧ (s.step h cfg (.advance id)).returned = s.returned ++ [⟨T, leafIndices, proofs⟩] := by
  obtain ⟨hc, rfl, rfl, rfl, rfl⟩ := hs.txns id _ hcur
  refine ⟨leafIndices.map (proofAt h cfg s.entries T), ?_, ?_⟩
  · by_cases hempty : leafIndices = []
    · subst hempty
      rfl
    · exact hs.db.proveMany_ok hempty hc.pos hc.le hc.window hc.bound
  · rw [← hc.assembled hs, Store.step, hcur]
    rfl

/-- A statement of a proof: what it reads after its lock is what was committed. -/
theorem StoreInv.advanceProve (hs : StoreInv h cfg s) {id T : ℕ} {leafIndices : List ℕ}
    {pc : ProvePc} (hcur : s.txns id = some (.prove T leafIndices pc))
    (hfresh : ∀ row, pc = .picked (some row) → s.canLock id row.treeIndex →
      s.db.latestSnapshot = some row) :
    StoreInv h cfg (s.advanceProve h cfg id T leafIndices pc) := by
  have ht := hs.txns id _ hcur
  cases pc with
  | start => exact hs.advance ht
  | picked row =>
    refine hs.grant ?_ ?_
    · rintro rfl
      exact ⟨ht, fun hne => absurd rfl hne⟩
    · -- the row is still the newest one
      intro r hr hcan
      subst hr
      have hnewest := hfresh r rfl hcan
      have hindex := hs.db.latestIndex
      rw [hnewest, Option.map_some, Option.getD_some] at hindex
      refine ⟨ht, fun hne => ⟨hindex, ?_⟩⟩
      exact holdsNewest_lockRow hs.db hnewest (hindex ▸ hne)
  | haveIndex latest =>
    obtain ⟨hpos, hlatest⟩ := ht
    simp only [Store.advanceProve]
    split
    · exact hs.finish id
    · rename_i hcheck
      obtain ⟨hne, hle, hwindow, hbound⟩ := checkTarget_eq_ok.mp hcheck
      obtain ⟨rfl, hlock⟩ := hlatest hne
      rw [hs.db.loadOverlay hle hwindow]
      exact hs.advance ⟨⟨Nat.pos_of_ne_zero hpos, hle, hwindow, hbound, hlock⟩, rfl⟩
  | haveOverlay overlay =>
    obtain ⟨hc, hoverlay⟩ := ht
    obtain ⟨hi64, -, hrow⟩ := hc.snapshotAt hs
    have hroot : s.db.rootAt T = .ok (some (entryRoot h cfg (s.entries.take T))) := by
      rw [TreeDb.rootAt, hi64]
      show Except.ok ((s.db.snapshotAt T).map _) = _
      rw [hrow]
      rfl
    simp only [Store.advanceProve, hroot]
    exact hs.advance ⟨hc, hoverlay, rfl⟩
  | haveRoot overlay root =>
    obtain ⟨hc, hoverlay, hroot⟩ := ht
    obtain ⟨-, hi64, hrow⟩ := hc.snapshotAt hs
    have hchain : s.db.hashChainAt T = .ok (some (entryChain h (s.entries.take T))) := by
      rw [TreeDb.hashChainAt, hi64]
      show Except.ok ((s.db.snapshotAt T).map _) = _
      rw [hrow]
      rfl
    simp only [Store.advanceProve, hchain]
    exact hs.advance ⟨hc, hoverlay, hroot, rfl⟩
  | haveChain overlay root chain =>
    obtain ⟨hc, hoverlay, hroot, hchain⟩ := ht
    refine hs.advance ⟨hc, hoverlay, hroot, hchain, ?_⟩
    rw [hoverlay]
  | haveNodes overlay root chain cache =>
    obtain ⟨hc, rfl, rfl, rfl, rfl⟩ := ht
    have hvalid := hc.validProofs hs
    have hfinish := hs.finish id
    refine ⟨hfinish.db, fun id' t ht => (hfinish.txns id' t ht).frame rfl rfl
      (fun hlock => hlock) (fun _ hlock => hlock), ?_⟩
    intro r hr
    change r ∈ s.returned ++ [_] at hr
    rw [List.mem_append, List.mem_singleton] at hr
    rcases hr with hr | rfl
    · exact hs.returned r hr
    · exact hvalid

/-- So every statement of any transaction keeps the store's invariant. -/
theorem StoreInv.step (s : Store) (a : TxAction) (hs : StoreInv h cfg s)
    (ha : Orderly cfg s a) : StoreInv h cfg (s.step h cfg a) := by
  cases a with
  | beginAppend id e =>
    simp only [Store.step]
    split
    · exact hs.advance trivial
    · exact hs
  -- a statement of no transaction is not executed
  | beginProve id T leafIndices =>
    simp only [Store.step]
    split
    · rename_i hnew
      exact hs.advance hnew.2.1
    · exact hs
  | advance id =>
    simp only [Store.step]
    split
    · exact hs
    · rename_i e pc hcur
      refine hs.advanceAppend hcur ?_
      rintro done rfl
      exact ha _ hcur
    · rename_i T leafIndices pc hcur
      refine hs.advanceProve hcur ?_
      rintro row rfl
      exact ha _ hcur
  | rollback id => exact hs.finish id

theorem initial_storeInv : StoreInv h cfg Store.initial :=
  ⟨initial_represents, nofun, nofun⟩

variable (h cfg)

/-- **Proofs stay valid under concurrency**, in every run in which the row that a proof picked is
still the newest when it is locked, and the tree is not overfull. -/
theorem proofs_valid (acts : List TxAction)
    (hacts : Along (Store.step h cfg) (Orderly cfg) Store.initial acts) :
    ProofsValid h cfg (run (Store.step h cfg) Store.initial acts) :=
  (run_induction_along initial_storeInv StoreInv.step hacts).returned

/-- **A proof in one statement**: in such a run the statements of a proof, whatever lies between
them, return what `prove_many` answers at the moment of the last. So a reader of the tree, such as
the root job, may take a proof for one read. -/
theorem proof_in_one_statement (acts : List TxAction)
    (hacts : Along (Store.step h cfg) (Orderly cfg) Store.initial acts) {id T : ℕ}
    {leafIndices : List ℕ} {overlay cache : BitPath → Option Fr} {root : Fr} {chain : ℕ}
    (hcur : (run (Store.step h cfg) Store.initial acts).txns id
      = some (.prove T leafIndices (.haveNodes overlay root chain cache))) :
    ∃ proofs,
      proveMany h cfg (run (Store.step h cfg) Store.initial acts).db T leafIndices = .ok proofs
      ∧ (run (Store.step h cfg) Store.initial (acts ++ [.advance id])).returned
        = (run (Store.step h cfg) Store.initial acts).returned ++ [⟨T, leafIndices, proofs⟩] := by
  rw [run_concat]
  exact (run_induction_along initial_storeInv StoreInv.step hacts).returns_proveMany hcur

instance (s : Store) (id : ℕ) : (t : Txn) → Decidable (OrderlyTxn cfg s id t)
  | .prove _ _ (.picked (some _)) => inferInstanceAs (Decidable (_ → _))
  | .prove _ _ (.picked none) | .prove _ _ .start | .prove _ _ (.haveIndex _)
  | .prove _ _ (.haveOverlay _) | .prove _ _ (.haveRoot _ _) | .prove _ _ (.haveChain _ _ _)
  | .prove _ _ (.haveNodes _ _ _ _) => inferInstanceAs (Decidable True)
  | .append _ (.writing _ []) => inferInstanceAs (Decidable (_ < _))
  | .append _ (.writing _ (_ :: _)) | .append _ .start | .append _ .locked
  | .append _ (.pickedIndex _) | .append _ (.haveIndex _) | .append _ (.pickedChain _ _)
  | .append _ (.haveChain _ _) => inferInstanceAs (Decidable True)

instance (s : Store) : (a : TxAction) → Decidable (Orderly cfg s a)
  | .advance id => inferInstanceAs (Decidable (∀ t ∈ s.txns id, OrderlyTxn cfg s id t))
  | .beginAppend _ _ | .beginProve _ _ _ | .rollback _ => inferInstanceAs (Decidable True)

namespace Demo

/-- A tree of two leaves. -/
def config : TreeConfig := ⟨1, 1, Nat.one_pos, Nat.one_pos⟩

/-- An append from its first statement to its commit. -/
def append (id : ℕ) (e : Entry) : List TxAction :=
  .beginAppend id e :: List.replicate 11 (.advance id)

/-- A proof from its first statement to its commit. -/
def prove (id targetIndex : ℕ) (leafIndices : List ℕ) : List TxAction :=
  .beginProve id targetIndex leafIndices :: List.replicate 7 (.advance id)

/-- A proof picks its row while an append has the row's lock, and goes on after the append. -/
def overtaken : List TxAction :=
  append 0 ⟨1, 10⟩
    ++ .beginAppend 1 ⟨2, 20⟩ :: List.replicate 3 (.advance 1)
    ++ .beginProve 2 1 [0] :: List.replicate 2 (.advance 2)
    ++ List.replicate 8 (.advance 1)
    ++ List.replicate 6 (.advance 2)

end Demo

/-- A proof between two appends. -/
theorem proofs_valid_between :
    ((run (Store.step realHashes Demo.config) Store.initial
      (Demo.append 0 ⟨1, 10⟩ ++ Demo.prove 1 1 [0] ++ Demo.append 2 ⟨2, 20⟩)).returned.map
        fun r => r.proofs.length) = [1]
      ∧ ProofsValid realHashes Demo.config (run (Store.step realHashes Demo.config) Store.initial
        (Demo.append 0 ⟨1, 10⟩ ++ Demo.prove 1 1 [0] ++ Demo.append 2 ⟨2, 20⟩)) :=
  ⟨by decide +kernel, proofs_valid _ _ _ (by decide +kernel)⟩

/-- The sibling of the proof is the leaf that was appended meanwhile. -/
theorem proofs_not_valid :
    ¬ ProofsValid realHashes Demo.config
      (run (Store.step realHashes Demo.config) Store.initial Demo.overtaken) := by
  intro hvalid
  have hwrong : ∃ r ∈ (run (Store.step realHashes Demo.config) Store.initial
      Demo.overtaken).returned, ∃ p ∈ r.proofs, p.siblings
        ≠ path realHashes.poseidon2 (entryLeaves realHashes
          ((run (Store.step realHashes Demo.config) Store.initial Demo.overtaken).entries.take
            r.targetIndex)) 0 p.leafIndex Demo.config.height := by
    decide +kernel
  obtain ⟨r, hr, p, hp, hne⟩ := hwrong
  exact hne ((hvalid r hr).2 p hp).siblings

end Indexer

end Zerc20
