import Zerc20.Indexer.Reorg

/-!
# Reorganisations and the tree

What a reorganisation no deeper than the overlap does to the tree. A leaf is made of a row once, and
there is no way back: when the chain has another event at its index later, the sync overwrites the
row, but the leaf and the hash chains from there on stay (`reorg_disagreement`). A row that the new
chain has no event for is not deleted either, and a leaf is made of it.

`reorg_agreement` says when rows, tree and chain agree after a sync: as long as every leaf is made,
in order, of the event that the chain has at that moment, and no reorganisation changes an event
below the tree.
-/

namespace Zerc20

namespace Indexer

open Statements Prog Machine

/-! ## The hash chains of the tree -/

section

variable {h : Hashes} {cfg : JobConfig} {s s' : Ingestion}

def entries (s : Ingestion) : List Entry := s.appended.map EventRow.entry

/-- The snapshots have the hash chains of the appended events. -/
structure Chained (h : Hashes) (s : Ingestion) : Prop where
  latest : (s.db.latestSnapshot.map SnapshotRow.hashChain).getD 0 = entryChain h (entries s)
  below : ∀ row ∈ s.db.snapshots, row.treeIndex ≤ s.appended.length
  chain : ∀ t, 0 < t → t ≤ s.appended.length →
    (s.db.snapshotAt t).map SnapshotRow.hashChain = some (entryChain h ((entries s).take t))

/-- The snapshot that an append adds. -/
theorem appendLeaf_snapshots {cfg : TreeConfig} {db db' : TreeDb} {e : Entry}
    {result : AppendResult} (happend : appendLeaf h cfg db e = .ok (db', result)) :
    ∃ row : SnapshotRow, db'.snapshots = db.snapshots ++ [row]
      ∧ row.treeIndex = latestTreeIndex db + 1
      ∧ row.hashChain = hashChain h ((db.latestSnapshot.map SnapshotRow.hashChain).getD 0)
        e.address.val e.value.val := by
  unfold appendLeaf at happend
  obtain ⟨_, _, happend⟩ := bind_eq_ok.mp happend
  obtain ⟨_, _, happend⟩ := bind_eq_ok.mp happend
  obtain ⟨⟨writes, planned⟩, hplan, happend⟩ := bind_eq_ok.mp happend
  unfold planAppend at hplan
  obtain ⟨gcThreshold, _, hplan⟩ := bind_eq_ok.mp hplan
  obtain ⟨rfl, rfl⟩ := Prod.mk.inj (Except.ok.inj hplan)
  obtain ⟨rfl, rfl⟩ := Prod.mk.inj (Except.ok.inj happend)
  rw [foldl_writesOf]
  exact ⟨_, rfl, rfl, hashChainHost_eq h _ _ _⟩

/-- An append of an event. -/
structure LeafMade (h : Hashes) (cfg : JobConfig) (s : Ingestion) (event : EventRow)
    (s' : Ingestion) : Prop where
  tree : Appends h cfg s event s'
  leaf : ∃ result, appendLeaf h cfg.tree s.db event.entry = .ok (s'.db, result)

/-- An append writes the leaf of the event that was fetched. -/
theorem ingestEvent_leafMade {w processed target : ℕ} {event : EventRow} {rest : List EventRow}
    (happend : Appends h cfg s event (s.ingestEvent h cfg w processed target event rest)) :
    LeafMade h cfg s event (s.ingestEvent h cfg w processed target event rest) := by
  refine ⟨happend, ?_⟩
  -- otherwise nothing is appended
  have hlength := congrArg List.length happend.appended
  rw [List.length_append] at hlength
  unfold Ingestion.ingestEvent at hlength ⊢
  split at hlength
  · exact absurd hlength (by simp [Ingestion.setPc, Ingestion.setWorker])
  · split at hlength
    · exact absurd hlength (by simp [Ingestion.setPc, Ingestion.setWorker])
    · rename_i hge hne
      rw [if_neg hge, if_neg hne]
      cases happend : appendLeaf h cfg.tree s.db event.entry with
      | error e =>
        rw [happend] at hlength
        exact absurd hlength (by simp [Ingestion.setPc, Ingestion.setWorker])
      | ok result => exact ⟨result.2, rfl⟩

/-- The hash chain of the snapshot goes on from the one before. -/
theorem LeafMade.chained {event : EventRow} (hleaf : LeafMade h cfg s event s')
    (hlength : s.appended.length = latestTreeIndex s.db) (hs : Chained h s) : Chained h s' := by
  obtain ⟨result, happend⟩ := hleaf.leaf
  obtain ⟨row, hsnapshots, hindex, hchain⟩ := appendLeaf_snapshots happend
  have hentries : entries s' = entries s ++ [event.entry] := by
    rw [entries, hleaf.tree.appended, List.map_append]
    rfl
  have hlen : s'.appended.length = s.appended.length + 1 := by
    rw [hleaf.tree.appended, List.length_append, List.length_singleton]
  have hentriesLen : (entries s).length = s.appended.length := List.length_map _
  have hnew : row.hashChain = entryChain h (entries s') := by
    rw [hchain, hs.latest, hentries, entryChain_concat]
  have hlt : ∀ old ∈ s.db.snapshots, old.treeIndex < row.treeIndex := by
    intro old hold
    have hle := hs.below old hold
    omega
  refine ⟨?_, fun old hold => ?_, fun t hpos hle => ?_⟩
  · rw [TreeDb.latestSnapshot, hsnapshots, List.argmax_concat]
    cases hmax : s.db.snapshots.argmax SnapshotRow.treeIndex with
    | none => exact hnew
    | some newest =>
      simp only [if_pos (hlt newest (List.argmax_mem hmax))]
      exact hnew
  · rw [hsnapshots, List.mem_append, List.mem_singleton] at hold
    rcases hold with hold | rfl
    · have hbelow := hs.below old hold
      omega
    · omega
  · rw [TreeDb.snapshotAt, hsnapshots, List.find?_append]
    -- the new snapshot, or one of those before it
    by_cases hlast : t = s.appended.length + 1
    · have hnone : s.db.snapshots.find? (fun row => row.treeIndex = t) = none := by
        rw [List.find?_eq_none]
        intro old hold
        have hbelow := hs.below old hold
        simp
        omega
      have hrow : row.treeIndex = t := by omega
      rw [hnone, List.take_of_length_le (by rw [hentries, List.length_append]; simp; omega)]
      simp [hrow, hnew]
    · have hold := hs.chain t hpos (by omega)
      rw [TreeDb.snapshotAt] at hold
      obtain ⟨found, hfound, hvalue⟩ := Option.map_eq_some_iff.mp hold
      rw [hfound, hentries, List.take_append_of_le_length (by omega)]
      exact congrArg some hvalue

/-- Where the tree stays the same, so does its hash chain. -/
theorem SameTree.chained (hsame : SameTree s s') (hs : Chained h s) : Chained h s' := by
  obtain ⟨hlatest, hbelow, hchain⟩ := hs
  unfold entries TreeDb.latestSnapshot at hlatest
  unfold entries TreeDb.snapshotAt at hchain
  rw [← hsame.snapshots, ← hsame.appended] at hlatest hbelow hchain
  exact ⟨hlatest, hbelow, hchain⟩

end

namespace EventIndexer

/-! ## The condition on the steps -/

def treeSize (w : ReorgWorld) : ℕ := latestTreeIndex w.rest.ingestion.db

/-- The recipient and value of the event with index `k` on the chain. -/
def chainEntry (c : ChainState) (k : ℕ) : Option Entry :=
  (c.log.events[k]?).map IndexedEvent.entry

/-- The recipient and value of the current row with index `k`. -/
def rowEntry (w : ReorgWorld) (k : ℕ) : Option Entry :=
  (rowAt w.db.events k).map IndexedEvent.entry

/-- If the worker appends an event now, then one with `P`. -/
def AppendPc (w : ReorgWorld) (P : EventRow → Prop) : WorkerPc → Prop
  | .batch processed _ (event :: _) => event.eventIndex = processed →
    w.rest.ingestion.db.tokenExists = true → treeSize w < i64Max → P event
  | _ => True

def Appending (w : ReorgWorld) (P : EventRow → Prop) : IngestAction → Prop
  | .advance k => AppendPc w P (w.rest.ingestion.workers k).pc
  | _ => True

/-- The event is the next one, and it is the event of the chain. -/
def OfChain (w : ReorgWorld) (event : EventRow) : Prop :=
  treeSize w = event.eventIndex
    ∧ chainEntry w.rest.chain event.eventIndex = some event.entry

/-- Every leaf is made of the event of the chain, and no reorganisation changes an event that a leaf
was made of. -/
def Consistent (ix : EventIndexer) (w : ReorgWorld) : OtherAction → Prop
  | .ingest a => Appending w (OfChain w) a
  | .chain c fork => w.rest.chain.Reorganised ix fork c
    ∧ ∀ k, k < treeSize w → chainEntry c k = chainEntry w.rest.chain k

/-- The chain grows only. -/
def Grows (ix : EventIndexer) (w : ReorgWorld) : OtherAction → Prop
  | .ingest _ => True
  | .chain c fork => w.rest.chain.Reorganised ix fork c ∧ w.rest.chain.latestBlock ≤ fork

/-- The chain grows only, and every leaf is made of the event of the chain as the row has it. -/
def Growing (ix : EventIndexer) (w : ReorgWorld) : OtherAction → Prop
  | .ingest a => Appending w
    (fun event => OfChain w event ∧ rowEntry w event.eventIndex = some event.entry) a
  | .chain c fork => Grows ix w (.chain c fork)

section

variable {h : Hashes} {cfg : JobConfig} {ix : EventIndexer} {w w' : ReorgWorld}

/-- A consistent step is a possible one. -/
theorem Consistent.possible {a : OtherAction} (ha : Consistent ix w a) : Possible ix w a := by
  cases a with
  | ingest a => trivial
  | chain c fork => exact ha.1

/-- A stronger condition admits fewer moves. -/
theorem Others.mono {C D : ReorgWorld → OtherAction → Prop} (hCD : ∀ w a, C w a → D w a)
    (hmoves : Others h cfg C w w') : Others h cfg D w w' := by
  refine Relation.ReflTransGen.mono (fun v v' hstep => ?_) w w' hmoves
  obtain ⟨a, ha, heq⟩ := hstep
  exact ⟨a, hCD v a ha, heq⟩

variable (h cfg) in
/-- **What a step of the ingestion does to the tree.** -/
theorem stepIngestion_cases {P : EventRow → Prop} {a : IngestAction} (ha : Appending w P a) :
    stepIngestion h cfg w a = w
      ∨ SameTree (ingestionOf w) (stepIngestion h cfg w a).rest.ingestion
      ∨ ∃ event, LeafMade h cfg (ingestionOf w) event (stepIngestion h cfg w a).rest.ingestion
        ∧ P event := by
  have hsame : (∀ rows, a ≠ .insertEvents rows) →
      (∀ k, a = .advance k → ¬ AtEvent ((ingestionOf w).workers k).pc) →
      SameTree (ingestionOf w) ((ingestionOf w).step h cfg a) :=
    step_sameTree h cfg (ingestionOf w) a
  cases a with
  | ensureStateRow initialBlock => exact Or.inl rfl
  | insertEvents rows => exact Or.inl rfl
  | advanceContiguousIndex => exact Or.inl rfl
  | advance k =>
    -- only a worker that stands before an event can append
    by_cases hevent : AtEvent ((ingestionOf w).workers k).pc
    · refine Or.inr ?_
      change AppendPc w P ((ingestionOf w).workers k).pc at ha
      show SameTree (ingestionOf w)
          ((ingestionOf w).advanceWorker h cfg k ((ingestionOf w).workers k).pc)
        ∨ ∃ event, LeafMade h cfg (ingestionOf w) event
          ((ingestionOf w).advanceWorker h cfg k ((ingestionOf w).workers k).pc) ∧ P event
      match ((ingestionOf w).workers k).pc, hevent, ha with
      | .batch processed target (event :: rest), _, ha =>
        rcases ingestEvent_cases h cfg (ingestionOf w) k processed target event rest with
          ⟨hindex, happend⟩ | ⟨-, hsame⟩
        · exact Or.inr ⟨event, ingestEvent_leafMade happend,
            ha hindex happend.token happend.index⟩
        · exact Or.inl hsame
    · refine Or.inr (Or.inl (hsame (fun _ => nofun) ?_))
      rintro k' ⟨⟩
      exact hevent
  | _ => exact Or.inr (Or.inl (hsame (fun _ => nofun) fun _ => nofun))

/-! ## The tree is that of the chain -/

/-- The tree is made of the events of the chain. -/
structure TreeInv (h : Hashes) (cfg : JobConfig) (w : ReorgWorld) : Prop where
  appended : AppendedInv h cfg w.rest.ingestion
  chained : Chained h w.rest.ingestion
  current : ∀ k, k < treeSize w → (entries w.rest.ingestion)[k]? = chainEntry w.rest.chain k

theorem TreeInv.length_entries (hw : TreeInv h cfg w) :
    (entries w.rest.ingestion).length = treeSize w := by
  rw [entries, List.length_map]
  exact hw.appended.length

/-- The chain has an event for every leaf. -/
theorem TreeInv.exists_event (hw : TreeInv h cfg w) {k : ℕ} (hk : k < treeSize w) :
    ∃ e ∈ w.rest.chain.log.events, e.eventIndex = k
      ∧ chainEntry w.rest.chain k = some e.entry := by
  have hcurrent := hw.current k hk
  rw [List.getElem?_eq_getElem (by rw [hw.length_entries]; exact hk)] at hcurrent
  obtain ⟨e, he, hentry⟩ := Option.map_eq_some_iff.mp hcurrent.symm
  refine ⟨e, List.mem_of_getElem? he, TransferLog.eventIndex_of_getElem? he, ?_⟩
  rw [chainEntry, he]
  rfl

theorem treeSize_of_sameTree
    (hsame : SameTree (ingestionOf w) w'.rest.ingestion) : treeSize w' = treeSize w := hsame.latest

/-- Appending events of the chain keeps the tree one of the chain's events. -/
theorem TreeInv.ingest {a : IngestAction} (ha : Appending w (OfChain w) a)
    (hw : TreeInv h cfg w) : TreeInv h cfg (stepIngestion h cfg w a) := by
  have happended : AppendedInv h cfg (ingestionOf w) := ⟨hw.appended.length, hw.appended.leaf⟩
  have hchained : Chained h (ingestionOf w) :=
    ⟨hw.chained.latest, hw.chained.below, hw.chained.chain⟩
  have hcurrent := hw.current
  have hlength := hw.length_entries
  have hchain := stepIngestion_chain h cfg w a
  rcases stepIngestion_cases h cfg ha with hsame | hsame | ⟨event, hleaf, hnext, hevent⟩
  · rw [hsame]
    exact hw
  · refine ⟨hsame.appendedInv happended, hsame.chained hchained, fun k hk => ?_⟩
    rw [treeSize_of_sameTree hsame] at hk
    have hentries : entries (stepIngestion h cfg w a).rest.ingestion
        = entries w.rest.ingestion := congrArg (List.map EventRow.entry) hsame.appended
    rw [hentries, hchain]
    exact hcurrent k hk
  · refine ⟨hleaf.tree.appendedInv happended, hleaf.chained happended.length hchained,
      fun k hk => ?_⟩
    have hentries : entries (stepIngestion h cfg w a).rest.ingestion
        = entries w.rest.ingestion ++ [event.entry] := by
      rw [entries, hleaf.tree.appended, List.map_append]
      rfl
    have hsize : treeSize (stepIngestion h cfg w a) = treeSize w + 1 := hleaf.tree.tree.latest
    rw [hentries, hchain]
    -- the leaves below are as before, the new one is the chain's event
    by_cases hold : k < treeSize w
    · rw [List.getElem?_append_left (by omega)]
      exact hcurrent k hold
    · obtain rfl : k = event.eventIndex := by omega
      rw [hevent, ← hnext, ← hlength, List.getElem?_concat_length]

/-- So do the steps of the chain, as long as no block under the tree is replaced. -/
theorem TreeInv.otherStep (w : ReorgWorld) (a : OtherAction) (ha : Consistent ix w a)
    (hw : TreeInv h cfg w) : TreeInv h cfg (otherStep h cfg w a) := by
  cases a with
  | ingest a => exact hw.ingest ha
  | chain c fork =>
    exact ⟨hw.appended, hw.chained, fun k hk => (hw.current k hk).trans (ha.2 k hk).symm⟩

/-- The sync does not write to the tree. -/
theorem tableInv_treeInv :
    TableInv (Others h cfg (Consistent ix)) (TreeInv h cfg) where
  move _ _ hw hR := hR.keep TreeInv.otherStep hw
  insert _ _ hw := ⟨hw.appended, hw.chained, hw.current⟩
  newRow _ _ hw := ⟨hw.appended, hw.chained, hw.current⟩
  touch _ _ _ hw := ⟨hw.appended, hw.chained, hw.current⟩
  advance _ hw := ⟨hw.appended, hw.chained, hw.current⟩

/-! ## A chain that grows -/

/-- A chain that grows, or forks above the latest block that was read, extends its log. -/
theorem Grows.extends {c : ChainState} {fork : ℕ} (hok : w.rest.chain.Ok ix)
    (ha : Grows ix w (.chain c fork)) :
    TransferLog.Extends w.rest.chain.latestBlock w.rest.chain.log c.log
      ∧ w.rest.chain.latestBlock ≤ c.latestBlock := by
  obtain ⟨hc, hfork⟩ := ha
  refine ⟨.of_kept (fun e he => ?_) fun e he hle => ?_, hfork.trans hc.latest⟩
  · exact (hc.kept e ((hok.latest e he).trans hfork)).mp he
  · exact (hc.kept e (hle.trans hfork)).mpr he

/-- The rows of the leaves whose events meet `P` are as the chain has them. -/
def RowsAgree (P : IndexedEvent → Prop) (w : ReorgWorld) : Prop :=
  ∀ e ∈ w.rest.chain.log.events, P e → e.eventIndex < treeSize w →
    rowEntry w e.eventIndex = some e.entry

/-- A sync that started with the latest block `tip`, or is over. -/
structure Settled (h : Hashes) (cfg : JobConfig) (ix : EventIndexer) (start tip : ℕ)
    (P : IndexedEvent → Prop) (w : ReorgWorld) : Prop where
  provider : w.provider = .ofLog w.rest.chain.log w.rest.chain.latestBlock
  ok : w.rest.chain.Ok ix
  start : start ≤ w.rest.chain.safe ix
  tip : tip ≤ w.rest.chain.latestBlock
  tree : TreeInv h cfg w
  rows : RowsAgree P w

variable {start tip : ℕ} {P : IndexedEvent → Prop}

/-- Growth replaces no event of the tree. -/
theorem Growing.consistent {a : OtherAction} (hw : TreeInv h cfg w) (hok : w.rest.chain.Ok ix)
    (ha : Growing ix w a) : Consistent ix w a := by
  cases a with
  | ingest a =>
    cases a with
    | advance k =>
      change AppendPc w _ (w.rest.ingestion.workers k).pc at ha
      show AppendPc w (OfChain w) (w.rest.ingestion.workers k).pc
      match (w.rest.ingestion.workers k).pc, ha with
      | .batch _ _ (_ :: _), ha => exact fun hindex htoken hsize => (ha hindex htoken hsize).1
      | .batch _ _ [], _ | .tryAcquire, _ | .locateToken, _ | .latestIndex, _
      | .contiguousIndex _, _ | .fetch _ _, _ | .release, _ | .dead, _ => trivial
    | _ => trivial
  | chain c fork =>
    refine ⟨ha.1, fun k hk => ?_⟩
    obtain ⟨e, he, rfl, hentry⟩ := hw.exists_event hk
    have hmem := (Grows.extends hok ha).1.mem he
    rw [hentry, chainEntry, TransferLog.getElem?_of_mem hmem]
    rfl

/-- Ingestion of rows that agree leaves the agreement. -/
theorem RowsAgree.ingest {a : IngestAction}
    (ha : Appending w (fun event => OfChain w event
      ∧ rowEntry w event.eventIndex = some event.entry) a)
    (hw : RowsAgree P w) : RowsAgree P (stepIngestion h cfg w a) := by
  intro e he hP hlt
  rw [stepIngestion_chain] at he
  rw [rowEntry, stepIngestion_db]
  rcases stepIngestion_cases h cfg ha with hsame | hsame | ⟨event, hleaf, ⟨hnext, hevent⟩, hrow⟩
  · rw [hsame] at hlt
    exact hw e he hP hlt
  · rw [treeSize_of_sameTree hsame] at hlt
    exact hw e he hP hlt
  · have hsize : treeSize (stepIngestion h cfg w a) = treeSize w + 1 := hleaf.tree.tree.latest
    by_cases hold : e.eventIndex < treeSize w
    · exact hw e he hP hold
    · -- the new leaf
      have hindex : e.eventIndex = event.eventIndex := by omega
      rw [chainEntry, ← hindex, TransferLog.getElem?_of_mem he] at hevent
      have hentry : e.entry = event.entry := Option.some.inj hevent
      rw [← hindex, ← hentry] at hrow
      exact hrow

/-- Once the blocks up to `tip` are scanned, growth of the chain and ingestion keep the tree on the
chain. -/
theorem Settled.otherStep (w : ReorgWorld) (a : OtherAction) (ha : Growing ix w a)
    (hw : Settled h cfg ix start tip P w) :
    Settled h cfg ix start tip P (otherStep h cfg w a) := by
  have htree := hw.tree.otherStep w a (ha.consistent hw.tree hw.ok)
  cases a with
  | ingest a =>
    obtain ⟨hprovider, hok, hstart, htip, -, hrows⟩ := hw
    rw [← stepIngestion_chain h cfg w a] at hprovider hok hstart htip
    rw [← stepIngestion_provider h cfg w a] at hprovider
    exact ⟨hprovider, hok, hstart, htip, htree, hrows.ingest ha⟩
  | chain c fork =>
    obtain ⟨hlog, hlatest⟩ := Grows.extends hw.ok ha
    refine ⟨rfl, ha.1.ok, hw.start.trans ha.1.safe_le, hw.tip.trans hlatest, htree,
      fun e he hP hlt => ?_⟩
    obtain ⟨e', he', hindex, -⟩ := hw.tree.exists_event hlt
    obtain rfl := TransferLog.eq_of_eventIndex (hlog.mem he') he hindex
    exact hw.rows e' he' hP hlt

theorem Settled.move (w w' : ReorgWorld) (hw : Settled h cfg ix start tip P w)
    (hmoves : Others h cfg (Growing ix) w w') : Settled h cfg ix start tip P w' :=
  hmoves.keep Settled.otherStep hw

/-! ## The sync after the last reorganisation -/

/-- The events since the sync started. -/
def Since (tip : ℕ) (e : IndexedEvent) : Prop := tip < e.ethBlockNumber

/-- A sync while the chain grows, for as long as it takes. -/
def growingSetting (h : Hashes) (cfg : JobConfig) (ix : EventIndexer) (start tip rounds : ℕ) :
    Setting ReorgRest where
  logOf _ rest := rest.chain.log
  start := start
  rounds := rounds
  G := False
  X := Settled h cfg ix start tip (Since tip)

/-- A growing chain is a setting for the sync: what it serves stays in its log. -/
theorem growingSetting_lawful (rounds : ℕ) :
    (growingSetting h cfg ix start tip rounds).Lawful ix where
  honest w hw := by
    have hprovider := hw.provider
    unfold Provider.Honest
    rw [hprovider]
    exact Provider.ofLog_serves _ (le_refl _)
  deployed w hw := hw.ok.deployed
  fits hG := hG.elim
  config hG := hG.elim
  insert w batch hw hbatch := by
    refine ⟨hw.provider, hw.ok, hw.start, hw.tip,
      ⟨hw.tree.appended, hw.tree.chained, hw.tree.current⟩, fun e he hP hlt => ?_⟩
    show (rowAt (batch.foldl upsertRow w.db.events) e.eventIndex).map IndexedEvent.entry = _
    rcases rowAt_foldl_upsertRow batch w.db.events e.eventIndex with
      ⟨row, hrow, hindex, hnew⟩ | ⟨-, hold⟩
    · obtain rfl : row = e := TransferLog.eq_of_eventIndex (hbatch row hrow) he (by omega)
      rw [hnew]
      rfl
    · rw [hold]
      exact hw.rows e he hP hlt
  setState _ _ hw := ⟨hw.provider, hw.ok, hw.start, hw.tip,
    ⟨hw.tree.appended, hw.tree.chained, hw.tree.current⟩, hw.rows⟩

/-- What has been served is served further. -/
theorem growing_calm (rounds : ℕ) (hmoves : Others h cfg (Growing ix) w w') :
    Calm (growingSetting h cfg ix start tip rounds) w w' where
  db := hmoves.db
  extra hw := Settled.move w w' hw hmoves
  serves block hw hblock := by
    -- the chain that is served only grows, and its latest block with it
    have hlog : TransferLog.Extends w.rest.chain.latestBlock w.rest.chain.log w'.rest.chain.log
        ∧ w.rest.chain.latestBlock ≤ w'.rest.chain.latestBlock := by
      refine (hmoves.keep (P := fun v => Settled h cfg ix start tip (Since tip) v
        ∧ TransferLog.Extends w.rest.chain.latestBlock w.rest.chain.log v.rest.chain.log
        ∧ w.rest.chain.latestBlock ≤ v.rest.chain.latestBlock) (fun v a ha hv => ?_)
        ⟨hw, .refl _ _, le_refl _⟩).2
      refine ⟨hv.1.otherStep v a ha, ?_⟩
      cases a with
      | ingest a =>
        rw [otherStep_chain_of_ingest]
        exact hv.2
      | chain c fork =>
        obtain ⟨hnext, hlatest⟩ := Grows.extends hv.1.ok ha
        exact ⟨hv.2.1.trans hnext hv.2.2, hv.2.2.trans hlatest⟩
    have hle : block ≤ w.rest.chain.latestBlock := by
      have hserved := hblock.latest
      rw [hw.provider] at hserved
      exact hserved
    refine ⟨?_, (TransferLog.Extends.refl block _).trans hlog.1 hle⟩
    rw [(Settled.move w w' hw hmoves).provider]
    exact Provider.ofLog_serves _ (hle.trans hlog.2)
  sound hw hsound := by
    refine (hmoves.keep (P := fun v => Settled h cfg ix start tip (Since tip) v
      ∧ Sound v.rest.chain.log start w.db) (fun v a ha hv => ?_) ⟨hw, hsound⟩).2
    refine ⟨hv.1.otherStep v a ha, ?_⟩
    cases a with
    | ingest a =>
      rw [otherStep_chain_of_ingest]
      exact hv.2
    | chain c fork => exact hv.2.reorganised ha.1 hv.1.ok hv.1.start

/-- After the sync the rows of all leaves are right. -/
theorem Settled.of_sync {rounds : ℕ} {env : Env ReorgWorld} (hsteady : Steady ix w)
    (htree : TreeInv h cfg w) (henv : ∀ n v, Others h cfg (Growing ix) v (env.move n v))
    (hok : (sync ix rounds).outcome env w = (.ok (), w')) :
    Settled h cfg ix (startOf ix w.db) w.rest.chain.latestBlock (fun _ => True) w' := by
  have hready : Ready (growingSetting h cfg ix (startOf ix w.db) w.rest.chain.latestBlock rounds)
      ix w := by
    refine ⟨⟨hsteady.provider, hsteady.ok, hsteady.bound, le_refl _, htree, ?_⟩,
      hsteady.sound, rfl, False.elim, False.elim⟩
    intro e he hsince
    exact absurd (hsteady.ok.latest e he) (not_le.mpr hsince)
  have hend := (sync_spec (growingSetting_lawful rounds)).outcome
    ⟨fun n v => growing_calm rounds (henv n v), Or.inl not_false⟩ hready
  change Ends _ _ ((sync ix rounds).outcome env w) at hend
  rw [hok] at hend
  obtain ⟨w₀, hw₀, hhealed⟩ := hend
  obtain ⟨hprovider, hchain, hstart, htip, htree', hrows⟩ := hhealed.extra
  refine ⟨hprovider, hchain, hstart, htip, htree', fun e he _ hlt => ?_⟩
  -- stored by another sync meanwhile, or by this one
  by_cases hlate : w.rest.chain.latestBlock < e.ethBlockNumber
  · exact hrows e he hlate hlt
  · have hle : e.ethBlockNumber ≤ w₀.provider.latestBlock := by
      have htip₀ := hw₀.tip
      rw [hw₀.provider]
      exact (not_lt.mp hlate).trans htip₀
    rw [rowEntry, hhealed.stored e he hle]
    rfl

end

/-! ## Agreement -/

section

variable (h : Hashes) (cfg : JobConfig) (ix : EventIndexer)

/-- The worlds that syncs, ingestion and reorganisations lead to, from empty tables. A sync may stop
anywhere; what happens between its statements and between two syncs meets `C`. -/
inductive Reached (C : ReorgWorld → OtherAction → Prop) : ReorgWorld → Prop where
  | initial (c : ChainState) (hc : c.Ok ix) : Reached C (initialWorld c)
  | others (w w' : ReorgWorld) (hw : Reached C w) (hmoves : Others h cfg C w w') : Reached C w'
  | sync (w : ReorgWorld) (rounds : ℕ) (env : Env ReorgWorld) (hw : Reached C w)
      (henv : ∀ n v, Others h cfg C v (env.move n v)) :
      Reached C ((sync ix rounds).outcome env w).2

/-- The SHA chain over the current rows. -/
def rowChain (w : ReorgWorld) (t : ℕ) : ℕ := entryChain h ((List.range t).filterMap (rowEntry w))

/-- `hashChain` of the contract after `t` transfers. -/
def onChainHashChain (c : ChainState) (t : ℕ) : ℕ :=
  (c.log.events.take t).foldl
    (fun acc e => hashChain h acc e.entry.address.val e.entry.value.val) 0

/-- Tree, rows and chain agree, as far as the tree goes. -/
structure Agrees (w : ReorgWorld) : Prop where
  leaves : ∀ k, k < treeSize w → ∃ row, rowAt w.db.events k = some row
    ∧ leafAt h cfg.tree w.rest.ingestion.db k = leafHash h row.entry
  rows : ∀ t, 0 < t → t ≤ treeSize w →
    (w.rest.ingestion.db.snapshotAt t).map SnapshotRow.hashChain = some (rowChain h w t)
  chain : ∀ t, t ≤ treeSize w → t ≤ w.rest.chain.log.events.length
    ∧ rowChain h w t = onChainHashChain h w.rest.chain t

end

section

variable {h : Hashes} {cfg : JobConfig} {ix : EventIndexer} {w : ReorgWorld}

/-- The example starts with the chain's own latest block. -/
theorem Steady.initial {c : ChainState} (hc : c.Ok ix) : Steady ix (initialWorld c) where
  provider := rfl
  ok := hc
  bound := by
    show forwardStart ix 0 ≤ forwardStart ix c.highest
    unfold forwardStart
    omega
  sound := by
    constructor
    · intro k row hrow
      cases hrow
    · intro row hrow
      cases hrow

/-- The empty tree is one of the chain's events. -/
theorem TreeInv.initial (c : ChainState) : TreeInv h cfg (initialWorld c) where
  appended := ⟨rfl, fun _ _ hrow => nomatch hrow⟩
  chained := ⟨rfl, fun _ hrow => absurd hrow List.not_mem_nil,
    fun _ hpos hle => absurd hle (not_le.mpr hpos)⟩
  current k hk := absurd hk (Nat.not_lt_zero k)

/-- Every world that is reached has a steady chain and a tree of its events. -/
theorem Reached.inv (hw : Reached h cfg ix (Consistent ix) w) :
    Steady ix w ∧ TreeInv h cfg w := by
  induction hw with
  | initial c hc => exact ⟨.initial hc, .initial c⟩
  | others w w' _ hmoves ih =>
    exact ⟨Steady.move w w' ih.1 (hmoves.mono fun _ _ ha => ha.possible),
      hmoves.keep TreeInv.otherStep ih.2⟩
  | sync w rounds env _ henv ih =>
    exact ⟨(sync_steady rounds).outcome
        (fun n v => (henv n v).mono fun _ _ ha => ha.possible) ih.1,
      (sync_keeps tableInv_treeInv ix rounds).outcome henv ih.2⟩

/-- The rows below the tree are the first events of the chain. -/
theorem filterMap_rowEntry {start tip : ℕ} (hw : Settled h cfg ix start tip (fun _ => True) w)
    {t : ℕ} (ht : t ≤ treeSize w) :
    (List.range t).filterMap (rowEntry w)
      = (w.rest.chain.log.events.take t).map IndexedEvent.entry := by
  induction t with
  | zero => rfl
  | succ t ih =>
    obtain ⟨e, he, hindex, -⟩ := hw.tree.exists_event ht
    have hrow := hw.rows e he trivial (by omega)
    have hget := TransferLog.getElem?_of_mem he
    rw [hindex] at hrow hget
    rw [List.range_succ, List.filterMap_append, ih (by omega), List.take_add_one, hget,
      List.map_append]
    simp [hrow]

/-- The appended events are the first events of the chain. -/
theorem TreeInv.take_entries (hw : TreeInv h cfg w) {t : ℕ} (ht : t ≤ treeSize w) :
    (entries w.rest.ingestion).take t
      = (w.rest.chain.log.events.take t).map IndexedEvent.entry := by
  refine List.ext_getElem? fun k => ?_
  rw [List.getElem?_take, List.getElem?_map, List.getElem?_take]
  split
  · exact hw.current k (by omega)
  · rfl

/-- A settled world agrees with the chain. -/
theorem Settled.agrees {start tip : ℕ} (hw : Settled h cfg ix start tip (fun _ => True) w) :
    Agrees h cfg w where
  leaves k hk := by
    obtain ⟨e, he, hindex, hentry⟩ := hw.tree.exists_event hk
    have hrow := hw.rows e he trivial (by omega)
    rw [hindex] at hrow
    obtain ⟨row, hfound, hsame⟩ := Option.map_eq_some_iff.mp hrow
    have hcurrent := hw.tree.current k hk
    rw [hentry, entries, List.getElem?_map] at hcurrent
    obtain ⟨event, hevent, hevententry⟩ := Option.map_eq_some_iff.mp hcurrent
    refine ⟨row, hfound, ?_⟩
    rw [hw.tree.appended.leaf k event hevent, hevententry, hsame]
  rows t hpos ht := by
    rw [rowChain, filterMap_rowEntry hw ht, ← hw.tree.take_entries ht]
    exact hw.tree.chained.chain t hpos (ht.trans hw.tree.appended.length.ge)
  chain t ht := by
    constructor
    · have hlength := congrArg List.length (hw.tree.take_entries ht)
      rw [List.length_take, List.length_map, List.length_take, hw.tree.length_entries] at hlength
      omega
    · rw [rowChain, filterMap_rowEntry hw ht, entryChain, List.foldl_map]
      rfl

end

variable (h : Hashes) (cfg : JobConfig) (ix : EventIndexer)

/-- **When a reorganisation does no harm.** In every run in which each leaf is made, in order, of the
event that the chain has at that moment, and no reorganisation changes an event below the tree: once
a sync has completed on the new chain, tree, rows and chain agree, and go on agreeing through
whatever is ingested from then on. -/
theorem reorg_agreement {w w₁ w₂ : ReorgWorld} {rounds : ℕ} {env : Env ReorgWorld}
    (hw : Reached h cfg ix (Consistent ix) w)
    (henv : ∀ n v, Others h cfg (Growing ix) v (env.move n v))
    (hok : (sync ix rounds).outcome env w = (.ok (), w₁))
    (hmoves : Others h cfg (Growing ix) w₁ w₂) : Agrees h cfg w₂ := by
  obtain ⟨hsteady, htree⟩ := hw.inv
  have hsettled := Settled.of_sync hsteady htree henv hok
  exact (hsettled.move w₁ w₂ hmoves).agrees

/-! ## An event below the tree is replaced, and one above it -/

instance (w : ReorgWorld) (P : EventRow → Prop) [DecidablePred P] :
    (pc : WorkerPc) → Decidable (AppendPc w P pc)
  | .batch _ _ (_ :: _) => inferInstanceAs (Decidable (_ → _ → _ → _))
  | .batch _ _ [] | .tryAcquire | .locateToken | .latestIndex | .contiguousIndex _ | .fetch _ _
  | .release | .dead => inferInstanceAs (Decidable True)

instance (w : ReorgWorld) (P : EventRow → Prop) [DecidablePred P] :
    (a : IngestAction) → Decidable (Appending w P a)
  | .advance k => inferInstanceAs (Decidable (AppendPc w P (w.rest.ingestion.workers k).pc))
  | .insertEvents _ | .registerToken | .ensureStateRow _ | .advanceContiguousIndex | .tick _
  | .fail _ | .renew _ | .drop _ | .releaseDropped _ _ | .crash _ => inferInstanceAs (Decidable True)

instance (w : ReorgWorld) (event : EventRow) : Decidable (OfChain w event) :=
  inferInstanceAs (Decidable (_ ∧ _))

instance (w : ReorgWorld) (a : IngestAction) : Decidable (Consistent ix w (.ingest a)) :=
  inferInstanceAs (Decidable (Appending w (OfChain w) a))

instance (w : ReorgWorld) (a : IngestAction) : Decidable (Growing ix w (.ingest a)) :=
  inferInstanceAs (Decidable (Appending w (fun event => OfChain w event
    ∧ rowEntry w event.eventIndex = some event.entry) a))

/-- A run of the ingestion is a move of the others, seen from the sync. -/
theorem others_of_along {C : ReorgWorld → OtherAction → Prop} (w : ReorgWorld)
    (acts : List IngestAction)
    (hacts : Along (stepIngestion h cfg) (fun v a => C v (.ingest a)) w acts) :
    Others h cfg C w (run (stepIngestion h cfg) w acts) := by
  induction acts generalizing w with
  | nil => exact .refl
  | cons a acts ih => exact .head ⟨.ingest a, hacts.1, rfl⟩ (ih _ hacts.2)

/-- The blocks up to `fork` are the same in both lists. -/
theorem kept_of_forall {fork : ℕ} {l l' : List IndexedEvent}
    (hl : ∀ e ∈ l, e.ethBlockNumber ≤ fork → e ∈ l')
    (hl' : ∀ e ∈ l', e.ethBlockNumber ≤ fork → e ∈ l) (e : IndexedEvent)
    (he : e.ethBlockNumber ≤ fork) : e ∈ l ↔ e ∈ l' :=
  ⟨fun hmem => hl e hmem he, fun hmem => hl' e hmem he⟩

namespace ReorgExample

/-- The span of the example is not zero. -/
theorem blockSpan_pos : 0 < 10 := by decide

def indexer : EventIndexer := ⟨10, 3, 1, blockSpan_pos⟩

/-- One event, in block 1. -/
def first : ChainState := ⟨⟨[⟨0, 1, ⟨2, 10⟩, 1⟩], by decide, by decide⟩, 2, 2⟩

/-- Another event in its place. -/
def replaced : ChainState := ⟨⟨[⟨0, 1, ⟨2, 20⟩, 1⟩], by decide, by decide⟩, 2, 2⟩

/-- One more event, in block 3. -/
def second : ChainState := ⟨⟨[⟨0, 1, ⟨2, 10⟩, 1⟩, ⟨1, 1, ⟨3, 5⟩, 3⟩], by decide, by decide⟩, 4, 4⟩

/-- Another event in the place of the second one. -/
def forked : ChainState := ⟨⟨[⟨0, 1, ⟨2, 10⟩, 1⟩, ⟨1, 1, ⟨4, 7⟩, 3⟩], by decide, by decide⟩, 4, 4⟩

def synced (w : ReorgWorld) : ReorgWorld := ((sync indexer 20).outcome (.still _) w).2

/-- A worker takes `n` statements. -/
def pass (n : ℕ) : List IngestAction := .registerToken :: List.replicate n (.advance 0)

def ingested (n : ℕ) (w : ReorgWorld) : ReorgWorld :=
  run (stepIngestion realHashes Demo.job) w (pass n)

def onChain (c : ChainState) (w : ReorgWorld) : ReorgWorld :=
  otherStep realHashes Demo.job w (.chain c 0)

/-- The first event is ingested. -/
def start : ReorgWorld := ingested 9 (synced (initialWorld first))

/-- The first chain of the example is one. -/
theorem first_ok : first.Ok indexer := ⟨by decide, by decide, by decide⟩

theorem replaces : first.Reorganised indexer 0 replaced :=
  ⟨by decide, kept_of_forall (by decide) (by decide), by decide, by decide,
    by decide, by decide, by decide⟩

theorem grows : first.Reorganised indexer 2 second :=
  ⟨by decide, kept_of_forall (by decide) (by decide), by decide, by decide,
    by decide, by decide, by decide⟩

/-- The third forks off above the first two blocks. -/
theorem forks : second.Reorganised indexer 2 forked :=
  ⟨by decide, kept_of_forall (by decide) (by decide), by decide, by decide,
    by decide, by decide, by decide⟩

/-- The example starts at the initial world. -/
theorem start_reached : Reached realHashes Demo.job indexer (Consistent indexer) start := by
  refine .others _ _ (.sync _ 20 (.still _) (.initial first first_ok) fun _ _ => .refl) ?_
  exact others_of_along realHashes Demo.job _ (pass 9) (by decide +kernel)

/-- A stronger condition reaches fewer worlds. -/
theorem Reached.mono {C D : ReorgWorld → OtherAction → Prop} {w : ReorgWorld}
    (hCD : ∀ w a, C w a → D w a) (hw : Reached realHashes Demo.job indexer C w) :
    Reached realHashes Demo.job indexer D w := by
  induction hw with
  | initial c hc => exact .initial c hc
  | others w w' _ hmoves ih => exact .others w w' ih (hmoves.mono hCD)
  | sync w rounds env _ henv ih => exact .sync w rounds env ih fun n v => (henv n v).mono hCD

/-- The sync returns. -/
theorem outcome_eq {w : ReorgWorld}
    (hok : ((sync indexer 20).outcome (.still _) w).1.toBool = true) :
    (sync indexer 20).outcome (.still _) w = (.ok (), synced w) := by
  refine Prod.ext ?_ rfl
  show ((sync indexer 20).outcome (.still _) w).1 = .ok ()
  cases hresult : ((sync indexer 20).outcome (.still _) w).1 with
  | ok u => rfl
  | error e =>
    rw [hresult] at hok
    cases hok

/-- The worlds with the first event replaced after it was ingested. -/
def below : ReorgWorld := onChain replaced start

def belowPassed : ReorgWorld := ingested 5 (synced below)

/-- The worlds with the second event stored, and replaced before it is ingested. -/
def above : ReorgWorld := onChain forked (synced (onChain second start))

def abovePassed : ReorgWorld := ingested 9 (synced above)

/-- A reorganisation above the tree is consistent. -/
theorem above_reached : Reached realHashes Demo.job indexer (Consistent indexer) above := by
  have hsecond : Reached realHashes Demo.job indexer (Consistent indexer) (onChain second start) :=
    .others _ _ start_reached
      (.single ⟨.chain second 2, ⟨grows, by decide +kernel⟩, rfl⟩)
  refine .others _ _ (.sync _ 20 (.still _) hsecond fun _ _ => .refl) ?_
  exact .single ⟨.chain forked 2, ⟨forks, by decide +kernel⟩, rfl⟩

end ReorgExample

open ReorgExample in
/-- The event of a leaf is replaced: after the sync and a whole pass of a worker the row is the new
event, and the leaf the old one. -/
theorem reorg_disagreement :
    Reached realHashes Demo.job indexer (Possible indexer) below
      ∧ (sync indexer 20).outcome (.still _) below = (.ok (), synced below)
      ∧ Others realHashes Demo.job (Grows indexer) (synced below) belowPassed
      ∧ (belowPassed.rest.ingestion.workers 0).pc = .tryAcquire
      ∧ ¬ Agrees realHashes Demo.job belowPassed := by
  refine ⟨.others _ _ (Reached.mono (fun _ _ ha => ha.possible) start_reached) ?_,
    outcome_eq (by decide +kernel), ?_, by decide +kernel, fun hagrees => ?_⟩
  · exact .single ⟨.chain replaced 0, replaces, rfl⟩
  · refine others_of_along realHashes Demo.job _ (pass 5) ?_
    exact ⟨trivial, trivial, trivial, trivial, trivial, trivial, trivial⟩
  · obtain ⟨row, hrow, hleaf⟩ := hagrees.leaves 0 (by decide +kernel)
    have hcurrent : rowAt belowPassed.db.events (0 : ℕ) = some ⟨0, 1, ⟨2, 20⟩, 1⟩ := by
      decide +kernel
    rw [hcurrent] at hrow
    obtain rfl := Option.some.inj hrow
    exact absurd hleaf (by decide +kernel)

open ReorgExample in
/-- The row of the second event is overwritten before a leaf is made of it. -/
theorem reorg_agreement_above :
    treeSize abovePassed = 2 ∧ Agrees realHashes Demo.job abovePassed := by
  have hstill : ∀ n v, Others realHashes Demo.job (Growing indexer) v
      ((Env.still ReorgWorld).move n v) := fun _ _ => .refl
  refine ⟨by decide +kernel, reorg_agreement realHashes Demo.job indexer above_reached hstill
    (outcome_eq (by decide +kernel)) ?_⟩
  exact others_of_along realHashes Demo.job _ (pass 9) (by decide +kernel)

end EventIndexer

end Indexer

end Zerc20
