import Zerc20.Lib.Machine
import Mathlib.Tactic.Common

/-!
# Leases

`indexer/src/jobs/lock.rs`: a lock with expiry, one row of `leases` for each key. The row has the id
of the process that holds it, which all tasks of the process share. A guard renews the row in the
background, and deletes it when it is released or dropped.

The statements are conditional on that id alone. Between processes the lock is exclusive. A process
is let in again while it holds the lease; then it has several guards, and the first of them to be
released deletes the row of all (`not_exclusive`). `lease_exclusive` is about both: what holds in any
run, and that a process with one guard at a time has the lock to itself.

Each statement is a step. `validUntil` and `outlived` are ghosts.
-/

namespace Zerc20

namespace Indexer

open Machine

/-! ## Statements -/

/-- `LEASE_TTL`, in milliseconds. -/
def leaseTtl : ℕ := 30000

/-- A row of `leases`. -/
structure Lease where
  holder : ℕ
  expiresAt : ℕ
  deriving DecidableEq

/-- The upsert of `try_acquire_lock`, and whether it returns a row. -/
def tryAcquireLock (lease : Option Lease) (now holder : ℕ) : Option Lease × Bool :=
  match lease with
  | none => (some ⟨holder, now + leaseTtl⟩, true)
  | some old =>
    if old.holder = holder ∨ old.expiresAt < now then (some ⟨holder, now + leaseTtl⟩, true)
    else (some old, false)

def renewLease (lease : Option Lease) (now holder : ℕ) : Option Lease × Bool :=
  match lease with
  | none => (none, false)
  | some old =>
    if old.holder = holder then (some ⟨holder, now + leaseTtl⟩, true) else (some old, false)

def releaseLease (lease : Option Lease) (holder : ℕ) : Option Lease × Bool :=
  match lease with
  | none => (none, false)
  | some old => if old.holder = holder then (none, true) else (some old, false)

/-- A statement leaves the row with a holder only if it wrote it for this holder, or found it so. -/
theorem holder_of_tryAcquireLock {lease : Option Lease} {now holder other : ℕ}
    (hrow : (tryAcquireLock lease now holder).1.map Lease.holder = some other) :
    lease.map Lease.holder = some other
      ∨ (tryAcquireLock lease now holder).2 = true ∧ other = holder := by
  unfold tryAcquireLock at hrow ⊢
  cases lease with
  | none => exact Or.inr ⟨rfl, (Option.some.inj hrow).symm⟩
  | some old =>
    dsimp only at hrow ⊢
    split at hrow
    · rename_i hfree
      rw [if_pos hfree]
      exact Or.inr ⟨rfl, (Option.some.inj hrow).symm⟩
    · exact Or.inl hrow

/-- Renewing gives the row to nobody else. -/
theorem holder_of_renewLease {lease : Option Lease} {now holder other : ℕ}
    (hrow : (renewLease lease now holder).1.map Lease.holder = some other) :
    lease.map Lease.holder = some other := by
  unfold renewLease at hrow
  cases lease with
  | none => exact hrow
  | some old =>
    dsimp only at hrow
    split at hrow
    · rename_i hsame
      rw [← hrow, ← hsame]
      rfl
    · exact hrow

theorem holder_of_releaseLease {lease : Option Lease} {holder other : ℕ}
    (hrow : (releaseLease lease holder).1.map Lease.holder = some other) :
    lease.map Lease.holder = some other := by
  unfold releaseLease at hrow
  cases lease with
  | none => exact hrow
  | some old =>
    dsimp only at hrow
    split at hrow
    · cases hrow
    · exact hrow

/-! ## Guards -/

inductive GuardStage where
  | held
  /-- Released or dropped: the renewal is told to stop, and the row is yet to be deleted. -/
  | closing
  | gone
  deriving DecidableEq

structure LeaseGuard where
  /-- `session_holder()` of its process. -/
  holder : ℕ
  stage : GuardStage
  /-- Whether the renewal task is alive. -/
  renewing : Bool
  /-- The end of the lease as this guard has last extended it. -/
  validUntil : ℕ
  /-- Another guard of the process has deleted the row since. -/
  outlived : Bool
  deriving DecidableEq

structure Locks where
  now : ℕ
  lease : Option Lease
  /-- All guards that there have been. -/
  guards : List LeaseGuard

inductive LockAction where
  | tick (ms : ℕ)
  /-- A task of a process tries to acquire the lock. -/
  | acquire (holder : ℕ)
  /-- The same, with an error after the statement has taken effect. -/
  | acquireLost (holder : ℕ)
  | renew (i : ℕ)
  /-- The statement fails, or its answer is lost. -/
  | renewFails (i : ℕ) (lost : Bool)
  /-- `release` or `drop`. -/
  | close (i : ℕ)
  | delete (i : ℕ)
  | deleteFails (i : ℕ)
  /-- A process dies, with its guards. -/
  | crash (holder : ℕ)
  deriving DecidableEq

namespace Locks

def initial : Locks := ⟨0, none, []⟩

def modifyGuard (s : Locks) (i : ℕ) (f : LeaseGuard → LeaseGuard) : Locks :=
  { s with guards := s.guards.modify i f }

/-- An iteration of `spawn_renewal`; it ends at the first error. -/
def renewGuard (s : Locks) (i : ℕ) (g : LeaseGuard) : Locks :=
  match renewLease s.lease s.now g.holder with
  | (lease, true) => { s with lease }.modifyGuard i fun g =>
    { g with validUntil := s.now + leaseTtl }
  | (lease, false) => { s with lease }.modifyGuard i fun g => { g with renewing := false }

def deleteRow (s : Locks) (i : ℕ) (g : LeaseGuard) : Locks :=
  { s with
    lease := (releaseLease s.lease g.holder).1
    guards := s.guards.map fun other : LeaseGuard =>
      if other.holder = g.holder then { other with outlived := true } else other }.modifyGuard i
        fun g => { g with stage := .gone, renewing := false }

def step (s : Locks) : LockAction → Locks
  | .tick ms => { s with now := s.now + ms }
  | .acquire holder =>
    match tryAcquireLock s.lease s.now holder with
    | (lease, true) => { s with
      lease, guards := s.guards ++ [⟨holder, .held, true, s.now + leaseTtl, false⟩] }
    | (lease, false) => { s with lease }
  | .acquireLost holder => { s with lease := (tryAcquireLock s.lease s.now holder).1 }
  | .renew i =>
    match s.guards[i]? with
    | some g => if g.renewing then s.renewGuard i g else s
    | none => s
  | .renewFails i lost =>
    match s.guards[i]? with
    | some g =>
      if g.renewing then
        { s with
          lease := if lost then (renewLease s.lease s.now g.holder).1 else s.lease }.modifyGuard i
            fun g => { g with renewing := false }
      else s
    | none => s
  | .close i => s.modifyGuard i fun g => if g.stage = .held then { g with stage := .closing } else g
  | .delete i =>
    match s.guards[i]? with
    | some g => if g.stage = .closing then s.deleteRow i g else s
    | none => s
  | .deleteFails i => s.modifyGuard i fun g =>
    if g.stage = .closing then { g with stage := .gone, renewing := false } else g
  | .crash holder => { s with
    guards := s.guards.map fun g =>
      if g.holder = holder then { g with stage := .gone, renewing := false } else g }

end Locks

/-! ## What the statements do to the lease of a guard -/

/-- The row is that of the process of the guard, for at least as long as the guard has extended
it. -/
def Covers (lease : Option Lease) (g : LeaseGuard) : Prop :=
  ∃ row, lease = some row ∧ row.holder = g.holder ∧ g.validUntil ≤ row.expiresAt

section

variable {lease : Option Lease} {g : LeaseGuard} {now : ℕ}

/-- While a guard's own deadline lasts, nobody else can take the row, and re-entry extends it. -/
theorem Covers.tryAcquireLock (hg : Covers lease g) (hnow : now ≤ g.validUntil)
    (huntil : g.validUntil ≤ now + leaseTtl) (holder : ℕ) :
    Covers (tryAcquireLock lease now holder).1 g := by
  obtain ⟨row, rfl, hholder, hexpires⟩ := hg
  unfold Indexer.tryAcquireLock
  dsimp only
  split
  · rename_i hfree
    -- the row has not expired, so the process is the same
    have hsame : row.holder = holder := hfree.resolve_right (by omega)
    exact ⟨_, rfl, hsame.symm.trans hholder, huntil⟩
  · exact ⟨row, rfl, hholder, hexpires⟩

theorem Covers.renewLease (hg : Covers lease g) (huntil : g.validUntil ≤ now + leaseTtl)
    (holder : ℕ) : Covers (renewLease lease now holder).1 g := by
  obtain ⟨row, rfl, hholder, hexpires⟩ := hg
  unfold Indexer.renewLease
  dsimp only
  split
  · rename_i hsame
    exact ⟨_, rfl, hsame.symm.trans hholder, huntil⟩
  · exact ⟨row, rfl, hholder, hexpires⟩

/-- A process deletes no row but its own. -/
theorem Covers.releaseLease (hg : Covers lease g) {holder : ℕ} (hne : g.holder ≠ holder) :
    Covers (releaseLease lease holder).1 g := by
  obtain ⟨row, rfl, hholder, hexpires⟩ := hg
  unfold Indexer.releaseLease
  dsimp only
  rw [if_neg fun heq => hne (hholder.symm.trans heq)]
  exact ⟨row, rfl, hholder, hexpires⟩

/-- The row of a lock that was acquired. -/
theorem tryAcquireLock_of_true {holder : ℕ} {lease' : Option Lease}
    (hok : tryAcquireLock lease now holder = (lease', true)) :
    lease' = some ⟨holder, now + leaseTtl⟩ := by
  unfold tryAcquireLock at hok
  cases lease with
  | none => exact (Prod.mk.inj hok).1.symm
  | some old =>
    dsimp only at hok
    split at hok
    · exact (Prod.mk.inj hok).1.symm
    · cases (Prod.mk.inj hok).2

theorem renewLease_of_true {holder : ℕ} {lease' : Option Lease}
    (hok : renewLease lease now holder = (lease', true)) :
    lease' = some ⟨holder, now + leaseTtl⟩ := by
  unfold renewLease at hok
  cases lease with
  | none => cases (Prod.mk.inj hok).2
  | some old =>
    dsimp only at hok
    split at hok
    · exact (Prod.mk.inj hok).1.symm
    · cases (Prod.mk.inj hok).2

end

/-! ## What holds in any run -/

/-- What is known of a guard: until it expires or is outlived, the row is that of its process. -/
structure GuardInv (s : Locks) (g : LeaseGuard) : Prop where
  until_le : g.validUntil ≤ s.now + leaseTtl
  covers : g.stage ≠ .gone → g.outlived = false → s.now ≤ g.validUntil → Covers s.lease g

def LockInv (s : Locks) : Prop := ∀ g ∈ s.guards, GuardInv s g

section

variable {s : Locks} {g g' : LeaseGuard}

/-- The guards after a change are the old ones and the changed one. -/
theorem mem_modifyGuard {i : ℕ} {f : LeaseGuard → LeaseGuard}
    (hg : g' ∈ (s.modifyGuard i f).guards) :
    g' ∈ s.guards ∨ ∃ g, s.guards[i]? = some g ∧ g' = f g := by
  obtain ⟨j, hj⟩ := List.mem_iff_getElem?.mp hg
  unfold Locks.modifyGuard at hj
  rw [List.getElem?_modify] at hj
  obtain ⟨g, hget, hval⟩ := Option.map_eq_some_iff.mp hj
  split at hval
  · rename_i hij
    rw [← hij] at hget
    exact Or.inr ⟨g, hget, hval.symm⟩
  · rw [← hval]
    exact Or.inl (List.mem_of_getElem? hget)

/-- A change of the lease that leaves every guard its row. -/
theorem GuardInv.mono {lease : Option Lease} (hg : GuardInv s g)
    (hlease : s.now ≤ g.validUntil → Covers s.lease g → Covers lease g) :
    GuardInv { s with lease } g :=
  ⟨hg.until_le, fun hstage houtlived hnow => hlease hnow (hg.covers hstage houtlived hnow)⟩

/-- The guard is no more than it was. -/
theorem GuardInv.weaken (hg : GuardInv s g) (hholder : g'.holder = g.holder)
    (huntil : g'.validUntil = g.validUntil) (hstage : g'.stage ≠ .gone → g.stage ≠ .gone)
    (houtlived : g'.outlived = false → g.outlived = false) : GuardInv s g' := by
  refine ⟨huntil.le.trans hg.until_le, fun hgone hout hnow => ?_⟩
  rw [huntil] at hnow
  obtain ⟨row, hrow, hsame, hexpires⟩ := hg.covers (hstage hgone) (houtlived hout) hnow
  exact ⟨row, hrow, hsame.trans hholder.symm, huntil.le.trans hexpires⟩

/-- A change of the row keeps the invariant when the running guards stay covered. -/
theorem LockInv.lease {lease : Option Lease} (hs : LockInv s)
    (hlease : ∀ g ∈ s.guards, s.now ≤ g.validUntil → Covers s.lease g → Covers lease g) :
    LockInv { s with lease } := fun g hg => (hs g hg).mono (hlease g hg)

/-- A guard is replaced by one that is no more. -/
theorem LockInv.modifyGuard {i : ℕ} {f : LeaseGuard → LeaseGuard} (hs : LockInv s)
    (hf : ∀ g, s.guards[i]? = some g → GuardInv s g → GuardInv s (f g)) :
    LockInv (s.modifyGuard i f) := by
  intro g' hg'
  have hkeep : ∀ g, GuardInv s g → GuardInv (s.modifyGuard i f) g :=
    fun g hg => ⟨hg.until_le, hg.covers⟩
  rcases mem_modifyGuard hg' with hold | ⟨g, hget, rfl⟩
  · exact hkeep g' (hs g' hold)
  · exact hkeep _ (hf g hget (hs g (List.mem_of_getElem? hget)))

/-- Acquiring adds a guard that the new row covers. -/
theorem LockInv.acquire (hs : LockInv s) (holder : ℕ) :
    LockInv (s.step (.acquire holder)) := by
  have hlease : ∀ g ∈ s.guards, s.now ≤ g.validUntil → Covers s.lease g →
      Covers (tryAcquireLock s.lease s.now holder).1 g := fun g hg hnow hcovers =>
    hcovers.tryAcquireLock hnow (hs g hg).until_le holder
  simp only [Locks.step]
  split
  · rename_i lease hok
    rw [hok] at hlease
    intro g hg
    rcases List.mem_append.mp hg with hg | hg
    · exact ⟨(hs g hg).until_le, ((hs g hg).mono (hlease g hg)).covers⟩
    · rw [List.mem_singleton.mp hg]
      exact ⟨le_refl _, fun _ _ _ => ⟨_, tryAcquireLock_of_true hok, rfl, le_refl _⟩⟩
  · rename_i lease hrefused
    rw [hrefused] at hlease
    exact hs.lease hlease

/-- Renewing moves the deadline of the guard after that of the row. -/
theorem LockInv.renewGuard (hs : LockInv s) {i : ℕ} (hget : s.guards[i]? = some g) :
    LockInv (s.renewGuard i g) := by
  have hlease : ∀ g' ∈ s.guards, s.now ≤ g'.validUntil → Covers s.lease g' →
      Covers (renewLease s.lease s.now g.holder).1 g' := fun g' hg' _ hcovers =>
    hcovers.renewLease (hs g' hg').until_le g.holder
  unfold Locks.renewGuard
  split
  · rename_i lease hok
    rw [hok] at hlease
    refine LockInv.modifyGuard (hs.lease hlease) fun g' hget' hg' => ?_
    -- the guard that has extended the row
    obtain rfl : g = g' := Option.some.inj (hget.symm.trans hget')
    exact ⟨le_refl _, fun _ _ _ => ⟨_, renewLease_of_true hok, rfl, le_refl _⟩⟩
  · rename_i lease hrefused
    rw [hrefused] at hlease
    exact LockInv.modifyGuard (hs.lease hlease) fun g' _ hg' => hg'.weaken rfl rfl id id

/-- Dropping a guard deletes its own holder's row only. -/
theorem LockInv.deleteRow (hs : LockInv s) {i : ℕ} (g : LeaseGuard) :
    LockInv (s.deleteRow i g) := by
  unfold Locks.deleteRow
  refine LockInv.modifyGuard (fun g' hg' => ?_) fun g' _ hg' =>
    hg'.weaken rfl rfl (fun hgone => absurd rfl hgone) id
  obtain ⟨old, hold, rfl⟩ := List.mem_map.mp hg'
  have hinv := hs old hold
  split
  · exact ⟨hinv.until_le, fun _ hout => absurd hout (by simp)⟩
  · rename_i hne
    exact ⟨hinv.until_le, fun hstage hout hnow =>
      (hinv.covers hstage hout hnow).releaseLease hne⟩

/-- Every step keeps the running guards covered. -/
theorem LockInv.step (s : Locks) (a : LockAction) (hs : LockInv s) : LockInv (s.step a) := by
  cases a with
  | tick ms =>
    intro g hg
    have hinv := hs g hg
    refine ⟨?_, fun hstage hout hnow => hinv.covers hstage hout ?_⟩
    · have huntil := hinv.until_le
      show g.validUntil ≤ s.now + ms + leaseTtl
      omega
    · exact (Nat.le_add_right _ _).trans hnow
  | acquire holder => exact hs.acquire holder
  | acquireLost holder =>
    exact hs.lease fun g hg hnow hcovers => hcovers.tryAcquireLock hnow (hs g hg).until_le holder
  | renew i =>
    simp only [Locks.step]
    split
    · rename_i g hget
      split
      · exact hs.renewGuard hget
      · exact hs
    · exact hs
  -- the statement may have been executed although its answer is lost
  | renewFails i lost =>
    simp only [Locks.step]
    split
    · rename_i g hget
      split
      · refine LockInv.modifyGuard (hs.lease fun g' hg' _ hcovers => ?_) fun g' _ hg' =>
          hg'.weaken rfl rfl id id
        split
        · exact hcovers.renewLease (hs g' hg').until_le g.holder
        · exact hcovers
      · exact hs
    · exact hs
  | close i =>
    refine LockInv.modifyGuard hs fun g _ hg => ?_
    split
    · rename_i hheld
      exact hg.weaken rfl rfl (fun _ => by rw [hheld]; decide) id
    · exact hg
  | delete i =>
    simp only [Locks.step]
    split
    · rename_i g hget
      split
      · exact hs.deleteRow g
      · exact hs
    · exact hs
  | deleteFails i =>
    refine LockInv.modifyGuard hs fun g _ hg => ?_
    split
    · exact hg.weaken rfl rfl (fun hgone => absurd rfl hgone) id
    · exact hg
  -- a holder that is gone asks for nothing
  | crash holder =>
    intro g' hg'
    obtain ⟨g, hg, rfl⟩ := List.mem_map.mp hg'
    have hinv : GuardInv { s with
        guards := s.guards.map fun g =>
          if g.holder = holder then { g with stage := .gone, renewing := false } else g } g :=
      ⟨(hs g hg).until_le, (hs g hg).covers⟩
    show GuardInv _ (if g.holder = holder then _ else g)
    split
    · exact hinv.weaken rfl rfl (fun hgone => absurd rfl hgone) id
    · exact hinv

end

/-! ## Exclusion -/

/-- The guard is acquired, and neither released nor expired. -/
def Live (s : Locks) (g : LeaseGuard) : Prop := g.stage = .held ∧ s.now ≤ g.validUntil

/-- Of two processes, only one has a live guard that no other guard of the process has outlived, and
its row is there. -/
structure ProcessExclusive (s : Locks) : Prop where
  exclusive : ∀ g ∈ s.guards, ∀ g' ∈ s.guards, Live s g → g.outlived = false →
    Live s g' → g'.outlived = false → g.holder = g'.holder
  held : ∀ g ∈ s.guards, Live s g → g.outlived = false →
    ∃ row, s.lease = some row ∧ row.holder = g.holder

/-- There is one live guard at most, and its row is there. -/
structure Exclusive (s : Locks) : Prop where
  exclusive : ∀ (i j : ℕ) (g g' : LeaseGuard), s.guards[i]? = some g → s.guards[j]? = some g' →
    Live s g → Live s g' → i = j
  held : ∀ g ∈ s.guards, Live s g → ∃ row, s.lease = some row ∧ row.holder = g.holder

/-- A process is not let in while it has a guard that is not released yet. -/
def OneGuardEach (s : Locks) : LockAction → Prop
  | .acquire holder => ∀ g ∈ s.guards, g.holder = holder → g.stage = .gone
  | _ => True

/-- The guards that are not released yet are of different processes, and not outlived. -/
structure Separate (s : Locks) : Prop where
  unique : ∀ (i j : ℕ) (g g' : LeaseGuard), s.guards[i]? = some g → s.guards[j]? = some g' →
    g.stage ≠ .gone → g'.stage ≠ .gone → g.holder = g'.holder → i = j
  fresh : ∀ g ∈ s.guards, g.stage ≠ .gone → g.outlived = false

section

variable {s s' : Locks}

/-- One row covers the guards of one holder. -/
theorem LockInv.processExclusive (hs : LockInv s) : ProcessExclusive s := by
  have hcovers : ∀ g ∈ s.guards, Live s g → g.outlived = false → Covers s.lease g := by
    intro g hg hlive hout
    refine (hs g hg).covers ?_ hout hlive.2
    rw [hlive.1]
    decide
  constructor
  · intro g hg g' hg' hlive hout hlive' hout'
    obtain ⟨row, hrow, hsame, -⟩ := hcovers g hg hlive hout
    obtain ⟨row', hrow', hsame', -⟩ := hcovers g' hg' hlive' hout'
    rw [hrow] at hrow'
    rw [← hsame, ← hsame', Option.some.inj hrow']
  · intro g hg hlive hout
    obtain ⟨row, hrow, hsame, -⟩ := hcovers g hg hlive hout
    exact ⟨row, hrow, hsame⟩

/-- With one guard a holder that is exclusion. -/
theorem Separate.exclusive (hs : Separate s) (hlocks : LockInv s) : Exclusive s := by
  have hstage : ∀ g, Live s g → g.stage ≠ .gone := by
    intro g hlive
    rw [hlive.1]
    decide
  have hprocess := hlocks.processExclusive
  constructor
  · intro i j g g' hi hj hlive hlive'
    have hmem := List.mem_of_getElem? hi
    have hmem' := List.mem_of_getElem? hj
    exact hs.unique i j g g' hi hj (hstage g hlive) (hstage g' hlive')
      (hprocess.exclusive g hmem g' hmem' hlive (hs.fresh g hmem (hstage g hlive)) hlive'
        (hs.fresh g' hmem' (hstage g' hlive')))
  · intro g hg hlive
    exact hprocess.held g hg hlive (hs.fresh g hg (hstage g hlive))

/-- A guard after a step that lets nobody in. -/
structure Ages (g g' : LeaseGuard) : Prop where
  holder : g'.holder = g.holder
  stage : g'.stage ≠ .gone → g.stage ≠ .gone
  outlived : g'.outlived = g.outlived

theorem Ages.refl (g : LeaseGuard) : Ages g g := ⟨rfl, id, rfl⟩

theorem Separate.ages (hs : Separate s)
    (hages : ∀ (i : ℕ) (g' : LeaseGuard), s'.guards[i]? = some g' →
      ∃ g, s.guards[i]? = some g ∧ Ages g g') : Separate s' := by
  constructor
  · intro i j g g' hi hj hg hg' hsame
    obtain ⟨old, hold, hage⟩ := hages i g hi
    obtain ⟨old', hold', hage'⟩ := hages j g' hj
    refine hs.unique i j old old' hold hold' (hage.stage hg) (hage'.stage hg') ?_
    rw [← hage.holder, ← hage'.holder, hsame]
  · intro g hg hstage
    obtain ⟨i, hi⟩ := List.mem_iff_getElem?.mp hg
    obtain ⟨old, hold, hage⟩ := hages i g hi
    rw [hage.outlived]
    exact hs.fresh old (List.mem_of_getElem? hold) (hage.stage hstage)

/-- A change of one guard lets the others be. -/
theorem ages_modifyGuard {i : ℕ} {f : LeaseGuard → LeaseGuard} (hf : ∀ g, Ages g (f g)) (j : ℕ)
    (g' : LeaseGuard) (hget : (s.modifyGuard i f).guards[j]? = some g') :
    ∃ g, s.guards[j]? = some g ∧ Ages g g' := by
  unfold Locks.modifyGuard at hget
  rw [List.getElem?_modify] at hget
  obtain ⟨g, hold, rfl⟩ := Option.map_eq_some_iff.mp hget
  refine ⟨g, hold, ?_⟩
  split
  · exact hf g
  · exact .refl g

/-- A holder without a running guard may acquire. -/
theorem Separate.acquire (hs : Separate s) {holder : ℕ} (ha : OneGuardEach s (.acquire holder)) :
    Separate (s.step (.acquire holder)) := by
  simp only [Locks.step]
  split
  · -- the new guard is the only one of its process
    have hnew : ∀ (i : ℕ) (g : LeaseGuard), (s.guards
          ++ [⟨holder, .held, true, s.now + leaseTtl, false⟩])[i]? = some g →
        s.guards[i]? = some g ∨ (i = s.guards.length ∧ g.holder = holder
          ∧ g.outlived = false) := by
      intro i g hget
      rw [List.getElem?_append] at hget
      split at hget
      · exact Or.inl hget
      · rename_i hge
        rw [List.getElem?_singleton] at hget
        split at hget
        · obtain rfl := Option.some.inj hget
          exact Or.inr ⟨by omega, rfl, rfl⟩
        · cases hget
    have hother : ∀ (i : ℕ) (g : LeaseGuard), s.guards[i]? = some g → g.stage ≠ .gone →
        g.holder ≠ holder := fun i g hget hstage hsame =>
      hstage (ha g (List.mem_of_getElem? hget) hsame)
    constructor
    · intro i j g g' hi hj hg hg' hsame
      rcases hnew i g hi with hold | ⟨rfl, hholder, -⟩ <;>
        rcases hnew j g' hj with hold' | ⟨rfl, hholder', -⟩
      · exact hs.unique i j g g' hold hold' hg hg' hsame
      · exact absurd (hsame.trans hholder') (hother i g hold hg)
      · exact absurd (hsame.symm.trans hholder) (hother j g' hold' hg')
      · rfl
    · intro g hg hstage
      obtain ⟨i, hi⟩ := List.mem_iff_getElem?.mp hg
      rcases hnew i g hi with hold | ⟨-, -, hout⟩
      · exact hs.fresh g (List.mem_of_getElem? hold) hstage
      · exact hout
  · exact ⟨hs.unique, hs.fresh⟩

/-- The row that is deleted was that of the guard alone. -/
theorem Separate.deleteRow (hs : Separate s) {i : ℕ} {g : LeaseGuard}
    (hget : s.guards[i]? = some g) (hclosing : g.stage = .closing) :
    Separate (s.deleteRow i g) := by
  have hguard : ∀ (j : ℕ) (g' : LeaseGuard), (s.deleteRow i g).guards[j]? = some g' →
      g'.stage ≠ .gone → s.guards[j]? = some g' := by
    intro j g' hj hstage
    unfold Locks.deleteRow Locks.modifyGuard at hj
    rw [List.getElem?_modify, List.getElem?_map] at hj
    obtain ⟨mid, hmid, rfl⟩ := Option.map_eq_some_iff.mp hj
    obtain ⟨old, hold, rfl⟩ := Option.map_eq_some_iff.mp hmid
    by_cases hij : i = j
    · rw [if_pos hij] at hstage
      exact absurd rfl hstage
    · rw [if_neg hij] at hstage ⊢
      by_cases hsame : old.holder = g.holder
      · -- another guard of the process would not be released yet either
        rw [if_pos hsame] at hstage
        refine absurd (hs.unique i j g old hget hold ?_ hstage hsame.symm) hij
        rw [hclosing]
        decide
      · rw [if_neg hsame]
        exact hold
  constructor
  · intro j k g' g'' hj hk hg' hg'' hsame
    exact hs.unique j k g' g'' (hguard j g' hj hg') (hguard k g'' hk hg'') hg' hg'' hsame
  · intro g' hg' hstage
    obtain ⟨j, hj⟩ := List.mem_iff_getElem?.mp hg'
    exact hs.fresh g' (List.mem_of_getElem? (hguard j g' hj hstage)) hstage

/-- So every step of single guards keeps them apart. -/
theorem Separate.step (s : Locks) (a : LockAction) (hs : Separate s) (ha : OneGuardEach s a) :
    Separate (s.step a) := by
  cases a with
  | tick ms => exact ⟨hs.unique, hs.fresh⟩
  | acquire holder => exact hs.acquire ha
  | acquireLost holder => exact ⟨hs.unique, hs.fresh⟩
  | renew i =>
    simp only [Locks.step]
    split
    · split
      · unfold Locks.renewGuard
        split
        · exact hs.ages (ages_modifyGuard fun g => ⟨rfl, id, rfl⟩)
        · exact hs.ages (ages_modifyGuard fun g => ⟨rfl, id, rfl⟩)
      · exact hs
    · exact hs
  | renewFails i lost =>
    simp only [Locks.step]
    split
    · split
      · exact hs.ages (ages_modifyGuard fun g => ⟨rfl, id, rfl⟩)
      · exact hs
    · exact hs
  | close i =>
    refine hs.ages (ages_modifyGuard fun g => ?_)
    split
    · rename_i hheld
      exact ⟨rfl, fun _ => by rw [hheld]; decide, rfl⟩
    · exact .refl g
  -- the guard that deletes is closing, so its session ends with the row
  | delete i =>
    simp only [Locks.step]
    split
    · rename_i g hget
      split
      · rename_i hclosing
        exact hs.deleteRow hget hclosing
      · exact hs
    · exact hs
  | deleteFails i =>
    refine hs.ages (ages_modifyGuard fun g => ?_)
    split
    · exact ⟨rfl, fun hgone => absurd rfl hgone, rfl⟩
    · exact .refl g
  | crash holder =>
    refine hs.ages fun j g' hget => ?_
    change (s.guards.map _)[j]? = some g' at hget
    rw [List.getElem?_map] at hget
    obtain ⟨g, hold, rfl⟩ := Option.map_eq_some_iff.mp hget
    refine ⟨g, hold, ?_⟩
    split
    · exact ⟨rfl, fun hgone => absurd rfl hgone, rfl⟩
    · exact .refl g

end

/-- **Leases exclude processes.** In every run two guards of different processes are not live at the
same time, unless another guard of one of the processes has deleted its row, and nobody else deletes
it. In every run in which no process is let in while it has an unreleased guard, no two guards are
live at the same time at all, and nobody deletes the row of a live guard. -/
theorem lease_exclusive (acts : List LockAction) :
    (∀ n, ProcessExclusive (run Locks.step .initial (acts.take n)))
      ∧ (Along Locks.step OneGuardEach .initial acts →
        ∀ n, Exclusive (run Locks.step .initial (acts.take n))) := by
  have hlocks : ∀ acts, LockInv (run Locks.step .initial acts) := fun acts =>
    run_induction (fun _ hg => absurd hg List.not_mem_nil) LockInv.step acts
  refine ⟨fun n => (hlocks _).processExclusive, fun halong n => ?_⟩
  have hseparate : Separate (run Locks.step .initial (acts.take n)) := by
    rw [← List.take_append_drop n acts, Along.append] at halong
    have hinitial : Separate .initial :=
      ⟨fun _ _ _ _ hi => (nomatch hi), fun _ hg => absurd hg List.not_mem_nil⟩
    exact run_induction_along hinitial Separate.step halong.1
  exact hseparate.exclusive (hlocks _)

namespace Demo

/-- Two tasks of process 1 acquire the lock, and the first one releases it; then process 2 is let
in. -/
def letInTwice : List LockAction :=
  [.acquire 1, .acquire 1, .close 0, .delete 0, .acquire 2]

/-- The lease of process 1 runs out and process 2 takes it over; then process 1 renews and deletes. -/
def takeover : List LockAction :=
  [.acquire 1, .tick 10000, .renew 0, .tick (leaseTtl + 1), .acquire 2, .renew 0, .close 0,
    .delete 0]

end Demo

instance (s : Locks) : (a : LockAction) → Decidable (OneGuardEach s a)
  | .acquire holder =>
    inferInstanceAs (Decidable (∀ g ∈ s.guards, g.holder = holder → g.stage = .gone))
  | .tick _ | .acquireLost _ | .renew _ | .renewFails _ _ | .close _ | .delete _ | .deleteFails _
  | .crash _ => inferInstanceAs (Decidable True)

/-- The late renewal and deletion of process 1 leave the row of process 2. -/
theorem lease_exclusive_takeover :
    Live (run Locks.step .initial Demo.takeover) ⟨2, .held, true, 40001 + leaseTtl, false⟩
      ∧ ∀ n, Exclusive (run Locks.step .initial (Demo.takeover.take n)) :=
  ⟨⟨rfl, by decide⟩, (lease_exclusive Demo.takeover).2 (by decide)⟩

/-- The second guard of process 1 and the guard of process 2 are both live. -/
theorem not_exclusive : ¬ Exclusive (run Locks.step .initial Demo.letInTwice) := by
  intro hexclusive
  have hlive := hexclusive.exclusive 1 2 ⟨1, .held, true, leaseTtl, true⟩
    ⟨2, .held, true, leaseTtl, false⟩ (by decide) (by decide) ⟨rfl, by decide⟩ ⟨rfl, by decide⟩
  omega

end Indexer

end Zerc20
