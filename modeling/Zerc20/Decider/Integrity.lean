import Zerc20.Decider.Jobs
import Mathlib.Data.String.Basic

/-!
# Integrity of the decider jobs

The entry of a job in the queue outlives its key: when the key has expired, a request with the same
job id makes a new key and a second entry, and the worker that pops the first entry writes under the
key of the second. `jobs_integrity` says that this, and an error text that cannot be cut at
`MAX_ERROR_LEN`, are all that can go wrong. The invariant behind it is `Inv`: the jobs that are
queued or with a worker have different ids, and a key with such an id was created for the job.
-/

namespace Zerc20

namespace Decider

open Machine

variable {Coins : Type} {engine : Engine Coins}

/-! ## What is in flight -/

def Phase.job : Phase → Option Job
  | .idle => none
  | .stopped => none
  | .updating job _ _ _ _ => some job
  | .saving job _ _ => some job
  | .proving job _ => some job

/-- Where a job can be. -/
inductive Slot where
  | queued (i : ℕ)
  | worker (w : ℕ)
  deriving DecidableEq

namespace Prover

def jobAt (s : Prover) : Slot → Option Job
  | .queued i => s.queue[i]?
  | .worker w => (s.workers w).job

/-- The job is queued, or a worker has it. -/
def InFlight (s : Prover) (job : Job) : Prop := ∃ slot, s.jobAt slot = some job

end Prover

def JobState.Settled (state : JobState) : Prop :=
  state.status = .completed ∨ state.status = .failed

/-- The result is a decider proof of the request. -/
def Genuine (engine : Engine Coins) (request : JobRequest) (result : Option String) : Prop :=
  ∃ proofBytes coins proof, decodeBase64 engine request.ivcProof = .ok proofBytes
    ∧ engine.generateDeciderProof coins request.circuit proofBytes = .ok proof
    ∧ result = some (engine.base64Encode proof)

/-- What the code relies on at a step: a job id is not used again after its key expired while the
earlier job is still in flight, and the text of an error can be cut. -/
def Orderly (engine : Engine Coins) (s : Prover) : Action Coins → Prop
  | .post request =>
    validateJobRequest engine request = .ok () → s.liveKey request.jobId = none →
      ∀ job, s.InFlight job → job.request.jobId ≠ request.jobId
  | .pass _ => True
  | .work w coins =>
    ∀ job alive proofBytes text, s.workers w = .proving job alive →
      decodeBase64 engine job.request.ivcProof = .ok proofBytes →
      engine.generateDeciderProof coins job.request.circuit proofBytes = .error text →
      truncateError text ≠ none

/-! ## The invariant -/

/-- What a worker is about to write. -/
def Phase.Writes (engine : Engine Coins) : Phase → Prop
  | .idle => True
  | .stopped => True
  | .updating job _ status result _ => status = .completed → Genuine engine job.request result
  | .saving job _ state => state.jobId = job.request.jobId
    ∧ (state.status = .completed → Genuine engine job.request state.result)
  | .proving _ _ => True

structure Inv (engine : Engine Coins) (s : Prover) : Prop where
  apart : ∀ {a b job job'}, s.jobAt a = some job → s.jobAt b = some job' → a ≠ b →
    job.request.jobId ≠ job'.request.jobId ∧ job.ticket ≠ job'.ticket
  valid : ∀ {job}, s.InFlight job → ∃ proofBytes,
    decodeBase64 engine job.request.ivcProof = .ok proofBytes
  tickets : ∀ {job}, s.InFlight job → job.ticket < s.tickets
  origin : ∀ {job key}, s.InFlight job → s.liveKey job.request.jobId = some key → key.origin = job
  unsettled : ∀ {job key}, s.InFlight job → s.liveKey job.request.jobId = some key →
    ¬ key.state.Settled
  jobIds : ∀ {jobId key}, s.liveKey jobId = some key → key.state.jobId = jobId
  writes : ∀ w, (s.workers w).Writes engine
  genuine : ∀ {jobId key}, s.liveKey jobId = some key → key.state.status = .completed →
    Genuine engine key.origin.request key.state.result
  finishedTickets : ∀ {f}, f ∈ s.finished → f.1.ticket < s.tickets
  finishedApart : ∀ {f job}, f ∈ s.finished → s.InFlight job → f.1.ticket ≠ job.ticket
  noneLeft : ∀ {f key}, f ∈ s.finished → s.liveKey f.1.request.jobId = some key →
    key.origin.ticket = f.1.ticket → key.state.status ≠ .processing

/-- Nothing is in flight at first. -/
theorem inv_init : Inv engine Prover.init := by
  have hnone : ∀ slot, Prover.init.jobAt slot = none := by
    intro slot
    cases slot <;> rfl
  have hflight : ∀ {job}, ¬ Prover.init.InFlight job := by
    rintro job ⟨slot, hslot⟩
    rw [hnone] at hslot
    cases hslot
  have hkey : ∀ {jobId key}, Prover.init.liveKey jobId ≠ some key := nofun
  constructor
  case apart => intro a b job job' ha; rw [hnone] at ha; cases ha
  case valid => exact fun h => absurd h hflight
  case tickets => exact fun h => absurd h hflight
  case origin => exact fun h => absurd h hflight
  case unsettled => exact fun h => absurd h hflight
  case jobIds => exact fun h => absurd h hkey
  case writes => exact fun _ => trivial
  case genuine => exact fun h => absurd h hkey
  case finishedTickets => exact fun h => nomatch h
  case finishedApart => exact fun h => nomatch h
  case noneLeft => exact fun h => nomatch h

/-! ## Steps that write no key -/

/-- The jobs in flight are among the earlier ones, and so are the keys. -/
structure From (s s' : Prover) : Prop where
  slots : ∃ f : Slot → Slot, Function.Injective f
    ∧ ∀ a job, s'.jobAt a = some job → s.jobAt (f a) = some job
  keys : ∀ jobId key', s'.liveKey jobId = some key' → ∃ key, s.liveKey jobId = some key
    ∧ key.state = key'.state ∧ key.origin = key'.origin
  tickets : s'.tickets = s.tickets

/-- A step that only moves jobs on brings no new job into flight. -/
theorem From.inFlight {s s' : Prover} (hfrom : From s s') {job : Job} (hjob : s'.InFlight job) :
    s.InFlight job := by
  obtain ⟨f, -, hf⟩ := hfrom.slots
  obtain ⟨slot, hslot⟩ := hjob
  exact ⟨f slot, hf slot job hslot⟩

/-- The invariant after such a step. -/
theorem Inv.of_from {s s' : Prover} (hinv : Inv engine s) (hfrom : From s s')
    (hwrites : ∀ w, (s'.workers w).Writes engine)
    (hfinished : ∀ f ∈ s'.finished, f ∈ s.finished ∨ f.1.ticket < s.tickets
      ∧ (∀ job, s'.InFlight job → f.1.ticket ≠ job.ticket)
      ∧ ∀ key, s'.liveKey f.1.request.jobId = some key → key.state.status ≠ .processing) :
    Inv engine s' := by
  constructor
  -- two slots of the new state come from two of the old
  case apart =>
    intro a b job job' ha hb hne
    obtain ⟨f, hinj, hf⟩ := hfrom.slots
    exact hinv.apart (hf a job ha) (hf b job' hb) fun heq => hne (hinj heq)
  case valid => exact fun hjob => hinv.valid (hfrom.inFlight hjob)
  case tickets =>
    intro job hjob
    rw [hfrom.tickets]
    exact hinv.tickets (hfrom.inFlight hjob)
  case origin =>
    intro job key' hjob hkey'
    obtain ⟨key, hkey, -, horigin⟩ := hfrom.keys _ _ hkey'
    rw [← horigin]
    exact hinv.origin (hfrom.inFlight hjob) hkey
  case unsettled =>
    intro job key' hjob hkey'
    obtain ⟨key, hkey, hstate, -⟩ := hfrom.keys _ _ hkey'
    rw [← hstate]
    exact hinv.unsettled (hfrom.inFlight hjob) hkey
  case jobIds =>
    intro jobId key' hkey'
    obtain ⟨key, hkey, hstate, -⟩ := hfrom.keys _ _ hkey'
    rw [← hstate]
    exact hinv.jobIds hkey
  case writes => exact hwrites
  -- a key that is there was there, with its state and its origin
  case genuine =>
    intro jobId key' hkey' hstatus
    obtain ⟨key, hkey, hstate, horigin⟩ := hfrom.keys _ _ hkey'
    rw [← hstate] at hstatus ⊢
    rw [← horigin]
    exact hinv.genuine hkey hstatus
  case finishedTickets =>
    intro f hf
    rw [hfrom.tickets]
    rcases hfinished f hf with hold | ⟨hticket, -⟩
    · exact hinv.finishedTickets hold
    · exact hticket
  case finishedApart =>
    intro f job hf hjob
    rcases hfinished f hf with hold | ⟨-, hapart, -⟩
    · exact hinv.finishedApart hold (hfrom.inFlight hjob)
    · exact hapart job hjob
  case noneLeft =>
    intro f key' hf hkey' hticket
    rcases hfinished f hf with hold | ⟨-, -, hnone⟩
    · obtain ⟨key, hkey, hstate, horigin⟩ := hfrom.keys _ _ hkey'
      rw [← hstate]
      exact hinv.noneLeft hold hkey (horigin ▸ hticket)
    · exact hnone key' hkey'

/-- A key is live when it was written and has not expired. -/
theorem liveKey_eq_some {s : Prover} {jobId : String} {key : JobKey} :
    s.liveKey jobId = some key ↔ s.keys jobId = some key ∧ s.now < key.expiresAt := by
  unfold Prover.liveKey
  cases s.keys jobId with
  | none => simp
  | some other =>
    by_cases hlive : s.now < other.expiresAt
    · simp only [if_pos hlive, Option.some.injEq]
      exact ⟨fun heq => ⟨heq, heq ▸ hlive⟩, And.left⟩
    · simp only [if_neg hlive, Option.some.injEq]
      refine ⟨nofun, ?_⟩
      rintro ⟨rfl, hlt⟩
      exact absurd hlt hlive

/-- Writing a live key changes the answer for its own job id only. -/
theorem liveKey_setKey (s : Prover) (jobId : String) (key : JobKey)
    (hlive : s.now < key.expiresAt) (other : String) :
    (s.setKey jobId key).liveKey other = if other = jobId then some key else s.liveKey other := by
  unfold Prover.liveKey Prover.setKey
  by_cases heq : other = jobId
  · subst heq
    simp only [Function.update_self, if_pos hlive, if_true]
  · simp only [Function.update_of_ne heq, if_neg heq]

/-- Time only lets keys expire. -/
theorem pass_from (s : Prover) (seconds : ℕ) : From s { s with now := s.now + seconds } where
  slots := ⟨id, Function.injective_id, fun _ _ hjob => hjob⟩
  keys jobId key' hkey' := by
    rw [liveKey_eq_some] at hkey'
    exact ⟨key', liveKey_eq_some.mpr ⟨hkey'.1, Nat.lt_of_le_of_lt (Nat.le_add_right _ _) hkey'.2⟩,
      rfl, rfl⟩
  tickets := rfl

/-- A repeated request only extends the life of the key. -/
theorem extend_from {s : Prover} {jobId : String} {key : JobKey} (hkey : s.liveKey jobId = some key)
    (engine : Engine Coins) :
    From s (s.setKey jobId { key with expiresAt := s.now + engine.jobTtlSeconds }) where
  slots := ⟨id, Function.injective_id, fun _ _ hjob => hjob⟩
  keys other key' hkey' := by
    rw [liveKey_setKey _ _ _ (Nat.lt_add_of_pos_right engine.jobTtlSeconds_pos)] at hkey'
    split at hkey'
    · rename_i heq
      cases hkey'
      exact ⟨key, heq ▸ hkey, rfl, rfl⟩
    · exact ⟨key', hkey', rfl, rfl⟩
  tickets := rfl

/-- The job of a worker is that of its phase; the other slots stay. -/
theorem jobAt_setWorker (s : Prover) (w : ℕ) (phase : Phase) (slot : Slot) :
    (s.setWorker w phase).jobAt slot = if slot = .worker w then phase.job else s.jobAt slot := by
  cases slot with
  | queued i => rfl
  | worker v =>
    by_cases heq : v = w
    · subst heq
      simp [Prover.jobAt, Prover.setWorker]
    · simp [Prover.jobAt, Prover.setWorker, heq]

/-- A worker that moves writes what its new phase says. -/
theorem writes_setWorker {s : Prover} (hinv : Inv engine s) {w : ℕ} {phase : Phase}
    (hphase : phase.Writes engine) (v : ℕ) : ((s.setWorker w phase).workers v).Writes engine := by
  by_cases heq : v = w
  · subst heq
    simpa [Prover.setWorker] using hphase
  · simpa [Prover.setWorker, heq] using hinv.writes v

/-- A worker goes on with its job, or has none any more. -/
theorem setWorker_from {s : Prover} {w : ℕ} {phase : Phase}
    (hjob : ∀ job, phase.job = some job → (s.workers w).job = some job) :
    From s (s.setWorker w phase) where
  slots := by
    refine ⟨id, Function.injective_id, fun slot job hslot => ?_⟩
    rw [jobAt_setWorker] at hslot
    split at hslot
    · rename_i heq
      subst heq
      exact hjob job hslot
    · exact hslot
  keys jobId key' hkey' := ⟨key', hkey', rfl, rfl⟩
  tickets := rfl

/-- A popped job leaves the queue for its worker. -/
theorem pop_from {s : Prover} {w : ℕ} {phase : Phase} {job : Job} {queue : List Job}
    (hqueue : s.queue = job :: queue) (hphase : phase.job = some job) (popped : List ℕ) :
    From s { s.setWorker w phase with queue := queue, popped := popped } where
  slots := by
    -- the queue moves up by one and its head is the worker's
    refine ⟨fun slot => match slot with
      | .queued i => .queued (i + 1)
      | .worker v => if v = w then .queued 0 else .worker v, ?_, ?_⟩
    · rintro (i | v) (j | v') heq
      · exact congrArg Slot.queued (Nat.succ.inj (Slot.queued.inj heq))
      · simp only at heq
        split at heq <;> cases heq
      · simp only at heq
        split at heq <;> cases heq
      · simp only at heq
        split at heq
        · split at heq
          · rename_i hv hv'
            rw [hv, hv']
          · cases heq
        · split at heq
          · cases heq
          · exact heq
    · rintro (i | v) other hother
      · show s.queue[i + 1]? = some other
        rw [hqueue]
        exact hother
      · have hworker : (s.setWorker w phase).jobAt (.worker v) = some other := hother
        rw [jobAt_setWorker] at hworker
        by_cases hv : v = w
        · subst hv
          rw [if_pos rfl, hphase] at hworker
          simp only [if_true]
          show s.queue[0]? = some other
          rw [hqueue]
          exact hworker
        · rw [if_neg fun heq => hv (Slot.worker.inj heq)] at hworker
          simp only [if_neg hv]
          exact hworker
  keys jobId key' hkey' := ⟨key', hkey', rfl, rfl⟩
  tickets := rfl

/-! ## Requests -/

/-- A request is refused, or enqueued. -/
theorem post_cases (engine : Engine Coins) (s : Prover) (request : JobRequest) :
    step engine s (.post request) = s
      ∨ validateJobRequest engine request = .ok ()
        ∧ step engine s (.post request) = (enqueueJob engine s request).1 := by
  show commit s ((submitJob engine s request).map Prod.fst) = s ∨ _
    ∧ commit s ((submitJob engine s request).map Prod.fst) = _
  rw [submitJob]
  cases hvalid : validateJobRequest engine request with
  | error message => exact Or.inl rfl
  | ok _ =>
    right
    refine ⟨rfl, ?_⟩
    obtain ⟨s', created, state⟩ := enqueueJob engine s request
    cases created <;> rfl

/-- A request that was accepted has a proof that decodes. -/
theorem decode_of_validate {request : JobRequest}
    (hvalid : validateJobRequest engine request = .ok ()) :
    ∃ proofBytes, decodeBase64 engine request.ivcProof = .ok proofBytes := by
  obtain ⟨_, -, hvalid⟩ := bind_eq_ok.mp hvalid
  obtain ⟨_, -, hvalid⟩ := bind_eq_ok.mp hvalid
  obtain ⟨proofBytes, hdecode, -⟩ := bind_eq_ok.mp hvalid
  exact ⟨proofBytes, hdecode⟩

/-- The new job, and the jobs that were there. -/
theorem jobAt_concat {s : Prover} {job : Job} {slot : Slot} {other : Job}
    {keys : String → Option JobKey} {tickets : ℕ}
    (hslot : ({ s with keys := keys, queue := s.queue ++ [job], tickets := tickets } : Prover).jobAt
      slot = some other) :
    s.jobAt slot = some other ∨ slot = .queued s.queue.length ∧ other = job := by
  cases slot with
  | worker w => exact Or.inl hslot
  | queued i =>
    have hget : (s.queue ++ [job])[i]? = some other := hslot
    rw [List.getElem?_append] at hget
    split at hget
    · exact Or.inl hget
    · rename_i hi
      -- past the old queue there is one place
      have hzero : i - s.queue.length = 0 := by
        by_contra hne
        rw [List.getElem?_eq_none (by rw [List.length_singleton]; omega)] at hget
        cases hget
      rw [hzero] at hget
      cases hget
      exact Or.inr ⟨by congr; omega, rfl⟩

/-- A new request under an unused job id keeps the invariant. -/
theorem create_inv {s : Prover} (hinv : Inv engine s) {request : JobRequest}
    (hvalid : validateJobRequest engine request = .ok ())
    (hdead : s.liveKey request.jobId = none)
    (hunused : ∀ job, s.InFlight job → job.request.jobId ≠ request.jobId) :
    Inv engine (enqueueJob engine s request).1 := by
  obtain ⟨s', hs'⟩ : ∃ s', (enqueueJob engine s request).1 = s' := ⟨_, rfl⟩
  -- the only new slot is the last one of the queue
  have hslots : ∀ {slot job}, s'.jobAt slot = some job → s.jobAt slot = some job
      ∨ slot = .queued s.queue.length ∧ job = ⟨s.tickets, request⟩ := by
    intro slot job hslot
    rw [← hs', enqueueJob, hdead] at hslot
    exact jobAt_concat hslot
  have hflight : ∀ {job}, s'.InFlight job → s.InFlight job ∨ job = ⟨s.tickets, request⟩ := by
    rintro job ⟨slot, hslot⟩
    rcases hslots hslot with hold | ⟨-, hnew⟩
    · exact Or.inl ⟨slot, hold⟩
    · exact Or.inr hnew
  -- and the only new key that of the request
  have hkeys : ∀ jobId, s'.liveKey jobId = if jobId = request.jobId
      then some ⟨⟨request.jobId, request.circuit, .queued, none, none⟩,
        s.now + engine.jobTtlSeconds, ⟨s.tickets, request⟩⟩
      else s.liveKey jobId := by
    intro jobId
    rw [← hs', enqueueJob, hdead]
    exact liveKey_setKey _ _ _ (Nat.lt_add_of_pos_right engine.jobTtlSeconds_pos) jobId
  have htickets : s'.tickets = s.tickets + 1 := by rw [← hs', enqueueJob, hdead]
  have hworkers : s'.workers = s.workers := by
    rw [← hs', enqueueJob, hdead]
    rfl
  have hfinished : s'.finished = s.finished := by
    rw [← hs', enqueueJob, hdead]
    rfl
  rw [hs']
  constructor
  -- the new job has a fresh ticket and an unused job id
  case apart =>
    intro a b job job' ha hb hne
    rcases hslots ha with hold | ⟨rfl, rfl⟩
    · have hlt := hinv.tickets ⟨a, hold⟩
      rcases hslots hb with hold' | ⟨rfl, rfl⟩
      · exact hinv.apart hold hold' hne
      · exact ⟨hunused job ⟨a, hold⟩, Nat.ne_of_lt hlt⟩
    · rcases hslots hb with hold' | ⟨rfl, rfl⟩
      · have hlt := hinv.tickets ⟨b, hold'⟩
        exact ⟨(hunused job' ⟨b, hold'⟩).symm, Nat.ne_of_gt hlt⟩
      · exact absurd rfl hne
  case valid =>
    intro job hjob
    rcases hflight hjob with hold | rfl
    · exact hinv.valid hold
    · exact decode_of_validate hvalid
  case tickets =>
    intro job hjob
    rw [htickets]
    rcases hflight hjob with hold | rfl
    · exact Nat.lt_succ_of_lt (hinv.tickets hold)
    · exact Nat.lt_succ_self _
  case origin =>
    intro job key hjob hkey
    rw [hkeys] at hkey
    rcases hflight hjob with hold | rfl
    · rw [if_neg (hunused job hold)] at hkey
      exact hinv.origin hold hkey
    · rw [if_pos rfl] at hkey
      cases hkey
      rfl
  case unsettled =>
    intro job key hjob hkey
    rw [hkeys] at hkey
    rcases hflight hjob with hold | rfl
    · rw [if_neg (hunused job hold)] at hkey
      exact hinv.unsettled hold hkey
    · rw [if_pos rfl] at hkey
      cases hkey
      rintro (hstatus | hstatus) <;> cases hstatus
  case jobIds =>
    intro jobId key hkey
    rw [hkeys] at hkey
    split at hkey
    · rename_i heq
      cases hkey
      exact heq.symm
    · exact hinv.jobIds hkey
  case writes =>
    intro w
    rw [hworkers]
    exact hinv.writes w
  case genuine =>
    intro jobId key hkey hstatus
    rw [hkeys] at hkey
    split at hkey
    · cases hkey
      cases hstatus
    · exact hinv.genuine hkey hstatus
  case finishedTickets =>
    intro f hf
    rw [htickets]
    exact Nat.lt_succ_of_lt (hinv.finishedTickets (hfinished ▸ hf))
  case finishedApart =>
    intro f job hf hjob
    rcases hflight hjob with hold | rfl
    · exact hinv.finishedApart (hfinished ▸ hf) hold
    · exact Nat.ne_of_lt (hinv.finishedTickets (hfinished ▸ hf))
  case noneLeft =>
    intro f key hf hkey hticket
    rw [hkeys] at hkey
    split at hkey
    · cases hkey
      exact JobStatus.noConfusion
    · exact hinv.noneLeft (hfinished ▸ hf) hkey hticket

/-- A request keeps the invariant, whether it is refused, repeated or new. -/
theorem post_inv {s : Prover} (hinv : Inv engine s) {request : JobRequest}
    (horderly : Orderly engine s (.post request)) :
    Inv engine (step engine s (.post request)) := by
  rcases post_cases engine s request with heq | ⟨hvalid, heq⟩
  · rw [heq]
    exact hinv
  · rw [heq]
    cases hkey : s.liveKey request.jobId with
    | none => exact create_inv hinv hvalid hkey (horderly hvalid hkey)
    | some key =>
      rw [enqueueJob, hkey]
      exact hinv.of_from (extend_from hkey engine) hinv.writes fun f hf => Or.inl hf

/-! ## Worker steps -/

/-- A worker that is done: the job is nowhere any more. -/
theorem finish_apart {s : Prover} (hinv : Inv engine s) {w : ℕ} {job : Job} {next : Phase}
    (hheld : (s.workers w).job = some job) (hnext : next.job = none) (other : Job)
    (hother : (s.setWorker w next).InFlight other) :
    job.request.jobId ≠ other.request.jobId ∧ job.ticket ≠ other.ticket := by
  obtain ⟨slot, hslot⟩ := hother
  rw [jobAt_setWorker] at hslot
  split at hslot
  · rw [hnext] at hslot
    cases hslot
  · rename_i hne
    exact hinv.apart (a := .worker w) hheld hslot (Ne.symm hne)

/-- A worker is done without a write, and the job has no key that says `processing`. -/
theorem finish_inv {s : Prover} (hinv : Inv engine s) {w : ℕ} {job : Job} (next : Phase)
    (hheld : (s.workers w).job = some job) (hnext : next.job = none)
    (hnextWrites : next.Writes engine) (alive : Bool)
    (hkey : ∀ key, s.liveKey job.request.jobId = some key → key.state.status ≠ .processing) :
    Inv engine (s.finish w job alive next) := by
  have hfrom : From s (s.setWorker w next) :=
    setWorker_from fun other hother => by rw [hnext] at hother; cases hother
  refine hinv.of_from ⟨hfrom.slots, hfrom.keys, hfrom.tickets⟩
    (writes_setWorker hinv hnextWrites) fun f hf => ?_
  rcases List.mem_cons.mp hf with rfl | hold
  · refine Or.inr ⟨hinv.tickets ⟨.worker w, hheld⟩, fun other hother => ?_, hkey⟩
    exact (finish_apart hinv hheld hnext other hother).2
  · exact Or.inl hold

/-- The key that a worker writes was created for its job. -/
theorem saveJob_origin {s : Prover} (hinv : Inv engine s) {job : Job} (hjob : s.InFlight job) :
    ((s.liveKey job.request.jobId).map JobKey.origin).getD job = job := by
  cases hkey : s.liveKey job.request.jobId with
  | none => rfl
  | some key => exact hinv.origin hjob hkey

/-- A worker writes the key of its job, and goes on with it only if the job is not settled. -/
theorem save_inv {s s' : Prover} (hinv : Inv engine s) {w : ℕ} {job : Job} {alive : Bool}
    {state : JobState} {next : Phase} (hphase : s.workers w = .saving job alive state)
    (hs' : ∃ finished, s' = { (s.saveJob engine job state).setWorker w next with
      finished := finished } ∧ ∀ f ∈ finished, f ∈ s.finished
        ∨ f.1 = job ∧ next.job = none ∧ state.status ≠ .processing)
    (hwrites : next.Writes engine)
    (hnext : ∀ other, next.job = some other → other = job ∧ ¬ state.Settled) : Inv engine s' := by
  obtain ⟨finished, rfl, hfinished⟩ := hs'
  have hheld : (s.workers w).job = some job := by rw [hphase]; rfl
  have hjob : s.InFlight job := ⟨.worker w, hheld⟩
  obtain ⟨hid, hresult⟩ : state.jobId = job.request.jobId
      ∧ (state.status = .completed → Genuine engine job.request state.result) := by
    have hw := hinv.writes w
    rwa [hphase] at hw
  generalize hs' : ({ (s.saveJob engine job state).setWorker w next with
    finished := finished } : Prover) = s'
  have hslots : ∀ {slot other}, s'.jobAt slot = some other →
      s.jobAt slot = some other ∧ (slot = .worker w → ¬ state.Settled) := by
    intro slot other hslot
    have hset : (s.setWorker w next).jobAt slot = some other := by
      rw [← hs'] at hslot
      cases slot <;> exact hslot
    rw [jobAt_setWorker] at hset
    split at hset
    · rename_i heq
      obtain ⟨rfl, hunsettled⟩ := hnext other hset
      exact ⟨heq ▸ hheld, fun _ => hunsettled⟩
    · rename_i hne
      exact ⟨hset, fun heq => absurd heq hne⟩
  have hflight : ∀ {other}, s'.InFlight other → s.InFlight other :=
    fun ⟨slot, hslot⟩ => ⟨slot, (hslots hslot).1⟩
  -- another job in flight has another id
  have hsame : ∀ {other}, s'.InFlight other → other.request.jobId = job.request.jobId →
      other = job ∧ ¬ state.Settled := by
    rintro other ⟨slot, hslot⟩ heq
    obtain ⟨hold, hunsettled⟩ := hslots hslot
    by_cases hw : slot = .worker w
    · subst hw
      exact ⟨Option.some.inj (hold.symm.trans hheld), hunsettled rfl⟩
    · exact absurd heq (hinv.apart hold (b := .worker w) hheld hw).1
  have hkeys : ∀ jobId, s'.liveKey jobId = if jobId = job.request.jobId
      then some ⟨state, s.now + engine.jobTtlSeconds, job⟩ else s.liveKey jobId := by
    intro jobId
    have hset := liveKey_setKey s state.jobId ⟨state, s.now + engine.jobTtlSeconds,
      ((s.liveKey state.jobId).map JobKey.origin).getD job⟩
      (Nat.lt_add_of_pos_right engine.jobTtlSeconds_pos) jobId
    rw [hid, saveJob_origin hinv hjob] at hset
    rw [← hs', ← hset, Prover.saveJob, hid, saveJob_origin hinv hjob]
    rfl
  have htickets : s'.tickets = s.tickets := by rw [← hs']; rfl
  have hfin : s'.finished = finished := by rw [← hs']
  constructor
  case apart =>
    intro a b other other' ha hb hne
    exact hinv.apart (hslots ha).1 (hslots hb).1 hne
  case valid => exact fun hother => hinv.valid (hflight hother)
  case tickets =>
    intro other hother
    rw [htickets]
    exact hinv.tickets (hflight hother)
  case origin =>
    intro other key hother hkey
    rw [hkeys] at hkey
    split at hkey
    · rename_i heq
      cases hkey
      exact (hsame hother heq).1.symm
    · exact hinv.origin (hflight hother) hkey
  case unsettled =>
    intro other key hother hkey
    rw [hkeys] at hkey
    split at hkey
    · rename_i heq
      cases hkey
      exact (hsame hother heq).2
    · exact hinv.unsettled (hflight hother) hkey
  case jobIds =>
    intro jobId key hkey
    rw [hkeys] at hkey
    split at hkey
    · rename_i heq
      cases hkey
      exact hid.trans heq.symm
    · exact hinv.jobIds hkey
  case writes =>
    intro v
    rw [← hs']
    exact writes_setWorker hinv hwrites v
  case genuine =>
    intro jobId key hkey hstatus
    rw [hkeys] at hkey
    split at hkey
    · cases hkey
      exact hresult hstatus
    · exact hinv.genuine hkey hstatus
  case finishedTickets =>
    intro f hf
    rw [htickets]
    rcases hfinished f (hfin ▸ hf) with hold | ⟨heq, -⟩
    · exact hinv.finishedTickets hold
    · rw [heq]
      exact hinv.tickets hjob
  case finishedApart =>
    rintro f other hf ⟨slot, hslot⟩
    rcases hfinished f (hfin ▸ hf) with hold | ⟨heq, hnone, -⟩
    · exact hinv.finishedApart hold (hflight ⟨slot, hslot⟩)
    · rw [heq]
      refine (finish_apart hinv hheld hnone other ⟨slot, ?_⟩).2
      rw [← hs'] at hslot
      cases slot <;> exact hslot
  case noneLeft =>
    intro f key hf hkey hticket
    rw [hkeys] at hkey
    rcases hfinished f (hfin ▸ hf) with hold | ⟨heq, -, hstatus⟩
    · split at hkey
      · cases hkey
        exact absurd hticket.symm (hinv.finishedApart hold hjob)
      · exact hinv.noneLeft hold hkey hticket
    · rw [heq, if_pos rfl] at hkey
      cases hkey
      exact hstatus

/-- A statement of a worker keeps the invariant, as long as the key of its job lives. -/
theorem work_inv {s : Prover} (hinv : Inv engine s) {w : ℕ} {coins : Coins}
    (horderly : Orderly engine s (.work w coins)) : Inv engine (s.work engine w coins) := by
  have hwrites := hinv.writes w
  have hgoesOn : ∀ {phase : Phase}, (∀ job, phase.job = some job → (s.workers w).job = some job) →
      phase.Writes engine → Inv engine (s.setWorker w phase) := by
    intro phase hjob hphase
    exact hinv.of_from (setWorker_from hjob) (writes_setWorker hinv hphase) fun f hf => Or.inl hf
  have hcases := work_cases engine s w coins
  generalize s.work engine w coins = s' at hcases ⊢
  cases hcases with
  | waits => exact hinv
  | pops job queue hqueue =>
    have hnew : (Phase.updating job (s.liveKey job.request.jobId).isSome .processing none
      none).Writes engine := nofun
    exact hinv.of_from (pop_from hqueue rfl _) (writes_setWorker hinv hnew) fun f hf => Or.inl hf
  | misses job alive status result error hphase hkey =>
    exact finish_inv hinv .idle (by rw [hphase]; rfl) rfl trivial alive fun key hsome => by
      rw [hkey] at hsome
      cases hsome
  | reads job alive status result error key hphase hkey =>
    rw [hphase] at hwrites
    exact hgoesOn (fun other hother => by rw [hphase]; exact hother) ⟨hinv.jobIds hkey, hwrites⟩
  | starts job alive state hphase hstatus =>
    refine save_inv hinv hphase ⟨s.finished, rfl, fun f hf => Or.inl hf⟩ trivial ?_
    intro other hother
    refine ⟨(Option.some.inj hother).symm, ?_⟩
    rintro (hsettled | hsettled) <;> rw [hstatus] at hsettled <;> cases hsettled
  | stores job alive state hphase hstatus =>
    refine save_inv hinv hphase ⟨(job, alive) :: s.finished, rfl, fun f hf => ?_⟩ trivial nofun
    rcases List.mem_cons.mp hf with rfl | hold
    · exact Or.inr ⟨rfl, rfl, hstatus⟩
    · exact Or.inl hold
  | refuses job alive message hphase hdecode =>
    -- the request was checked
    obtain ⟨proofBytes, hvalid⟩ := hinv.valid ⟨.worker w, by rw [Prover.jobAt, hphase]; rfl⟩
    rw [hdecode] at hvalid
    cases hvalid
  | proves job alive proofBytes proof hphase hdecode hproof =>
    exact hgoesOn (fun other hother => by rw [hphase]; exact hother)
      fun _ => ⟨proofBytes, coins, proof, hdecode, hproof, rfl⟩
  | fails job alive proofBytes text error hphase hdecode hproof htext =>
    exact hgoesOn (fun other hother => by rw [hphase]; exact hother) nofun
  | panics job alive proofBytes text hphase hdecode hproof htext =>
    exact absurd htext (horderly job alive proofBytes text hphase hdecode hproof)

/-- Every orderly step keeps the invariant. -/
theorem step_inv {s : Prover} (hinv : Inv engine s) (act : Action Coins)
    (horderly : Orderly engine s act) : Inv engine (step engine s act) := by
  cases act with
  | post request => exact post_inv hinv horderly
  | pass seconds => exact hinv.of_from (pass_from s seconds) hinv.writes fun f hf => Or.inl hf
  | work w coins => exact work_inv hinv horderly

/-! ## Settled keys -/

/-- A settled key stays as it is, or expires. -/
theorem step_settled {s : Prover} (hinv : Inv engine s) (act : Action Coins) {jobId : String}
    {key : JobKey} (hkey : s.liveKey jobId = some key) (hsettled : key.state.Settled) :
    (step engine s act).liveKey jobId = none
      ∨ ∃ key', (step engine s act).liveKey jobId = some key' ∧ key'.state = key.state := by
  cases act with
  | post request =>
    right
    rcases post_cases engine s request with heq | ⟨-, heq⟩
    · rw [heq]
      exact ⟨key, hkey, rfl⟩
    · rw [heq, enqueueJob]
      by_cases hid : jobId = request.jobId
      · subst hid
        rw [hkey]
        refine ⟨_, (liveKey_setKey _ _ _ ?_ _).trans (if_pos rfl), rfl⟩
        exact Nat.lt_add_of_pos_right engine.jobTtlSeconds_pos
      · refine ⟨key, ?_, rfl⟩
        cases s.liveKey request.jobId with
        | none =>
          refine (liveKey_setKey s request.jobId _ ?_ jobId).trans ((if_neg hid).trans hkey)
          exact Nat.lt_add_of_pos_right engine.jobTtlSeconds_pos
        | some other =>
          refine (liveKey_setKey s request.jobId _ ?_ jobId).trans ((if_neg hid).trans hkey)
          exact Nat.lt_add_of_pos_right engine.jobTtlSeconds_pos
  | pass seconds =>
    cases hkey' : (step engine s (.pass seconds)).liveKey jobId with
    | none => exact Or.inl rfl
    | some key' =>
      obtain ⟨old, hold, hstate, -⟩ := (pass_from s seconds).keys jobId key' hkey'
      rw [hkey] at hold
      cases hold
      exact Or.inr ⟨key', rfl, hstate.symm⟩
  | work w coins =>
    right
    refine ⟨key, ?_, rfl⟩
    -- a worker that writes has a job with another id
    have hsaved : ∀ {job alive state}, s.workers w = .saving job alive state →
        (s.saveJob engine job state).liveKey jobId = some key := by
      intro job alive state hphase
      have hwrites := hinv.writes w
      rw [hphase] at hwrites
      have hid : jobId ≠ state.jobId := by
        rintro rfl
        refine hinv.unsettled ⟨.worker w, ?_⟩ (hwrites.1 ▸ hkey) hsettled
        rw [Prover.jobAt, hphase]
        rfl
      refine (liveKey_setKey s state.jobId _ ?_ jobId).trans ((if_neg hid).trans hkey)
      exact Nat.lt_add_of_pos_right engine.jobTtlSeconds_pos
    show (s.work engine w coins).liveKey jobId = some key
    have hcases := work_cases engine s w coins
    generalize s.work engine w coins = s' at hcases ⊢
    cases hcases with
    | starts job alive state hphase hstatus => exact hsaved hphase
    | stores job alive state hphase hstatus => exact hsaved hphase
    | _ => exact hkey

/-- So does every orderly run. -/
theorem run_inv {s : Prover} (hinv : Inv engine s) {acts : List (Action Coins)}
    (halong : Along (step engine) (Orderly engine) s acts) :
    Inv engine (run (step engine) s acts) :=
  run_induction_along hinv (fun _ act ht horderly => step_inv ht act horderly) halong

/-- A settled key over a run. -/
theorem run_settled {s : Prover} (hinv : Inv engine s) {acts : List (Action Coins)}
    (halong : Along (step engine) (Orderly engine) s acts) {jobId : String} {key : JobKey}
    (hkey : s.liveKey jobId = some key) (hsettled : key.state.Settled) :
    (∃ xs, xs <+: acts ∧ (run (step engine) s xs).liveKey jobId = none)
      ∨ ∃ key', (run (step engine) s acts).liveKey jobId = some key'
        ∧ key'.state = key.state := by
  induction acts generalizing s key with
  | nil => exact Or.inr ⟨key, hkey, rfl⟩
  | cons act acts ih =>
    obtain ⟨horderly, hrest⟩ := halong
    rcases step_settled hinv act hkey hsettled with hdead | ⟨key', hkey', hstate⟩
    · exact Or.inl ⟨[act], List.prefix_append [act] acts, hdead⟩
    · rcases ih (step_inv hinv act horderly) hrest hkey' (hstate ▸ hsettled) with
        ⟨xs, hxs, hdead⟩ | ⟨key'', hkey'', hstate'⟩
      · exact Or.inl ⟨act :: xs, List.cons_prefix_cons.mpr ⟨rfl, hxs⟩, hdead⟩
      · exact Or.inr ⟨key'', hkey'', hstate'.trans hstate⟩

/-! ## Pops -/

/-- A request is queued once, and popped at most once. -/
structure PoppedOnce (s : Prover) : Prop where
  nodup : (s.popped ++ s.queue.map Job.ticket).Nodup
  issued : ∀ t ∈ s.popped ++ s.queue.map Job.ticket, t < s.tickets

/-- No step pops a job twice: tickets are given once, and a popped job does not come back to the
queue. -/
theorem step_poppedOnce {s : Prover} (hs : PoppedOnce s) (act : Action Coins) :
    PoppedOnce (step engine s act) := by
  cases act with
  | post request =>
    rcases post_cases engine s request with heq | ⟨-, heq⟩
    · rw [heq]
      exact hs
    · rw [heq, enqueueJob]
      cases s.liveKey request.jobId with
      | some key => exact ⟨hs.nodup, hs.issued⟩
      | none =>
        -- the new ticket comes last
        have hsplit : s.popped ++ (s.queue ++ [(⟨s.tickets, request⟩ : Job)]).map Job.ticket
            = s.popped ++ s.queue.map Job.ticket ++ [s.tickets] := by
          rw [List.map_append, List.map_singleton, List.append_assoc]
        refine ⟨?_, ?_⟩
        · show (s.popped ++ (s.queue ++ [(⟨s.tickets, request⟩ : Job)]).map Job.ticket).Nodup
          rw [hsplit, List.nodup_append]
          refine ⟨hs.nodup, List.nodup_singleton _, fun t ht t' ht' => ?_⟩
          rw [List.mem_singleton] at ht'
          rw [ht']
          exact Nat.ne_of_lt (hs.issued t ht)
        · show ∀ t ∈ s.popped ++ (s.queue ++ [(⟨s.tickets, request⟩ : Job)]).map Job.ticket,
            t < s.tickets + 1
          rw [hsplit]
          intro t ht
          rcases List.mem_append.mp ht with hold | hnew
          · exact Nat.lt_succ_of_lt (hs.issued t hold)
          · rw [List.mem_singleton.mp hnew]
            exact Nat.lt_succ_self _
  | pass seconds => exact ⟨hs.nodup, hs.issued⟩
  | work w coins =>
    show PoppedOnce (s.work engine w coins)
    have hcases := work_cases engine s w coins
    generalize s.work engine w coins = s' at hcases ⊢
    cases hcases with
    | pops job queue hqueue =>
      -- a popped ticket changes its list
      have hperm : (job.ticket :: s.popped ++ queue.map Job.ticket).Perm
          (s.popped ++ s.queue.map Job.ticket) := by
        rw [hqueue]
        exact List.perm_middle.symm
      exact ⟨hperm.nodup_iff.mpr hs.nodup, fun t ht => hs.issued t (hperm.mem_iff.mp ht)⟩
    | _ => exact ⟨hs.nodup, hs.issued⟩

/-! ## Integrity -/

/-- What the prover owes to its callers, in the run `acts` of an empty prover. -/
structure Integrity (engine : Engine Coins) (acts : List (Action Coins)) : Prop where
  /-- A settled key keeps its status and its result until it expires. -/
  kept : ∀ xs ys, xs ++ ys = acts → ∀ jobId key,
    (run (step engine) .init xs).liveKey jobId = some key → key.state.Settled →
      (∃ zs, zs <+: ys ∧ (run (step engine) .init (xs ++ zs)).liveKey jobId = none)
        ∨ ∃ key', (run (step engine) .init acts).liveKey jobId = some key'
          ∧ key'.state.status = key.state.status ∧ key'.state.result = key.state.result
  /-- A result is a proof of the request that the key was created for. -/
  genuine : ∀ jobId key, (run (step engine) .init acts).liveKey jobId = some key →
    key.state.status = .completed → Genuine engine key.origin.request key.state.result
  /-- No request is popped twice. -/
  poppedOnce : (run (step engine) .init acts).popped.Nodup
  /-- No job that a worker is done with is left in `processing`. -/
  noneLeft : ∀ job, (job, true) ∈ (run (step engine) .init acts).finished → ∀ key,
    (run (step engine) .init acts).liveKey job.request.jobId = some key →
      key.origin.ticket = job.ticket → key.state.status ≠ .processing

/-- **Job integrity.** It holds in every run in which no job id is used again while an earlier job
with that id, whose key has expired, is still in flight, and in which every long error text can be
cut. -/
theorem jobs_integrity {Coins : Type} (engine : Engine Coins) (acts : List (Action Coins))
    (horderly : Along (step engine) (Orderly engine) Prover.init acts) : Integrity engine acts := by
  have hinv : Inv engine (run (step engine) .init acts) := run_inv inv_init horderly
  refine ⟨?_, ?_, ?_, ?_⟩
  · rintro xs ys rfl jobId key hkey hsettled
    obtain ⟨hxs, hys⟩ := Along.append.mp horderly
    -- the settled key has expired on the way, or is still the same
    rcases run_settled (run_inv inv_init hxs) hys hkey hsettled with
      ⟨zs, hzs, hdead⟩ | ⟨key', hkey', hstate⟩
    · refine Or.inl ⟨zs, hzs, ?_⟩
      rw [run_append]
      exact hdead
    · refine Or.inr ⟨key', ?_, by rw [hstate], by rw [hstate]⟩
      rw [run_append]
      exact hkey'
  · intro jobId key hkey hstatus
    exact hinv.genuine hkey hstatus
  · have hinit : PoppedOnce Prover.init := ⟨List.nodup_nil, nofun⟩
    have hpopped : PoppedOnce (run (step engine) .init acts) :=
      run_induction hinit (fun _ act ht => step_poppedOnce ht act) acts
    exact (List.nodup_append.mp hpopped.nodup).1
  · intro job hjob key hkey hticket
    exact hinv.noneLeft hjob hkey hticket

namespace JobsExample

/-- Keys live for some time. -/
theorem jobTtlSeconds_pos : 0 < 10 := by decide

/-- Base64 of the payloads below, and a prover that adds ten to the byte it is given. -/
def prover : Engine Unit where
  jobTtlSeconds := 10
  jobTtlSeconds_pos := jobTtlSeconds_pos
  enableWithdrawLocal := false
  base64Decode cs :=
    if cs = "AQ==".toList then some [1] else if cs = "Ag==".toList then some [2] else none
  base64Encode bytes := if bytes = [11] then "Cw==" else "DA=="
  generateDeciderProof _ _ bytes := .ok (bytes.map (· + 10))

/-- A text of 513 bytes, all but the first in characters of four bytes. -/
def longText : String := String.ofList ('x' :: List.replicate 128 '𝄞')

def failing (text : String) : Engine Unit :=
  { prover with generateDeciderProof := fun _ _ _ => .error text }

def first : JobRequest := ⟨"job", .root, "AQ=="⟩

def second : JobRequest := ⟨"job", .root, "Ag=="⟩

/-- A job is done, and its id is used again. -/
def orderly : List (Action Unit) := .post first :: List.replicate 6 (.work 0 ()) ++ [.post second]

/-- The key expires while the job waits, and the id is used again. -/
def reused : List (Action Unit) :=
  [.post first, .pass 10, .post second] ++ List.replicate 6 (.work 0 ())

def started : List (Action Unit) := .post first :: List.replicate 3 (.work 0 ())

/-- The text cannot be cut. -/
def panicked : List (Action Unit) := started ++ [.work 0 ()]

/-- A text whose byte 512 is inside a character cannot be truncated. -/
theorem truncateError_longText : truncateError longText = none := by
  have hcut : ∀ cs : List Char, MAX_ERROR_LEN < String.utf8Len cs →
      sliceTo MAX_ERROR_LEN cs = none → truncateError (String.ofList cs) = none := by
    intro cs hlong hslice
    rw [truncateError, String.utf8ByteSize_ofList, if_neg (Nat.not_le.mpr hlong),
      String.toList_ofList, hslice]
    rfl
  exact hcut _ (by decide +kernel) (by decide +kernel)

/-- The worker is gone, and the key as it was. -/
theorem run_panicked {text : String} (htext : truncateError text = none) :
    (run (step (failing text)) .init panicked).finished = [(⟨0, first⟩, true)]
      ∧ (run (step (failing text)) .init panicked).liveKey "job"
        = some ⟨⟨"job", .root, .processing, none, none⟩, 10, ⟨0, first⟩⟩ := by
  have hphase : (run (step (failing text)) .init started).workers 0 = .proving ⟨0, first⟩ true := rfl
  have hkey : (run (step (failing text)) .init started).liveKey "job"
      = some ⟨⟨"job", .root, .processing, none, none⟩, 10, ⟨0, first⟩⟩ := rfl
  have hdecode : decodeBase64 (failing text) first.ivcProof = .ok [1] := rfl
  have hproof : (failing text).generateDeciderProof () first.circuit [1] = .error text := rfl
  have hlast : run (step (failing text)) .init panicked
      = (run (step (failing text)) .init started).finish 0 ⟨0, first⟩ true .stopped := by
    rw [panicked, run_concat]
    show (run (step (failing text)) .init started).work (failing text) 0 () = _
    rw [Prover.work, hphase]
    simp only [hdecode, hproof, htext]
  rw [hlast]
  exact ⟨rfl, hkey⟩

/-- Nothing is in flight at first. -/
theorem not_inFlight_init (job : Job) : ¬ Prover.init.InFlight job := by
  rintro ⟨i | w, hslot⟩ <;> cases hslot

/-- Every step of the example is orderly. -/
theorem orderly_along : Along (step prover) (Orderly prover) Prover.init orderly := by
  have hwork : ∀ s : Prover, Orderly prover s (.work 0 ()) := by
    intro s job alive proofBytes text _ _ herror
    cases herror
  refine ⟨fun _ _ job hjob => absurd hjob (not_inFlight_init job), hwork _, hwork _, hwork _,
    hwork _, hwork _, hwork _, ?_, trivial⟩
  intro _ hdead
  exact absurd hdead (by decide +kernel)

end JobsExample

/-- Two clients and two workers; both jobs are completed. -/
theorem jobs_integrity_orderly :
    Integrity JobsExample.prover JobsExample.orderly
      ∧ (run (step JobsExample.prover) .init JobsExample.orderly).liveKey "job"
        = some ⟨⟨"job", .root, .completed, some "Cw==", none⟩, 10, ⟨0, JobsExample.first⟩⟩ :=
  ⟨jobs_integrity _ _ JobsExample.orderly_along, by decide +kernel⟩

/-- A job id that is used again gets the proof of the earlier payload, and an error text with a
letter across the limit leaves its job in `processing`. -/
theorem jobs_integrity_broken :
    ¬ Integrity JobsExample.prover JobsExample.reused
      ∧ ¬ Integrity (JobsExample.failing JobsExample.longText) JobsExample.panicked := by
  constructor
  · intro hintegrity
    have hkey : (run (step JobsExample.prover) .init JobsExample.reused).liveKey "job"
        = some ⟨⟨"job", .root, .completed, some "Cw==", none⟩, 20, ⟨1, JobsExample.second⟩⟩ := by
      decide +kernel
    obtain ⟨proofBytes, coins, proof, hdecode, hproof, hresult⟩ :=
      hintegrity.genuine "job" _ hkey rfl
    have hpayload : decodeBase64 JobsExample.prover JobsExample.second.ivcProof = .ok [2] := by
      decide +kernel
    rw [hpayload] at hdecode
    cases hdecode
    cases hproof
    exact absurd hresult (by decide +kernel)
  -- the message is cut in the middle of a character
  · intro hintegrity
    obtain ⟨hfinished, hkey⟩ := JobsExample.run_panicked JobsExample.truncateError_longText
    refine hintegrity.noneLeft ⟨0, JobsExample.first⟩ ?_ _ hkey rfl rfl
    rw [hfinished]
    exact List.mem_cons_self

end Decider

end Zerc20
