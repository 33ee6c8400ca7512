import Zerc20.Client.AggregationRoot
import Mathlib.Data.List.Nodup

/-!
# The jobs of the decider prover

The job queue of `decider-prover/src/queue.rs`, the endpoint `POST /jobs` of `main.rs` and the loop
of a worker, `worker.rs`. A job has two traces in Redis: an entry of the queue, which carries the
payload and stays until it is popped, and a key, which carries the status and expires.

A worker is embedded by the Redis calls that it makes, one call a step: `update_status` reads the
key and writes it in two of them. The texts of a job are kept as texts, the values that go through
JSON as values. A key knows for which request it was created, and the state which requests were
popped and which a worker is done with; no step reads these.
-/

namespace Zerc20

namespace Decider

open Machine

/-! ## Requests and keys -/

inductive CircuitKind where
  | root
  | withdrawLocal
  | withdrawGlobal
  deriving DecidableEq

inductive JobStatus where
  | queued
  | processing
  | completed
  | failed
  deriving DecidableEq

def JobStatus.text : JobStatus → String
  | .queued => "queued"
  | .processing => "processing"
  | .completed => "completed"
  | .failed => "failed"

structure JobRequest where
  jobId : String
  circuit : CircuitKind
  ivcProof : String
  deriving DecidableEq

structure JobState where
  jobId : String
  circuit : CircuitKind
  status : JobStatus
  result : Option String
  error : Option String
  deriving DecidableEq

structure SubmitJobResponse where
  jobId : String
  status : JobStatus
  message : String
  deriving DecidableEq

/-- A request that was answered `job queued`, with its number among them. -/
structure Job where
  ticket : ℕ
  request : JobRequest
  deriving DecidableEq

/-- A job key; `origin` is the job that it was created for. -/
structure JobKey where
  state : JobState
  expiresAt : ℕ
  origin : Job
  deriving DecidableEq

/-- The configuration, and the libraries: base64 and the circuits. A proof is made with `Coins`. -/
structure Engine (Coins : Type) where
  jobTtlSeconds : ℕ
  jobTtlSeconds_pos : 0 < jobTtlSeconds
  enableWithdrawLocal : Bool
  base64Decode : List Char → Option (List UInt8)
  base64Encode : List UInt8 → String
  generateDeciderProof : Coins → CircuitKind → List UInt8 → Except String (List UInt8)

/-- Where a worker is in `process_once`; a job goes with whether its key was alive at the pop. -/
inductive Phase where
  | idle
  | stopped
  | updating (job : Job) (alive : Bool) (status : JobStatus) (result error : Option String)
  | saving (job : Job) (alive : Bool) (state : JobState)
  | proving (job : Job) (alive : Bool)

structure Prover where
  now : ℕ
  keys : String → Option JobKey
  queue : List Job
  workers : ℕ → Phase
  tickets : ℕ
  popped : List ℕ
  finished : List (Job × Bool)

namespace Prover

def init : Prover where
  now := 0
  keys _ := none
  queue := []
  workers _ := .idle
  tickets := 0
  popped := []
  finished := []

/-- The key of a job, unless it has expired. -/
def liveKey (s : Prover) (jobId : String) : Option JobKey :=
  match s.keys jobId with
  | some key => if s.now < key.expiresAt then some key else none
  | none => none

/-- `get_job`. -/
def getJob (s : Prover) (jobId : String) : Option JobState := (s.liveKey jobId).map JobKey.state

def setKey (s : Prover) (jobId : String) (key : JobKey) : Prover :=
  { s with keys := Function.update s.keys jobId (some key) }

/-- `save_job`, for a job: an expired key is created again. -/
def saveJob {Coins : Type} (engine : Engine Coins) (s : Prover) (job : Job) (state : JobState) :
    Prover :=
  s.setKey state.jobId {
    state := state
    expiresAt := s.now + engine.jobTtlSeconds
    origin := ((s.liveKey state.jobId).map JobKey.origin).getD job }

end Prover

/-! ## `POST /jobs` -/

section

variable {Coins : Type} (engine : Engine Coins)

/-- `decode_base64`, and the check of `ensure_base64_payload`. -/
def decodeBase64 (input : String) : Except String (List UInt8) := do
  let trimmed := Client.trim input.toList
  require (trimmed ≠ []) "ivc_proof payload is empty"
  okOr (engine.base64Decode trimmed) "ivc_proof must be valid base64"

def validateJobRequest (request : JobRequest) : Except String Unit := do
  require (Client.trim request.jobId.toList ≠ []) "job_id must not be empty"
  require (request.circuit = .withdrawLocal → engine.enableWithdrawLocal = true)
    "withdraw_local circuit is disabled in this prover"
  let _ ← decodeBase64 engine request.ivcProof

/-- `ENQUEUE_JOB_LUA`; the flag says that the key was created. -/
def enqueueJob (s : Prover) (request : JobRequest) : Prover × Bool × JobState :=
  match s.liveKey request.jobId with
  | some key =>
    (s.setKey request.jobId { key with expiresAt := s.now + engine.jobTtlSeconds }, false, key.state)
  | none =>
    let state : JobState := ⟨request.jobId, request.circuit, .queued, none, none⟩
    let job : Job := ⟨s.tickets, request⟩
    ({ s.setKey request.jobId ⟨state, s.now + engine.jobTtlSeconds, job⟩ with
        queue := s.queue ++ [job]
        tickets := s.tickets + 1 }, true, state)

def submitJob (s : Prover) (request : JobRequest) : Except String (Prover × SubmitJobResponse) := do
  validateJobRequest engine request
  match enqueueJob engine s request with
  | (s', true, state) => return (s', ⟨state.jobId, state.status, "job queued"⟩)
  | (s', false, existing) =>
    return (s', ⟨existing.jobId, existing.status,
      "job " ++ existing.jobId ++ " already exists with status " ++ existing.status.text⟩)

end

/-! ## A worker -/

def MAX_ERROR_LEN : ℕ := 512

/-- `&message[..n]`; `none` when `n` is inside a character, where the slice panics. -/
def sliceTo : ℕ → List Char → Option (List Char)
  | 0, _ => some []
  | _ + 1, [] => none
  | n + 1, c :: cs =>
    if c.utf8Size ≤ n + 1 then (sliceTo (n + 1 - c.utf8Size) cs).map (c :: ·) else none
termination_by structural _ cs => cs

def truncateError (message : String) : Option String :=
  if message.utf8ByteSize ≤ MAX_ERROR_LEN then some message
  else (sliceTo MAX_ERROR_LEN message.toList).map fun cs => String.ofList cs ++ "..."

namespace Prover

section

variable {Coins : Type} (engine : Engine Coins)

def setWorker (s : Prover) (w : ℕ) (phase : Phase) : Prover :=
  { s with workers := Function.update s.workers w phase }

/-- The worker is done with the job, and waits for the next one or is gone. -/
def finish (s : Prover) (w : ℕ) (job : Job) (alive : Bool) (next : Phase) : Prover :=
  { s.setWorker w next with finished := (job, alive) :: s.finished }

/-- The next step of a worker. -/
def work (s : Prover) (w : ℕ) (coins : Coins) : Prover :=
  match s.workers w with
  | .idle =>
    -- `wait_for_job`
    match s.queue with
    | [] => s
    | job :: queue =>
      { s.setWorker w (.updating job (s.liveKey job.request.jobId).isSome .processing none none) with
        queue := queue
        popped := job.ticket :: s.popped }
  | .updating job alive status result error =>
    match s.getJob job.request.jobId with
    | none => s.finish w job alive .idle
    | some state =>
      s.setWorker w
        (.saving job alive { state with status := status, result := result, error := error })
  | .saving job alive state =>
    if state.status = .processing then (s.saveJob engine job state).setWorker w (.proving job alive)
    else (s.saveJob engine job state).finish w job alive .idle
  | .proving job alive =>
    match decodeBase64 engine job.request.ivcProof with
    | .error _ => s.finish w job alive .idle
    | .ok proofBytes =>
      match engine.generateDeciderProof coins job.request.circuit proofBytes with
      | .ok proof =>
        s.setWorker w (.updating job alive .completed (some (engine.base64Encode proof)) none)
      | .error text =>
        match truncateError text with
        | some error => s.setWorker w (.updating job alive .failed none (some error))
        | none => s.finish w job alive .stopped
  | .stopped => s

end

end Prover

inductive Action (Coins : Type) where
  | post (request : JobRequest)
  | pass (seconds : ℕ)
  | work (w : ℕ) (coins : Coins)

section

variable {Coins : Type} (engine : Engine Coins)

def step (s : Prover) : Action Coins → Prover
  | .post request => commit s ((submitJob engine s request).map Prod.fst)
  | .pass seconds => { s with now := s.now + seconds }
  | .work w coins => s.work engine w coins

end

/-! ## What a step of a worker can do -/

section

variable {Coins : Type} (engine : Engine Coins)

inductive Worked (s : Prover) (w : ℕ) (coins : Coins) : Prover → Prop where
  | waits : Worked s w coins s
  | pops (job : Job) (queue : List Job) (hqueue : s.queue = job :: queue) :
      Worked s w coins
        { s.setWorker w (.updating job (s.liveKey job.request.jobId).isSome .processing none none)
          with queue := queue, popped := job.ticket :: s.popped }
  | misses (job : Job) (alive : Bool) (status : JobStatus) (result error : Option String)
      (hphase : s.workers w = .updating job alive status result error)
      (hkey : s.liveKey job.request.jobId = none) : Worked s w coins (s.finish w job alive .idle)
  | reads (job : Job) (alive : Bool) (status : JobStatus) (result error : Option String)
      (key : JobKey) (hphase : s.workers w = .updating job alive status result error)
      (hkey : s.liveKey job.request.jobId = some key) :
      Worked s w coins (s.setWorker w (.saving job alive
        { key.state with status := status, result := result, error := error }))
  | starts (job : Job) (alive : Bool) (state : JobState)
      (hphase : s.workers w = .saving job alive state) (hstatus : state.status = .processing) :
      Worked s w coins ((s.saveJob engine job state).setWorker w (.proving job alive))
  | stores (job : Job) (alive : Bool) (state : JobState)
      (hphase : s.workers w = .saving job alive state) (hstatus : state.status ≠ .processing) :
      Worked s w coins ((s.saveJob engine job state).finish w job alive .idle)
  | refuses (job : Job) (alive : Bool) (message : String)
      (hphase : s.workers w = .proving job alive)
      (hdecode : decodeBase64 engine job.request.ivcProof = .error message) :
      Worked s w coins (s.finish w job alive .idle)
  | proves (job : Job) (alive : Bool) (proofBytes proof : List UInt8)
      (hphase : s.workers w = .proving job alive)
      (hdecode : decodeBase64 engine job.request.ivcProof = .ok proofBytes)
      (hproof : engine.generateDeciderProof coins job.request.circuit proofBytes = .ok proof) :
      Worked s w coins
        (s.setWorker w (.updating job alive .completed (some (engine.base64Encode proof)) none))
  | fails (job : Job) (alive : Bool) (proofBytes : List UInt8) (text error : String)
      (hphase : s.workers w = .proving job alive)
      (hdecode : decodeBase64 engine job.request.ivcProof = .ok proofBytes)
      (hproof : engine.generateDeciderProof coins job.request.circuit proofBytes = .error text)
      (htext : truncateError text = some error) :
      Worked s w coins (s.setWorker w (.updating job alive .failed none (some error)))
  | panics (job : Job) (alive : Bool) (proofBytes : List UInt8) (text : String)
      (hphase : s.workers w = .proving job alive)
      (hdecode : decodeBase64 engine job.request.ivcProof = .ok proofBytes)
      (hproof : engine.generateDeciderProof coins job.request.circuit proofBytes = .error text)
      (htext : truncateError text = none) : Worked s w coins (s.finish w job alive .stopped)

theorem work_cases (s : Prover) (w : ℕ) (coins : Coins) :
    Worked engine s w coins (s.work engine w coins) := by
  unfold Prover.work
  -- one case for each phase of the worker
  split
  · split
    · exact .waits
    · rename_i job queue hqueue
      exact .pops job queue hqueue
  · rename_i job alive status result error hphase
    split
    · rename_i hread
      exact .misses job alive status result error hphase (Option.map_eq_none_iff.mp hread)
    · rename_i state hread
      obtain ⟨key, hkey, rfl⟩ := Option.map_eq_some_iff.mp hread
      exact .reads job alive status result error key hphase hkey
  · rename_i job alive state hphase
    split
    · rename_i hstatus
      exact .starts job alive state hphase hstatus
    · rename_i hstatus
      exact .stores job alive state hphase hstatus
  · rename_i job alive hphase
    split
    · rename_i message hdecode
      exact .refuses job alive message hphase hdecode
    · rename_i proofBytes hdecode
      split
      · rename_i proof hproof
        exact .proves job alive proofBytes proof hphase hdecode hproof
      · rename_i text hproof
        split
        · rename_i error htext
          exact .fails job alive proofBytes text error hphase hdecode hproof htext
        · rename_i htext
          exact .panics job alive proofBytes text hphase hdecode hproof htext
  · exact .waits

end

end Decider

end Zerc20
