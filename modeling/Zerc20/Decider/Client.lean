import Zerc20.Decider.Integrity
import Zerc20.Lib.Base64

/-!
# The client of the decider prover

`HttpDeciderClient` of `client-common/src/prover/mod.rs`, from which the indexer and the command
line get their decider proofs. A request is posted under a job id of its own, and the status of the
job is polled until it is settled or the time is up.

The client and the prover take their steps in any order; the requests of other clients are among
the steps of the prover. Every exchange takes three turns of the client: the request is sent, it
arrives, and its answer comes back. Between them the prover works and time passes, and each of the
two messages can be lost (`Link`). An exchange that takes longer than the HTTP client allows fails.

The job id is a random UUID, so no other client uses it. Copies of the own request that arrive late
are among the steps of the prover.

`decider_client_answer` needs no condition on how long a job takes: when the key expires while the
job is in flight, the client is told so or runs out of time.
-/

namespace Zerc20

namespace Decider

open Machine

/-! ## The client -/

inductive DeciderError where
  | submitJob (circuit : CircuitKind)
  | submitJobStatus (circuit : CircuitKind)
  | statusRequest (circuit : CircuitKind)
  | statusRequestStatus (circuit : CircuitKind)
  | statusDecode (circuit : CircuitKind)
  | missingResult (jobId : String)
  | invalidResultPayload
  | emptyPayload
  | jobFailed (circuit : CircuitKind) (jobId errorMsg : String)
  | timeout (jobId : String) (timeout : ℕ)
  deriving DecidableEq

structure HttpDeciderClient where
  pollInterval : ℕ
  timeout : ℕ

/-- The limit of the HTTP client on one exchange, in seconds. -/
def HttpDeciderClient.requestTimeout (client : HttpDeciderClient) : ℕ := client.timeout + 5

/-- The arguments of `produce_decider_proof`, and the job id that it draws. -/
structure Call where
  jobId : String
  circuit : CircuitKind
  ivcProof : List UInt8

/-- How a message fares on the way. -/
inductive Link where
  | delivered
  /-- An error status comes back in its place. -/
  | internal
  /-- The connection breaks, before or after the headers of an answer. -/
  | broken (headers : Bool)
  deriving DecidableEq

/-- Where the client is in `produce_decider_proof`. An exchange is first on its way to the prover and
then on its way back; `sent` is when it began, and `wake` is the end of the client's sleep. -/
inductive ClientPhase where
  | ready
  | submitting (sent : ℕ)
  | submitted (sent : ℕ) (accepted : Bool)
  | polling (started wake : ℕ)
  | asking (started sent : ℕ)
  | told (started sent : ℕ) (status : Option JobState)
  | done (result : Except DeciderError (List UInt8))
  deriving DecidableEq

structure Session where
  service : Prover
  phase : ClientPhase

def Session.init : Session := ⟨Prover.init, .ready⟩

section

variable {Coins : Type} (engine : Engine Coins) (client : HttpDeciderClient) (call : Call)

def Call.request : JobRequest := ⟨call.jobId, call.circuit, engine.base64Encode call.ivcProof⟩

def decodeBase64Payload (value : String) : Except DeciderError (List UInt8) := do
  let trimmed := Client.trim value.toList
  require (trimmed ≠ []) .emptyPayload
  okOr (engine.base64Decode trimmed) .invalidResultPayload

namespace Session

def fail (s : Session) (error : DeciderError) : Session := ⟨s.service, .done (.error error)⟩

/-- `POST /jobs` arrives. -/
def submitArrives (s : Session) (sent : ℕ) (link : Link) : Session :=
  if s.service.now - sent > client.requestTimeout then s.fail (.submitJob call.circuit)
  else match link with
  | .broken _ => s.fail (.submitJob call.circuit)
  | .internal => s.fail (.submitJobStatus call.circuit)
  | .delivered =>
    match submitJob engine s.service (call.request engine) with
    | .error _ => ⟨s.service, .submitted sent false⟩
    | .ok (service, _) => ⟨service, .submitted sent true⟩

/-- The answer comes back; its body is not read. -/
def submitReturns (s : Session) (sent : ℕ) (accepted : Bool) (link : Link) : Session :=
  if s.service.now - sent > client.requestTimeout then s.fail (.submitJob call.circuit)
  else match link with
  | .broken false => s.fail (.submitJob call.circuit)
  | .internal => s.fail (.submitJobStatus call.circuit)
  | .delivered | .broken true =>
    if accepted then ⟨s.service, .polling s.service.now s.service.now⟩
    else s.fail (.submitJobStatus call.circuit)

/-- The head of the loop. -/
def poll (s : Session) (started : ℕ) : Session :=
  if s.service.now - started > client.timeout then s.fail (.timeout call.jobId client.timeout)
  else ⟨s.service, .asking started s.service.now⟩

/-- `GET /jobs/{job_id}` arrives, and the prover reads the job. -/
def statusArrives (s : Session) (started sent : ℕ) (link : Link) : Session :=
  if s.service.now - sent > client.requestTimeout then s.fail (.statusRequest call.circuit)
  else match link with
  | .broken _ => s.fail (.statusRequest call.circuit)
  | .internal => s.fail (.statusRequestStatus call.circuit)
  | .delivered => ⟨s.service, .told started sent (s.service.getJob call.jobId)⟩

/-- What the client makes of the status. -/
def settle (s : Session) (started : ℕ) (state : JobState) : Session :=
  match state.status with
  | .queued | .processing => ⟨s.service, .polling started (s.service.now + client.pollInterval)⟩
  | .completed => ⟨s.service, .done do
      let result ← okOr state.result (.missingResult call.jobId)
      decodeBase64Payload engine result⟩
  | .failed => s.fail (.jobFailed call.circuit call.jobId (state.error.getD "unknown error"))

/-- The status comes back; a job that is not there is answered with an error status. -/
def statusReturns (s : Session) (started sent : ℕ) (status : Option JobState) (link : Link) :
    Session :=
  if s.service.now - sent > client.requestTimeout then s.fail (.statusRequest call.circuit)
  else match link with
  | .broken false => s.fail (.statusRequest call.circuit)
  | .internal => s.fail (.statusRequestStatus call.circuit)
  | .delivered | .broken true =>
    match status with
    | none => s.fail (.statusRequestStatus call.circuit)
    | some state =>
      if link = .delivered then s.settle engine client call started state
      else s.fail (.statusDecode call.circuit)

def advance (s : Session) (link : Link) : Session :=
  match s.phase with
  | .ready => ⟨s.service, .submitting s.service.now⟩
  | .submitting sent => s.submitArrives engine client call sent link
  | .submitted sent accepted => s.submitReturns client call sent accepted link
  | .polling started wake => if s.service.now < wake then s else s.poll client call started
  | .asking started sent => s.statusArrives client call started sent link
  | .told started sent status => s.statusReturns engine client call started sent status link
  | .done _ => s

end Session

inductive Turn (Coins : Type) where
  | service (act : Action Coins)
  | client (link : Link)

def Session.turn (s : Session) : Turn Coins → Session
  | .service act => { s with service := Decider.step engine s.service act }
  | .client link => s.advance engine client call link

/-- Whatever is posted under the job id is the own request. -/
def Turn.Spares {Coins : Type} (engine : Engine Coins) (call : Call) : Turn Coins → Prop
  | .service (.post request) => request.jobId = call.jobId → request = call.request engine
  | .service (.pass _) => True
  | .service (.work _ _) => True
  | .client _ => True

instance Turn.decidableSpares {Coins : Type} (engine : Engine Coins) (call : Call) :
    (act : Turn Coins) → Decidable (act.Spares engine call)
  | .service (.post request) =>
    inferInstanceAs (Decidable (request.jobId = call.jobId → request = call.request engine))
  | .service (.pass _) | .service (.work _ _) | .client _ => inferInstanceAs (Decidable True)

end

variable {Coins : Type} {engine : Engine Coins} {client : HttpDeciderClient} {call : Call}

/-! ## The job of the client -/

/-- What a key may say about the job `request`. -/
inductive Reports (engine : Engine Coins) (request : JobRequest) :
    JobStatus → Option String → Option String → Prop where
  | queued : Reports engine request .queued none none
  | processing : Reports engine request .processing none none
  | completed (coins : Coins) (proofBytes proof : List UInt8)
      (hdecode : decodeBase64 engine request.ivcProof = .ok proofBytes)
      (hproof : engine.generateDeciderProof coins request.circuit proofBytes = .ok proof) :
      Reports engine request .completed (some (engine.base64Encode proof)) none
  | failed (coins : Coins) (proofBytes : List UInt8) (text error : String)
      (hdecode : decodeBase64 engine request.ivcProof = .ok proofBytes)
      (hproof : engine.generateDeciderProof coins request.circuit proofBytes = .error text)
      (htext : truncateError text = some error) :
      Reports engine request .failed none (some error)

/-- A worker with a job under the id has this job, and writes what the job came to. -/
def Phase.Serves (engine : Engine Coins) (request : JobRequest) : Phase → Prop
  | .idle => True
  | .stopped => True
  | .updating job _ status result error => job.request.jobId = request.jobId →
      job.request = request ∧ Reports engine request status result error
  | .saving job _ state => state.jobId = job.request.jobId ∧ (job.request.jobId = request.jobId →
      job.request = request ∧ Reports engine request state.status state.result state.error)
  | .proving job _ => job.request.jobId = request.jobId → job.request = request

/-- All that the prover has under the id is this request, however often it was posted. -/
structure Serves (engine : Engine Coins) (request : JobRequest) (s : Prover) : Prop where
  queue : ∀ job ∈ s.queue, job.request.jobId = request.jobId → job.request = request
  workers : ∀ w, (s.workers w).Serves engine request
  jobIds : ∀ jobId key, s.keys jobId = some key → key.state.jobId = jobId
  key : ∀ key, s.keys request.jobId = some key →
    Reports engine request key.state.status key.state.result key.state.error

namespace Serves

variable {request : JobRequest} {s : Prover}

/-- A prover without jobs serves every request. -/
theorem init : Serves engine request Prover.init :=
  ⟨nofun, fun _ => trivial, nofun, nofun⟩

/-- A worker may change to any phase that serves the request. -/
theorem setWorker (hs : Serves engine request s) (w : ℕ) {phase : Phase}
    (hphase : phase.Serves engine request) : Serves engine request (s.setWorker w phase) := by
  refine ⟨hs.queue, fun v => ?_, hs.jobIds, hs.key⟩
  show (Function.update s.workers w phase v).Serves engine request
  by_cases hv : v = w
  · subst hv
    rw [Function.update_self]
    exact hphase
  · rw [Function.update_of_ne hv]
    exact hs.workers v

/-- Finishing a job leaves the reports alone. -/
theorem finish (hs : Serves engine request s) {w : ℕ} {job : Job} {alive : Bool} {next : Phase}
    (hnext : next.Serves engine request) :
    Serves engine request (s.finish w job alive next) := by
  have hworker := hs.setWorker w hnext
  exact ⟨hworker.queue, hworker.workers, hworker.jobIds, hworker.key⟩

/-- A key of the request's id may be written when it reports the request. -/
theorem setKey (hs : Serves engine request s) (jobId : String) (key : JobKey)
    (hid : key.state.jobId = jobId) (hkey : jobId = request.jobId →
      Reports engine request key.state.status key.state.result key.state.error) :
    Serves engine request (s.setKey jobId key) := by
  have hcases : ∀ jobId' key', Function.update s.keys jobId (some key) jobId' = some key' →
      (jobId' = jobId ∧ key' = key) ∨ s.keys jobId' = some key' := by
    intro jobId' key' hkey'
    by_cases hsame : jobId' = jobId
    · subst hsame
      rw [Function.update_self] at hkey'
      exact Or.inl ⟨rfl, (Option.some.inj hkey').symm⟩
    · rw [Function.update_of_ne hsame] at hkey'
      exact Or.inr hkey'
  refine ⟨hs.queue, hs.workers, fun jobId' key' hkey' => ?_, fun key' hkey' => ?_⟩
  · rcases hcases jobId' key' hkey' with ⟨rfl, rfl⟩ | hold
    · exact hid
    · exact hs.jobIds jobId' key' hold
  · rcases hcases request.jobId key' hkey' with ⟨hsame, rfl⟩ | hold
    · exact hkey hsame.symm
    · exact hs.key key' hold

/-- Saving what a worker computed reports it. -/
theorem saveJob (hs : Serves engine request s) {w : ℕ} {job : Job} {alive : Bool}
    {state : JobState} (hphase : s.workers w = .saving job alive state) :
    Serves engine request (s.saveJob engine job state) := by
  have hworker := hs.workers w
  rw [hphase] at hworker
  exact hs.setKey _ _ rfl fun hsame => (hworker.2 (hworker.1 ▸ hsame)).2

/-- A request of another client, or this one once more. -/
theorem enqueue (hs : Serves engine request s) {posted : JobRequest}
    (hposted : posted.jobId = request.jobId → posted = request) :
    Serves engine request (enqueueJob engine s posted).1 := by
  rw [enqueueJob]
  cases hlive : s.liveKey posted.jobId with
  | some key =>
    -- nothing is queued; the key that is there is written back as it was
    obtain ⟨hkeys, -⟩ := liveKey_eq_some.mp hlive
    have hid := hs.jobIds _ _ hkeys
    refine hs.setKey _ ⟨key.state, _, key.origin⟩ hid fun hsame => hs.key key ?_
    rw [← hsame]
    exact hkeys
  | none =>
    have hkey := hs.setKey posted.jobId
      ⟨⟨posted.jobId, posted.circuit, .queued, none, none⟩, s.now + engine.jobTtlSeconds,
        ⟨s.tickets, posted⟩⟩ rfl fun _ => .queued
    refine ⟨fun job hjob hsame => ?_, hkey.workers, hkey.jobIds, hkey.key⟩
    rcases List.mem_append.mp hjob with hjob | hjob
    · exact hs.queue job hjob hsame
    · rw [List.mem_singleton] at hjob
      subst hjob
      exact hposted hsame

/-- A posted job of another id is another job. -/
theorem post (hs : Serves engine request s) {posted : JobRequest}
    (hposted : posted.jobId = request.jobId → posted = request) :
    Serves engine request (step engine s (.post posted)) := by
  rcases post_cases engine s posted with heq | ⟨-, heq⟩
  · rw [heq]
    exact hs
  · rw [heq]
    exact hs.enqueue hposted

/-- Every step of a worker keeps the prover serving the request. -/
theorem work (hs : Serves engine request s) (w : ℕ) (coins : Coins) :
    Serves engine request (s.work engine w coins) := by
  have hworker := hs.workers w
  have hcases := work_cases engine s w coins
  generalize s.work engine w coins = s' at hcases ⊢
  cases hcases with
  | waits => exact hs
  -- what is popped serves the request, if it has its job id
  | pops job queue hqueue =>
    have hmem : job ∈ s.queue := hqueue ▸ List.mem_cons_self
    have htaken : Phase.Serves engine request (.updating job
        (s.liveKey job.request.jobId).isSome .processing none none) :=
      fun hsame => ⟨hs.queue job hmem hsame, .processing⟩
    have hnext := hs.setWorker w htaken
    exact ⟨fun other hother => hs.queue other (hqueue ▸ List.mem_cons_of_mem _ hother),
      hnext.workers, hnext.jobIds, hnext.key⟩
  | misses => exact hs.finish trivial
  | reads job alive status result error key hphase hkey =>
    rw [hphase] at hworker
    exact hs.setWorker _ ⟨hs.jobIds _ _ (liveKey_eq_some.mp hkey).1, hworker⟩
  | starts job alive state hphase hstatus =>
    refine (hs.saveJob hphase).setWorker _ fun hsame => ?_
    rw [hphase] at hworker
    exact (hworker.2 hsame).1
  | stores job alive state hphase hstatus => exact (hs.saveJob hphase).finish trivial
  | refuses => exact hs.finish trivial
  -- the proof is of this request, because the job is
  | proves job alive proofBytes proof hphase hdecode hproof =>
    rw [hphase] at hworker
    refine hs.setWorker _ fun hsame => ⟨hworker hsame, ?_⟩
    rw [hworker hsame] at hdecode hproof
    exact .completed coins proofBytes proof hdecode hproof
  | fails job alive proofBytes text error hphase hdecode hproof htext =>
    rw [hphase] at hworker
    refine hs.setWorker _ fun hsame => ⟨hworker hsame, ?_⟩
    rw [hworker hsame] at hdecode hproof
    exact .failed coins proofBytes text error hdecode hproof htext
  | panics => exact hs.finish trivial

end Serves

/-! ## The key of the job -/

/-- The key was written, and lives until `expiry` at least. -/
def Kept (s : Prover) (jobId : String) (expiry : ℕ) : Prop :=
  ∃ key, s.keys jobId = some key ∧ expiry ≤ key.expiresAt

namespace Kept

variable {s : Prover} {jobId : String} {expiry : ℕ}

/-- A key of the request's id may be written when it reports the request. -/
theorem setKey (hs : Kept s jobId expiry) (other : String) {key : JobKey}
    (hkey : expiry ≤ key.expiresAt) : Kept (s.setKey other key) jobId expiry := by
  by_cases hsame : jobId = other
  · subst hsame
    exact ⟨key, Function.update_self .., hkey⟩
  · obtain ⟨old, hold, hle⟩ := hs
    exact ⟨old, (Function.update_of_ne hsame ..).trans hold, hle⟩

/-- The key of a job that was taken lasts for the time to live. -/
theorem enqueue_self (engine : Engine Coins) (s : Prover) (posted : JobRequest) :
    Kept (enqueueJob engine s posted).1 posted.jobId (s.now + engine.jobTtlSeconds) := by
  rw [enqueueJob]
  cases s.liveKey posted.jobId with
  | some key => exact ⟨_, Function.update_self .., Nat.le_refl _⟩
  | none => exact ⟨_, Function.update_self .., Nat.le_refl _⟩

/-- Every write starts the time to live again. -/
theorem step (hs : Kept s jobId expiry) (hle : expiry ≤ s.now + engine.jobTtlSeconds)
    (act : Action Coins) : Kept (Decider.step engine s act) jobId expiry := by
  have hsave : ∀ (job : Job) (state : JobState), Kept (s.saveJob engine job state) jobId expiry :=
    fun job state => hs.setKey _ hle
  cases act with
  | post posted =>
    rcases post_cases engine s posted with heq | ⟨-, heq⟩
    · rw [heq]
      exact hs
    · rw [heq, enqueueJob]
      cases s.liveKey posted.jobId with
      | some key => exact hs.setKey _ hle
      | none => exact hs.setKey _ hle
  | pass seconds => exact hs
  | work w coins =>
    show Kept (s.work engine w coins) jobId expiry
    have hcases := work_cases engine s w coins
    generalize s.work engine w coins = s' at hcases ⊢
    -- a worker writes a key only when it saves, and the save sets the expiry again
    cases hcases with
    | starts job alive state hphase hstatus => exact hsave job state
    | stores job alive state hphase hstatus => exact hsave job state
    | _ => exact hs

end Kept

theorem enqueueJob_now (engine : Engine Coins) (s : Prover) (posted : JobRequest) :
    (enqueueJob engine s posted).1.now = s.now := by
  rw [enqueueJob]
  cases s.liveKey posted.jobId <;> rfl

theorem le_step_now (s : Prover) (act : Action Coins) : s.now ≤ (step engine s act).now := by
  cases act with
  | post posted =>
    rcases post_cases engine s posted with heq | ⟨-, heq⟩
    · rw [heq]
    · rw [heq, enqueueJob_now]
  | pass seconds => exact Nat.le_add_right _ _
  | work w coins =>
    show s.now ≤ (s.work engine w coins).now
    have hcases := work_cases engine s w coins
    generalize s.work engine w coins = s' at hcases ⊢
    cases hcases <;> exact Nat.le_refl _

/-! ## What the client is told -/

/-- The base64 library: what is written reads back, and has no blanks in it. -/
structure Engine.Codec (engine : Engine Coins) : Prop where
  decode_encode : ∀ bytes, engine.base64Decode (engine.base64Encode bytes).toList = some bytes
  encode_nil : engine.base64Encode [] = ""
  blank : ∀ bytes, ∀ c ∈ (engine.base64Encode bytes).toList, Client.isWhitespace c = false

theorem Engine.Codec.trim (hcodec : engine.Codec) (bytes : List UInt8) :
    Client.trim (engine.base64Encode bytes).toList = (engine.base64Encode bytes).toList := by
  have hdrop : ∀ cs : List Char, (∀ c ∈ cs, Client.isWhitespace c = false) →
      cs.dropWhile Client.isWhitespace = cs := by
    intro cs hcs
    cases cs with
    | nil => rfl
    | cons c cs => rw [List.dropWhile_cons_of_neg (by simp [hcs c List.mem_cons_self])]
  rw [Client.trim, hdrop _ (hcodec.blank bytes), hdrop _ fun c hc =>
    hcodec.blank bytes c (List.mem_reverse.mp hc), List.reverse_reverse]

/-- What was encoded is decoded to itself. -/
theorem Engine.Codec.decodeBase64 (hcodec : engine.Codec) {bytes decoded : List UInt8}
    (hdecode : Decider.decodeBase64 engine (engine.base64Encode bytes) = .ok decoded) :
    decoded = bytes := by
  rw [Decider.decodeBase64, hcodec.trim, hcodec.decode_encode] at hdecode
  obtain ⟨_, -, hret⟩ := bind_eq_ok.mp hdecode
  exact (Option.some.inj (okOr_eq_ok.mp hret)).symm

/-- Only a proof of no bytes is not read back. -/
theorem Engine.Codec.decodePayload (hcodec : engine.Codec) (bytes : List UInt8) :
    decodeBase64Payload engine (engine.base64Encode bytes)
      = if bytes = [] then .error .emptyPayload else .ok bytes := by
  rw [decodeBase64Payload, hcodec.trim, hcodec.decode_encode]
  by_cases hbytes : bytes = []
  · rw [hbytes, hcodec.encode_nil]
    rfl
  · have hne : (engine.base64Encode bytes).toList ≠ [] := by
      intro hnil
      have hdecode := hcodec.decode_encode bytes
      have hempty := hcodec.decode_encode []
      rw [hcodec.encode_nil] at hempty
      rw [hnil] at hdecode
      exact hbytes (Option.some.inj (hdecode.symm.trans hempty))
    rw [if_neg hbytes, require_of hne]
    rfl

/-- When the exchange in which the job is submitted began. -/
def ClientPhase.submission : ClientPhase → Option ℕ
  | .submitting sent => some sent
  | .submitted sent _ => some sent
  | _ => none

/-- When the exchange in which the status is asked for began. -/
def ClientPhase.question : ClientPhase → Option ℕ
  | .asking _ sent => some sent
  | .told _ sent _ => some sent
  | _ => none

/-- The connection broke, or the exchange took longer than the HTTP client allows. -/
def Session.Lost (client : HttpDeciderClient) (s : Session) (sent : ℕ) (link : Link) : Prop :=
  (∃ headers, link = .broken headers) ∨ client.requestTimeout < s.service.now - sent

/-- The answers of `produce_decider_proof`, each with what it rests on. `Took s link` says that the
client took a turn in `s`, on `link`. -/
inductive Answer (engine : Engine Coins) (client : HttpDeciderClient) (call : Call)
    (Took : Session → Link → Prop) : Except DeciderError (List UInt8) → Prop where
  | proved (coins : Coins) (proof : List UInt8) (hne : proof ≠ [])
      (hproof : engine.generateDeciderProof coins call.circuit call.ivcProof = .ok proof) :
      Answer engine client call Took (.ok proof)
  | emptyProof (coins : Coins)
      (hproof : engine.generateDeciderProof coins call.circuit call.ivcProof = .ok []) :
      Answer engine client call Took (.error .emptyPayload)
  | failed (coins : Coins) (text error : String)
      (hproof : engine.generateDeciderProof coins call.circuit call.ivcProof = .error text)
      (htext : truncateError text = some error) :
      Answer engine client call Took (.error (.jobFailed call.circuit call.jobId error))
  | unsent (s : Session) (link : Link) (sent : ℕ) (hturn : Took s link)
      (hphase : s.phase.submission = some sent) (hlost : s.Lost client sent link) :
      Answer engine client call Took (.error (.submitJob call.circuit))
  | refused (hrefused : (∃ s, Took s .internal)
        ∨ validateJobRequest engine (call.request engine) ≠ .ok ()) :
      Answer engine client call Took (.error (.submitJobStatus call.circuit))
  | lost (s : Session) (link : Link) (sent : ℕ) (hturn : Took s link)
      (hphase : s.phase.question = some sent) (hlost : s.Lost client sent link) :
      Answer engine client call Took (.error (.statusRequest call.circuit))
  /-- The key can be gone when keys live shorter than the client polls, and two exchanges take. -/
  | expired (hexpired : (∃ s, Took s .internal)
        ∨ engine.jobTtlSeconds ≤ client.timeout + 2 * client.requestTimeout) :
      Answer engine client call Took (.error (.statusRequestStatus call.circuit))
  | cut (s : Session) (hturn : Took s (.broken true)) :
      Answer engine client call Took (.error (.statusDecode call.circuit))
  | timeout (s : Session) (link : Link) (started wake : ℕ) (hturn : Took s link)
      (hphase : s.phase = .polling started wake) (hup : client.timeout < s.service.now - started) :
      Answer engine client call Took (.error (.timeout call.jobId client.timeout))

/-- The key was written at most one exchange before `started`, and lives from then on. -/
def Live (engine : Engine Coins) (client : HttpDeciderClient) (call : Call) (s : Prover)
    (started : ℕ) : Prop :=
  ∃ written, written ≤ started ∧ started ≤ written + client.requestTimeout
    ∧ Kept s call.jobId (written + engine.jobTtlSeconds)

/-- Where the client stands: its key is written once the request was accepted, what it was told is
what the key said, and its answer is explained. -/
def ClientPhase.Sound (engine : Engine Coins) (client : HttpDeciderClient) (call : Call)
    (Took : Session → Link → Prop) (s : Prover) : ClientPhase → Prop
  | .ready => True
  | .submitting sent => sent ≤ s.now
  | .submitted sent accepted => if accepted then
      ∃ written, sent ≤ written ∧ written ≤ s.now
        ∧ Kept s call.jobId (written + engine.jobTtlSeconds)
    else validateJobRequest engine (call.request engine) ≠ .ok ()
  | .polling started _ => started ≤ s.now ∧ Live engine client call s started
  | .asking started sent => started ≤ sent ∧ sent ≤ started + client.timeout ∧ sent ≤ s.now
      ∧ Live engine client call s started
  | .told started sent status => started ≤ sent ∧ sent ≤ s.now ∧ Live engine client call s started
      ∧ (∀ state, status = some state → Reports engine (call.request engine) state.status
        state.result state.error)
      -- a key that was not found was read before now, and lived from the submission on
      ∧ (status = none → engine.jobTtlSeconds
        ≤ client.timeout + client.requestTimeout + (s.now - sent))
  | .done result => Answer engine client call Took result

structure Session.Inv (engine : Engine Coins) (client : HttpDeciderClient) (call : Call)
    (Took : Session → Link → Prop) (s : Session) : Prop where
  serves : Serves engine (call.request engine) s.service
  phase : s.phase.Sound engine client call Took s.service

/-- Time passes, and the key stays. -/
theorem Live.step {service : Prover} {started : ℕ} (hnow : started ≤ service.now)
    (hlive : Live engine client call service started) (act : Action Coins) :
    Live engine client call (Decider.step engine service act) started := by
  obtain ⟨written, hle, hstarted, hkept⟩ := hlive
  exact ⟨written, hle, hstarted, hkept.step (by omega) act⟩

namespace Session

variable {Took : Session → Link → Prop} {s : Session}

/-- The prover takes a step. -/
theorem Inv.service (hs : s.Inv engine client call Took) {act : Action Coins}
    (hspares : (Turn.service act).Spares engine call) :
    (s.turn engine client call (.service act)).Inv engine client call Took := by
  obtain ⟨service, phase⟩ := s
  have hnow : service.now ≤ (Decider.step engine service act).now := le_step_now service act
  refine ⟨?_, ?_⟩
  · cases act with
    | post posted => exact hs.serves.post hspares
    | pass seconds => exact ⟨hs.serves.queue, hs.serves.workers, hs.serves.jobIds, hs.serves.key⟩
    | work w coins => exact hs.serves.work w coins
  · have hphase := hs.phase
    -- the service's own turn moves the clock and keeps what the key holds
    cases phase with
    | ready => trivial
    | submitting sent => exact le_trans hphase hnow
    | submitted sent accepted =>
      cases accepted with
      | false => exact hphase
      | true =>
        obtain ⟨written, hsent, hwritten, hkept⟩ := hphase
        exact ⟨written, hsent, hwritten.trans hnow, hkept.step (by dsimp only at *; omega) act⟩
    | polling started wake =>
      obtain ⟨hle, hlive⟩ := hphase
      exact ⟨hle.trans hnow, hlive.step hle act⟩
    | asking started sent =>
      obtain ⟨hstarted, hsoon, hsent, hlive⟩ := hphase
      exact ⟨hstarted, hsoon, hsent.trans hnow, hlive.step (hstarted.trans hsent) act⟩
    | told started sent status =>
      obtain ⟨hstarted, hsent, hlive, hreports, hgone⟩ := hphase
      refine ⟨hstarted, hsent.trans hnow, hlive.step (hstarted.trans hsent) act, hreports, ?_⟩
      -- the time since the question only grows
      exact fun hnone => (hgone hnone).trans
        (Nat.add_le_add_left (Nat.sub_le_sub_right hnow sent) _)
    | done result => exact hphase

/-- The prover's side of `POST /jobs`. -/
theorem submitJob_cases (engine : Engine Coins) (service : Prover) (posted : JobRequest) :
    (∃ message, submitJob engine service posted = .error message
        ∧ validateJobRequest engine posted ≠ .ok ())
      ∨ ∃ response, submitJob engine service posted
        = .ok ((enqueueJob engine service posted).1, response) := by
  rw [submitJob]
  cases validateJobRequest engine posted with
  | error message =>
    refine Or.inl ⟨message, rfl, fun hok => ?_⟩
    cases hok
  | ok _ =>
    right
    obtain ⟨service', created, state⟩ := enqueueJob engine service posted
    cases created <;> exact ⟨_, rfl⟩

/-- The request arrives: it is refused, or its key is written now. -/
theorem Inv.submitArrives (hs : s.Inv engine client call Took) {sent : ℕ} {link : Link}
    (hphase : s.phase = .submitting sent) (hturn : Took s link) :
    (s.submitArrives engine client call sent link).Inv engine client call Took := by
  have hsent := hs.phase
  rw [hphase] at hsent
  have hsubmission : s.phase.submission = some sent := by rw [hphase]; rfl
  unfold Session.submitArrives
  split
  · rename_i hlate
    exact ⟨hs.serves, .unsent s link sent hturn hsubmission (Or.inr hlate)⟩
  · cases link with
    | broken headers =>
      exact ⟨hs.serves, .unsent s _ sent hturn hsubmission (Or.inl ⟨headers, rfl⟩)⟩
    | internal => exact ⟨hs.serves, .refused (Or.inl ⟨s, hturn⟩)⟩
    | delivered =>
      rcases submitJob_cases engine s.service (call.request engine) with
        ⟨message, hresponse, hinvalid⟩ | ⟨response, hresponse⟩
      · rw [hresponse]
        exact ⟨hs.serves, hinvalid⟩
      · have hkept := Kept.enqueue_self engine s.service (call.request engine)
        rw [hresponse]
        refine ⟨hs.serves.enqueue fun _ => rfl, s.service.now, hsent, ?_, hkept⟩
        exact (enqueueJob_now engine s.service (call.request engine)).ge

/-- The client learns that its request was accepted at most one exchange after it was. -/
theorem Inv.submitReturns (hs : s.Inv engine client call Took) {sent : ℕ} {accepted : Bool}
    {link : Link} (hphase : s.phase = .submitted sent accepted) (hturn : Took s link) :
    (s.submitReturns client call sent accepted link).Inv engine client call Took := by
  have hsound := hs.phase
  rw [hphase] at hsound
  have hsubmission : s.phase.submission = some sent := by rw [hphase]; rfl
  -- an answer in time is the service's own
  have hanswered : ¬ s.service.now - sent > client.requestTimeout →
      Session.Inv engine client call Took (if accepted then
        ⟨s.service, .polling s.service.now s.service.now⟩
      else s.fail (.submitJobStatus call.circuit)) := by
    intro hintime
    cases accepted with
    | false => exact ⟨hs.serves, .refused (Or.inr hsound)⟩
    | true =>
      obtain ⟨written, hsent, hwritten, hkept⟩ := hsound
      exact ⟨hs.serves, Nat.le_refl _, written, hwritten, by omega, hkept⟩
  unfold Session.submitReturns
  split
  -- the client has given up before the answer is there
  · rename_i hlate
    exact ⟨hs.serves, .unsent s link sent hturn hsubmission (Or.inr hlate)⟩
  · rename_i hintime
    cases link with
    | internal => exact ⟨hs.serves, .refused (Or.inl ⟨s, hturn⟩)⟩
    | delivered => exact hanswered hintime
    | broken headers =>
      cases headers with
      | false => exact ⟨hs.serves, .unsent s _ sent hturn hsubmission (Or.inl ⟨false, rfl⟩)⟩
      | true => exact hanswered hintime

/-- The client gives up when its time is up, and asks otherwise. -/
theorem Inv.poll (hs : s.Inv engine client call Took) {started wake : ℕ} {link : Link}
    (hphase : s.phase = .polling started wake) (hturn : Took s link) :
    (s.poll client call started).Inv engine client call Took := by
  have hsound := hs.phase
  rw [hphase] at hsound
  obtain ⟨hle, hlive⟩ := hsound
  unfold Session.poll
  split
  · rename_i hup
    exact ⟨hs.serves, .timeout s link started wake hturn hphase hup⟩
  · exact ⟨hs.serves, hle, by omega, Nat.le_refl _, hlive⟩

/-- The prover reads the key: what it says is about the own job, and if it is gone it was not kept
for long. -/
theorem Inv.statusArrives (hs : s.Inv engine client call Took) {started sent : ℕ} {link : Link}
    (hphase : s.phase = .asking started sent) (hturn : Took s link) :
    (s.statusArrives client call started sent link).Inv engine client call Took := by
  have hsound := hs.phase
  rw [hphase] at hsound
  obtain ⟨hstarted, hsoon, hsent, hlive⟩ := hsound
  have hquestion : s.phase.question = some sent := by rw [hphase]; rfl
  unfold Session.statusArrives
  split
  · rename_i hlate
    exact ⟨hs.serves, .lost s link sent hturn hquestion (Or.inr hlate)⟩
  · cases link with
    | broken headers =>
      exact ⟨hs.serves, .lost s _ sent hturn hquestion (Or.inl ⟨headers, rfl⟩)⟩
    | internal => exact ⟨hs.serves, .expired (Or.inl ⟨s, hturn⟩)⟩
    | delivered =>
      refine ⟨hs.serves, hstarted, hsent, hlive, ?_, ?_⟩
      · intro state hstate
        obtain ⟨key, hkey, rfl⟩ := Option.map_eq_some_iff.mp hstate
        exact hs.serves.key key (liveKey_eq_some.mp hkey).1
      -- no key: it expired, so its time is up
      · intro hnone
        obtain ⟨written, -, hwritten, key, hkey, hexpiry⟩ := hlive
        have hdead : ¬ s.service.now < key.expiresAt := by
          intro hlt
          have hsome := liveKey_eq_some.mpr ⟨hkey, hlt⟩
          rw [Option.map_eq_none_iff.mp hnone] at hsome
          cases hsome
        dsimp only
        omega

/-- What the key said is what the client is told. -/
theorem Inv.settle (hcodec : engine.Codec) (hs : s.Inv engine client call Took) {started : ℕ}
    (hnow : started ≤ s.service.now) (hlive : Live engine client call s.service started)
    {state : JobState} (hreports : Reports engine (call.request engine) state.status state.result
      state.error) : (s.settle engine client call started state).Inv engine client call Took := by
  obtain ⟨jobId, circuit, status, result, error⟩ := state
  dsimp only at hreports
  have hbytes : ∀ {proofBytes}, decodeBase64 engine (call.request engine).ivcProof = .ok proofBytes →
      proofBytes = call.ivcProof := fun hdecode => hcodec.decodeBase64 hdecode
  cases hreports with
  | queued => exact ⟨hs.serves, hnow, hlive⟩
  | processing => exact ⟨hs.serves, hnow, hlive⟩
  | completed coins proofBytes proof hdecode hproof =>
    -- the payload reads back as the proof, but a proof of no bytes counts as no payload
    rw [hbytes hdecode] at hproof
    refine ⟨hs.serves, ?_⟩
    show Answer engine client call Took (decodeBase64Payload engine (engine.base64Encode proof))
    rw [hcodec.decodePayload]
    split
    · rename_i hnil
      exact .emptyProof coins (hnil ▸ hproof)
    · rename_i hne
      exact .proved coins proof hne hproof
  | failed coins proofBytes text error hdecode hproof htext =>
    rw [hbytes hdecode] at hproof
    exact ⟨hs.serves, .failed coins text error hproof htext⟩

/-- The status comes back within the time of one exchange. -/
theorem Inv.statusReturns (hcodec : engine.Codec) (hs : s.Inv engine client call Took)
    {started sent : ℕ} {status : Option JobState} {link : Link}
    (hphase : s.phase = .told started sent status) (hturn : Took s link) :
    (s.statusReturns engine client call started sent status link).Inv engine client call Took := by
  have hsound := hs.phase
  rw [hphase] at hsound
  obtain ⟨hstarted, hsent, hlive, hreports, hgone⟩ := hsound
  have hquestion : s.phase.question = some sent := by rw [hphase]; rfl
  -- the job was not found, and the answer took less than the request's timeout
  have hexpired : ¬ s.service.now - sent > client.requestTimeout → status = none →
      (s.fail (.statusRequestStatus call.circuit)).Inv engine client call Took := by
    intro hintime hnone
    have hshort := hgone hnone
    exact ⟨hs.serves, .expired (Or.inr (by omega))⟩
  unfold Session.statusReturns
  split
  · rename_i hlate
    exact ⟨hs.serves, .lost s link sent hturn hquestion (Or.inr hlate)⟩
  · rename_i hintime
    cases link with
    | internal => exact ⟨hs.serves, .expired (Or.inl ⟨s, hturn⟩)⟩
    | delivered =>
      cases status with
      | none => exact hexpired hintime rfl
      | some state => exact hs.settle hcodec (hstarted.trans hsent) hlive (hreports state rfl)
    | broken headers =>
      cases headers with
      | false => exact ⟨hs.serves, .lost s _ sent hturn hquestion (Or.inl ⟨false, rfl⟩)⟩
      -- the body is lost after the headers
      | true =>
        cases status with
        | none => exact hexpired hintime rfl
        | some state => exact ⟨hs.serves, .cut s hturn⟩

/-- The client takes its turn. -/
theorem Inv.advance (hcodec : engine.Codec) (hs : s.Inv engine client call Took) {link : Link}
    (hturn : Took s link) : (s.advance engine client call link).Inv engine client call Took := by
  unfold Session.advance
  split
  · exact ⟨hs.serves, Nat.le_refl _⟩
  · rename_i hphase
    exact hs.submitArrives hphase hturn
  · rename_i hphase
    exact hs.submitReturns hphase hturn
  · rename_i hphase
    split
    · exact hs
    · exact hs.poll hphase hturn
  · rename_i hphase
    exact hs.statusArrives hphase hturn
  · rename_i hphase
    exact hs.statusReturns hcodec hphase hturn
  · exact hs

end Session

namespace ClientExample

/-- The prover of `JobsExample`, with base64. -/
def prover : Engine Unit :=
  { JobsExample.prover with
    base64Decode := Base64.decode
    base64Encode := fun bytes => String.ofList (Base64.encode bytes) }

/-- Two workers, and the request of another client before the own one. -/
def acts : List (Turn Unit) :=
  [.service (.post JobsExample.second)]
    ++ List.replicate 3 (.client .delivered)
    ++ [.service (.work 0 ()), .service (.work 1 ())]
    ++ List.replicate 3 (.client .delivered) ++ [.service (.pass 1)]
    ++ List.replicate 5 (.service (.work 1 ()))
    ++ List.replicate 3 (.client .delivered)

end ClientExample

end Decider

end Zerc20
