import Zerc20.Contracts.Freshness

/-!
# The broadcast job

`crosschain-job/src/main.rs`: the job that sends the aggregation root of the Hub to the
configured endpoints, and that takes `isUpToDate` as the sign that there is nothing to send.

The flag belongs to the Hub and not to a target: anyone may call `broadcast`, with any targets
or none, and set it. The job is right to skip in every run in which a broadcast that completes
and turns the flag on has all registered targets of the job among its own, and was not disturbed.

`Watched` adds the targets of the open broadcasts to a run as a ghost.
-/

namespace Zerc20

open Machine

/-! ## The job -/

namespace Crosschain

/-- `apply_fee_buffer`. -/
def applyFeeBuffer (fee bufferBps : ℕ) : ℕ :=
  if bufferBps = 0 then fee
  else
    let buffered := min (fee * (10000 + bufferBps)) uint256Max / 10000
    if buffered = fee ∧ fee > 0 then fee + 1 else buffered

/-- The loop of `resolve_target_eids`: the endpoints of `n` tokens from `index` on. -/
def resolveFrom (hub : Hub) (index : ℕ) : ℕ → Option (List ℕ)
  | 0 => some []
  | n + 1 => do
    let info ← hub.tokenInfos[index]?
    let eids ← resolveFrom hub (index + 1) n
    return info.eid :: eids

/-- `resolve_target_eids`, for the number of configured tokens. -/
def resolveTargetEids (hub : Hub) (tokens : ℕ) : Option (List ℕ) := resolveFrom hub 0 tokens

structure BroadcastJob where
  targetEids : List ℕ
  feeBufferBps : ℕ
  deriving DecidableEq

/-- The job that `main` sets up from the state of the Hub. -/
def BroadcastJob.new (hub : Hub) (tokens feeBufferBps : ℕ) : Option BroadcastJob := do
  let eids ← resolveTargetEids hub tokens
  return ⟨(eids.insertionSort (· ≤ ·)).dedup, feeBufferBps⟩

inductive Outcome where
  | noTargets
  | upToDate
  | broadcast (targetEids : List ℕ) (value : ℕ)
  deriving DecidableEq

/-- `BroadcastJob::execute_once` up to the transaction. -/
def BroadcastJob.executeOnce (job : BroadcastJob) (hub : Hub) (quote : ℕ → MessagingFee) :
    Except HubError Outcome :=
  if job.targetEids.isEmpty then .ok .noTargets
  else if hub.isUpToDate then .ok .upToDate
  else do
    let fees ← hub.quoteBroadcast quote job.targetEids
    require (Hub.totalNativeFee fees ≤ uint256Max) .arithmeticOverflow
    return .broadcast job.targetEids (applyFeeBuffer (Hub.totalNativeFee fees) job.feeBufferBps)

/-- Only the flag makes the job skip. -/
theorem BroadcastJob.isUpToDate_of_executeOnce {job : BroadcastJob} {hub : Hub}
    {quote : ℕ → MessagingFee} (hskip : job.executeOnce hub quote = .ok .upToDate) :
    hub.isUpToDate = true := by
  unfold executeOnce at hskip
  split at hskip
  · cases hskip
  · split at hskip
    · assumption
    · simp only [bind_eq_ok, require_eq_ok, exists_const] at hskip
      obtain ⟨fees, -, -, hret⟩ := hskip
      cases hret

/-- The targets of the job are registered. -/
theorem resolveFrom_mem {hub : Hub} {n index : ℕ} {eids : List ℕ}
    (hok : resolveFrom hub index n = some eids) : ∀ eid ∈ eids, eid ∈ hub.eids := by
  induction n generalizing index eids with
  | zero =>
    cases hok
    intro eid heid
    cases heid
  | succ n ih =>
    simp only [resolveFrom, Option.bind_eq_bind, Option.bind_eq_some_iff, Option.pure_def] at hok
    obtain ⟨info, hinfo, rest, hrest, hret⟩ := hok
    cases hret
    intro eid heid
    rcases List.mem_cons.mp heid with rfl | heid
    · exact List.mem_map_of_mem (List.mem_of_getElem? hinfo)
    · exact ih hrest eid heid

/-- The job targets registered endpoints. -/
theorem BroadcastJob.new_registered {hub : Hub} {tokens feeBufferBps : ℕ} {job : BroadcastJob}
    (hplaced : hub.Placed) (hnew : BroadcastJob.new hub tokens feeBufferBps = some job) :
    ∀ eid ∈ job.targetEids, hub.eidToPosition eid ≠ 0 := by
  simp only [BroadcastJob.new, Option.bind_eq_bind, Option.bind_eq_some_iff, Option.pure_def]
    at hnew
  obtain ⟨eids, heids, hret⟩ := hnew
  cases hret
  intro eid heid
  have hmem : eid ∈ hub.eids := by
    rw [List.mem_dedup, List.mem_insertionSort] at heid
    exact resolveFrom_mem heids eid heid
  obtain ⟨i, hi⟩ := List.mem_iff_getElem?.mp hmem
  rw [hplaced.registered i eid hi]
  exact Nat.succ_ne_zero i

end Crosschain

/-! ## Who was sent what -/

variable (h : Hashes) (d : ℕ → DeciderSets) (D : Deployment)

/-- The Hub sent `root` to the endpoint. -/
def Announced (w : World) (root eid : ℕ) : Prop :=
  ∃ m ∈ w.sent, m.srcEid = D.hubEid ∧ m.sender = toWord D.hubAddr.val ∧ m.dstEid = eid
    ∧ m.payload.1 = toWord root

instance (w : World) (root eid : ℕ) : Decidable (Announced D w root eid) :=
  inferInstanceAs (Decidable (∃ m ∈ w.sent, _))

/-- The aggregation root of the current leaves. -/
def Hub.currentRoot (u : Hub) : ℕ := computeAggregationRoot h u.zeroHash u.transferRoots

structure Watched where
  state : NetState
  /-- The targets of every open `broadcast`, none for an open `relayTransferRoot`. -/
  targets : List (List ℕ)

namespace Watched

def initial : Watched := ⟨D.initial h, []⟩

/-- The ghost after an accepted action that leads to `s`. -/
def record (t : Watched) (s : NetState) : NetAction → Watched
  | .broadcast _ targetEids _ => ⟨s, targetEids :: t.targets⟩
  | .relay _ _ _ => ⟨s, [] :: t.targets⟩
  | .finish | .revert => ⟨s, t.targets.tail⟩
  | _ => ⟨s, t.targets⟩

def step (t : Watched) (a : NetAction) : Watched :=
  match t.state.exec h d D a with
  | .ok s => t.record s a
  | .error _ => t

/-- If the action completes a broadcast and turns the flag on, all of `eids` that are registered
are among the targets. -/
def NamesAll (eids : List ℕ) (t : Watched) : NetAction → Prop
  | .finish =>
    match t.state.frames with
    | ⟨_, .broadcast _ _ _⟩ :: _ => t.state.world.hub.isUpToDate = false →
      ∀ eid ∈ eids, t.state.world.hub.eidToPosition eid ≠ 0 → eid ∈ t.targets.headD []
    | _ => True
  | _ => True

/-- The condition on a step: no disturbed broadcast completes, and none that leaves one of `eids`
out. -/
def Serves (eids : List ℕ) (t : Watched) (a : NetAction) : Prop :=
  t.state.Undisturbed a ∧ t.NamesAll eids a

instance (eids : List ℕ) (t : Watched) : (a : NetAction) → Decidable (t.NamesAll eids a)
  | .finish =>
    match hframes : t.state.frames with
    | ⟨_, .broadcast _ _ _⟩ :: _ =>
      decidable_of_iff (t.state.world.hub.isUpToDate = false →
        ∀ eid ∈ eids, t.state.world.hub.eidToPosition eid ≠ 0 → eid ∈ t.targets.headD []) (by
        simp only [NamesAll, hframes])
    | ⟨_, .relay _ _ _ _ _⟩ :: _ => isTrue (by simp only [NamesAll, hframes])
    | [] => isTrue (by simp only [NamesAll, hframes])
  | .setHubPeer _ _ _ | .registerToken _ _ | .updateToken _ _ | .hubReceive _ _ _ _
  | .forceHubNative _ | .chain _ _ | .deliver _ | .broadcast _ _ _ | .relay _ _ _ | .send
  | .refund | .revert => isTrue trivial

instance (eids : List ℕ) (t : Watched) (a : NetAction) : Decidable (t.Serves eids a) :=
  inferInstanceAs (Decidable (_ ∧ _))

end Watched

/-! ## The invariant -/

/-- While the flag is on, every registered one of `eids` was sent the current root. -/
def Served (eids : List ℕ) (w : World) : Prop :=
  w.hub.isUpToDate = true → ∀ eid ∈ eids, w.hub.eidToPosition eid ≠ 0 →
    Announced D w (w.hub.currentRoot h) eid

/-- An open broadcast has sent its root to each of its targets, or will. -/
def Underway (w : World) (k : Pending × List ℕ) : Prop :=
  match k.1 with
  | .broadcast ctx sends _ => ∀ eid ∈ k.2, eid ∈ sends.map Prod.fst
    ∨ Announced D w ctx.aggregationRoot eid
  | .relay _ _ _ _ _ => True

/-- Messages stay sent. -/
def KeepsSent (w w' : World) : Prop := ∀ m ∈ w.sent, m ∈ w'.sent

variable {h d D} {eids : List ℕ} {w w' : World}

theorem Announced.mono {root eid : ℕ} (hsent : KeepsSent w w') (ha : Announced D w root eid) :
    Announced D w' root eid := by
  obtain ⟨m, hm, hrest⟩ := ha
  exact ⟨m, hsent m hm, hrest⟩

/-- What an open broadcast still sends stays due. -/
theorem Underway.mono (w w' : World) (k : Pending × List ℕ) (hsent : KeepsSent w w')
    (hk : Underway D w k) : Underway D w' k := by
  obtain ⟨k, targets⟩ := k
  cases k with
  | broadcast ctx sends refund =>
    intro eid heid
    exact (hk eid heid).imp_right (Announced.mono hsent)
  | relay eid root index value sent => trivial

/-- Nothing that was sent is taken back. -/
theorem KeepsSent.trans (a b c : World) (hab : KeepsSent a b) (hbc : KeepsSent b c) :
    KeepsSent a c := fun m hm => hbc m (hab m hm)

/-- Being served depends on the Hub's flag and on what was sent. -/
theorem Served.unmoved (hw : Served h D eids w) (hhub : w.hub.Unmoved w'.hub)
    (hsent : KeepsSent w w') : Served h D eids w' := by
  intro hflag eid heid hpos
  rw [hhub.isUpToDate] at hflag
  rw [hhub.position] at hpos
  rw [Hub.currentRoot, hhub.roots, hhub.zeroHash]
  exact (hw hflag eid heid hpos).mono hsent

/-- With the flag off nothing is claimed. -/
theorem served_of_stale (hstale : w.hub.isUpToDate = false) : Served h D eids w := by
  intro htrue
  rw [hstale] at htrue
  cases htrue

/-- The fees of a broadcast are for its targets, in order. -/
theorem Hub.quoteBroadcast_eids {u : Hub} {quote : ℕ → MessagingFee} {targetEids : List ℕ}
    {fees : List (ℕ × ℕ)} (hok : u.quoteBroadcast quote targetEids = .ok fees) :
    fees.map Prod.fst = targetEids := by
  obtain ⟨-, rfl⟩ := Hub.quoteBroadcast_eq_ok.mp hok
  rw [List.map_map]
  exact List.map_id _

namespace Watched

/-- The open calls, each with its targets. -/
def stack (t : Watched) : List (Frames.Frame World (Pending × List ℕ)) :=
  List.zipWith (fun f targets => ⟨f.checkpoint, f.cont, targets⟩) t.state.frames t.targets

structure Inv (h : Hashes) (D : Deployment) (eids : List ℕ) (t : Watched) : Prop where
  fresh : t.state.FreshInv h D
  targets : t.targets.length = t.state.frames.length
  served : Frames.Valid (Served h D eids) (Underway D) KeepsSent t.state.world t.stack

variable {t : Watched} {s : NetState} {f : Frames.Frame World Pending}
  {fs : List (Frames.Frame World Pending)}

theorem initial_inv : (initial h D).Inv h D eids := by
  refine ⟨NetState.initial_freshInv, rfl, ?_⟩
  intro _ eid _ hpos
  exact absurd rfl hpos

/-- A step inside the innermost call. -/
theorem Inv.inside (ht : t.Inv h D eids) (hs : NetState.FreshInv h D ⟨w, t.state.frames⟩)
    (hw : Served h D eids w) (hsent : KeepsSent t.state.world w) :
    Inv h D eids ⟨⟨w, t.state.frames⟩, t.targets⟩ :=
  ⟨hs, ht.targets, Frames.Valid.mono Underway.mono KeepsSent.trans ht.served hsent hw⟩

/-- A new call. -/
theorem Inv.push {k : Pending} {targets : List ℕ} (ht : t.Inv h D eids)
    (hs : NetState.FreshInv h D ⟨w, ⟨t.state.world, k⟩ :: t.state.frames⟩)
    (hw : Served h D eids w) (hsent : KeepsSent t.state.world w)
    (hk : Underway D w (k, targets)) :
    Inv h D eids ⟨⟨w, ⟨t.state.world, k⟩ :: t.state.frames⟩, targets :: t.targets⟩ :=
  ⟨hs, by rw [List.length_cons, List.length_cons, ht.targets],
    Frames.Valid.push ht.served hsent hw hk⟩

/-- The targets of the innermost call. -/
theorem Inv.exists_targets (ht : t.Inv h D eids) (hframes : t.state.frames = f :: fs) :
    ∃ targets rest, t.targets = targets :: rest ∧ rest.length = fs.length
      ∧ Frames.Valid (Served h D eids) (Underway D) KeepsSent t.state.world
        (⟨f.checkpoint, f.cont, targets⟩
          :: List.zipWith (fun f targets => ⟨f.checkpoint, f.cont, targets⟩) fs rest) := by
  have hlength := ht.targets
  have hserved := ht.served
  unfold stack at hserved
  rw [hframes] at hlength hserved
  cases htargets : t.targets with
  | nil => simp [htargets] at hlength
  | cons targets rest =>
    rw [htargets] at hlength hserved
    exact ⟨targets, rest, rfl, Nat.succ.inj hlength, hserved⟩

/-- The innermost call goes on. -/
theorem Inv.resume {k : Pending} (ht : t.Inv h D eids) (hframes : t.state.frames = f :: fs)
    (hs : NetState.FreshInv h D ⟨w, ⟨f.checkpoint, k⟩ :: fs⟩) (hw : Served h D eids w)
    (hsent : KeepsSent t.state.world w)
    (hk : ∀ targets, Underway D t.state.world (f.cont, targets) → Underway D w (k, targets)) :
    Inv h D eids ⟨⟨w, ⟨f.checkpoint, k⟩ :: fs⟩, t.targets⟩ := by
  obtain ⟨targets, rest, htargets, hlength, hserved⟩ := ht.exists_targets hframes
  refine ⟨hs, by rw [htargets, List.length_cons, List.length_cons, hlength], ?_⟩
  unfold stack
  rw [htargets, List.zipWith_cons_cons]
  exact Frames.Valid.resume KeepsSent.trans hserved hsent hw (hk targets hserved.2.1)

/-- The innermost call returns. -/
theorem Inv.pop (ht : t.Inv h D eids) (hframes : t.state.frames = f :: fs)
    (hs : NetState.FreshInv h D ⟨w, fs⟩) (hw : Served h D eids w)
    (hsent : KeepsSent t.state.world w) : Inv h D eids ⟨⟨w, fs⟩, t.targets.tail⟩ := by
  obtain ⟨targets, rest, htargets, hlength, hserved⟩ := ht.exists_targets hframes
  refine ⟨hs, by rw [htargets, List.tail_cons, hlength], ?_⟩
  unfold stack
  rw [htargets, List.tail_cons]
  exact Frames.Valid.pop Underway.mono KeepsSent.trans hserved hsent hw

/-- A broadcast that completes leaves every registered one of `eids` served. -/
theorem Inv.finish {ctx : BroadcastContext} (ht : t.Inv h D eids)
    (hframes : t.state.frames = f :: fs) (hcont : f.cont = .broadcast ctx [] 0)
    (hserves : t.Serves eids .finish) :
    Served h D eids { t.state.world with hub := t.state.world.hub.broadcastDone ctx } := by
  obtain ⟨hcalm, hnames⟩ := hserves
  obtain ⟨targets, rest, htargets, -, hserved⟩ := ht.exists_targets hframes
  have hinv : NetInv h D t.state.world := Frames.Valid.inv ht.fresh.state
  have hroot : ctx.aggregationRoot = t.state.world.hub.currentRoot h := by
    have hstate := ht.fresh.state
    unfold NetState.Inv at hstate
    rw [hframes] at hstate
    have hentitled := hstate.2.1
    rw [hcont] at hentitled
    obtain ⟨a, ha, rfl⟩ := hentitled
    rw [(hinv.assigned a ha).root, Hub.currentRoot, hinv.hub.zeroHash,
      (ht.fresh.snapshot_current hframes hcont hcalm).1]
  intro _ eid heid hpos
  cases hflag : t.state.world.hub.isUpToDate with
  | true => exact Frames.Valid.inv hserved hflag eid heid hpos
  | false =>
    obtain ⟨c, k⟩ := f
    obtain rfl : k = .broadcast ctx [] 0 := hcont
    simp only [NamesAll, hframes, htargets, List.headD_cons] at hnames
    -- all sends of the broadcast are made
    rcases hserved.2.1 eid (hnames hflag eid heid hpos) with hleft | hsent
    · exact absurd hleft List.not_mem_nil
    · rw [hroot] at hsent
      exact hsent

/-- Recording the targets does not change the state. -/
theorem record_state (t : Watched) (s : NetState) (a : NetAction) : (t.record s a).state = s := by
  cases a <;> rfl

/-- Only frames that open or end are recorded. -/
theorem record_quiet {a : NetAction} (hframing : ¬ a.IsFraming) :
    t.record s a = ⟨s, t.targets⟩ := by
  cases a with
  | broadcast | relay | finish | revert => exact absurd trivial hframing
  | _ => rfl

/-- The broadcast that puts the flag up has sent to all of its targets. -/
theorem move_inv {a : NetAction} (ht : t.Inv h D eids) (hs : s.FreshInv h D)
    (hserves : t.Serves eids a) (hmove : Move h D t.state a s) :
    (t.record s a).Inv h D eids := by
  have hserved : Served h D eids t.state.world := Frames.Valid.inv ht.served
  have hkeeps : ∀ w : World, w.sent = t.state.world.sent → KeepsSent t.state.world w :=
    fun w hsent m hm => hsent ▸ hm
  cases hmove with
  | quiet a w hhub hsent hext hdelivery hframing =>
    rw [record_quiet hframing]
    exact ht.inside hs (hserved.unmoved hhub (hkeeps w hsent)) (hkeeps w hsent)
  -- a registration clears the flag
  | register sender info u hok =>
    obtain ⟨-, -, rfl⟩ := Hub.registerToken_eq_ok hok
    exact ht.inside hs (served_of_stale rfl) (hkeeps _ rfl)
  | update sender info u hok =>
    obtain ⟨-, rfl⟩ := Hub.updateToken_eq_ok hok
    exact ht.inside hs hserved (hkeeps _ rfl)
  -- a newer root clears it too, an older one changes nothing
  | receive m u hhub hsent hok =>
    obtain ⟨-, -, -, ⟨-, rfl⟩ | ⟨-, rfl⟩⟩ := Hub.lzReceive_eq_ok hok
    · exact ht.inside hs hserved (hkeeps _ rfl)
    · exact ht.inside hs (served_of_stale rfl) (hkeeps _ rfl)
  -- the new frame has all its targets still to serve
  | openBroadcast value targetEids quote u ctx fees refund hok =>
    obtain ⟨-, rfl, hquote, -, rfl⟩ := Hub.broadcastStart_eq_ok hok
    refine ht.push hs (hserved.unmoved ⟨rfl, rfl, rfl, rfl⟩ (hkeeps _ rfl)) (hkeeps _ rfl) ?_
    intro eid heid
    rw [Hub.quoteBroadcast_eids hquote]
    exact Or.inl heid
  | openRelay eid value quote root index => exact ht.push hs hserved (hkeeps _ rfl) trivial
  | hubSend f fs ctx eid fee sends refund w hframes hcont hok =>
    obtain ⟨hhub, -, -, hsent⟩ := World.hubSend_eq_ok hok
    have hgrow : KeepsSent t.state.world w := fun m hm => hsent ▸ List.mem_append_left _ hm
    refine ht.resume hframes hs (hserved.unmoved hhub hgrow) hgrow ?_
    intro targets hunderway eid' heid'
    rw [hcont] at hunderway
    -- the target at the head is served by this send
    rcases hunderway eid' heid' with hleft | hdone
    · rcases List.mem_cons.mp hleft with hthis | hleft
      · right
        rw [Announced, hsent, hthis]
        exact ⟨_, List.mem_append_right _ (List.mem_singleton_self _), rfl, rfl, rfl, rfl⟩
      · exact Or.inl hleft
    · exact Or.inr (hdone.mono hgrow)
  | verifierSend f fs eid root index value w hframes hcont hok =>
    obtain ⟨hhub, -, m, -, hsent⟩ := World.verifierSend_eq_ok hok
    have hgrow : KeepsSent t.state.world w := fun m hm => hsent ▸ List.mem_append_left _ hm
    exact ht.resume hframes hs (hserved.unmoved (hhub ▸ Hub.Unmoved.refl _) hgrow) hgrow
      fun _ _ => trivial
  | refund f fs ctx amount hframes hcont =>
    refine ht.resume hframes hs (hserved.unmoved ⟨rfl, rfl, rfl, rfl⟩ (hkeeps _ rfl))
      (hkeeps _ rfl) ?_
    intro targets hunderway
    rw [hcont] at hunderway
    exact hunderway
  | finishBroadcast f fs ctx hframes hcont =>
    exact ht.pop hframes hs (ht.finish hframes hcont hserves) (hkeeps _ rfl)
  | finishRelay f fs eid root index value w hframes hcont hhub hsent hext =>
    exact ht.pop hframes hs (hserved.unmoved (hhub ▸ Hub.Unmoved.refl _) (hkeeps w hsent))
      (hkeeps w hsent)
  | revert f fs hframes =>
    obtain ⟨targets, rest, htargets, hlength, hvalid⟩ := ht.exists_targets hframes
    rw [record, htargets]
    exact ⟨hs, hlength, Frames.Valid.revert hvalid⟩

/-- So every step of a serving broadcast keeps the invariant. -/
theorem step_inv (t : Watched) (a : NetAction) (ht : t.Inv h D eids) (hserves : t.Serves eids a) :
    (t.step h d D a).Inv h D eids := by
  unfold step
  split
  · rename_i s hok
    have hmove := NetState.exec_move ht.fresh.state hok
    have hs := NetState.move_freshInv ht.fresh (NetState.exec_inv ht.fresh.state hok) hserves.1
      hmove
    exact move_inv ht hs hserves hmove
  · exact ht

/-- The ghost changes nothing. -/
theorem run_state (t : Watched) (acts : List NetAction) :
    (run (step h d D) t acts).state = run (NetState.step h d D) t.state acts := by
  induction acts generalizing t with
  | nil => rfl
  | cons a acts ih =>
    have hstep : (t.step h d D a).state = t.state.step h d D a := by
      unfold step NetState.step
      split
      · rename_i s hok
        rw [hok, record_state, commit]
      · rename_i e herror
        rw [herror, commit]
    rw [run_cons, ih, hstep, run_cons]

end Watched

/-! ## The job skips when there is nothing to send -/

/-- **The job skips only when there is nothing to send.** It was set up in a state between
transactions, and ran in a later one. -/
theorem broadcastJob_skips_served (h : Hashes) (d : ℕ → DeciderSets) (D : Deployment)
    (acts later : List NetAction) (r s : NetState) (tokens feeBufferBps : ℕ)
    (job : Crosschain.BroadcastJob) (quote : ℕ → MessagingFee)
    (hserves : Along (Watched.step h d D) (Watched.Serves job.targetEids) (Watched.initial h D)
      (acts ++ later))
    (hset : run (NetState.step h d D) (D.initial h) acts = r) (hbetween : r.frames = [])
    (hjob : Crosschain.BroadcastJob.new r.world.hub tokens feeBufferBps = some job)
    (hran : run (NetState.step h d D) r later = s)
    (hskip : job.executeOnce s.world.hub quote = .ok .upToDate) :
    ∀ eid ∈ job.targetEids, Announced D s.world (s.world.hub.currentRoot h) eid := by
  have hflag := Crosschain.BroadcastJob.isUpToDate_of_executeOnce hskip
  have hreach : run (NetState.step h d D) (D.initial h) (acts ++ later) = s := by
    rw [run_append, hset, hran]
  -- what the watched run says about the flag
  have hinv := run_induction_along Watched.initial_inv Watched.step_inv hserves
  have hserved : Served h D job.targetEids s.world := by
    have hhere := Frames.Valid.inv hinv.served
    rw [Watched.run_state] at hhere
    exact hreach ▸ hhere
  intro eid heid
  refine hserved hflag eid heid ?_
  -- the targets were registered when the job was set up
  have htracked : (run (Tracked.step h d D) (Tracked.initial h D) acts).Inv h D :=
    run_induction Tracked.initial_inv Tracked.step_inv acts
  have hstate : (run (Tracked.step h d D) (Tracked.initial h D) acts).state = r := by
    rw [Tracked.run_state]
    exact hset
  have hpos : r.world.hub.eidToPosition eid ≠ 0 :=
    Crosschain.BroadcastJob.new_registered (hstate ▸ htracked.converged.here.placed) hjob eid heid
  have hstays := htracked.registered_stay (d := d) (hstate.symm ▸ hbetween) later
    (hstate.symm ▸ hpos)
  rw [Tracked.run_state, hstate, hran] at hstays
  exact hstays

namespace RefundExample

/-- A job for the one token. -/
def job : Crosschain.BroadcastJob := ⟨[5], 1000⟩

end RefundExample

/-- The run of the example, in which the job skips. -/
theorem broadcastJob_skips_served_relayed :
    let s := RefundExample.after [.deliver RefundExample.message,
      .broadcast 1 [5] (fun _ => RefundExample.fee), .send, .refund, .finish]
    ∀ eid ∈ RefundExample.job.targetEids,
      Announced RefundExample.deployment s.world (s.world.hub.currentRoot realHashes) eid := by
  intro s
  refine broadcastJob_skips_served realHashes (fun _ => depositDeciders) RefundExample.deployment
    RefundExample.setup [.deliver RefundExample.message,
      .broadcast 1 [5] (fun _ => RefundExample.fee), .send, .refund, .finish]
    (RefundExample.after []) s 1 1000 RefundExample.job (fun _ => RefundExample.fee) ?_ ?_ ?_ ?_
    ?_ ?_
  · decide +kernel
  · rw [RefundExample.after, List.append_nil]
  · rw [← List.isEmpty_iff]
    decide +kernel
  · decide +kernel
  · rw [RefundExample.after, List.append_nil]
    exact (run_append _ _ _ _).symm
  · decide +kernel

/-- Anyone broadcasts to nobody: the flag is set, and the job skips although its target was never
sent the root. -/
theorem broadcastJob_skips_unserved :
    let s := RefundExample.after [.deliver RefundExample.message,
      .broadcast 0 [] (fun _ => RefundExample.fee), .finish]
    Crosschain.BroadcastJob.new (RefundExample.after []).world.hub 1 1000 = some RefundExample.job
      ∧ s.frames = []
      ∧ RefundExample.job.executeOnce s.world.hub (fun _ => RefundExample.fee) = .ok .upToDate
      ∧ 5 ∈ RefundExample.job.targetEids
      ∧ ¬ Announced RefundExample.deployment s.world (s.world.hub.currentRoot realHashes) 5 := by
  refine ⟨by decide +kernel, ?_, by decide +kernel, by decide, by decide +kernel⟩
  rw [← List.isEmpty_iff]
  decide +kernel

end Zerc20
