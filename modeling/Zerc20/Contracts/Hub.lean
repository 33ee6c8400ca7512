import Zerc20.Contracts.Verifier

/-!
# The Hub contract

`contracts/src/Hub.sol` with `utils/PoseidonAggregationLib.sol`: the latest transfer root of
every registered chain, and their aggregation into one root per broadcast. `broadcast` calls
the LayerZero endpoint once per target and then refunds its caller, so it is not atomic; the
functions here are the parts between those calls (`broadcastStart`, `broadcastDone`), and the
module that models the network puts them together.
-/

namespace Zerc20

open Machine

/-! ## Aggregation -/

variable (h : Hashes)

/-- `TREE_HEIGHT` of `PoseidonAggregationLib`. -/
def TREE_HEIGHT : ℕ := 6

/-- `MAX_LEAVES`. -/
def MAX_LEAVES : ℕ := 2 ^ TREE_HEIGHT

/-- `_hashPair`; `PoseidonT3.hash` reduces its inputs. -/
def hashPair (left right : ℕ) : ℕ := (h.poseidon2 (left : Fr) (right : Fr)).val

/-- `generateZeroHashes`. -/
def generateZeroHashes : ℕ → ℕ
  | 0 => 0
  | i + 1 => hashPair h (generateZeroHashes i) (generateZeroHashes i)

/-- One round of the `while` loop: the pairs of a level, the last one padded. -/
def hashLevel (pad : ℕ) : List ℕ → List ℕ
  | [] => []
  | [left] => [hashPair h left pad]
  | left :: right :: rest => hashPair h left right :: hashLevel pad rest

/-- A level is half as long, rounded up. -/
theorem hashLevel_length (pad : ℕ) (leaves : List ℕ) :
    (hashLevel h pad leaves).length = (leaves.length + 1) / 2 := by
  induction leaves using hashLevel.induct with
  | case1 => rfl
  | case2 left => simp [hashLevel]
  | case3 left right rest ih =>
    rw [hashLevel, List.length_cons, ih, List.length_cons, List.length_cons]
    omega

/-- The final loop: hash with zero subtrees up to the root. -/
def padToRoot (zeroHash : ℕ → ℕ) (root depth : ℕ) : ℕ :=
  (List.range' depth (TREE_HEIGHT - depth)).foldl (fun acc d => hashPair h acc (zeroHash d)) root

/-- The `while` loop from a nonempty level on. -/
def aggregateFrom (zeroHash : ℕ → ℕ) (depth : ℕ) : List ℕ → ℕ
  | [] => 0
  | [root] => padToRoot h zeroHash root depth
  | left :: right :: rest =>
    aggregateFrom zeroHash (depth + 1) (hashLevel h (zeroHash depth) (left :: right :: rest))
termination_by leaves => leaves.length
decreasing_by
  rw [hashLevel_length, List.length_cons, List.length_cons]
  omega

def computeAggregationRoot (zeroHash : ℕ → ℕ) (leaves : List ℕ) : ℕ :=
  if leaves.length = 0 then zeroHash TREE_HEIGHT else aggregateFrom h zeroHash 0 leaves

/-! ## Storage -/

structure TokenInfo where
  chainId : ℕ
  eid : ℕ
  verifier : Address
  token : Address
  deriving DecidableEq

structure MessagingFee where
  nativeFee : ℕ
  lzTokenFee : ℕ
  deriving DecidableEq

inductive HubError where
  | hubCapacityReached
  | tokenAlreadyRegistered (eid : ℕ)
  | tokenNotRegistered (eid : ℕ)
  | zeroVerifier
  | zeroToken
  | invalidChainId
  | nativeFeeMismatch (provided required : ℕ)
  | layerZeroTokenFeeUnsupported (eid lzTokenFee : ℕ)
  | arithmeticOverflow
  | onlyEndpoint (addr : Address)
  | noPeer (eid : ℕ)
  | onlyPeer (eid sender : ℕ)
  | malformedPayload
  | reverted (reason : String)
  deriving DecidableEq

/-- `BroadcastContext`; the payload is `(aggregationRoot, nextAggSeq)`. -/
structure BroadcastContext where
  snapshot : List ℕ
  transferTreeIndicesSnapshot : List ℕ
  aggregationRoot : ℕ
  nextAggSeq : ℕ
  deriving DecidableEq

inductive HubEvent where
  | tokenRegistered (index : ℕ) (info : TokenInfo)
  | tokenUpdated (index : ℕ) (info : TokenInfo)
  | transferRootUpdated (eid index newRoot : ℕ)
  | aggregationRootUpdated (ctx : BroadcastContext)
  deriving DecidableEq

structure Hub where
  owner : Address
  endpoint : Address
  peers : ℕ → ℕ
  nativeBalance : ℕ
  transferRoots : List ℕ
  transferTreeIndices : List ℕ
  tokenInfos : List TokenInfo
  /-- One-based, `0` for an endpoint that is not registered. -/
  eidToPosition : ℕ → ℕ
  zeroHash : ℕ → ℕ
  aggSeq : ℕ
  isUpToDate : Bool
  log : List HubEvent

namespace Hub

/-- The contract after `initialize`. -/
def initial (owner endpoint : Address) : Hub where
  owner := owner
  endpoint := endpoint
  peers _ := 0
  nativeBalance := 0
  transferRoots := []
  transferTreeIndices := []
  tokenInfos := []
  eidToPosition _ := 0
  zeroHash := generateZeroHashes h
  aggSeq := 0
  isUpToDate := true
  log := []

def emit (u : Hub) (e : HubEvent) : Hub := { u with log := u.log ++ [e] }

def onlyOwner (u : Hub) (sender : Address) : Except HubError Unit :=
  require (sender = u.owner) (.reverted "Ownable: caller is not the owner")

/-- The checks that `registerToken` and `updateToken` share. -/
def checkInfo (info : TokenInfo) : Except HubError Unit := do
  require (info.verifier ≠ 0) .zeroVerifier
  require (info.token ≠ 0) .zeroToken
  require (info.chainId ≠ 0) .invalidChainId

def registerToken (u : Hub) (sender : Address) (info : TokenInfo) : Except HubError Hub := do
  u.onlyOwner sender
  checkInfo info
  require (u.eidToPosition info.eid = 0) (.tokenAlreadyRegistered info.eid)
  require (u.transferRoots.length < MAX_LEAVES) .hubCapacityReached
  let index := u.transferRoots.length
  return { u with
    transferRoots := u.transferRoots ++ [0]
    transferTreeIndices := u.transferTreeIndices ++ [0]
    tokenInfos := u.tokenInfos ++ [info]
    eidToPosition := Function.update u.eidToPosition info.eid (index + 1)
    isUpToDate := false }.emit (.tokenRegistered index info)

def setPeer (u : Hub) (sender : Address) (eid : ℕ) (peer : Word) : Except HubError Hub := do
  u.onlyOwner sender
  return { u with peers := Function.update u.peers eid peer.val }

def updateToken (u : Hub) (sender : Address) (info : TokenInfo) : Except HubError Hub := do
  u.onlyOwner sender
  checkInfo info
  let pos := u.eidToPosition info.eid
  require (pos ≠ 0) (.tokenNotRegistered info.eid)
  let index := pos - 1
  return { u with tokenInfos := u.tokenInfos.set index info }.emit (.tokenUpdated index info)

/-! ## Broadcast -/

/-- `_computeBroadcastContext`. -/
def computeBroadcastContext (u : Hub) : Except HubError BroadcastContext := do
  require (u.aggSeq + 1 < 2 ^ 64) .arithmeticOverflow
  return {
    snapshot := u.transferRoots
    transferTreeIndicesSnapshot := u.transferTreeIndices
    aggregationRoot := computeAggregationRoot h u.zeroHash u.transferRoots
    nextAggSeq := u.aggSeq + 1 }

/-- `_quoteBroadcast`: the targets with the native fees the endpoint quotes. -/
def quoteBroadcast (u : Hub) (quote : ℕ → MessagingFee) : List ℕ → Except HubError (List (ℕ × ℕ))
  | [] => .ok []
  | eid :: rest => do
    require (u.eidToPosition eid ≠ 0) (.tokenNotRegistered eid)
    require (u.peers eid ≠ 0) (.noPeer eid)
    let fee := quote eid
    require (fee.lzTokenFee = 0) (.layerZeroTokenFeeUnsupported eid fee.lzTokenFee)
    let fees ← u.quoteBroadcast quote rest
    return (eid, fee.nativeFee) :: fees

def totalNativeFee (fees : List (ℕ × ℕ)) : ℕ := (fees.map Prod.snd).sum

theorem totalNativeFee_cons (eid fee : ℕ) (fees : List (ℕ × ℕ)) :
    totalNativeFee ((eid, fee) :: fees) = fee + totalNativeFee fees := List.sum_cons

theorem totalNativeFee_quotes (quote : ℕ → MessagingFee) (targetEids : List ℕ) :
    totalNativeFee (targetEids.map fun eid => (eid, (quote eid).nativeFee))
      = (targetEids.map fun eid => (quote eid).nativeFee).sum := by
  rw [totalNativeFee, List.map_map]
  rfl

/-- `broadcast` up to the first `_lzSend`: the context, the sends to make and the refund. -/
def broadcastStart (u : Hub) (value : ℕ) (targetEids : List ℕ) (quote : ℕ → MessagingFee) :
    Except HubError (Hub × BroadcastContext × List (ℕ × ℕ) × ℕ) := do
  let ctx ← u.computeBroadcastContext h
  let fees ← u.quoteBroadcast quote targetEids
  require (totalNativeFee fees ≤ uint256Max) .arithmeticOverflow
  require (totalNativeFee fees ≤ value) (.nativeFeeMismatch value (totalNativeFee fees))
  let refund := value - totalNativeFee fees
  return ({ u with aggSeq := ctx.nextAggSeq, nativeBalance := u.nativeBalance + value },
    ctx, fees, refund)

/-- `broadcast` after the refund. -/
def broadcastDone (u : Hub) (ctx : BroadcastContext) : Hub :=
  { u with isUpToDate := true }.emit (.aggregationRootUpdated ctx)

/-! ## LayerZero -/

/-- `_lzReceive`. -/
def lzReceiveInternal (u : Hub) (srcEid : ℕ) (payload : Payload) : Except HubError Hub := do
  let pos := u.eidToPosition srcEid
  require (pos ≠ 0) (.tokenNotRegistered srcEid)
  require (payload.2.val < 2 ^ 64) .malformedPayload
  let transferRoot := payload.1.val
  let transferTreeIndex := payload.2.val
  let index := pos - 1
  let currentTreeIndex := u.transferTreeIndices.getD index 0
  if transferTreeIndex ≤ currentTreeIndex then
    return u
  else
    return { u with
      transferRoots := u.transferRoots.set index transferRoot
      transferTreeIndices := u.transferTreeIndices.set index transferTreeIndex
      isUpToDate := false }.emit (.transferRootUpdated srcEid index transferRoot)

/-- `OAppReceiverUpgradeable.lzReceive`. -/
def lzReceive (u : Hub) (sender : Address) (srcEid : ℕ) (originSender : Word) (payload : Payload) :
    Except HubError Hub := do
  require (u.endpoint = sender) (.onlyEndpoint sender)
  require (u.peers srcEid ≠ 0) (.noPeer srcEid)
  require (u.peers srcEid = originSender.val) (.onlyPeer srcEid originSender.val)
  u.lzReceiveInternal srcEid payload

/-! ## What a call checked and did -/

variable {h} {u u' : Hub}

theorem setPeer_eq_ok {sender : Address} {eid : ℕ} {peer : Word}
    (hok : u.setPeer sender eid peer = .ok u') :
    u' = { u with peers := Function.update u.peers eid peer.val } := by
  obtain ⟨_, -, hret⟩ := bind_eq_ok.mp hok
  exact (Except.ok.inj hret).symm

/-- `registerToken` pushes to the four structures, if the chain is new and there is room. -/
theorem registerToken_eq_ok {sender : Address} {info : TokenInfo}
    (hok : u.registerToken sender info = .ok u') :
    u.eidToPosition info.eid = 0 ∧ u.transferRoots.length < MAX_LEAVES
      ∧ u' = { u with
        transferRoots := u.transferRoots ++ [0]
        transferTreeIndices := u.transferTreeIndices ++ [0]
        tokenInfos := u.tokenInfos ++ [info]
        eidToPosition := Function.update u.eidToPosition info.eid (u.transferRoots.length + 1)
        isUpToDate := false }.emit (.tokenRegistered u.transferRoots.length info) := by
  simp only [registerToken, bind_eq_ok, require_eq_ok, exists_const] at hok
  obtain ⟨_, -, _, -, hfresh, hroom, hret⟩ := hok
  exact ⟨hfresh, hroom, (Except.ok.inj hret).symm⟩

/-- `updateToken` replaces the data of a registered chain. -/
theorem updateToken_eq_ok {sender : Address} {info : TokenInfo}
    (hok : u.updateToken sender info = .ok u') :
    u.eidToPosition info.eid ≠ 0
      ∧ u' = { u with
        tokenInfos := u.tokenInfos.set (u.eidToPosition info.eid - 1) info }.emit
          (.tokenUpdated (u.eidToPosition info.eid - 1) info) := by
  simp only [updateToken, bind_eq_ok, require_eq_ok, exists_const] at hok
  obtain ⟨_, -, _, -, hpos, hret⟩ := hok
  exact ⟨hpos, (Except.ok.inj hret).symm⟩

/-- A broadcast can be quoted when all its targets are registered, have a peer and ask no fee in
LayerZero's token. -/
theorem quoteBroadcast_eq_ok {quote : ℕ → MessagingFee} {targetEids : List ℕ}
    {fees : List (ℕ × ℕ)} : u.quoteBroadcast quote targetEids = .ok fees
      ↔ (∀ eid ∈ targetEids, u.eidToPosition eid ≠ 0 ∧ u.peers eid ≠ 0 ∧ (quote eid).lzTokenFee = 0)
        ∧ fees = targetEids.map fun eid => (eid, (quote eid).nativeFee) := by
  -- the first target that is refused ends the quote
  induction targetEids generalizing fees with
  | nil =>
    rw [quoteBroadcast, Except.ok.injEq, eq_comm]
    simp
  | cons eid rest ih =>
    simp only [quoteBroadcast, bind_eq_ok, require_eq_ok, exists_const, ih]
    constructor
    · rintro ⟨hposition, hpeer, hfee, fees', ⟨hrest, rfl⟩, hret⟩
      refine ⟨?_, (Except.ok.inj hret).symm⟩
      intro eid' hmem
      rcases List.mem_cons.mp hmem with rfl | hmem
      · exact ⟨hposition, hpeer, hfee⟩
      · exact hrest eid' hmem
    · rintro ⟨hall, rfl⟩
      obtain ⟨hposition, hpeer, hfee⟩ := hall eid List.mem_cons_self
      exact ⟨hposition, hpeer, hfee, _,
        ⟨fun eid' hmem => hall eid' (List.mem_cons_of_mem _ hmem), rfl⟩, rfl⟩

/-- What the first part of a broadcast does: it takes the next sequence number for the root of the
present leaves. -/
theorem broadcastStart_eq_ok {value : ℕ} {targetEids : List ℕ} {quote : ℕ → MessagingFee}
    {ctx : BroadcastContext} {fees : List (ℕ × ℕ)} {refund : ℕ}
    (hok : u.broadcastStart h value targetEids quote = .ok (u', ctx, fees, refund)) :
    u.aggSeq + 1 < 2 ^ 64
      ∧ ctx = {
        snapshot := u.transferRoots
        transferTreeIndicesSnapshot := u.transferTreeIndices
        aggregationRoot := computeAggregationRoot h u.zeroHash u.transferRoots
        nextAggSeq := u.aggSeq + 1 }
      ∧ u.quoteBroadcast quote targetEids = .ok fees
      ∧ totalNativeFee fees + refund = value
      ∧ u' = { u with aggSeq := u.aggSeq + 1, nativeBalance := u.nativeBalance + value } := by
  simp only [broadcastStart, computeBroadcastContext, bind_eq_ok, require_eq_ok,
    exists_const] at hok
  obtain ⟨ctx', ⟨hlt, hctx⟩, fees', hquote, -, hfee, hret⟩ := hok
  cases hctx
  cases hret
  exact ⟨hlt, rfl, hquote, Nat.add_sub_cancel' hfee, rfl⟩

/-- An accepted message came from the peer of a registered endpoint, and replaced the leaf of
that endpoint if its index is newer. -/
theorem lzReceive_eq_ok {sender : Address} {srcEid : ℕ} {originSender : Word}
    {payload : Payload} (hok : u.lzReceive sender srcEid originSender payload = .ok u') :
    u.peers srcEid ≠ 0 ∧ u.peers srcEid = originSender.val
      ∧ u.eidToPosition srcEid ≠ 0
      ∧ (payload.2.val ≤ u.transferTreeIndices.getD (u.eidToPosition srcEid - 1) 0 ∧ u' = u
        ∨ u.transferTreeIndices.getD (u.eidToPosition srcEid - 1) 0 < payload.2.val
          ∧ u' = { u with
            transferRoots := u.transferRoots.set (u.eidToPosition srcEid - 1) payload.1.val
            transferTreeIndices :=
              u.transferTreeIndices.set (u.eidToPosition srcEid - 1) payload.2.val
            isUpToDate := false }.emit
              (.transferRootUpdated srcEid (u.eidToPosition srcEid - 1) payload.1.val)) := by
  simp only [lzReceive, lzReceiveInternal, bind_eq_ok, require_eq_ok, exists_const] at hok
  obtain ⟨-, hpeer, horigin, hpos, -, hret⟩ := hok
  refine ⟨hpeer, horigin, hpos, ?_⟩
  split at hret
  · rename_i hold
    exact Or.inl ⟨hold, (Except.ok.inj hret).symm⟩
  · rename_i hnewer
    exact Or.inr ⟨Nat.lt_of_not_le hnewer, (Except.ok.inj hret).symm⟩

/-! ## Parallel arrays -/

def eids (u : Hub) : List ℕ := u.tokenInfos.map TokenInfo.eid

/-- The arrays of the Hub are parallel, and `eidToPosition` points into them. -/
structure Aligned (u : Hub) : Prop where
  indices_length : u.transferTreeIndices.length = u.transferRoots.length
  infos_length : u.tokenInfos.length = u.transferRoots.length
  position : ∀ eid, u.eidToPosition eid ≠ 0 → u.eids[u.eidToPosition eid - 1]? = some eid

/-- The leaves and their slots. -/
def arrays (u : Hub) : List ℕ × List ℕ × List TokenInfo × (ℕ → ℕ) :=
  (u.transferRoots, u.transferTreeIndices, u.tokenInfos, u.eidToPosition)

/-- The alignment speaks of the arrays only. -/
theorem Aligned.frame (hu : u.Aligned) (harrays : u'.arrays = u.arrays) : u'.Aligned := by
  simp only [arrays, Prod.mk.injEq] at harrays
  obtain ⟨hroots, hindices, hinfos, hposition⟩ := harrays
  refine ⟨?_, ?_, ?_⟩
  · rw [hroots, hindices]
    exact hu.indices_length
  · rw [hroots, hinfos]
    exact hu.infos_length
  · rw [eids, hinfos, hposition]
    exact hu.position

theorem initial_aligned (owner endpoint : Address) : (initial h owner endpoint).Aligned :=
  ⟨rfl, rfl, fun _ hne => absurd rfl hne⟩

theorem registerToken_eids {sender : Address} {info : TokenInfo}
    (hok : u.registerToken sender info = .ok u') : u'.eids = u.eids ++ [info.eid] := by
  obtain ⟨-, -, rfl⟩ := registerToken_eq_ok hok
  simp [eids, emit]

theorem registerToken_aligned {sender : Address} {info : TokenInfo} (hu : u.Aligned)
    (hok : u.registerToken sender info = .ok u') : u'.Aligned := by
  have heids := registerToken_eids hok
  obtain ⟨-, -, rfl⟩ := registerToken_eq_ok hok
  refine ⟨by simp [emit, hu.indices_length], by simp [emit, hu.infos_length], ?_⟩
  have hlen : u.eids.length = u.transferRoots.length := by
    rw [eids, List.length_map, hu.infos_length]
  intro eid hne
  rw [heids]
  by_cases heq : eid = info.eid
  · subst heq
    simp [emit, ← hlen]
  · simp only [emit, Function.update_of_ne heq] at hne ⊢
    have hpos := hu.position eid hne
    rw [List.getElem?_append_left (List.getElem?_eq_some_iff.mp hpos).1]
    exact hpos

/-- `updateToken` keeps the endpoint of the slot. -/
theorem updateToken_eids {sender : Address} {info : TokenInfo} (hu : u.Aligned)
    (hok : u.updateToken sender info = .ok u') : u'.eids = u.eids := by
  obtain ⟨hne, rfl⟩ := updateToken_eq_ok hok
  have hpos := hu.position info.eid hne
  simp only [eids, emit, List.map_set] at hpos ⊢
  generalize u.eidToPosition info.eid - 1 = index at hpos
  obtain ⟨hlt, heq⟩ := List.getElem?_eq_some_iff.mp hpos
  rw [← heq, List.set_getElem_self]

/-- The data of a chain is replaced in place. -/
theorem updateToken_aligned {sender : Address} {info : TokenInfo} (hu : u.Aligned)
    (hok : u.updateToken sender info = .ok u') : u'.Aligned := by
  have heids := updateToken_eids hu hok
  obtain ⟨-, rfl⟩ := updateToken_eq_ok hok
  refine ⟨hu.indices_length, by simp [emit, hu.infos_length], ?_⟩
  intro eid hne
  rw [heids]
  exact hu.position eid hne

theorem lzReceive_aligned {sender : Address} {srcEid : ℕ} {originSender : Word}
    {payload : Payload} (hu : u.Aligned)
    (hok : u.lzReceive sender srcEid originSender payload = .ok u') : u'.Aligned := by
  obtain ⟨-, -, -, ⟨-, rfl⟩ | ⟨-, rfl⟩⟩ := lzReceive_eq_ok hok
  · exact hu
  · exact ⟨by simp [emit, hu.indices_length], by simp [emit, hu.infos_length], hu.position⟩

end Hub

/-! ## Aggregation roots are field elements -/

variable {h}

theorem hashPair_lt (left right : ℕ) : hashPair h left right < scalarModulus := ZMod.val_lt _

theorem hashLevel_lt {pad x : ℕ} {leaves : List ℕ} (hx : x ∈ hashLevel h pad leaves) :
    x < scalarModulus := by
  induction leaves using hashLevel.induct with
  | case1 => simp [hashLevel] at hx
  | case2 left =>
    rw [hashLevel, List.mem_singleton] at hx
    rw [hx]
    exact hashPair_lt _ _
  | case3 left right rest ih =>
    rw [hashLevel, List.mem_cons] at hx
    rcases hx with rfl | hx
    · exact hashPair_lt _ _
    · exact ih hx

theorem padToRoot_lt {zeroHash : ℕ → ℕ} {root depth : ℕ}
    (hroot : root < scalarModulus ∨ depth < TREE_HEIGHT) :
    padToRoot h zeroHash root depth < scalarModulus := by
  unfold padToRoot
  rcases Nat.lt_or_ge depth TREE_HEIGHT with hdepth | hdepth
  · obtain ⟨n, hn⟩ := Nat.exists_eq_add_of_lt hdepth
    rw [show TREE_HEIGHT - depth = n + 1 by omega, List.range'_concat, List.foldl_append]
    exact hashPair_lt _ _
  · rw [Nat.sub_eq_zero_of_le hdepth]
    exact hroot.resolve_right (Nat.not_lt.mpr hdepth)

/-- So the root is in the field, since some hash is taken before the top. -/
theorem aggregateFrom_lt {zeroHash : ℕ → ℕ} {depth : ℕ} {leaves : List ℕ}
    (hleaves : (∀ x ∈ leaves, x < scalarModulus) ∨ depth < TREE_HEIGHT) :
    aggregateFrom h zeroHash depth leaves < scalarModulus := by
  induction depth, leaves using aggregateFrom.induct h zeroHash with
  | case1 depth =>
    rw [aggregateFrom]
    exact NeZero.pos scalarModulus
  | case2 depth root =>
    rw [aggregateFrom]
    exact padToRoot_lt (hleaves.imp_left fun hall => hall root (List.mem_singleton_self root))
  | case3 depth left right rest ih =>
    rw [aggregateFrom]
    exact ih (Or.inl fun x hx => hashLevel_lt hx)

/-- The aggregation root is in the field. -/
theorem computeAggregationRoot_lt (leaves : List ℕ) :
    computeAggregationRoot h (generateZeroHashes h) leaves < scalarModulus := by
  unfold computeAggregationRoot
  split
  · exact hashPair_lt _ _
  · exact aggregateFrom_lt (Or.inr (by decide))

end Zerc20
