import Zerc20.Client.Batch
import Zerc20.Contracts.Conservation

/-!
# Batch teleports

The inputs that the clients build for a batch satisfy every step of the withdraw circuit, and
the Verifier mints for their proof what of their sum was not yet teleported. Real steps pass
because their siblings are those of the tree, dummies because they are not constrained; the
order of the indices is strict across both, since the real ones lie below the dummies.
-/

namespace Zerc20

namespace Client

open Machine HashTree Radix Indexer SortByKey Zkp

section

variable {h : Hashes} {event : AggregationEvent} {chainIds : List ℕ} {v : ChainView}
  {e : IndexedEvent} {batch : Batch} {burnAddressToSecret : Address → Option Word}

/-! ## The steps are satisfied -/

theorem dummySteps_value {depth n : ℕ} : ∀ e ∈ dummySteps depth n, e.value = 0 := by
  intro e he
  obtain ⟨i, -, rfl⟩ := List.mem_map.mp he
  exact Nat.cast_zero

/-- The dummies take the leaves before the last one, in their order. -/
theorem dummySteps_index {depth n : ℕ} (hd : depth ≤ 250) (hn : n < 2 ^ depth) {i : ℕ}
    (hi : i < n) :
    (dummyWithdrawExtInput depth (2 ^ depth - 1 - n + i) 0).leafIndex.val
      = 2 ^ depth - 1 - n + i :=
  val_natCast_of_lt_two_pow (n := depth) (by omega) (by omega)

/-- Steps with increasing indices below the dummies, and the dummies. -/
theorem withdrawRun_with_dummies {depth n : ℕ} (hd : depth ≤ 250) (hn : n < 2 ^ depth)
    {root recipient : Fr} {steps : List WithdrawExternalInputs}
    (hready : ∀ e ∈ steps, StepReady h depth root recipient e)
    (hsorted : steps.Pairwise fun e e' => e.leafIndex.val < e'.leafIndex.val)
    (hbelow : ∀ e ∈ steps, e.leafIndex.val < 2 ^ depth - 1 - n)
    (htotal : (steps.map fun e => e.value.val).sum < 2 ^ BYTES31_BIT_LENGTH) :
    ∃ z, withdrawRun h depth ⟨root, recipient, 0, 0⟩ (steps ++ dummySteps depth n) = some z
      ∧ z.merkleRoot = root ∧ z.recipient = recipient
      ∧ z.totalValue.val = (steps.map fun e => e.value.val).sum := by
  -- dummies are worth nothing and stand behind the leaves
  have hdummySum : ((dummySteps depth n).map fun e => e.value.val).sum = 0 := by
    refine List.sum_eq_zero fun x hx => ?_
    obtain ⟨e, he, rfl⟩ := List.mem_map.mp hx
    rw [dummySteps_value e he, ZMod.val_zero]
  have hsum : ((steps ++ dummySteps depth n).map fun e => e.value.val).sum
      = (steps.map fun e => e.value.val).sum := by
    rw [List.map_append, List.sum_append, hdummySum, Nat.add_zero]
  have hdummies : ∀ e ∈ dummySteps depth n, 2 ^ depth - 1 - n ≤ e.leafIndex.val
      ∧ StepReady h depth root recipient e := by
    intro e he
    obtain ⟨i, hi, rfl⟩ := List.mem_map.mp he
    have hval := dummySteps_index hd hn (List.mem_range.mp hi)
    rw [List.mem_range] at hi
    refine ⟨by omega, List.length_replicate, by omega, fun hreal => Bool.noConfusion hreal, ?_⟩
    exact fun _ => Nat.cast_zero
  -- in the order in which they are appended
  have hordered : (dummySteps depth n).Pairwise fun e e' => e.leafIndex.val < e'.leafIndex.val := by
    refine List.pairwise_map.mpr (List.pairwise_lt_range.imp_of_mem ?_)
    intro i j hi hj hij
    rw [dummySteps_index hd hn (List.mem_range.mp hi),
      dummySteps_index hd hn (List.mem_range.mp hj)]
    omega
  have hall : ∀ e ∈ steps ++ dummySteps depth n, StepReady h depth root recipient e := by
    intro e he
    rcases List.mem_append.mp he with he | he
    · exact hready e he
    · exact (hdummies e he).2
  obtain ⟨z, hrun, hroot, hrecipient, hvalue⟩ := withdrawRun_complete h hd
    (z := ⟨root, recipient, 0, 0⟩) hall
    (List.pairwise_append.mpr ⟨hsorted, hordered, fun e he e' he' =>
      (hbelow e he).trans_le (hdummies e' he').1⟩)
    (fun e _ => by rw [ZMod.val_zero]; exact Nat.zero_le _)
    (by rw [hsum, ZMod.val_zero, Nat.zero_add]; exact htotal)
  refine ⟨z, hrun, hroot, hrecipient, ?_⟩
  rw [hvalue, hsum]
  exact (congrArg (· + _) ZMod.val_zero).trans (Nat.zero_add _)

/-- The recipient hash of the claims that a batch is proved for. -/
def recipientFr (h : Hashes) (gr : GeneralRecipient) : Fr := u256ToFr (gr.hash h)

/-- The burn address of the event is that of the recipient and the known secret. -/
def Redeemable (h : Hashes) (gr : GeneralRecipient) (burnAddressToSecret : Address → Option Word)
    (e : IndexedEvent) : Prop :=
  ∃ secret, burnAddressToSecret e.dst = some secret
    ∧ computeBurnAddressFromSecret h (recipientFr h gr) (u256ToFr secret.val)
      = .ok (addressToFr e.dst)

variable {gr : GeneralRecipient}

/-- A redeemable transfer has its secret. -/
theorem Redeemable.isSome (he : Redeemable h gr burnAddressToSecret e) :
    (burnAddressToSecret e.dst).isSome := by
  obtain ⟨secret, hsecret, -⟩ := he
  rw [hsecret]
  rfl

/-- And its burn address is the one that the circuit derives from it. -/
theorem Redeemable.computeBurnAddress (he : Redeemable h gr burnAddressToSecret e) :
    computeBurnAddressFromSecret h (recipientFr h gr) (secretOf burnAddressToSecret e.dst)
      = .ok (addressToFr e.dst) := by
  obtain ⟨secret, hsecret, haddress⟩ := he
  rw [secretOf, hsecret]
  exact haddress

/-- A real step for a leaf of the tree. -/
theorem stepReady_of_climb {depth index : ℕ} (hd : depth ≤ 250) (hindex : index < 2 ^ depth)
    {siblings : List Fr} (hlength : siblings.length = depth) {root recipient secret : Fr}
    (haddress : computeBurnAddressFromSecret h recipient secret = .ok (addressToFr e.dst))
    (hclimb : climb h.poseidon2 (eventLeaf h e) ((bitsLE depth index).zip siblings) = root) :
    StepReady h depth root recipient
      ⟨false, u256ToFr e.value.val, secret, (index : Fr), siblings⟩ := by
  have hval : ((index : ℕ) : Fr).val = index :=
    val_natCast_of_lt_two_pow (n := depth) (by omega) hindex
  refine ⟨hlength, by rw [hval]; exact hindex, fun _ => ?_, fun hdummy => Bool.noConfusion hdummy⟩
  refine ⟨hlength, ?_, addressToFr e.dst, haddress, ?_⟩
  · show ((index : ℕ) : Fr).val < 2 ^ depth
    rw [hval]
    exact hindex
  · show root = climb h.poseidon2 (leafHashVar h (addressToFr e.dst) (u256ToFr e.value.val))
      ((bitsLE depth ((index : ℕ) : Fr).val).zip siblings)
    rw [hval, ← hclimb]
    rfl

/-- The sum of the values. -/
def totalValue (events : List IndexedEvent) : ℕ := (events.map fun e => e.value.val).sum

/-- Values below `2 ^ 248` are the same in the field. -/
theorem sum_u256ToFr {events : List IndexedEvent} (htotal : totalValue events < 2 ^ 248) :
    (events.map fun e => (u256ToFr e.value.val).val).sum = totalValue events := by
  unfold totalValue at htotal ⊢
  congr 1
  refine List.map_congr_left fun e he => ?_
  have hle : e.value.val ≤ (events.map fun e => e.value.val).sum :=
    List.le_sum_of_mem (List.mem_map_of_mem he)
  exact val_natCast_of_lt_two_pow (n := 248) (by omega) (by omega)

/-- The inputs that the Rust client builds for events of one chain's tree are satisfied. -/
theorem local_run {events : List IndexedEvent} {n : ℕ} (hsmall : n < NUM_BATCH_INVOICES)
    (hv : v.Faithful h) (hhas : ∀ e ∈ events, v.Has e ∧ e.eventIndex < v.treeIndex)
    (hdistinct : (events.map IndexedEvent.eventIndex).Nodup)
    (hredeem : ∀ e ∈ events, Redeemable h gr burnAddressToSecret e)
    (hbelow : ∀ e ∈ events, e.eventIndex < 2 ^ transferTreeHeight - 1 - n)
    (htotal : totalValue events < 2 ^ 248) :
    ∃ z, withdrawRun h transferTreeHeight ⟨v.root h, recipientFr h gr, 0, 0⟩
        ((sortByKey IndexedEvent.eventIndex events).map (fun e =>
          ⟨false, u256ToFr e.value.val, secretOf burnAddressToSecret e.dst, (e.eventIndex : Fr),
            v.siblings h e.eventIndex⟩) ++ dummySteps transferTreeHeight n) = some z
      ∧ z.merkleRoot = v.root h ∧ z.recipient = recipientFr h gr
      ∧ z.totalValue.val = totalValue events := by
  have hval : ∀ e ∈ sortByKey IndexedEvent.eventIndex events,
      ((e.eventIndex : ℕ) : Fr).val = e.eventIndex := fun e he =>
    val_natCast_of_lt_two_pow (n := transferTreeHeight) (by decide)
      (hv.index_lt (hhas e (mem_sortByKey.mp he)).2)
  -- the sum does not depend on the order
  have hsum : (((sortByKey IndexedEvent.eventIndex events).map (fun e =>
      (⟨false, u256ToFr e.value.val, secretOf burnAddressToSecret e.dst, (e.eventIndex : Fr),
        v.siblings h e.eventIndex⟩ : WithdrawExternalInputs))).map fun e => e.value.val).sum
      = totalValue events := by
    rw [List.map_map, ← sum_u256ToFr htotal]
    exact ((sortByKey_perm events).map _).sum_eq
  rw [← hsum]
  refine withdrawRun_with_dummies (by decide) (hsmall.trans (by decide)) ?_ ?_ ?_ ?_
  -- each step is ready: its leaf is in the tree, its secret opens the address
  · intro x hx
    obtain ⟨e, he, rfl⟩ := List.mem_map.mp hx
    have he := mem_sortByKey.mp he
    obtain ⟨hmem, hlt⟩ := hhas e he
    exact stepReady_of_climb (by decide) (hv.index_lt hlt) (ChainView.siblings_length _)
      (hredeem e he).computeBurnAddress (ChainView.climb_siblings hv hmem hlt)
  · refine List.pairwise_map.mpr ((sortByKey_pairwise_lt hdistinct).imp_of_mem ?_)
    intro e e' he he' hlt
    show ((e.eventIndex : ℕ) : Fr).val < ((e'.eventIndex : ℕ) : Fr).val
    rw [hval e he, hval e' he']
    exact hlt
  · intro x hx
    obtain ⟨e, he, rfl⟩ := List.mem_map.mp hx
    show ((e.eventIndex : ℕ) : Fr).val < _
    rw [hval e he]
    exact hbelow e (mem_sortByKey.mp he)
  · rw [hsum]
    exact htotal

/-- The Nova proof of some items and dummies has two steps. -/
theorem two_le_steps {n : ℕ} (hne : batch.items ≠ []) (hn : 1 ≤ n) :
    2 ≤ (realSteps h event chainIds (secretOf burnAddressToSecret) batch
      ++ dummySteps globalTransferTreeHeight n).length := by
  have hpos : 1 ≤ batch.items.length := List.length_pos_iff.mpr hne
  simp only [List.length_append, realSteps, List.length_map,
    (sortByKey_perm batch.items).length_eq, dummySteps, List.length_range]
  omega

/-- The real steps of a batch in the aggregated tree, and the dummies, are satisfied. -/
theorem global_run {n : ℕ} (hsmall : n < NUM_BATCH_INVOICES)
    (hroot : node h.poseidon2 (snapshotLeaves event.snapshot) aggregationHeight 0
      = u256ToFr event.root.val)
    (hvalid : batch.Valid h event chainIds)
    (hredeem : ∀ y ∈ batch.items, Redeemable h gr burnAddressToSecret y.2)
    (hbelow : ∀ y ∈ batch.items, globalIndex chainIds y < 2 ^ globalTransferTreeHeight - 1 - n)
    (htotal : totalValue (batch.items.map Prod.snd) < 2 ^ 248) :
    ∃ z, withdrawRun h globalTransferTreeHeight
        ⟨u256ToFr event.root.val, recipientFr h gr, 0, 0⟩
        (realSteps h event chainIds (secretOf burnAddressToSecret) batch
          ++ dummySteps globalTransferTreeHeight n) = some z
      ∧ z.merkleRoot = u256ToFr event.root.val ∧ z.recipient = recipientFr h gr
      ∧ z.totalValue.val = totalValue (batch.items.map Prod.snd) := by
  have hindex : ∀ y ∈ batch.items, globalIndex chainIds y < 2 ^ globalTransferTreeHeight :=
    fun y hy => (hbelow y hy).trans_le ((Nat.sub_le _ _).trans (Nat.sub_le _ _))
  have hval : ∀ y ∈ sortByKey (globalIndex chainIds) batch.items,
      ((globalIndex chainIds y : ℕ) : Fr).val = globalIndex chainIds y := fun y hy =>
    val_natCast_of_lt_two_pow (n := globalTransferTreeHeight) (by decide)
      (hindex y (mem_sortByKey.mp hy))
  -- the sum does not depend on the order
  have hsum : ((realSteps h event chainIds (secretOf burnAddressToSecret) batch).map
      fun e => e.value.val).sum = totalValue (batch.items.map Prod.snd) := by
    rw [realSteps, List.map_map, ← sum_u256ToFr htotal, List.map_map]
    exact ((sortByKey_perm batch.items).map _).sum_eq
  rw [← hsum]
  refine withdrawRun_with_dummies (by decide) (hsmall.trans (by decide)) ?_ ?_ ?_ ?_
  -- the path climbs through the chain's root to the one on chain
  · intro x hx
    obtain ⟨y, hy, rfl⟩ := List.mem_map.mp hx
    have hy := mem_sortByKey.mp hy
    obtain ⟨hv, ha, hhas, hlt⟩ := hvalid.item hy
    exact stepReady_of_climb (by decide) (hindex y hy) (globalSiblings_length y)
      (hredeem y hy).computeBurnAddress
      ((climb_globalSiblings hv ha hhas hlt (hindex y hy)).trans hroot)
  · refine List.pairwise_map.mpr ((sortByKey_pairwise_lt hvalid.index_nodup).imp_of_mem ?_)
    intro y y' hy hy' hlt
    show ((globalIndex chainIds y : ℕ) : Fr).val < ((globalIndex chainIds y' : ℕ) : Fr).val
    rw [hval y hy, hval y' hy']
    exact hlt
  · intro x hx
    obtain ⟨y, hy, rfl⟩ := List.mem_map.mp hx
    show ((globalIndex chainIds y : ℕ) : Fr).val < _
    rw [hval y hy]
    exact hbelow y (mem_sortByKey.mp hy)
  · rw [hsum]
    exact htotal

/-! ## The mint -/

/-- The decider: satisfied runs of two steps or more have a proof, which carries the first and
the last state and is accepted. -/
def DecidersComplete (h : Hashes) (d : Deciders)
    (produceDeciderProof : Bool → WithdrawState → List WithdrawExternalInputs → WithdrawProof) :
    Prop :=
  ∀ isGlobal z es z', 2 ≤ es.length → withdrawRun h (withdrawDepth isGlobal) z es = some z' →
    d.withdrawDecider isGlobal (produceDeciderProof isGlobal z es) = true
      ∧ (∀ i ∈ ([1, 2, 3, 4, 5, 6, 7, 8] : List (Fin 34)),
        (produceDeciderProof isGlobal z es i).val < scalarModulus)
      ∧ (produceDeciderProof isGlobal z es).initialState = z
      ∧ (produceDeciderProof isGlobal z es).finalState = z'

/-- The Verifier asks the contracts `vs`, takes the claim of the proof for the stored root and the
recipient, and the token can mint `amount` to it. -/
structure CanMint (h : Hashes) (vs : Verifiers) (c : Chain) (isGlobal : Bool) (rootHint : ℕ)
    (root : Fr) (gr : GeneralRecipient) (amount : ℕ) : Prop where
  verifiers : c.verifier.verifiers = vs
  paused : c.verifier.paused = false
  stored : (if isGlobal then c.verifier.globalTransferRoots rootHint
    else c.verifier.provedTransferRoots rootHint) = root.val
  root_ne : root ≠ 0
  chainId : gr.chainId.val = uint64 c.chainId
  verifier : c.verifierAddr = c.token.verifier
  dst_ne : Verifier.recipientAddr gr ≠ 0
  supply : c.token.totalSupply + amount ≤ uint256Max
  index : c.token.index < uint256Max

/-- `amount` is minted to the recipient, and the teleported total becomes `total`. -/
structure Minted (h : Hashes) (c c' : Chain) (gr : GeneralRecipient) (amount total : ℕ) :
    Prop where
  event : ∃ tr : Transfer, tr.src = 0 ∧ tr.dst = Verifier.recipientAddr gr ∧ tr.value.val = amount
    ∧ c'.token.events = c.token.events ++ [tr]
  supply : c'.token.totalSupply = c.token.totalSupply + amount
  balances : c'.token.balances = Function.update c.token.balances (Verifier.recipientAddr gr)
    ((c.token.balances (Verifier.recipientAddr gr) + amount) % 2 ^ 256)
  total : c'.verifier.totalTeleported
    = Function.update c.verifier.totalTeleported (gr.hash h) total

/-- The inputs satisfy every step of the circuit from `(root, recipient, 0, 0)` and add up to
`total`, and the Verifier mints for their proof what of `total` was not yet teleported. -/
structure Settles (h : Hashes) (d : DeciderSets) (vs : Verifiers)
    (produceDeciderProof : Bool → WithdrawState → List WithdrawExternalInputs → WithdrawProof)
    (gr : GeneralRecipient) (isGlobal : Bool) (root : Fr) (inputs : List WithdrawExternalInputs)
    (total : ℕ) : Prop where
  satisfied : ∃ z, withdrawRun h (withdrawDepth isGlobal) ⟨root, recipientFr h gr, 0, 0⟩ inputs
    = some z ∧ z.totalValue.val = total
  mints : ∀ (c : Chain) (rootHint : ℕ), c.verifier.totalTeleported (gr.hash h) < total →
    CanMint h vs c isGlobal rootHint root gr (total - c.verifier.totalTeleported (gr.hash h)) →
    ∃ c', c.teleport h d isGlobal rootHint gr
        (produceDeciderProof isGlobal ⟨root, recipientFr h gr, 0, 0⟩ inputs) = .ok c'
      ∧ Minted h c c' gr (total - c.verifier.totalTeleported (gr.hash h)) total

/-- The recipient's hash is in the field. -/
theorem recipientFr_val (h : Hashes) (gr : GeneralRecipient) :
    (recipientFr h gr).val = gr.hash h :=
  val_natCast_of_lt_two_pow (n := 249) (by omega) (gr.hash_lt h)

/-- A word below the modulus is the value of its field element. -/
theorem word_eq_val {x : ℕ} {y : Fr} (hx : x < scalarModulus) (hxy : (x : Fr) = y) :
    x = y.val := by
  rw [← hxy, ZMod.val_natCast_of_lt hx]

variable {d : DeciderSets} {vs : Verifiers}
  {produceDeciderProof : Bool → WithdrawState → List WithdrawExternalInputs → WithdrawProof}

/-- The claim of the proof of a satisfied run. -/
theorem teleportClaim_ok {isGlobal : Bool} {root : Fr} {inputs : List WithdrawExternalInputs}
    {z : WithdrawState} {total : ℕ} (hproofs : DecidersComplete h (d vs) produceDeciderProof)
    (hsteps : 2 ≤ inputs.length)
    (hrun : withdrawRun h (withdrawDepth isGlobal) ⟨root, recipientFr h gr, 0, 0⟩ inputs = some z)
    (hroot : z.merkleRoot = root) (hrecipient : z.recipient = recipientFr h gr)
    (htotal : z.totalValue.val = total) :
    Verifier.teleportClaim (d vs) isGlobal
        (produceDeciderProof isGlobal ⟨root, recipientFr h gr, 0, 0⟩ inputs)
      = .ok ⟨isGlobal, root.val, gr.hash h, total⟩ := by
  obtain ⟨haccepted, hwords, hinitial, hfinal⟩ := hproofs isGlobal _ inputs z hsteps hrun
  -- the public words of the proof
  have hword : ∀ i ∈ ([1, 2, 3, 4, 5, 6, 7, 8] : List (Fin 34)), ∀ y : Fr,
      ((produceDeciderProof isGlobal ⟨root, recipientFr h gr, 0, 0⟩ inputs i).val : Fr) = y →
      (produceDeciderProof isGlobal ⟨root, recipientFr h gr, 0, 0⟩ inputs i).val = y.val :=
    fun i hi y hy => word_eq_val (hwords i hi) hy
  have h1 := hword 1 (by decide) root (congrArg WithdrawState.merkleRoot hinitial)
  have h2 := hword 2 (by decide) (recipientFr h gr) (congrArg WithdrawState.recipient hinitial)
  have h3 := hword 3 (by decide) 0 (congrArg WithdrawState.leafIndexWithOffset hinitial)
  have h4 := hword 4 (by decide) 0 (congrArg WithdrawState.totalValue hinitial)
  have h5 := hword 5 (by decide) root ((congrArg WithdrawState.merkleRoot hfinal).trans hroot)
  have h6 := hword 6 (by decide) (recipientFr h gr)
    ((congrArg WithdrawState.recipient hfinal).trans hrecipient)
  have h8 := hword 8 (by decide) z.totalValue (congrArg WithdrawState.totalValue hfinal)
  rw [recipientFr_val] at h2 h6
  rw [ZMod.val_zero] at h3 h4
  rw [htotal] at h8
  unfold Verifier.teleportClaim
  simp only [h1, h2, h3, h4, h5, h6, h8, haccepted]
  rfl

/-- A claim of more than was teleported mints the difference. -/
theorem finishTeleport_mints {isGlobal : Bool} {root : Fr} {total : ℕ} (hbound : total < 2 ^ 248)
    {c : Chain} {rootHint : ℕ} (evidence : Evidence)
    (hlt : c.verifier.totalTeleported (gr.hash h) < total)
    (hcan : CanMint h vs c isGlobal rootHint root gr
      (total - c.verifier.totalTeleported (gr.hash h))) :
    ∃ c', c.finishTeleport h rootHint gr ⟨isGlobal, root.val, gr.hash h, total⟩ evidence = .ok c'
      ∧ Minted h c c' gr (total - c.verifier.totalTeleported (gr.hash h)) total := by
  obtain ⟨t, tr, hmint, hsrc, hdst, hvalue, hevents, hsupply, hbalances⟩ := Token.teleport_ok h
    (total - c.verifier.totalTeleported (gr.hash h)) hcan.verifier hcan.dst_ne
    (by rw [uint248Max]; omega) hcan.supply hcan.index
  obtain ⟨c', hok, htoken, hteleported⟩ := Chain.finishTeleport_ok h (c := c)
    rootHint gr ⟨isGlobal, root.val, gr.hash h, total⟩ evidence
    (by rw [Ne, ZMod.val_eq_zero]; exact hcan.root_ne) hcan.stored rfl hcan.chainId hlt hmint
  exact ⟨c', hok, ⟨tr, hsrc, hdst, hvalue, by rw [htoken, hevents]⟩, by rw [htoken, hsupply],
    by rw [htoken, hbalances], hteleported⟩

/-- A folded run of the circuit whose proof the deciders take is settled by the Verifier. -/
theorem settles_of_run {isGlobal : Bool} {root : Fr} {inputs : List WithdrawExternalInputs}
    {z : WithdrawState} {total : ℕ} (hproofs : DecidersComplete h (d vs) produceDeciderProof)
    (hsteps : 2 ≤ inputs.length) (hbound : total < 2 ^ 248)
    (hrun : withdrawRun h (withdrawDepth isGlobal) ⟨root, recipientFr h gr, 0, 0⟩ inputs = some z)
    (hroot : z.merkleRoot = root) (hrecipient : z.recipient = recipientFr h gr)
    (htotal : z.totalValue.val = total) :
    Settles h d vs produceDeciderProof gr isGlobal root inputs total := by
  refine ⟨⟨z, hrun, htotal⟩, ?_⟩
  intro c rootHint hlt hcan
  have hclaim := teleportClaim_ok hproofs hsteps hrun hroot hrecipient htotal
  obtain ⟨c', hok, hminted⟩ := finishTeleport_mints hbound
    (.batch (produceDeciderProof isGlobal ⟨root, recipientFr h gr, 0, 0⟩ inputs)) hlt hcan
  refine ⟨c', ?_, hminted⟩
  unfold Chain.teleport
  refine bind_eq_ok.mpr ⟨(), Chain.liftVerifier_eq_ok.mpr (require_of hcan.paused), ?_⟩
  refine bind_eq_ok.mpr ⟨_, Chain.liftVerifier_eq_ok.mpr ?_, hok⟩
  rw [hcan.verifiers]
  exact hclaim

/-- The items of a batch in the aggregated tree, with some dummies. -/
theorem settles_of_items {n : ℕ} (hproofs : DecidersComplete h (d vs) produceDeciderProof)
    (hroot : node h.poseidon2 (snapshotLeaves event.snapshot) aggregationHeight 0
      = u256ToFr event.root.val)
    (hvalid : batch.Valid h event chainIds) (hne : batch.items ≠ [])
    (hredeem : ∀ y ∈ batch.items, Redeemable h gr burnAddressToSecret y.2)
    (htotal : totalValue (batch.items.map Prod.snd) < 2 ^ 248) (hn : 1 ≤ n)
    (hsmall : n < NUM_BATCH_INVOICES)
    (hbelow : ∀ y ∈ batch.items, globalIndex chainIds y < 2 ^ globalTransferTreeHeight - 1 - n) :
    Settles h d vs produceDeciderProof gr true (u256ToFr event.root.val)
      (realSteps h event chainIds (secretOf burnAddressToSecret) batch
        ++ dummySteps globalTransferTreeHeight n) (totalValue (batch.items.map Prod.snd)) := by
  obtain ⟨z, hrun, hstate, hrecipient, hvalue⟩ :=
    global_run hsmall hroot hvalid hredeem hbelow htotal
  exact settles_of_run hproofs (two_le_steps hne hn) htotal hrun hstate hrecipient hvalue

end

/-- The front end draws from the same range as the Rust client. -/
theorem randomDummySteps_range (buffer : ℕ) :
    1 ≤ randomDummySteps buffer ∧ randomDummySteps buffer < NUM_BATCH_INVOICES := by
  unfold randomDummySteps NUM_BATCH_INVOICES
  dsimp only
  split <;> omega

/-- **An honest batch teleport is complete.** The first part is about events of one chain's tree,
the second about events of the aggregated tree, the third about such events of one burn address,
for which the front end builds the same real steps. -/
theorem batch_teleport_complete (h : Hashes) (d : DeciderSets) (vs : Verifiers)
    (produceDeciderProof : Bool → WithdrawState → List WithdrawExternalInputs → WithdrawProof)
    (hproofs : DecidersComplete h (d vs) produceDeciderProof) (gr : GeneralRecipient)
    (burnAddressToSecret : Address → Option Word) :
    (∀ (v : ChainView) (events : List IndexedEvent) (n : ℕ), v.Faithful h → events ≠ [] →
      (∀ e ∈ events, v.Has e ∧ e.eventIndex < v.treeIndex) →
      (events.map IndexedEvent.eventIndex).Nodup →
      (∀ e ∈ events, Redeemable h gr burnAddressToSecret e) →
      totalValue events < 2 ^ 248 → 1 ≤ n → n < NUM_BATCH_INVOICES →
      (∀ e ∈ events, e.eventIndex < 2 ^ transferTreeHeight - 1 - n) →
      ∃ proofs inputs, fetchLocalTeleportMerkleProofs h v.cfg v.db v.treeIndex events = .ok proofs
        ∧ localInputs burnAddressToSecret proofs n = .ok inputs
        ∧ Settles h d vs produceDeciderProof gr false (v.root h) inputs (totalValue events))
      ∧ (∀ (event : AggregationEvent) (chainIds : List ℕ) (onchainRoot : Word)
          (state : AggregationTreeState) (order : IterationOrder) (batch : Batch) (n : ℕ),
        fetchAggregationTreeState h onchainRoot event chainIds = .ok state →
        batch.Valid h event chainIds → batch.items ≠ [] →
        (∀ y ∈ batch.items, Redeemable h gr burnAddressToSecret y.2) →
        totalValue (batch.items.map Prod.snd) < 2 ^ 248 → 1 ≤ n → n < NUM_BATCH_INVOICES →
        (∀ y ∈ batch.items, globalIndex chainIds y < 2 ^ globalTransferTreeHeight - 1 - n) →
        ∃ proofs inputs, redeemProofs h order state batch.served = .ok proofs
          ∧ globalInputs burnAddressToSecret proofs n = .ok inputs
          ∧ Settles h d vs produceDeciderProof gr true (u256ToFr onchainRoot.val) inputs
            (totalValue (batch.items.map Prod.snd)))
      ∧ (∀ (event : AggregationEvent) (chainIds : List ℕ) (onchainRoot : Word)
          (state : AggregationTreeState) (web : AggregationSnapshot) (order : IterationOrder)
          (batch batch' : Batch) (n buffer : ℕ) (burnAddress : Address) (secret : Word),
        fetchAggregationTreeState h onchainRoot event chainIds = .ok state →
        fetchAggregationSnapshot h onchainRoot event chainIds = .ok web →
        batch.Valid h event chainIds → batch'.Valid h event chainIds →
        batch.items ≠ [] → batch'.items.Perm batch.items →
        (∀ y ∈ batch.items, y.2.dst = burnAddress ∧ Redeemable h gr burnAddressToSecret y.2) →
        burnAddressToSecret burnAddress = some secret →
        totalValue (batch.items.map Prod.snd) < 2 ^ 248 →
        (∀ y ∈ batch.items, globalIndex chainIds y
          < 2 ^ globalTransferTreeHeight - 1 - randomDummySteps buffer) →
        ∃ proofs steps, redeemProofs h order state batch.served = .ok proofs
          ∧ globalInputs burnAddressToSecret proofs n
            = .ok (steps ++ dummySteps globalTransferTreeHeight n)
          ∧ burnInputs h web batch'.served secret (randomDummySteps buffer)
            = .ok (globalTransferTreeHeight,
              steps ++ dummySteps globalTransferTreeHeight (randomDummySteps buffer))
          ∧ (∀ e ∈ steps, e.isDummy = false)
          ∧ Settles h d vs produceDeciderProof gr true (u256ToFr onchainRoot.val)
            (steps ++ dummySteps globalTransferTreeHeight (randomDummySteps buffer))
            (totalValue (batch.items.map Prod.snd))) := by
  refine ⟨?_, ?_, ?_⟩
  · intro v events n hv hne hhas hdistinct hredeem htotal hn hsmall hbelow
    obtain ⟨z, hrun, hroot, hrecipient, hvalue⟩ :=
      local_run hsmall hv hhas hdistinct hredeem hbelow htotal
    refine ⟨_, _, fetchLocalTeleportMerkleProofs_ok hv hhas,
      localInputs_ok n fun e he => (hredeem e he).isSome, ?_⟩
    refine settles_of_run hproofs ?_ htotal hrun hroot hrecipient hvalue
    have hlength : 1 ≤ events.length := List.length_pos_iff.mpr hne
    simp only [List.length_append, List.length_map, (sortByKey_perm events).length_eq, dummySteps,
      List.length_range]
    omega
  · intro event chainIds onchainRoot state order batch n hstate hvalid hne hredeem htotal hn hsmall
      hbelow
    obtain ⟨hevent, hfetched⟩ := fetchAggregationTreeState_eq_ok hstate
    refine ⟨_, _, redeemProofs_ok order hfetched hvalid fun y hy =>
      (hbelow y hy).trans_le ((Nat.sub_le _ _).trans (Nat.sub_le _ _)),
      globalInputs_ok n fun y hy => (hredeem y hy).isSome, ?_⟩
    rw [← hevent]
    exact settles_of_items hproofs hfetched.root hvalid hne hredeem htotal hn hsmall hbelow
  · intro event chainIds onchainRoot state web order batch batch' n buffer burnAddress secret hstate
      hweb hvalid hvalid' hne hperm hredeem hsecret htotal hbelow
    obtain ⟨hevent, hfetched⟩ := fetchAggregationTreeState_eq_ok hstate
    obtain ⟨hdraw, hsmall⟩ := randomDummySteps_range buffer
    have hindex : ∀ y ∈ batch.items, globalIndex chainIds y < 2 ^ globalTransferTreeHeight :=
      fun y hy => (hbelow y hy).trans_le ((Nat.sub_le _ _).trans (Nat.sub_le _ _))
    have hindex' : ∀ y ∈ batch'.items, globalIndex chainIds y < 2 ^ globalTransferTreeHeight :=
      fun y hy => hindex y (hperm.mem_iff.mp hy)
    -- one secret, and one order
    have hsame : realSteps h event chainIds (fun _ => u256ToFr secret.val) batch'
        = realSteps h event chainIds (secretOf burnAddressToSecret) batch := by
      rw [realSteps, realSteps, sortByKey_congr hperm hvalid'.index_nodup]
      refine List.map_congr_left fun y hy => ?_
      rw [itemStep, itemStep, (hredeem y (mem_sortByKey.mp hy)).1, secretOf, hsecret]
      rfl
    refine ⟨_, _, redeemProofs_ok order hfetched hvalid hindex,
      globalInputs_ok n fun y hy => (hredeem y hy).2.isSome, ?_, ?_, ?_⟩
    · rw [burnInputs, redeemContext_ok (fetchAggregationSnapshot_eq_ok hweb) hvalid' hindex']
      simp only [bind, Except.bind]
      rw [runNovaProver_ok secret hdraw hsmall hindex', hsame]
    · intro x hx
      obtain ⟨y, -, rfl⟩ := List.mem_map.mp hx
      rfl
    · rw [← hevent]
      exact settles_of_items hproofs hfetched.root hvalid hne (fun y hy => (hredeem y hy).2)
        htotal hdraw hsmall hbelow

/-! ### Two payments to one burn address -/

namespace BatchExample

def transfers : List Transfer := [⟨0, BurnExample.burnAt, 5⟩, ⟨0, BurnExample.burnAt, 2⟩]

def cfg : TreeConfig := ⟨40, 1, transferTreeHeight_pos, Nat.one_pos⟩

def view : ChainView where
  chainId := 1
  cfg := cfg
  db := run (appendStep realHashes cfg) TreeDb.initial (transfers.map entryOf)
  transfers := transfers
  treeIndex := 2

def events : List IndexedEvent :=
  [⟨1, 0, BurnExample.burnAt, 2⟩, ⟨0, 0, BurnExample.burnAt, 5⟩]

def batch : Batch := [(view, events)]

/-- A field element as a word. -/
def word (x : Fr) : Word := ⟨x.val, val_lt_two_pow_256 x⟩

def snapshot : List Word := [word (view.root realHashes)]

def root : Word :=
  word (node realHashes.poseidon2 (snapshotLeaves snapshot) aggregationHeight 0)

def event : AggregationEvent := ⟨1, root, snapshot, [2]⟩

def secrets (dst : Address) : Option Word :=
  if dst = BurnExample.burnAt then some 3296 else none

/-- The words of a proof of a run from `z`. -/
def produceDeciderProof (isGlobal : Bool) (z : WithdrawState)
    (es : List WithdrawExternalInputs) : WithdrawProof :=
  match withdrawRun realHashes (withdrawDepth isGlobal) z es with
  | some z' => ![0, word z.merkleRoot, word z.recipient, word z.leafIndexWithOffset,
      word z.totalValue, word z'.merkleRoot, word z'.recipient, word z'.leafIndexWithOffset,
      word z'.totalValue, 0, 0, 0, 0, 0, 0, 0, 0, 0, 0, 0, 0, 0, 0, 0, 0, 0, 0, 0, 0, 0, 0, 0, 0, 0]
  | none => 0

def deciders : DeciderSets := fun _ => ⟨fun _ => false, fun _ _ => true, fun _ _ => false⟩

/-- The contracts that the Verifier asks. -/
def verifiers : Verifiers := ⟨21, 22, 23, 24, 25⟩

def order : IterationOrder := ⟨id, id, List.Perm.refl, List.Perm.refl⟩

/-- A field element survives the way through a word. -/
theorem word_cast (x : Fr) : ((word x).val : Fr) = x := ZMod.natCast_zmod_val x

/-- The deciders of the example take what its prover makes. -/
theorem decidersComplete :
    DecidersComplete realHashes (deciders verifiers) produceDeciderProof := by
  intro isGlobal z es z' _ hrun
  have hproof : produceDeciderProof isGlobal z es = ![0, word z.merkleRoot, word z.recipient,
      word z.leafIndexWithOffset, word z.totalValue, word z'.merkleRoot, word z'.recipient,
      word z'.leafIndexWithOffset, word z'.totalValue,
      0, 0, 0, 0, 0, 0, 0, 0, 0, 0, 0, 0, 0, 0, 0, 0, 0, 0, 0, 0, 0, 0, 0, 0, 0] := by
    rw [produceDeciderProof, hrun]
  have hlt : ∀ x : Fr, (word x).val < scalarModulus := fun x => ZMod.val_lt x
  rw [hproof]
  refine ⟨rfl, ?_, ?_, ?_⟩
  · intro i hi
    simp only [List.mem_cons, List.not_mem_nil, or_false] at hi
    rcases hi with rfl | rfl | rfl | rfl | rfl | rfl | rfl | rfl
    all_goals exact hlt _
  · show (⟨_, _, _, _⟩ : WithdrawState) = z
    exact congr (congr (congrArg₂ WithdrawState.mk (word_cast z.merkleRoot)
      (word_cast z.recipient)) (word_cast z.leafIndexWithOffset)) (word_cast z.totalValue)
  · show (⟨_, _, _, _⟩ : WithdrawState) = z'
    exact congr (congr (congrArg₂ WithdrawState.mk (word_cast z'.merkleRoot)
      (word_cast z'.recipient)) (word_cast z'.leafIndexWithOffset)) (word_cast z'.totalValue)

/-- All the transfers of the example are appended. -/
theorem appendedEntries_transfers :
    appendedEntries (transfers.map entryOf) = transfers.map entryOf := by
  refine List.take_of_length_le ?_
  show 2 ≤ i64Max
  decide

theorem run_transfers : Represents realHashes cfg
    (run (appendStep realHashes cfg) TreeDb.initial (transfers.map entryOf))
    (appendedEntries (transfers.map entryOf)) := by
  apply run_represents
  decide

/-- The database of the view is that of the run. -/
theorem view_db :
    view.db = run (appendStep realHashes cfg) TreeDb.initial (transfers.map entryOf) := by
  dsimp only [view]

theorem represents : Represents realHashes cfg view.db (transfers.map entryOf) := by
  have hrun := run_transfers
  rw [appendedEntries_transfers] at hrun
  rw [view_db]
  exact hrun

theorem faithful : view.Faithful realHashes := by
  refine ⟨?_, ?_, ?_, ?_, ?_⟩
  · rfl
  · exact represents
  · decide
  · decide
  · decide

theorem has : ∀ e ∈ events, view.Has e := by
  intro e he
  simp only [events, List.mem_cons, List.not_mem_nil, or_false] at he
  rcases he with rfl | rfl
  · exact ⟨⟨0, BurnExample.burnAt, 2⟩, rfl, rfl, rfl, rfl⟩
  · exact ⟨⟨0, BurnExample.burnAt, 5⟩, rfl, rfl, rfl, rfl⟩

theorem valid : batch.Valid realHashes event [1] := by
  have haggregated : Aggregated realHashes event [1] view := ⟨List.mem_singleton_self _, rfl, rfl⟩
  refine ⟨?_, ?_, ?_, List.nodup_singleton _, ?_⟩
  all_goals
    intro x hx
    obtain rfl := List.mem_singleton.mp hx
  · exact faithful
  · exact haggregated
  · exact has
  · show (events.map IndexedEvent.eventIndex).Nodup
    decide

def state : AggregationTreeState := ⟨1, root, aggregationTree realHashes snapshot, [2], [1]⟩

def web : AggregationSnapshot := ⟨1, root, snapshot, [2], [1]⟩

/-- The root of the snapshot is the one on chain. -/
theorem getRoot_snapshot : (aggregationTree realHashes snapshot).getRoot = u256ToFr root.val :=
  (aggregationTree_holds snapshot).getRoot.trans (word_cast _).symm

/-- The command line fetches the aggregation of that root. -/
theorem fetch_state : fetchAggregationTreeState realHashes root event [1] = .ok state :=
  bind_eq_ok.mpr ⟨(), require_of rfl, bind_eq_ok.mpr ⟨(), require_of getRoot_snapshot, rfl⟩⟩

theorem fetch_web : fetchAggregationSnapshot realHashes root event [1] = .ok web := by
  refine bind_eq_ok.mpr ⟨(), require_of rfl, bind_eq_ok.mpr ⟨(), require_of ?_, rfl⟩⟩
  exact congrArg ZMod.val (aggregationTree_holds snapshot).getRoot

/-- Both transfers went to the burn address of the example. -/
theorem redeemable : ∀ e ∈ events, e.dst = BurnExample.burnAt
    ∧ Redeemable realHashes BurnExample.recipient secrets e := by
  have haddress : computeBurnAddressFromSecret realHashes
      (recipientFr realHashes BurnExample.recipient) (u256ToFr 3296)
      = .ok (addressToFr BurnExample.burnAt) := by decide +kernel
  have hevents : ∀ e ∈ events, e.dst = BurnExample.burnAt := by decide
  intro e he
  refine ⟨hevents e he, 3296, ?_, ?_⟩
  · rw [hevents e he]
    rfl
  · rw [hevents e he]
    exact haddress

end BatchExample

/-- The two payments, by either client. -/
theorem batch_teleport_complete_two_payments :
    (∃ proofs inputs, fetchLocalTeleportMerkleProofs realHashes BatchExample.cfg
        BatchExample.view.db 2 BatchExample.events = .ok proofs
      ∧ localInputs BatchExample.secrets proofs 1 = .ok inputs
      ∧ Settles realHashes BatchExample.deciders BatchExample.verifiers
          BatchExample.produceDeciderProof
        BurnExample.recipient false (BatchExample.view.root realHashes) inputs 7)
      ∧ ∃ proofs steps, redeemProofs realHashes BatchExample.order BatchExample.state
          BatchExample.batch.served = .ok proofs
        ∧ globalInputs BatchExample.secrets proofs 1
          = .ok (steps ++ dummySteps globalTransferTreeHeight 1)
        ∧ burnInputs realHashes BatchExample.web BatchExample.batch.served 3296 3
          = .ok (globalTransferTreeHeight, steps ++ dummySteps globalTransferTreeHeight 3)
        ∧ Settles realHashes BatchExample.deciders BatchExample.verifiers
          BatchExample.produceDeciderProof
          BurnExample.recipient true (u256ToFr BatchExample.root.val)
          (steps ++ dummySteps globalTransferTreeHeight 3) 7 := by
  obtain ⟨hlocal, -, hglobal⟩ := batch_teleport_complete realHashes BatchExample.deciders
    BatchExample.verifiers BatchExample.produceDeciderProof BatchExample.decidersComplete
    BurnExample.recipient BatchExample.secrets
  have hitems : BatchExample.batch.items = BatchExample.events.map (Prod.mk BatchExample.view) :=
    rfl
  have heligible : ∀ e ∈ BatchExample.events, e.eventIndex < 2 := by decide
  have hplace : place [1] BatchExample.view = 0 := rfl
  refine ⟨hlocal BatchExample.view BatchExample.events 1 BatchExample.faithful (by decide)
    (fun e he => ⟨BatchExample.has e he, heligible e he⟩) (by decide)
    (fun e he => (BatchExample.redeemable e he).2) (by decide) (by decide) (by decide)
    (by decide), ?_⟩
  obtain ⟨proofs, steps, hproofs, hinputs, hweb, -, hsettles⟩ := hglobal BatchExample.event [1]
    BatchExample.root BatchExample.state BatchExample.web BatchExample.order BatchExample.batch
    BatchExample.batch 1 3 BurnExample.burnAt 3296 BatchExample.fetch_state BatchExample.fetch_web
    BatchExample.valid BatchExample.valid (by rw [hitems]; exact List.cons_ne_nil _ _)
    (List.Perm.refl _)
    (by
      intro y hy
      rw [hitems] at hy
      obtain ⟨e, he, rfl⟩ := List.mem_map.mp hy
      exact BatchExample.redeemable e he)
    rfl (by decide)
    (by
      intro y hy
      rw [hitems] at hy
      obtain ⟨e, he, rfl⟩ := List.mem_map.mp hy
      rw [globalIndex, hplace, Nat.zero_shiftLeft, Nat.zero_add]
      exact (heligible e he).trans (by decide))
  exact ⟨proofs, steps, hproofs, hinputs, hweb, hsettles⟩

end Client

end Zerc20
