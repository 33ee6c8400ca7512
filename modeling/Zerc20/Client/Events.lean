import Zerc20.Client.BatchTeleport

/-!
# The transfer events of a burn address

What both clients redeem starts with the indexer's answer to `events_by_recipient`
(`indexer/src/server/mod.rs`): the oldest events of the address, and of these at most a thousand,
whatever limit a client asks for. The Rust client, `client-common/src/teleport/events.rs`, asks for
the tokens of which the address has a balance; the TypeScript client, `collectRedeemContext`, asks
for every token.

`all_transfers_in_reach_iff` says when some limit gives all transfers. Later ones than the thousandth
are out of reach, so anyone can hide a payment behind a thousand transfers of his own.
-/

namespace Zerc20

namespace Client

open Machine Indexer SortByKey

/-- A token of the configuration, with the balances of its contract. -/
structure TokenView extends ChainView where
  balanceOf : Address → ℕ

/-! ## The indexer -/

/-- The value of a transfer as the indexer stores it. -/
def transferWord (value : Fin (2 ^ 248)) : Word :=
  ⟨value.val, Nat.lt_trans value.isLt (by decide)⟩

namespace ChainView

/-- The rows of `indexed_transfer_events`. -/
def rows (v : ChainView) : List IndexedEvent :=
  v.transfers.zipIdx.map fun x => ⟨x.2, x.1.src, x.1.dst, transferWord x.1.value⟩

/-- The rows with the recipient `dst`, in the order of their index. -/
def transfersTo (v : ChainView) (dst : Address) : List IndexedEvent :=
  sortByKey IndexedEvent.eventIndex (v.rows.filter fun e => e.dst = dst)

def eventsByRecipient (v : ChainView) (dst : Address) (limit : Option ℕ) : List IndexedEvent :=
  let limit := limit.getD 100
  let limit := min limit 1000
  (v.transfersTo dst).take limit

end ChainView

/-! ## The clients -/

/-- `nonzero_balance_addresses`: the burn addresses under a chain id, once for each of its tokens
that has a balance of them. -/
def nonzeroBalanceAddresses (tokens : List TokenView) (burnAddresses : List Address)
    (chainId : ℕ) : List Address :=
  burnAddresses.flatMap fun a =>
    (tokens.filter fun token => token.chainId = chainId ∧ token.balanceOf a ≠ 0).map fun _ => a

/-- `fetch_transfer_events`, the entry of its `HashMap` under a chain id. -/
def transferEventsOf (indexerFetchLimit : Option ℕ) (tokens : List TokenView)
    (burnAddresses : List Address) (chainId : ℕ) : Option (List IndexedEvent) :=
  let addresses := nonzeroBalanceAddresses tokens burnAddresses chainId
  if addresses = [] then none
  else (tokens.find? fun token => token.chainId = chainId).map fun token =>
    addresses.flatMap fun a => token.eventsByRecipient a indexerFetchLimit

/-- `fetch_transfer_events` of a configuration with one token a chain, with the token for its chain
id (`transferEventsOf_eq`). -/
def fetchTransferEvents (indexerFetchLimit : Option ℕ) (tokens : List TokenView)
    (burnAddresses : List Address) : List (TokenView × List IndexedEvent) :=
  tokens.filterMap fun token =>
    let addresses := burnAddresses.filter fun a => token.balanceOf a ≠ 0
    if addresses = [] then none
    else some (token, addresses.flatMap fun a => token.eventsByRecipient a indexerFetchLimit)

/-- `DEFAULT_INDEXER_FETCH_LIMIT`. -/
def defaultIndexerFetchLimit : ℕ := 20

/-- The requests of `collectRedeemContext`. -/
def collectEvents (indexerFetchLimit : Option ℕ) (tokens : List TokenView) (burnAddress : Address) :
    List (TokenView × List IndexedEvent) :=
  tokens.map fun token =>
    (token, token.eventsByRecipient burnAddress
      (some (indexerFetchLimit.getD defaultIndexerFetchLimit)))

/-- The total of the eligible events, which a redemption proves. -/
def eligibleTotalValue (events : List (TokenView × List IndexedEvent)) : ℕ :=
  (events.map fun x => totalValue (x.1.eligible x.2)).sum

/-! ## One token a chain -/

section

variable {limit : Option ℕ} {tokens : List TokenView} {token : TokenView}

/-- Of distinct chain ids one token has a given one. -/
theorem filter_chainId (hchains : (tokens.map fun token => token.chainId).Nodup)
    (htoken : token ∈ tokens) (p : TokenView → Prop) [DecidablePred p] :
    (tokens.filter fun x => x.chainId = token.chainId ∧ p x) = if p token then [token] else [] := by
  induction tokens with
  | nil => cases htoken
  | cons x xs ih =>
    rw [List.map_cons, List.nodup_cons] at hchains
    obtain ⟨hfirst, hrest⟩ := hchains
    rcases List.mem_cons.mp htoken with rfl | hmem
    · -- none of the others has it
      have hnone : (xs.filter fun y => y.chainId = token.chainId ∧ p y) = [] := by
        rw [List.filter_eq_nil_iff]
        intro y hy hboth
        have hid := (of_decide_eq_true hboth).1
        exact hfirst (hid ▸ List.mem_map_of_mem hy)
      rw [List.filter_cons, hnone]
      by_cases hp : p token
      · rw [if_pos (decide_eq_true ⟨rfl, hp⟩), if_pos hp]
      · rw [if_neg (by simp [hp]), if_neg hp]
    · have hne : x.chainId ≠ token.chainId := fun heq => hfirst (heq ▸ List.mem_map_of_mem hmem)
      rw [List.filter_cons, if_neg (by simp [hne]), ih hrest hmem]

/-- **One token a chain**: then the map's entry under its chain id is what the model lists for it. -/
theorem transferEventsOf_eq (hchains : (tokens.map fun token => token.chainId).Nodup)
    (htoken : token ∈ tokens) (burnAddresses : List Address) :
    transferEventsOf limit tokens burnAddresses token.chainId
      = ((fetchTransferEvents limit tokens burnAddresses).find? fun x =>
          x.1.chainId = token.chainId).map Prod.snd := by
  have haddresses : nonzeroBalanceAddresses tokens burnAddresses token.chainId
      = burnAddresses.filter fun a => token.balanceOf a ≠ 0 := by
    rw [nonzeroBalanceAddresses]
    induction burnAddresses with
    | nil => rfl
    | cons a addresses ih =>
      rw [List.flatMap_cons, ih, filter_chainId hchains htoken fun x => x.balanceOf a ≠ 0,
        List.filter_cons]
      by_cases hbalance : token.balanceOf a = 0
      · simp [hbalance]
      · simp [hbalance]
  have hfind : (tokens.find? fun x => x.chainId = token.chainId) = some token := by
    have hfilter := filter_chainId hchains htoken fun _ => True
    simp only [and_true, if_true] at hfilter
    rw [← List.head?_filter, hfilter]
    rfl
  -- the first of the model's entries with the chain id comes from the one token that has it
  have hmodel : ((fetchTransferEvents limit tokens burnAddresses).find? fun x =>
      x.1.chainId = token.chainId)
        = if (burnAddresses.filter fun a => token.balanceOf a ≠ 0) ≠ [] then
            some (token, (burnAddresses.filter fun a => token.balanceOf a ≠ 0).flatMap fun a =>
              token.eventsByRecipient a limit)
          else none := by
    rw [fetchTransferEvents, List.find?_filterMap]
    have hentry : (tokens.find? fun x => Option.any (fun y => decide (y.1.chainId = token.chainId))
          (if (burnAddresses.filter fun a => x.balanceOf a ≠ 0) = [] then none
          else some (x, (burnAddresses.filter fun a => x.balanceOf a ≠ 0).flatMap fun a =>
            x.eventsByRecipient a limit)))
        = tokens.find? fun x => decide (x.chainId = token.chainId
          ∧ (burnAddresses.filter fun a => x.balanceOf a ≠ 0) ≠ []) := by
      congr 1
      funext x
      split
      · rename_i hempty
        rw [Option.any_none, eq_comm, decide_eq_false_iff_not]
        exact fun hboth => hboth.2 hempty
      · rename_i hsome
        rw [Option.any_some]
        exact decide_eq_decide.mpr (and_iff_left hsome).symm
    dsimp only
    rw [hentry, ← List.head?_filter, filter_chainId hchains htoken
      fun x => (burnAddresses.filter fun a => x.balanceOf a ≠ 0) ≠ []]
    split
    · rename_i hsome
      simp only [List.head?_cons, Option.bind_some, if_neg hsome]
    · rfl
  rw [transferEventsOf, haddresses, hfind, hmodel]
  by_cases hempty : (burnAddresses.filter fun a => token.balanceOf a ≠ 0) = []
  · rw [if_neg (not_not.mpr hempty), if_pos hempty]
    rfl
  · rw [if_pos hempty, if_neg hempty]
    rfl

end

/-! ## Rows -/

namespace ChainView

variable {v : ChainView} {dst : Address} {e : IndexedEvent}

/-- The rows of the indexer are the events of the chain. -/
theorem mem_rows : e ∈ v.rows ↔ v.Has e := by
  rw [rows, List.mem_map, Has]
  constructor
  · rintro ⟨⟨t, i⟩, hmem, rfl⟩
    exact ⟨t, List.mem_zipIdx_iff_getElem?.mp hmem, rfl, rfl, rfl⟩
  · rintro ⟨t, hget, hsrc, hdst, hvalue⟩
    refine ⟨(t, e.eventIndex), List.mem_zipIdx_iff_getElem?.mpr hget, ?_⟩
    obtain ⟨i, src, dst, value⟩ := e
    obtain rfl := hsrc
    obtain rfl := hdst
    congr 1
    exact Fin.ext hvalue

theorem rows_index (v : ChainView) :
    v.rows.map IndexedEvent.eventIndex = List.range v.transfers.length := by
  rw [rows, List.map_map]
  exact (List.zipIdx_map_snd 0 v.transfers).trans List.range_eq_range'.symm

/-- The transfers to an address are the events with that recipient. -/
theorem mem_transfersTo : e ∈ v.transfersTo dst ↔ v.Has e ∧ e.dst = dst := by
  rw [transfersTo, mem_sortByKey, List.mem_filter, mem_rows, decide_eq_true_iff]

theorem transfersTo_index_nodup : ((v.transfersTo dst).map IndexedEvent.eventIndex).Nodup := by
  have hrows : (v.rows.map IndexedEvent.eventIndex).Nodup := by
    rw [rows_index]
    exact List.nodup_range
  have hfilter := hrows.sublist ((List.filter_sublist
    (p := fun e : IndexedEvent => decide (e.dst = dst))).map IndexedEvent.eventIndex)
  exact ((sortByKey_perm _).map _).nodup_iff.mpr hfilter

theorem transfersTo_nodup : (v.transfersTo dst).Nodup :=
  List.Nodup.of_map _ transfersTo_index_nodup

/-- All transfers are in the answer when there are not more than the limit. -/
theorem subset_eventsByRecipient {limit : ℕ} :
    (∀ e ∈ v.transfersTo dst, e ∈ v.eventsByRecipient dst (some limit))
      ↔ (v.transfersTo dst).length ≤ min limit 1000 := by
  show (∀ e ∈ v.transfersTo dst, e ∈ (v.transfersTo dst).take (min limit 1000)) ↔ _
  constructor
  · intro hall
    by_contra hlong
    rw [not_le] at hlong
    -- the first one that is cut off
    have hcut := hall _ (List.getElem_mem hlong)
    obtain ⟨i, hi, heq⟩ := List.mem_take_iff_getElem.mp hcut
    have hsame := (List.getElem_inj transfersTo_nodup).mp heq
    omega
  · intro hshort e he
    rw [List.take_of_length_le hshort]
    exact he

/-- Within the limit the answer is all of them. -/
theorem eventsByRecipient_of_le {limit : ℕ}
    (hshort : (v.transfersTo dst).length ≤ min limit 1000) :
    v.eventsByRecipient dst (some limit) = v.transfersTo dst := List.take_of_length_le hshort

end ChainView

/-! ## All transfers -/

/-- With the limit, both clients get every transfer to the burn address, and what they redeem is the
sum of all that are eligible. -/
structure InReach (tokens : List TokenView) (burnAddress : Address) (limit : ℕ) : Prop where
  rust : ∀ token ∈ tokens, ∀ e ∈ token.transfersTo burnAddress,
    ∃ events, (token, events) ∈ fetchTransferEvents (some limit) tokens [burnAddress] ∧ e ∈ events
  web : ∀ token ∈ tokens, ∀ e ∈ token.transfersTo burnAddress,
    ∃ events, (token, events) ∈ collectEvents (some limit) tokens burnAddress ∧ e ∈ events
  rustTotal : eligibleTotalValue (fetchTransferEvents (some limit) tokens [burnAddress])
    = (tokens.map fun token => totalValue (token.eligible (token.transfersTo burnAddress))).sum
  webTotal : eligibleTotalValue (collectEvents (some limit) tokens burnAddress)
    = (tokens.map fun token => totalValue (token.eligible (token.transfersTo burnAddress))).sum

variable {tokens : List TokenView} {burnAddress : Address} {limit : ℕ}

/-- The client asks the tokens where the burn address has a balance. -/
theorem mem_fetchTransferEvents {token : TokenView} {events : List IndexedEvent} :
    (token, events) ∈ fetchTransferEvents (some limit) tokens [burnAddress]
      ↔ token ∈ tokens ∧ token.balanceOf burnAddress ≠ 0
        ∧ events = token.eventsByRecipient burnAddress (some limit) := by
  rw [fetchTransferEvents, List.mem_filterMap]
  constructor
  · rintro ⟨token', hmem, heq⟩
    by_cases hbalance : token'.balanceOf burnAddress = 0
    · simp [hbalance] at heq
    · simp only [List.filter_cons, List.filter_nil, hbalance, ne_eq, not_false_eq_true,
        decide_true, if_true, List.cons_ne_nil, if_false, List.flatMap_cons, List.flatMap_nil,
        List.append_nil, Option.some.injEq, Prod.mk.injEq] at heq
      obtain ⟨rfl, rfl⟩ := heq
      exact ⟨hmem, hbalance, rfl⟩
  · rintro ⟨hmem, hbalance, rfl⟩
    refine ⟨token, hmem, ?_⟩
    simp [hbalance]

theorem fetchTransferEvents_cons (token : TokenView) :
    fetchTransferEvents (some limit) (token :: tokens) [burnAddress]
      = (if token.balanceOf burnAddress = 0 then []
        else [(token, token.eventsByRecipient burnAddress (some limit))])
        ++ fetchTransferEvents (some limit) tokens [burnAddress] := by
  rw [fetchTransferEvents, List.filterMap_cons]
  by_cases hbalance : token.balanceOf burnAddress = 0
  · simp [hbalance, fetchTransferEvents]
  · simp [hbalance, fetchTransferEvents]

/-- What the Rust client redeems when nothing is cut off. -/
theorem fetchTransferEvents_total
    (hall : ∀ token ∈ tokens, (token.transfersTo burnAddress).length ≤ min limit 1000
      ∧ (token.balanceOf burnAddress = 0 →
        totalValue (token.eligible (token.transfersTo burnAddress)) = 0)) :
    eligibleTotalValue (fetchTransferEvents (some limit) tokens [burnAddress])
      = (tokens.map fun token =>
        totalValue (token.eligible (token.transfersTo burnAddress))).sum := by
  induction tokens with
  | nil => rfl
  | cons token tokens ih =>
    obtain ⟨hshort, hzero⟩ := hall token List.mem_cons_self
    have hrest := ih fun t ht => hall t (List.mem_cons_of_mem _ ht)
    rw [eligibleTotalValue] at hrest
    rw [fetchTransferEvents_cons, eligibleTotalValue, List.map_append, List.sum_append, hrest,
      List.map_cons, List.sum_cons]
    congr 1
    -- a token that is not asked has nothing to add
    by_cases hbalance : token.balanceOf burnAddress = 0
    · rw [if_pos hbalance, hzero hbalance]
      rfl
    · rw [if_neg hbalance, ChainView.eventsByRecipient_of_le hshort, List.map_singleton,
        List.sum_singleton]

/-- What it collects is what these tokens transferred. -/
theorem collectEvents_total
    (hall : ∀ token ∈ tokens, (token.transfersTo burnAddress).length ≤ min limit 1000) :
    eligibleTotalValue (collectEvents (some limit) tokens burnAddress)
      = (tokens.map fun token =>
        totalValue (token.eligible (token.transfersTo burnAddress))).sum := by
  rw [eligibleTotalValue, collectEvents, List.map_map]
  refine congrArg List.sum (List.map_congr_left fun token hmem => ?_)
  show totalValue (token.eligible (token.eventsByRecipient burnAddress (some limit))) = _
  rw [ChainView.eventsByRecipient_of_le (hall token hmem)]

theorem InReach.length_le (hreach : InReach tokens burnAddress limit) {token : TokenView}
    (hmem : token ∈ tokens) : (token.transfersTo burnAddress).length ≤ 1000 := by
  have hsubset : ∀ e ∈ token.transfersTo burnAddress,
      e ∈ token.eventsByRecipient burnAddress (some limit) := by
    intro e he
    obtain ⟨events, hevents, hin⟩ := hreach.web token hmem e he
    obtain ⟨token', -, heq⟩ := List.mem_map.mp hevents
    cases heq
    exact hin
  exact (ChainView.subset_eventsByRecipient.mp hsubset).trans (min_le_right _ _)

/-- **Which transfers are in reach.** There is a limit with which both clients get every transfer, if
no token has more than a thousand of them and the address has a balance where it has transfers. -/
theorem all_transfers_in_reach_iff (tokens : List TokenView) (burnAddress : Address) :
    (∃ limit, InReach tokens burnAddress limit)
      ↔ ∀ token ∈ tokens, (token.transfersTo burnAddress).length ≤ 1000
        ∧ (token.balanceOf burnAddress = 0 → token.transfersTo burnAddress = []) := by
  constructor
  · rintro ⟨limit, hreach⟩ token hmem
    constructor
    · exact hreach.length_le hmem
    · intro hbalance
      rw [List.eq_nil_iff_forall_not_mem]
      intro e he
      obtain ⟨events, hevents, -⟩ := hreach.rust token hmem e he
      exact (mem_fetchTransferEvents.mp hevents).2.1 hbalance
  · intro hall
    have hshort : ∀ token ∈ tokens, (token.transfersTo burnAddress).length ≤ min 1000 1000 :=
      fun token hmem => (hall token hmem).1
    -- the largest limit that the indexer grants
    refine ⟨1000, ?_, ?_, ?_, ?_⟩
    · intro token hmem e he
      refine ⟨_, mem_fetchTransferEvents.mpr ⟨hmem, ?_, rfl⟩, ?_⟩
      · intro hbalance
        rw [(hall token hmem).2 hbalance] at he
        cases he
      · exact ChainView.subset_eventsByRecipient.mpr (hshort token hmem) e he
    · intro token hmem e he
      refine ⟨_, List.mem_map.mpr ⟨token, hmem, rfl⟩, ?_⟩
      exact ChainView.subset_eventsByRecipient.mpr (hshort token hmem) e he
    · refine fetchTransferEvents_total fun token hmem => ⟨hshort token hmem, fun hbalance => ?_⟩
      rw [(hall token hmem).2 hbalance]
      rfl
    · exact collectEvents_total hshort

namespace EventsExample

/-- `n` transfers of nothing, and a payment. -/
def token (n : ℕ) : TokenView where
  chainId := 1
  cfg := ⟨40, 1, transferTreeHeight_pos, Nat.one_pos⟩
  db := TreeDb.initial
  transfers := List.replicate n ⟨1, 7, 0⟩ ++ [⟨2, 7, 5⟩]
  treeIndex := n + 1
  balanceOf dst := if dst = 7 then 5 else 0

theorem transfersTo_length (n : ℕ) : ((token n).transfersTo 7).length = n + 1 := by
  have hfilter : ((token n).rows.filter fun e => e.dst = 7) = (token n).rows := by
    rw [List.filter_eq_self]
    intro e he
    obtain ⟨t, hget, -, hdst, -⟩ := ChainView.mem_rows.mp he
    have hmem : t ∈ List.replicate n (⟨1, 7, 0⟩ : Transfer) ++ [⟨2, 7, 5⟩] :=
      List.mem_of_getElem? hget
    rw [decide_eq_true_iff, ← hdst]
    rcases List.mem_append.mp hmem with hspam | hlast
    · rw [List.eq_of_mem_replicate hspam]
    · rw [List.mem_singleton.mp hlast]
  rw [ChainView.transfersTo, (sortByKey_perm _).length_eq, hfilter, ChainView.rows,
    List.length_map, List.length_zipIdx]
  show (List.replicate n (⟨1, 7, 0⟩ : Transfer) ++ [(⟨2, 7, 5⟩ : Transfer)]).length = n + 1
  rw [List.length_append, List.length_replicate, List.length_singleton]

end EventsExample

/-- Whatever the limit, a payment after a thousand transfers of nothing is out of reach. -/
theorem payment_out_of_reach : ¬ ∃ limit, InReach [EventsExample.token 1000] 7 limit := by
  rintro ⟨limit, hreach⟩
  have hlength := hreach.length_le List.mem_cons_self
  rw [EventsExample.transfersTo_length] at hlength
  omega

end Client

end Zerc20
