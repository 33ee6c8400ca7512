import Zerc20.Client.MerkleProofs
import Zerc20.Lib.SearchDown
import Mathlib.Algebra.Order.Ring.Rat

/-!
# The search for the aggregation event

Both clients look for the `AggregationRootUpdated` event with the sequence number of the verifier:
`find_aggregation_event` of `client-common/src/teleport/aggregation_tree.rs` and the loop of
`fetchAggregationTreeState` in `frontend/src/services/sdk/operations/teleport.ts`. They go down from
the latest block in ranges of a configured span, one with `u64` and the other with `bigint`.

For a positive whole span both are a `SearchDown.Search`. The Rust client refuses a span of zero;
the configuration of the front end accepts every finite number, and `event_search_iff` says that
nothing else than a positive whole one will do.
-/

namespace Zerc20

namespace Client

open SearchDown

/-! ## The node -/

/-- An `AggregationRootUpdated` event in the log of the Hub. -/
structure LogEntry extends AggregationEvent where
  block : ℕ

/-- The node of the Hub's chain. -/
structure HubNode where
  log : List LogEntry
  ordered : log.Pairwise fun a b => a.block ≤ b.block
  /-- Whether it refuses a range that ends before it begins, or answers that there is nothing. -/
  refusesInverted : Bool

inductive SearchError where
  | zeroSpan
  /-- `BigInt` throws a `RangeError`. -/
  | notAnInteger (value : ℚ)
  | hubContract (fromBlock toBlock : ℕ)
  | notFound (aggSeq : ℕ)
  /-- The loop is still running after the rounds that are followed. -/
  | outOfRounds
  deriving DecidableEq

/-- `aggregation_root_events` and `queryFilter`. -/
def HubNode.aggregationRootEvents (node : HubNode) (fromBlock toBlock : ℕ) :
    Except SearchError (List AggregationEvent) :=
  if fromBlock ≤ toBlock then
    .ok ((inRange LogEntry.block node.log fromBlock toBlock).map LogEntry.toAggregationEvent)
  else if node.refusesInverted then .error (.hubContract fromBlock toBlock)
  else .ok []

/-! ## The two loops -/

/-- The ranges that a search queries, and what it returns. -/
structure Searched where
  ranges : List (ℕ × ℕ)
  result : Except SearchError AggregationEvent

/-- What both loops do with a range: the latest event of it, the end at block zero, or on to the
blocks below. -/
def searchRange (node : HubNode) (targetSeq fromBlock toBlock : ℕ) (below : Searched) : Searched :=
  match node.aggregationRootEvents fromBlock toBlock with
  | .error e => ⟨[(fromBlock, toBlock)], .error e⟩
  | .ok events =>
    match events.reverse.find? fun event => event.aggSeq = targetSeq with
    | some event => ⟨[(fromBlock, toBlock)], .ok event⟩
    | none =>
      if fromBlock = 0 then ⟨[(fromBlock, toBlock)], .error (.notFound targetSeq)⟩
      else ⟨(fromBlock, toBlock) :: below.ranges, below.result⟩

/-- The loop of `find_aggregation_event`; in a release build `to_block + 1` wraps. -/
def findLoop (node : HubNode) (targetSeq blockSpan : ℕ) : ℕ → ℕ → Searched
  | 0, _ => ⟨[], .error .outOfRounds⟩
  | rounds + 1, toBlock =>
    let next := (toBlock + 1) % 2 ^ 64
    let fromBlock := if blockSpan < next then next - blockSpan else 0
    searchRange node targetSeq fromBlock toBlock
      (findLoop node targetSeq blockSpan rounds (fromBlock - 1))

def findAggregationEvent (node : HubNode) (targetSeq blockSpan latestBlock rounds : ℕ) :
    Searched :=
  if blockSpan = 0 then ⟨[], .error .zeroSpan⟩
  else findLoop node targetSeq blockSpan rounds latestBlock

/-- The loop of `fetchAggregationTreeState`. -/
def fetchLoop (node : HubNode) (latestAggSeq : ℕ) (blockSpan : ℤ) : ℕ → ℤ → Searched
  | 0, _ => ⟨[], .error .outOfRounds⟩
  | rounds + 1, toBlock =>
    if toBlock < 0 then ⟨[], .error (.notFound latestAggSeq)⟩
    else
      let fromBlock := if blockSpan < toBlock + 1 then toBlock + 1 - blockSpan else 0
      searchRange node latestAggSeq fromBlock.toNat toBlock.toNat
        (fetchLoop node latestAggSeq blockSpan rounds (fromBlock - 1))

/-- `BigInt(value)`. -/
def bigInt (value : ℚ) : Except SearchError ℤ :=
  if value.den = 1 then .ok value.num else .error (.notAnInteger value)

/-- The search of the front end, with the `eventBlockSpan` of its configuration. -/
def fetchAggregationEvent (node : HubNode) (latestAggSeq : ℕ) (eventBlockSpan : ℚ)
    (latestBlock rounds : ℕ) : Searched :=
  match bigInt eventBlockSpan with
  | .error e => ⟨[], .error e⟩
  | .ok blockSpan => fetchLoop node latestAggSeq blockSpan rounds latestBlock

/-- `optionalNumber`, on a text that is trimmed already. `number` is `Number`, with `none` for what
is not finite: the fallback stands for it. -/
def optionalNumber (number : String → Option ℚ) (fallback : ℚ) (value : String) : ℚ :=
  if value.length = 0 then fallback else (number value).getD fallback

/-! ## What a search should do -/

/-- A search that has come to an end without an error of its own. -/
def outcomeOf (targetSeq : ℕ) : Option AggregationEvent → Except SearchError AggregationEvent
  | some event => .ok event
  | none => .error (.notFound targetSeq)

/-- The search returns, has queried disjoint ranges that go down from the latest block, to block
zero if there is no hit, and has found an event with the number if there is one. -/
structure ExactSearch (node : HubNode) (targetSeq latestBlock : ℕ) (run : ℕ → Searched)
    (ranges : List (ℕ × ℕ)) (result : Option AggregationEvent) : Prop where
  returns : ∃ enough, ∀ rounds, enough ≤ rounds → run rounds = ⟨ranges, outcomeOf targetSeq result⟩
  disjoint : ranges.Pairwise fun range lower => lower.2 < range.1
  covers : ∃ low ≤ latestBlock, (result = none → low = 0) ∧ ∀ block,
    (∃ range ∈ ranges, range.1 ≤ block ∧ block ≤ range.2) ↔ low ≤ block ∧ block ≤ latestBlock
  found : ∀ event, result = some event → event.aggSeq = targetSeq
    ∧ ∃ entry ∈ node.log, entry.block ≤ latestBlock ∧ entry.toAggregationEvent = event
  complete : result = none → ∀ entry ∈ node.log, entry.block ≤ latestBlock →
    entry.aggSeq ≠ targetSeq

section

variable {node : HubNode} {targetSeq latestBlock : ℕ}

/-! ## Positive spans -/

/-- The last event of some blocks with the number. -/
def HubNode.hit (node : HubNode) (targetSeq fromBlock toBlock : ℕ) : Option AggregationEvent :=
  (lastIn LogEntry.block (fun entry => entry.aggSeq = targetSeq) node.log fromBlock toBlock).map
    LogEntry.toAggregationEvent

/-- One range: a hit ends the search, otherwise it goes on below. -/
theorem searchRange_eq {fromBlock toBlock : ℕ} (hle : fromBlock ≤ toBlock) (below : Searched) :
    searchRange node targetSeq fromBlock toBlock below
      = match node.hit targetSeq fromBlock toBlock with
        | some event => ⟨[(fromBlock, toBlock)], .ok event⟩
        | none =>
          if fromBlock = 0 then ⟨[(fromBlock, toBlock)], .error (.notFound targetSeq)⟩
          else ⟨(fromBlock, toBlock) :: below.ranges, below.result⟩ := by
  have hfind : ((inRange LogEntry.block node.log fromBlock toBlock).map
      LogEntry.toAggregationEvent).reverse.find? (fun event => event.aggSeq = targetSeq)
        = node.hit targetSeq fromBlock toBlock := by
    rw [← List.map_reverse, List.find?_map]
    rfl
  simp only [searchRange, HubNode.aggregationRootEvents, if_pos hle, hfind]

/-- A loop whose ranges begin at `start`, and which goes on below them. -/
theorem loop_of_search {start : ℕ → ℕ} (hstart : ∀ last, start last ≤ last)
    (loop : ℕ → ℕ → Searched)
    (hloop : ∀ rounds last, ∃ below,
      loop (rounds + 1) last = searchRange node targetSeq (start last) last below
        ∧ ∀ n, start last = n + 1 → below = loop rounds n)
    {last : ℕ} {ranges : List (ℕ × ℕ)} {result : Option AggregationEvent}
    (hs : Search start (node.hit targetSeq) last ranges result) :
    ∀ rounds, last + 1 ≤ rounds → loop rounds last = ⟨ranges, outcomeOf targetSeq result⟩ := by
  -- by the cases of the search: found, nothing older, or one range further down
  induction hs with
  | @found last event hhit =>
    intro rounds hrounds
    obtain ⟨rounds, rfl⟩ : ∃ n, rounds = n + 1 := ⟨rounds - 1, by omega⟩
    obtain ⟨below, hstep, -⟩ := hloop rounds last
    rw [hstep, searchRange_eq (hstart last), hhit]
    rfl
  | @exhausted last hhit hfirst =>
    intro rounds hrounds
    obtain ⟨rounds, rfl⟩ : ∃ n, rounds = n + 1 := ⟨rounds - 1, by omega⟩
    obtain ⟨below, hstep, -⟩ := hloop rounds last
    rw [hstep, searchRange_eq (hstart last), hhit, hfirst]
    rfl
  | @next last n ranges result hhit hfirst hrest ih =>
    intro rounds hrounds
    obtain ⟨rounds, rfl⟩ : ∃ n, rounds = n + 1 := ⟨rounds - 1, by omega⟩
    obtain ⟨below, hstep, hbelow⟩ := hloop rounds last
    have hle := hstart last
    rw [hstep, searchRange_eq (hstart last), hhit, hbelow n hfirst, ih rounds (by omega), hfirst]
    rfl

/-- A search of the library is exact. -/
theorem exact_of_search {start : ℕ → ℕ} (hstart : ∀ last, start last ≤ last) {run : ℕ → Searched}
    {ranges : List (ℕ × ℕ)} {result : Option AggregationEvent}
    (hs : Search start (node.hit targetSeq) latestBlock ranges result)
    (hrun : ∀ rounds, latestBlock + 1 ≤ rounds →
      run rounds = ⟨ranges, outcomeOf targetSeq result⟩) :
    ExactSearch node targetSeq latestBlock run ranges result where
  returns := ⟨latestBlock + 1, hrun⟩
  disjoint := hs.disjoint hstart
  covers := hs.covers hstart
  found event hevent := by
    rw [hs.result_eq node.ordered hstart] at hevent
    obtain ⟨entry, hentry, rfl⟩ := Option.map_eq_some_iff.mp hevent
    obtain ⟨hmem, hle, htarget⟩ := mem_of_lastIn hentry
    exact ⟨of_decide_eq_true htarget, entry, hmem, hle, rfl⟩
  complete hnone entry hmem hle := by
    rw [hs.result_eq node.ordered hstart, Option.map_eq_none_iff] at hnone
    have hne := not_of_lastIn hnone hmem hle
    exact of_decide_eq_false hne

/-- Both clients find the latest event with the number, if their spans are positive. -/
theorem findAggregationEvent_exact (node : HubNode) (targetSeq latestBlock : ℕ) {blockSpan : ℕ}
    (hspan : 0 < blockSpan) :
    ∃ ranges, ExactSearch node targetSeq latestBlock
      (findAggregationEvent node targetSeq blockSpan latestBlock) ranges
      (node.hit targetSeq 0 latestBlock) := by
  have hstart : ∀ last, (last + 1) % 2 ^ 64 - blockSpan ≤ last := by
    intro last
    have hmod := Nat.mod_le (last + 1) (2 ^ 64)
    omega
  obtain ⟨ranges, result, hs⟩ := Search.exists_of_le hstart (node.hit targetSeq) latestBlock
  obtain rfl := hs.result_eq node.ordered hstart
  refine ⟨ranges, exact_of_search hstart hs fun rounds hrounds => ?_⟩
  rw [findAggregationEvent, if_neg (by omega)]
  refine loop_of_search hstart _ (fun rounds last => ?_) hs rounds hrounds
  have hfirst : (if blockSpan < (last + 1) % 2 ^ 64 then (last + 1) % 2 ^ 64 - blockSpan else 0)
      = (last + 1) % 2 ^ 64 - blockSpan := by
    split <;> omega
  refine ⟨_, by rw [findLoop, hfirst], fun n hn => ?_⟩
  rw [hn, Nat.add_sub_cancel]

/-- With a span that is not zero the browser's loop searches every block downwards. -/
theorem fetchLoop_exact (node : HubNode) (targetSeq latestBlock : ℕ) {blockSpan : ℕ}
    (hspan : 0 < blockSpan) :
    ∃ ranges, ExactSearch node targetSeq latestBlock
      (fun rounds => fetchLoop node targetSeq blockSpan rounds latestBlock) ranges
      (node.hit targetSeq 0 latestBlock) := by
  have hstart : ∀ last, last + 1 - blockSpan ≤ last := by
    intro last
    omega
  obtain ⟨ranges, result, hs⟩ := Search.exists_of_le hstart (node.hit targetSeq) latestBlock
  obtain rfl := hs.result_eq node.ordered hstart
  refine ⟨ranges, exact_of_search hstart hs fun rounds hrounds => ?_⟩
  refine loop_of_search hstart (fun rounds last => fetchLoop node targetSeq blockSpan rounds last)
    (fun rounds last => ?_) hs rounds hrounds
  have hfirst : (if (blockSpan : ℤ) < (last : ℤ) + 1 then (last : ℤ) + 1 - blockSpan else 0)
      = ((last + 1 - blockSpan : ℕ) : ℤ) := by
    split <;> omega
  refine ⟨_, by rw [fetchLoop, if_neg (by omega), hfirst]; rfl, fun n hn => ?_⟩
  rw [hn]
  congr 1
  omega

/-! ## Other spans -/

/-- A range whose ends are exchanged: the node refuses it or finds nothing. -/
theorem searchRange_inverted {fromBlock toBlock : ℕ} (hlt : toBlock < fromBlock)
    (below : Searched) :
    searchRange node targetSeq fromBlock toBlock below
      = if node.refusesInverted = true
        then ⟨[(fromBlock, toBlock)], .error (.hubContract fromBlock toBlock)⟩
        else ⟨(fromBlock, toBlock) :: below.ranges, below.result⟩ := by
  rw [searchRange, HubNode.aggregationRootEvents, if_neg (not_le.mpr hlt)]
  by_cases hrefuses : node.refusesInverted = true
  · rw [if_pos hrefuses, if_pos hrefuses]
  · rw [if_neg hrefuses, if_neg hrefuses]
    simp only [List.reverse_nil, List.find?_nil]
    rw [if_neg (by omega)]

/-- With a span that is not positive every range ends before it begins. -/
theorem fetchLoop_succ (node : HubNode) (targetSeq : ℕ) {blockSpan : ℤ} (hspan : blockSpan ≤ 0)
    (rounds : ℕ) {toBlock : ℤ} (hto : 0 ≤ toBlock) :
    (fetchLoop node targetSeq blockSpan (rounds + 1) toBlock).result
      = if node.refusesInverted = true
        then .error (.hubContract (toBlock + 1 - blockSpan).toNat toBlock.toNat)
        else (fetchLoop node targetSeq blockSpan rounds (toBlock - blockSpan)).result := by
  rw [fetchLoop, if_neg (by omega), if_pos (by omega), searchRange_inverted (by omega)]
  have hbelow : toBlock + 1 - blockSpan - 1 = toBlock - blockSpan := by omega
  rw [hbelow]
  split <;> rfl

/-- On a node that has no objection to such ranges the loop goes on for ever. -/
theorem fetchLoop_forever {blockSpan : ℤ} (hspan : blockSpan ≤ 0)
    (hanswers : ¬ node.refusesInverted = true) (rounds : ℕ) {toBlock : ℤ} (hto : 0 ≤ toBlock) :
    (fetchLoop node targetSeq blockSpan rounds toBlock).result = .error .outOfRounds := by
  induction rounds generalizing toBlock with
  | zero => rfl
  | succ rounds ih =>
    rw [fetchLoop_succ node targetSeq hspan rounds hto, if_neg hanswers]
    exact ih (by omega)

theorem outcomeOf_ne {e : SearchError} (he : e ≠ .notFound targetSeq)
    (result : Option AggregationEvent) : outcomeOf targetSeq result ≠ .error e := by
  cases result with
  | some event => nofun
  | none => exact fun h => he (Except.error.inj h).symm

/-- A search that ends in another error than not found is not exact. -/
theorem not_exact_of_error {run : ℕ → Searched} {ranges : List (ℕ × ℕ)}
    {result : Option AggregationEvent}
    (herror : ∀ rounds, ∃ e ≠ SearchError.notFound targetSeq, (run rounds).result = .error e) :
    ¬ ExactSearch node targetSeq latestBlock run ranges result := by
  intro hexact
  obtain ⟨enough, hreturns⟩ := hexact.returns
  obtain ⟨e, he, hresult⟩ := herror enough
  rw [hreturns enough (le_refl _)] at hresult
  exact outcomeOf_ne he result hresult

/-- So an exact search of the command line has a span above 0. -/
theorem pos_of_find_exact {blockSpan : ℕ} {ranges : List (ℕ × ℕ)}
    {result : Option AggregationEvent}
    (hexact : ExactSearch node targetSeq latestBlock
      (findAggregationEvent node targetSeq blockSpan latestBlock) ranges result) :
    0 < blockSpan := by
  by_contra hzero
  refine not_exact_of_error (fun rounds => ⟨.zeroSpan, nofun, ?_⟩) hexact
  rw [findAggregationEvent, if_pos (by omega)]

/-- And one of the browser a whole number above 0. -/
theorem whole_of_fetch_exact {eventBlockSpan : ℚ} {ranges : List (ℕ × ℕ)}
    {result : Option AggregationEvent}
    (hexact : ExactSearch node targetSeq latestBlock
      (fetchAggregationEvent node targetSeq eventBlockSpan latestBlock) ranges result) :
    eventBlockSpan.den = 1 ∧ 0 < eventBlockSpan := by
  by_contra hspan
  refine not_exact_of_error (fun rounds => ?_) hexact
  -- a span that is not positive inverts the range
  by_cases hwhole : eventBlockSpan.den = 1
  · have hle : eventBlockSpan.num ≤ 0 := by
      rw [← not_lt, Rat.num_pos]
      exact fun hpos => hspan ⟨hwhole, hpos⟩
    rw [fetchAggregationEvent, bigInt, if_pos hwhole]
    have hlatest := Int.natCast_nonneg latestBlock
    -- the node refuses it, or the loop does not move
    by_cases hrefuses : node.refusesInverted = true
    · cases rounds with
      | zero => exact ⟨.outOfRounds, nofun, rfl⟩
      | succ rounds =>
        have hrefused := fetchLoop_succ node targetSeq hle rounds hlatest
        rw [if_pos hrefuses] at hrefused
        exact ⟨_, by nofun, hrefused⟩
    · exact ⟨.outOfRounds, nofun, fetchLoop_forever hle hrefuses rounds hlatest⟩
  · rw [fetchAggregationEvent, bigInt, if_neg hwhole]
    exact ⟨.notAnInteger eventBlockSpan, nofun, rfl⟩

/-- With such a span the browser's search is exact. -/
theorem fetchAggregationEvent_exact (node : HubNode) (targetSeq latestBlock : ℕ)
    {eventBlockSpan : ℚ} (hwhole : eventBlockSpan.den = 1) (hpos : 0 < eventBlockSpan) :
    ∃ ranges, ExactSearch node targetSeq latestBlock
      (fetchAggregationEvent node targetSeq eventBlockSpan latestBlock) ranges
      (node.hit targetSeq 0 latestBlock) := by
  have hnum : 0 < eventBlockSpan.num := Rat.num_pos.mpr hpos
  obtain ⟨blockSpan, hblockSpan⟩ := Int.eq_ofNat_of_zero_le hnum.le
  have hrun : fetchAggregationEvent node targetSeq eventBlockSpan latestBlock
      = fun rounds => fetchLoop node targetSeq blockSpan rounds latestBlock := by
    funext rounds
    rw [fetchAggregationEvent, bigInt, if_pos hwhole, hblockSpan]
  rw [hrun]
  exact fetchLoop_exact node targetSeq latestBlock (by omega)

end

/-- **When the search is exact**: both clients end, with disjoint ranges down from the latest block
and the same event, which exists if there is one, if and only if their spans are positive whole
numbers. -/
theorem event_search_iff (node : HubNode) (targetSeq latestBlock blockSpan : ℕ)
    (number : String → Option ℚ) (value : String) :
    (∃ ranges ranges' result,
      ExactSearch node targetSeq latestBlock
        (findAggregationEvent node targetSeq blockSpan latestBlock) ranges result
      ∧ ExactSearch node targetSeq latestBlock
        (fetchAggregationEvent node targetSeq (optionalNumber number 5000 value) latestBlock)
        ranges' result)
      ↔ 0 < blockSpan ∧ (optionalNumber number 5000 value).den = 1
        ∧ 0 < optionalNumber number 5000 value := by
  constructor
  · rintro ⟨ranges, ranges', result, hfind, hfetch⟩
    exact ⟨pos_of_find_exact hfind, whole_of_fetch_exact hfetch⟩
  · rintro ⟨hspan, hwhole, hpos⟩
    obtain ⟨ranges, hfind⟩ := findAggregationEvent_exact node targetSeq latestBlock hspan
    obtain ⟨ranges', hfetch⟩ := fetchAggregationEvent_exact node targetSeq latestBlock hwhole hpos
    exact ⟨ranges, ranges', _, hfind, hfetch⟩

namespace SearchExample

/-- The Hub's first broadcast, in block 3. -/
def node : HubNode := ⟨[⟨⟨1, 0, [], []⟩, 3⟩], List.pairwise_singleton _ _, false⟩

/-- It reads `0` as zero, and no other text. -/
def number (value : String) : Option ℚ := if value = "0" then some 0 else none

end SearchExample

/-- The front end accepts a span of zero, and looks for the event for ever where the Rust client,
which has its default span, finds it. -/
theorem front_end_search_stuck :
    optionalNumber SearchExample.number 5000 "0" = 0
      ∧ (findAggregationEvent SearchExample.node 1 5000 5 6).result = .ok ⟨1, 0, [], []⟩
      ∧ (∀ rounds, (fetchAggregationEvent SearchExample.node 1
        (optionalNumber SearchExample.number 5000 "0") 5 rounds).result = .error .outOfRounds)
      ∧ ¬ ∃ ranges result, ExactSearch SearchExample.node 1 5
        (fetchAggregationEvent SearchExample.node 1
          (optionalNumber SearchExample.number 5000 "0") 5) ranges result := by
  have hzero : optionalNumber SearchExample.number 5000 "0" = 0 := by
    decide
  refine ⟨hzero, rfl, fun rounds => ?_, ?_⟩
  · rw [hzero]
    exact fetchLoop_forever (le_refl 0) Bool.false_ne_true rounds (by decide)
  · rintro ⟨ranges, result, hexact⟩
    have hpos := (whole_of_fetch_exact hexact).2
    rw [hzero] at hpos
    exact absurd hpos (lt_irrefl 0)

end Client

end Zerc20
