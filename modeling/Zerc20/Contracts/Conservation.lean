import Zerc20.Contracts.System
import Zerc20.Hash.Poseidon
import Zerc20.Hash.Sha256

/-!
# Teleport conservation

Local and global, batch and single teleports share one cumulative counter per recipient hash.
This module keeps a ledger of the accepted teleports of every chain and relates three things:
the counter, the amounts minted by the token, and the transfers opened by the proofs.

* `Chain.TeleportInv` holds of every reachable chain, whatever the deciders accept: the counter
  is the sum of the minted amounts and the largest value claimed so far, and every mint was
  made for a recipient of this chain;
* `RecordSound` holds of every accepted teleport when roots are genuine and deciders sound:
  each opening is a recorded transfer to a burn address of the recipient, and their values
  cover the claim.

`teleport_conservation` puts them together. A counter is at most the value of the distinct
transfers opened for its recipient because the largest claim already is.
-/

namespace Zerc20

open Machine HashTree Zkp

variable {ι : Type} [DecidableEq ι] {h : Hashes} {d : DeciderSets}

/-! ## The counter and the mints -/

def Chain.recordsFor (c : Chain) (recipient : ℕ) : List TeleportRecord :=
  c.records.filter fun r => r.claim.recipient = recipient

/-- The mint of a record, as the token recorded it. -/
def TeleportRecord.MintedIn (r : TeleportRecord) (ts : List Transfer) : Prop :=
  ∃ t, ts[r.mintIndex]? = some t ∧ t.src = 0 ∧ t.dst = Verifier.recipientAddr r.gr
    ∧ t.value.val = r.minted

structure Chain.TeleportInv (h : Hashes) (c : Chain) : Prop where
  total : ∀ recipient, c.verifier.totalTeleported recipient
    = ((c.recordsFor recipient).map TeleportRecord.minted).sum
  largest : ∀ recipient, c.verifier.totalTeleported recipient = 0
    ∨ ∃ r ∈ c.recordsFor recipient, c.verifier.totalTeleported recipient = r.claim.value
  recipient : ∀ r ∈ c.records, r.claim.recipient = r.gr.hash h
  chainId : ∀ r ∈ c.records, r.gr.chainId.val = uint64 c.chainId
  minted : ∀ r ∈ c.records, r.MintedIn c.token.events
  distinct : (c.records.map TeleportRecord.mintIndex).Nodup

theorem TeleportRecord.MintedIn.grow {r : TeleportRecord} {ts us : List Transfer}
    (hr : r.MintedIn ts) (hpre : ts <+: us) : r.MintedIn us := by
  obtain ⟨t, hget, hrest⟩ := hr
  obtain ⟨rest, rfl⟩ := hpre
  have hlt : r.mintIndex < ts.length := (List.getElem?_eq_some_iff.mp hget).1
  exact ⟨t, by rw [List.getElem?_append_left hlt, hget], hrest⟩

/-- The index of a logged mint is one of the log's. -/
theorem TeleportRecord.MintedIn.lt {r : TeleportRecord} {ts : List Transfer}
    (hr : r.MintedIn ts) : r.mintIndex < ts.length := by
  obtain ⟨t, hget, -⟩ := hr
  exact (List.getElem?_eq_some_iff.mp hget).1

/-- A step that touches neither the totals nor the records keeps the invariant, whatever it logs. -/
theorem Chain.TeleportInv.of_same {c c' : Chain} (hinv : c.TeleportInv h)
    (hevents : c.token.events <+: c'.token.events) (hconfig : c'.config = c.config)
    (htotal : c'.verifier.totalTeleported = c.verifier.totalTeleported)
    (hrecords : c'.records = c.records) : c'.TeleportInv h := by
  -- the records of a recipient are those of before
  have hfor : ∀ recipient, c'.recordsFor recipient = c.recordsFor recipient := by
    intro recipient
    rw [Chain.recordsFor, hrecords, Chain.recordsFor]
  have hchain : c'.chainId = c.chainId := congrArg Prod.fst hconfig
  refine ⟨?_, ?_, ?_, ?_, ?_, ?_⟩
  · intro recipient
    rw [htotal, hfor, hinv.total]
  · intro recipient
    rw [htotal, hfor]
    exact hinv.largest recipient
  · rw [hrecords]
    exact hinv.recipient
  · rw [hrecords, hchain]
    exact hinv.chainId
  · rw [hrecords]
    exact fun r hr => (hinv.minted r hr).grow hevents
  · rw [hrecords]
    exact hinv.distinct

/-- The mint of an accepted teleport is the next event of the token. -/
theorem Chain.Teleported.events {c c' : Chain} {r : TeleportRecord} (hr : c.Teleported h c' r) :
    ∃ t, c'.token.events = c.token.events ++ [t] ∧ t.src = 0
      ∧ t.dst = Verifier.recipientAddr r.gr ∧ t.value.val = r.minted := by
  obtain ⟨_, -, hmint⟩ := bind_eq_ok.mp hr.mint_ok
  obtain ⟨-, -, t, hsrc, hdst, hvalue, ht⟩ := Token.mintInternal_eq_ok h hmint
  exact ⟨t, by rw [ht]; rfl, hsrc, hdst, hvalue⟩

theorem Chain.Teleported.records {c c' : Chain} {r : TeleportRecord} (hr : c.Teleported h c' r) :
    c'.records = c.records ++ [r] := by rw [hr.result]

/-- It raises the recipient's total to the claimed one. -/
theorem Chain.Teleported.totalTeleported {c c' : Chain} {r : TeleportRecord}
    (hr : c.Teleported h c' r) :
    c'.verifier.totalTeleported
      = Function.update c.verifier.totalTeleported r.claim.recipient r.claim.value := by
  rw [hr.result]
  rfl

/-- Only the recipient's own list of records grows. -/
theorem Chain.Teleported.recordsFor {c c' : Chain} {r : TeleportRecord}
    (hr : c.Teleported h c' r) (recipient : ℕ) :
    c'.recordsFor recipient = c.recordsFor recipient
      ++ if r.claim.recipient = recipient then [r] else [] := by
  rw [Chain.recordsFor, hr.records, List.filter_append, Chain.recordsFor]
  congr 1
  by_cases heq : r.claim.recipient = recipient
  · rw [if_pos heq, List.filter_cons_of_pos (by simpa using heq), List.filter_nil]
  · rw [if_neg heq, List.filter_cons_of_neg (by simpa using heq), List.filter_nil]

/-- What it mints is the difference, so the mints of the recipient again add up to the total. -/
theorem Chain.Teleported.teleportInv {c c' : Chain} {r : TeleportRecord}
    (hr : c.Teleported h c' r) (hhistory : c.token.HistoryInv h) (hinv : c.TeleportInv h) :
    c'.TeleportInv h := by
  obtain ⟨t, hevents, hsrc, hdst, hvalue⟩ := hr.events
  have hindex : r.mintIndex = c.token.events.length := hr.mintIndex_eq.trans hhistory.index_eq
  have hgrow : c.token.events <+: c'.token.events := ⟨[t], hevents.symm⟩
  have hmem : ∀ {x}, x ∈ c'.records → x ∈ c.records ∨ x = r := by
    intro x hx
    rw [hr.records, List.mem_append, List.mem_singleton] at hx
    exact hx
  refine ⟨?_, ?_, ?_, ?_, ?_, ?_⟩
  · intro recipient
    rw [hr.totalTeleported, hr.recordsFor, List.map_append, List.sum_append, ← hinv.total]
    by_cases heq : recipient = r.claim.recipient
    · subst heq
      rw [Function.update_self, if_pos rfl, List.map_singleton, List.sum_singleton, hr.minted_eq]
      have := hr.total_lt
      omega
    · rw [Function.update_of_ne heq, if_neg (Ne.symm heq)]
      rfl
  · intro recipient
    rw [hr.totalTeleported, hr.recordsFor]
    by_cases heq : recipient = r.claim.recipient
    · subst heq
      rw [Function.update_self, if_pos rfl]
      exact Or.inr ⟨r, List.mem_append_right _ List.mem_cons_self, rfl⟩
    · rw [Function.update_of_ne heq]
      rcases hinv.largest recipient with hzero | ⟨x, hx, hval⟩
      · exact Or.inl hzero
      · exact Or.inr ⟨x, List.mem_append_left _ hx, hval⟩
  · intro x hx
    rcases hmem hx with hx | rfl
    · exact hinv.recipient x hx
    · exact hr.recipient_eq
  · have hchain : c'.chainId = c.chainId := by rw [hr.result]
    intro x hx
    rw [hchain]
    rcases hmem hx with hx | rfl
    · exact hinv.chainId x hx
    · exact hr.chainId_eq
  · intro x hx
    rcases hmem hx with hx | rfl
    · exact (hinv.minted x hx).grow hgrow
    · refine ⟨t, ?_, hsrc, hdst, hvalue⟩
      rw [hindex, hevents, List.getElem?_concat_length]
  · -- the new mint index lies behind all recorded ones
    rw [hr.records, List.map_append, List.map_singleton]
    refine List.nodup_append.mpr ⟨hinv.distinct, List.nodup_singleton _, ?_⟩
    intro n hn m hm
    obtain ⟨x, hx, rfl⟩ := List.mem_map.mp hn
    rw [List.mem_singleton.mp hm, hindex]
    exact ((hinv.minted x hx).lt).ne

/-- No other step touches the totals: every step of a chain keeps the invariant. -/
theorem Chain.step_teleportInv {c : Chain} (hhistory : c.token.HistoryInv h)
    (hinv : c.TeleportInv h) (a : ChainAction) : (c.step h d a).TeleportInv h := by
  have hevents := Chain.step_events_grow h d c a
  have hconfig := Chain.step_config h d c a
  cases Chain.step_verifierCause h d c a with
  | tables htables hrecords =>
    exact hinv.of_same hevents hconfig htables.teleported hrecords
  | reserve heq hrecords =>
    exact hinv.of_same hevents hconfig (by rw [heq]; rfl) hrecords
  | prove p hp hok hrecords =>
    obtain ⟨-, -, -, -, -, -, -, htotal, -⟩ := Verifier.proveTransferRoot_eq_ok hok
    exact hinv.of_same hevents hconfig htotal hrecords
  | receive sender srcEid originSender payload ha hok hrecords =>
    obtain ⟨-, -, -, -, -, -, -, -, htotal⟩ := Verifier.lzReceive_eq_ok hok
    exact hinv.of_same hevents hconfig htotal hrecords
  | teleport r hclaims hr => exact hr.teleportInv hhistory hinv

/-- A counter never decreases. -/
theorem Chain.step_totalTeleported_le (c : Chain) (a : ChainAction) (recipient : ℕ) :
    c.verifier.totalTeleported recipient
      ≤ (c.step h d a).verifier.totalTeleported recipient := by
  cases Chain.step_verifierCause h d c a with
  | tables htables hrecords => rw [htables.teleported]
  | reserve heq hrecords =>
    rw [heq]
    exact le_refl _
  | prove p hp hok hrecords =>
    obtain ⟨-, -, -, -, -, -, -, htotal, -⟩ := Verifier.proveTransferRoot_eq_ok hok
    rw [htotal]
  | receive sender srcEid originSender payload ha hok hrecords =>
    obtain ⟨-, -, -, -, -, -, -, -, htotal⟩ := Verifier.lzReceive_eq_ok hok
    rw [htotal]
  -- a redemption raises the total of its recipient
  | teleport r hclaims hr =>
    rw [hr.totalTeleported]
    by_cases heq : recipient = r.claim.recipient
    · subst heq
      rw [Function.update_self]
      exact hr.total_lt.le
    · rw [Function.update_of_ne heq]

/-! ## The openings behind a teleport -/

section Records

variable (R : Registry ι) (W : WithdrawWitnesses)

def TeleportRecord.openings (r : TeleportRecord) : List Opening :=
  r.evidence.openings W r.claim.isGlobal

/-- The transfers opened by a teleport accepted on chain `i`. -/
def TeleportRecord.locations (i : ι) (r : TeleportRecord) : List (Location ι) :=
  (r.openings W).filterMap (locate R i r.claim.isGlobal)

/-- The distinct transfers opened so far on chain `i` for one recipient hash. -/
def opened (s : System ι) (i : ι) (recipient : ℕ) : Finset (Location ι) :=
  (((s i).recordsFor recipient).flatMap (TeleportRecord.locations R W i)).toFinset

/-- What an accepted teleport proves about the recorded transfers. -/
structure RecordSound (h : Hashes) (s : System ι) (i : ι) (r : TeleportRecord) : Prop where
  located : ∀ o ∈ r.openings W, ∃ l, locate R i r.claim.isGlobal o = some l
    ∧ o.StandsFor h s (r.claim.recipient : Fr) l
  value_le : r.claim.value ≤ ∑ l ∈ (r.locations R W i).toFinset, s.valueAt l

variable {R W}

omit [DecidableEq ι] in
/-- The value of the opened leaf is the value of the transfer at its place. -/
theorem Zkp.Opening.StandsFor.valueAt {s : System ι} {recipient : Fr} {o : Opening}
    {l : Location ι} (hl : o.StandsFor h s recipient l) : s.valueAt l = o.value.val := by
  obtain ⟨t, ht, -, hvalue⟩ := hl
  rw [System.valueAt, ht, hvalue]

omit [DecidableEq ι] in
/-- The place keeps its transfer while the system grows. -/
theorem Zkp.Opening.StandsFor.grow {s s' : System ι} {recipient : Fr} {o : Opening}
    {l : Location ι} (hl : o.StandsFor h s recipient l) (hg : s.Grows s') :
    o.StandsFor h s' recipient l := by
  obtain ⟨t, ht, hrest⟩ := hl
  exact ⟨t, hg.transferAt ht, hrest⟩

omit [DecidableEq ι] in
/-- The openings of a proof add up to the transfers at their places. -/
theorem sum_valueAt_locations {s : System ι} {i : ι} {isGlobal : Bool} {recipient : Fr}
    {os : List Opening} (hlocated : ∀ o ∈ os, ∃ l, locate R i isGlobal o = some l
      ∧ o.StandsFor h s recipient l) :
    ((os.filterMap (locate R i isGlobal)).map s.valueAt).sum
      = (os.map fun o => o.value.val).sum := by
  induction os with
  | nil => rfl
  | cons o os ih =>
    obtain ⟨l, hl, hstands⟩ := hlocated o List.mem_cons_self
    rw [List.filterMap_cons_some hl, List.map_cons, List.sum_cons, List.map_cons, List.sum_cons,
      ih fun x hx => hlocated x (List.mem_cons_of_mem _ hx), hstands.valueAt]

omit [DecidableEq ι] in
/-- Openings at distinct positions lie at distinct places. -/
theorem nodup_locations {i : ι} {isGlobal : Bool} {os : List Opening}
    (hdistinct : (os.map Opening.position).Nodup) :
    (os.filterMap (locate R i isGlobal)).Nodup := by
  rw [List.Nodup, List.pairwise_filterMap]
  refine (List.pairwise_map.mp hdistinct).imp ?_
  intro o o' hne l hl l' hl' heq
  subst heq
  exact hne (locate_inj hl hl')

/-- A record is sound when every opening of its proof stands for a transfer. -/
theorem RecordSound.of_backed {s : System ι} {i : ι} {r : TeleportRecord}
    (hbacked : r.claim.Backed h (r.openings W))
    (hlocated : ∀ o ∈ r.openings W, ∃ l, locate R i r.claim.isGlobal o = some l
      ∧ o.StandsFor h s (r.claim.recipient : Fr) l) : RecordSound R W h s i r := by
  refine ⟨hlocated, ?_⟩
  rw [TeleportRecord.locations, List.sum_toFinset _ (nodup_locations hbacked.distinct),
    sum_valueAt_locations hlocated]
  exact hbacked.value_le

/-- It stays sound while the system grows. -/
theorem RecordSound.grow {s s' : System ι} {i : ι} {r : TeleportRecord}
    (hr : RecordSound R W h s i r) (hg : s.Grows s') : RecordSound R W h s' i r := by
  refine ⟨?_, ?_⟩
  · intro o ho
    obtain ⟨l, hl, hstands⟩ := hr.located o ho
    exact ⟨l, hl, hstands.grow hg⟩
  · refine hr.value_le.trans (le_of_eq (Finset.sum_congr rfl ?_))
    intro l hl
    -- every location of the record is a recorded transfer, so its value stays
    obtain ⟨o, ho, hlo⟩ := List.mem_filterMap.mp (List.mem_toFinset.mp hl)
    obtain ⟨l', hl', t, ht, -⟩ := hr.located o ho
    rw [hlo, Option.some.injEq] at hl'
    subst hl'
    exact (hg.valueAt ht).symm

/-- An opened place comes from an opening of one of the recipient's records. -/
theorem mem_opened {s : System ι} {i : ι} {recipient : ℕ} {l : Location ι}
    (hl : l ∈ opened R W s i recipient) :
    ∃ r ∈ (s i).records, r.claim.recipient = recipient
      ∧ ∃ o ∈ r.openings W, locate R i r.claim.isGlobal o = some l := by
  rw [opened, List.mem_toFinset, List.mem_flatMap] at hl
  obtain ⟨r, hr, hl⟩ := hl
  obtain ⟨hr, hrecipient⟩ := List.mem_filter.mp hr
  obtain ⟨o, ho, hlo⟩ := List.mem_filterMap.mp hl
  exact ⟨r, hr, by simpa using hrecipient, o, ho, hlo⟩

/-- The counter is covered by the distinct transfers opened for the recipient. -/
theorem totalTeleported_le_opened {s : System ι} {i : ι} (hinv : (s i).TeleportInv h)
    (hsound : ∀ r ∈ (s i).records, RecordSound R W h s i r) (recipient : ℕ) :
    (s i).verifier.totalTeleported recipient
      ≤ ∑ l ∈ opened R W s i recipient, s.valueAt l := by
  rcases hinv.largest recipient with hzero | ⟨r, hr, hval⟩
  · rw [hzero]
    exact Nat.zero_le _
  · rw [hval]
    refine (hsound r (List.mem_filter.mp hr).1).value_le.trans ?_
    refine Finset.sum_le_sum_of_subset fun l hl => ?_
    rw [opened, List.mem_toFinset, List.mem_flatMap]
    exact ⟨r, hr, List.mem_toFinset.mp hl⟩

/-- Two accepted openings for different recipients with one burn address. -/
def BurnCollision (W : WithdrawWitnesses) (h : Hashes) (s : System ι) : Prop :=
  ∃ i, ∃ r ∈ (s i).records, ∃ o ∈ r.openings W, ∃ j, ∃ r' ∈ (s j).records,
    ∃ o' ∈ r'.openings W, r.claim.recipient ≠ r'.claim.recipient
      ∧ burnAddress h (r.claim.recipient : Fr) o.secret
        = burnAddress h (r'.claim.recipient : Fr) o'.secret

/-- A transfer opened for two recipients was sent to a burn address of both. -/
theorem disjoint_opened {s : System ι}
    (hsound : ∀ i, ∀ r ∈ (s i).records, RecordSound R W h s i r)
    (hburn : ¬ BurnCollision W h s) {i j : ι} {recipient recipient' : ℕ}
    (hne : recipient ≠ recipient') :
    Disjoint (opened R W s i recipient) (opened R W s j recipient') := by
  rw [Finset.disjoint_left]
  intro l hl hl'
  obtain ⟨r, hr, rfl, o, ho, hlo⟩ := mem_opened hl
  obtain ⟨r', hr', rfl, o', ho', hlo'⟩ := mem_opened hl'
  obtain ⟨k, hk, t, ht, hok, -⟩ := (hsound i r hr).located o ho
  obtain ⟨k', hk', t', ht', hok', -⟩ := (hsound j r' hr').located o' ho'
  rw [hlo, Option.some.injEq] at hk
  rw [hlo', Option.some.injEq] at hk'
  subst hk hk'
  rw [ht, Option.some.injEq] at ht'
  subst ht'
  refine hburn ⟨i, r, hr, o, ho, j, r', hr', o', ho', hne, ?_⟩
  rw [burnAddress_of_ok h hok, burnAddress_of_ok h hok']

end Records

/-! ## Runs -/

section Runs

variable (R : Registry ι) (W : WithdrawWitnesses) (G : ι → ℕ → ℕ → Option ℕ)

/-- The Poseidon inputs of a reached state: the histories, the stored aggregation roots and the
accepted openings. -/
def teleportInputs (h : Hashes) (s : System ι) : Set (Fr × Fr) :=
  {q | ∃ i, q ∈ transferInputs h (s i).token.events}
    ∪ {q | ∃ i k, (s i).verifier.globalTransferRoots k ≠ 0
      ∧ q ∈ treeInputs h.poseidon2 (aggregationLeaf h R s (G i k)) aggregationHeight}
    ∪ {q | ∃ i, ∃ r ∈ (s i).records, ∃ o ∈ r.openings W,
      q ∈ o.inputs h (withdrawDepth r.claim.isGlobal) (r.claim.recipient : Fr)}

variable {R W G}

/-- A global root that was set is never replaced. -/
theorem Chain.step_global_persist (c : Chain) (a : ChainAction) {k : ℕ}
    (hne : c.verifier.globalTransferRoots k ≠ 0) :
    (c.step h d a).verifier.globalTransferRoots k = c.verifier.globalTransferRoots k := by
  cases Chain.step_verifierCause h d c a with
  | tables htables hrecords => rw [htables.global]
  | reserve heq hrecords =>
    rw [heq]
    rfl
  | prove p hp hok hrecords =>
    obtain ⟨-, -, -, -, -, -, hglobal, -⟩ := Verifier.proveTransferRoot_eq_ok hok
    rw [hglobal]
  | receive sender srcEid originSender payload ha hok hrecords =>
    obtain ⟨-, -, -, -, -, ⟨hzero, hglobal, -⟩ | ⟨-, hglobal, -⟩, -⟩ :=
      Verifier.lzReceive_eq_ok hok
    · have hk : k ≠ payload.2.val := by
        intro hk
        exact hne (hk ▸ hzero)
      rw [hglobal, Function.update_of_ne hk]
    · rw [hglobal]
  | teleport r hclaims hr =>
    rw [hr.result]
    rfl

theorem Chain.step_records_grow (c : Chain) (a : ChainAction) :
    c.records <+: (c.step h d a).records := by
  cases Chain.step_verifierCause h d c a with
  | tables _ hrecords => rw [hrecords]
  | reserve _ hrecords => rw [hrecords]
  | prove _ _ _ hrecords => rw [hrecords]
  | receive _ _ _ _ _ _ hrecords => rw [hrecords]
  | teleport r hclaims hr =>
    rw [hr.records]
    exact List.prefix_append _ _

/-- A step moves one chain of the system. -/
theorem System.step_apply (s : System ι) (x : ι × ChainAction) (i : ι) :
    s.step h d x i = if i = x.1 then (s i).step h d x.2 else s i := by
  unfold System.step
  by_cases hi : i = x.1
  · subst hi
    rw [Function.update_self, if_pos rfl]
  · rw [Function.update_of_ne hi, if_neg hi]

/-- A property of chains that every transaction keeps is kept by every step of the system. -/
theorem System.step_forall {P : Chain → Prop} {s : System ι} (hs : ∀ i, P (s i))
    (hstep : ∀ c a, P c → P (c.step h d a)) (x : ι × ChainAction) (i : ι) :
    P (s.step h d x i) := by
  rw [System.step_apply]
  split
  · exact hstep _ _ (hs i)
  · exact hs i

/-- A step adds hash inputs to those of the system and takes none away. -/
theorem teleportInputs_step {s : System ι} (hgenuine : RootsGenuine h R G s)
    (x : ι × ChainAction) :
    teleportInputs R W G h s ⊆ teleportInputs R W G h (s.step h d x) := by
  have hgrows := System.grows_step h d s x
  rintro q ((⟨i, hq⟩ | ⟨i, k, hne, hq⟩) | ⟨i, r, hr, o, ho, hq⟩)
  · exact Or.inl (Or.inl ⟨i, transferInputs_mono h (hgrows i) hq⟩)
  · refine Or.inl (Or.inr ⟨i, k, ?_, ?_⟩)
    · rw [System.step_apply]
      split
      · rw [Chain.step_global_persist _ _ hne]
        exact hne
      · exact hne
    · -- the reported histories already exist, so their roots do not change
      have hleaf : aggregationLeaf h R (s.step h d x) (G i k) = aggregationLeaf h R s (G i k) := by
        funext j
        unfold aggregationLeaf
        cases hj : R.chainAt j with
        | none => rfl
        | some i' =>
          cases hn : G i k j with
          | none => rfl
          | some n =>
            have hle := (hgenuine.global i k hne).1 j i' n hj hn
            exact congrArg (transferRoot h) (hgrows.take_events hle)
      rw [hleaf]
      exact hq
  · refine Or.inr ⟨i, r, ?_, o, ho, hq⟩
    rw [System.step_apply]
    split
    · exact (Chain.step_records_grow _ _).subset hr
    · exact hr

variable {Q : Set (Fr × Fr)}

/-- A teleport accepted in a state with genuine roots opens recorded transfers only. -/
theorem Chain.Teleported.recordSound {s : System ι} {i : ι} {c' : Chain} {r : TeleportRecord}
    {vs : Verifiers}
    (hW : DecidersSound h d W) (hgenuine : RootsGenuine h R G s)
    (hinj : Set.InjOn (Function.uncurry h.poseidon2) Q)
    (hzero : ¬ Preimage (Function.uncurry h.poseidon2) 0 Q)
    (hsub : teleportInputs R W G h s ⊆ Q)
    (hin : ∀ o ∈ r.openings W, ∀ q ∈ o.inputs h (withdrawDepth r.claim.isGlobal)
      (r.claim.recipient : Fr), q ∈ Q)
    (hclaims : r.evidence.Claims (d vs) r.claim) (hr : (s i).Teleported h c' r) :
    RecordSound R W h s i r := by
  have hbacked : r.claim.Backed h (r.openings W) := hclaims.backed hW
  refine RecordSound.of_backed hbacked fun o ho => ?_
  exact located_of_checks hinj hzero hgenuine
    (fun j q hq => hsub (Or.inl (Or.inl ⟨j, hq⟩)))
    (fun hne q hq => hsub (Or.inl (Or.inr ⟨i, r.rootHint, hne, hq⟩)))
    (hin o ho) hr.root_ne hr.root_eq (hbacked.checks o ho)

/-- One step of any chain keeps all the records sound: the new record's proof is about a genuine
root, and without a collision its openings stand for transfers. -/
theorem System.step_recordSound {s : System ι} {x : ι × ChainAction}
    (hW : DecidersSound h d W) (hgenuine : RootsGenuine h R G s)
    (hinj : Set.InjOn (Function.uncurry h.poseidon2) Q)
    (hzero : ¬ Preimage (Function.uncurry h.poseidon2) 0 Q)
    (hsub : teleportInputs R W G h (s.step h d x) ⊆ Q)
    (hsound : ∀ i, ∀ r ∈ (s i).records, RecordSound R W h s i r) :
    ∀ i, ∀ r ∈ (s.step h d x i).records, RecordSound R W h (s.step h d x) i r := by
  intro i r hr
  have hgrows := System.grows_step h d s x
  by_cases hi : i = x.1
  · have happly : s.step h d x i = (s i).step h d x.2 := by
      rw [System.step_apply, if_pos hi]
    rw [happly] at hr
    have hold : ∀ r' ∈ (s i).records, RecordSound R W h (s.step h d x) i r' :=
      fun r' hr' => (hsound i r' hr').grow hgrows
    cases Chain.step_verifierCause h d (s i) x.2 with
    | tables _ hrecords => exact hold r (hrecords ▸ hr)
    | reserve _ hrecords => exact hold r (hrecords ▸ hr)
    | prove _ _ _ hrecords => exact hold r (hrecords ▸ hr)
    | receive _ _ _ _ _ _ hrecords => exact hold r (hrecords ▸ hr)
    -- only a teleport adds a record; its openings are judged in the state before it
    | teleport r' hclaims hr' =>
      rw [hr'.records, List.mem_append, List.mem_singleton] at hr
      rcases hr with hr | rfl
      · exact hold r hr
      · refine RecordSound.grow (hr'.recordSound hW hgenuine hinj hzero
          ((teleportInputs_step hgenuine x).trans hsub) ?_ hclaims) hgrows
        intro o ho q hq
        refine hsub (Or.inr ⟨i, r, ?_, o, ho, hq⟩)
        rw [happly, hr'.records]
        exact List.mem_append_right _ List.mem_cons_self
  · rw [System.step_apply, if_neg hi] at hr
    exact (hsound i r hr).grow hgrows

/-- Roots are genuine in every state of a run. -/
def GenuineAlong (h : Hashes) (d : DeciderSets) (R : Registry ι) (G : ι → ℕ → ℕ → Option ℕ)
    (s : System ι) (acts : List (ι × ChainAction)) : Prop :=
  ∀ xs, xs <+: acts → RootsGenuine h R G (run (System.step h d) s xs)

/-- Genuine along a run is genuine along each beginning of it. -/
theorem GenuineAlong.of_concat {s : System ι} {acts : List (ι × ChainAction)}
    {x : ι × ChainAction} (hg : GenuineAlong h d R G s (acts ++ [x])) :
    GenuineAlong h d R G s acts :=
  fun xs hxs => hg xs (hxs.trans (List.prefix_append _ _))

theorem GenuineAlong.last {s : System ι} {acts : List (ι × ChainAction)}
    (hg : GenuineAlong h d R G s acts) : RootsGenuine h R G (run (System.step h d) s acts) :=
  hg acts (List.prefix_refl _)

/-- So all the records of a run are sound. -/
theorem run_recordSound {s : System ι} {acts : List (ι × ChainAction)}
    (hW : DecidersSound h d W) (hg : GenuineAlong h d R G s acts)
    (hinj : Set.InjOn (Function.uncurry h.poseidon2) Q)
    (hzero : ¬ Preimage (Function.uncurry h.poseidon2) 0 Q)
    (hsub : teleportInputs R W G h (run (System.step h d) s acts) ⊆ Q)
    (hnew : ∀ i, (s i).records = []) :
    ∀ i, ∀ r ∈ (run (System.step h d) s acts i).records,
      RecordSound R W h (run (System.step h d) s acts) i r := by
  induction acts using List.reverseRecOn with
  | nil =>
    intro i r hr
    rw [run_nil, hnew i] at hr
    cases hr
  | append_singleton acts x ih =>
    rw [run_concat] at hsub ⊢
    have hgenuine := hg.of_concat.last
    exact System.step_recordSound hW hgenuine hinj hzero hsub
      (ih hg.of_concat ((teleportInputs_step hgenuine x).trans hsub))

/-- A system of fresh deployments. -/
def System.Fresh (s : System ι) : Prop :=
  ∀ i, ∃ chainId owner endpoint verifierAddr minterAddr tokenAddress hubEid verifiers underlying,
    s i = Chain.initial chainId owner endpoint verifierAddr minterAddr tokenAddress hubEid
      verifiers underlying

omit [DecidableEq ι] in
/-- A fresh system satisfies the invariants. -/
theorem System.Fresh.inv {s : System ι} (hs : s.Fresh) (i : ι) :
    (s i).token.HistoryInv h ∧ (s i).TeleportInv h ∧ (s i).records = [] := by
  obtain ⟨_, _, _, _, _, _, _, _, _, heq⟩ := hs i
  rw [heq]
  refine ⟨⟨rfl, rfl⟩, ⟨fun _ => rfl, fun _ => Or.inl rfl, ?_, ?_, ?_, List.nodup_nil⟩, rfl⟩
  · exact fun r hr => absurd hr List.not_mem_nil
  · exact fun r hr => absurd hr List.not_mem_nil
  · exact fun r hr => absurd hr List.not_mem_nil

/-- They hold on every chain of every run from it. -/
theorem run_teleportInv {s : System ι} (hs : s.Fresh) (acts : List (ι × ChainAction)) (i : ι) :
    (run (System.step h d) s acts i).token.HistoryInv h
      ∧ (run (System.step h d) s acts i).TeleportInv h := by
  refine run_induction (I := fun s : System ι => ∀ i, (s i).token.HistoryInv h
    ∧ (s i).TeleportInv h) (fun i => ⟨(hs.inv i).1, (hs.inv i).2.1⟩) ?_ acts i
  intro s x hinv
  refine System.step_forall (P := fun c => c.token.HistoryInv h ∧ c.TeleportInv h) hinv ?_ x
  exact fun c a hc => ⟨Chain.step_historyInv h d hc.1 a, Chain.step_teleportInv hc.1 hc.2 a⟩

/-- The total of a recipient never falls. -/
theorem run_totalTeleported_le (s : System ι) (acts : List (ι × ChainAction)) (i : ι)
    (recipient : ℕ) :
    (s i).verifier.totalTeleported recipient
      ≤ (run (System.step h d) s acts i).verifier.totalTeleported recipient := by
  refine run_rel (R := fun s s' : System ι => (s i).verifier.totalTeleported recipient
    ≤ (s' i).verifier.totalTeleported recipient) (fun _ => le_refl _)
    (fun _ _ _ => le_trans) ?_ s acts
  intro s x
  rw [System.step_apply]
  split
  · exact Chain.step_totalTeleported_le _ _ _
  · exact le_refl _

/-- **Teleport conservation.** `W` and `G` are the witnesses behind the accepted proofs and the
histories behind the aggregation roots. -/
theorem teleport_conservation (h : Hashes) (d : DeciderSets) (R : Registry ι)
    (W : WithdrawWitnesses) (G : ι → ℕ → ℕ → Option ℕ) (hW : DecidersSound h d W)
    (s₀ : System ι) (hfresh : s₀.Fresh) (acts : List (ι × ChainAction))
    (hgenuine : GenuineAlong h d R G s₀ acts) (s : System ι)
    (hreach : run (System.step h d) s₀ acts = s) :
    (∀ i, (s i).TeleportInv h)
      ∧ (∀ i recipient more, (s i).verifier.totalTeleported recipient
        ≤ (run (System.step h d) s more i).verifier.totalTeleported recipient)
      ∧ ((∀ i recipient, (s i).verifier.totalTeleported recipient
            ≤ ∑ l ∈ opened R W s i recipient, s.valueAt l)
          ∧ ((∀ i j recipient recipient', recipient ≠ recipient' →
              Disjoint (opened R W s i recipient) (opened R W s j recipient'))
            ∨ BurnCollision W h s)
        ∨ Collision (Function.uncurry h.poseidon2) (teleportInputs R W G h s)
        ∨ Preimage (Function.uncurry h.poseidon2) 0 (teleportInputs R W G h s)) := by
  subst hreach
  have hinv := fun i => (run_teleportInv (h := h) (d := d) hfresh acts i).2
  refine ⟨hinv, fun i recipient more => run_totalTeleported_le _ more i recipient, ?_⟩
  -- without a collision the hashes are injective on all inputs of the run
  rw [or_iff_not_imp_right, not_or]
  rintro ⟨hcol, hpre⟩
  have hsound := run_recordSound hW hgenuine (injOn_of_not_collision hcol) hpre (le_refl _)
    fun i => (hfresh.inv (h := h) i).2.2
  refine ⟨fun i recipient => totalTeleported_le_opened (hinv i) (hsound i) recipient, ?_⟩
  rw [or_iff_not_imp_right]
  exact fun hburn i j recipient recipient' hne => disjoint_opened hsound hburn hne

end Runs

/-! ## A deposit at a burn address and its teleport

One chain: 5 tokens are minted to the burn address of a recipient, the root is proved, and a
batch proof withdraws 3 of them (one real step, and a dummy step that takes 2 off). -/

namespace BurnExample

def recipient : GeneralRecipient := ⟨1, 7, 0⟩

def burnAt : Address := 934694219138595297167599639506619957095103547814

def root : ℕ := 18326760348037354343742750826638047845365223505370332337615555046553070273105

def recipientHash : ℕ :=
  677956753254816292820616528177861581474688899431350759350701971874433279581

def rootProof : RootProof := fun i =>
  if i = 3 then ⟨INITIAL_TRANSFER_ROOT, INITIAL_TRANSFER_ROOT_lt⟩
  else if i = 4 then 1
  else if i = 5 then
    443994971822680256333966509355912540035044800376270974441903480231067603810
  else if i = 6 then ⟨root, by decide⟩
  else 0

def withdrawProof : WithdrawProof := fun i =>
  if i = 1 ∨ i = 5 then ⟨root, by decide⟩
  else if i = 2 ∨ i = 6 then ⟨recipientHash, by decide⟩
  else if i = 7 then 2
  else if i = 8 then 3
  else 0

def deciders : DeciderSets := fun _ =>
  { rootDecider := fun p => decide (p = rootProof)
    withdrawDecider := fun isGlobal p => !isGlobal && decide (p = withdrawProof)
    singleWithdrawVerifier := fun _ _ => false }

def siblings : List Fr := (List.range' 0 40).map (zeroAt realHashes.poseidon2 0)

def witnesses : WithdrawWitnesses where
  batch _ _ := [⟨false, (5 : ℕ), 3296, 0, siblings⟩, ⟨true, (2 : ℕ), 0, 1, siblings⟩]
  single _ _ := ⟨0, 0, 0, 0, []⟩

def registry : Registry Unit where
  chainAt j := if j = 0 then some () else none
  injective j k i hj hk := by
    by_cases hj0 : j = 0
    · by_cases hk0 : k = 0
      · rw [hj0, hk0]
      · simp [hk0] at hk
    · simp [hj0] at hj

def system : System Unit := fun _ => Chain.initial 1 1 2 3 4 0 30101 ⟨21, 22, 23, 24, 25⟩ fun _ => 0

def acts : List (Unit × ChainAction) :=
  [((), .depositNative burnAt 5), ((), .reserveHashChain), ((), .proveTransferRoot rootProof),
    ((), .teleport false 1 recipient withdrawProof)]

/-- The deciders of the example accept the proofs of its witnesses only. -/
theorem decidersSound : DecidersSound realHashes deciders witnesses := by
  refine ⟨?_, fun _ _ _ hacc => absurd hacc Bool.false_ne_true⟩
  intro _ isGlobal p hacc
  simp only [deciders, Bool.and_eq_true, Bool.not_eq_true', decide_eq_true_eq] at hacc
  obtain ⟨rfl, rfl⟩ := hacc
  refine ⟨by decide +kernel, ?_⟩
  decide +kernel

/-- Along the run only the slots 0 and 1 hold a proved root, and no aggregation root arrives. -/
def Slots (s : System Unit) : Prop :=
  (∀ k, (s ()).verifier.provedTransferRoots k ≠ 0 →
    k = 0 ∧ (s ()).verifier.provedTransferRoots k = INITIAL_TRANSFER_ROOT
      ∨ k = 1 ∧ (s ()).verifier.provedTransferRoots k = root)
  ∧ ∀ k, (s ()).verifier.globalTransferRoots k = 0

/-- The roots of the example are those of its first states. -/
theorem slots_system : Slots system := by
  refine ⟨?_, fun _ => rfl⟩
  intro k hk
  by_cases hk0 : k = 0
  · subst hk0
    exact Or.inl ⟨rfl, rfl⟩
  · simp only [system, Chain.initial, Verifier.initial, Function.update_of_ne hk0] at hk
    exact absurd rfl hk

/-- Steps without a message keep them so. -/
theorem slots_step {s : System Unit} (hs : Slots s) {x : Unit × ChainAction}
    (hx : ∀ sender srcEid originSender payload,
      x.2 ≠ .lzReceive sender srcEid originSender payload) :
    Slots (s.step realHashes deciders x) := by
  obtain ⟨hproved, hglobal⟩ := hs
  have happly : s.step realHashes deciders x () = (s ()).step realHashes deciders x.2 := by
    rw [System.step_apply, if_pos (Subsingleton.elim _ _)]
  unfold Slots
  rw [happly]
  cases Chain.step_verifierCause realHashes deciders (s ()) x.2 with
  | tables htables hrecords =>
    rw [htables.proved, htables.global]
    exact ⟨hproved, hglobal⟩
  | reserve heq hrecords =>
    rw [heq]
    exact ⟨hproved, hglobal⟩
  -- only the one proof is accepted, and it proves the one root
  | prove p hp hok hrecords =>
    obtain ⟨hacc, -, -, -, -, -, hsame, -, hcase⟩ := Verifier.proveTransferRoot_eq_ok hok
    rw [hsame]
    refine ⟨?_, hglobal⟩
    have hp' : p = rootProof := of_decide_eq_true hacc
    subst hp'
    rcases hcase with ⟨-, -, heq⟩ | ⟨-, heq, -⟩
    · rw [heq]
      exact hproved
    · have hslot : uint64 (rootProof 4) = 1 := rfl
      have hroot : (rootProof 6).val = root := rfl
      rw [heq, hslot, hroot]
      intro k hk
      -- the slot it fills
      by_cases hk1 : k = 1
      · subst hk1
        exact Or.inr ⟨rfl, Function.update_self ..⟩
      · rw [Function.update_of_ne hk1] at hk ⊢
        exact hproved k hk
  | receive sender srcEid originSender payload ha hok hrecords =>
    exact absurd ha (hx sender srcEid originSender payload)
  | teleport r hclaims hr =>
    rw [hr.result]
    exact ⟨hproved, hglobal⟩

/-- None of the steps of the example is a message. -/
theorem slots_run (n : ℕ) : Slots (run (System.step realHashes deciders) system (acts.take n)) := by
  refine run_induction_along (C := fun _ x => ∀ sender srcEid originSender payload,
    x.2 ≠ .lzReceive sender srcEid originSender payload) slots_system
    (fun _ _ hs hx => slots_step hs hx) ?_
  have hacts : ∀ x ∈ acts.take n, ∀ sender srcEid originSender payload,
      x.2 ≠ .lzReceive sender srcEid originSender payload := by
    intro x hx
    have hmem := List.mem_of_mem_take hx
    simp only [acts, List.mem_cons, List.not_mem_nil, or_false] at hmem
    rcases hmem with rfl | rfl | rfl | rfl <;> simp
  exact Along.of_forall hacts

/-- The one transfer of the run. -/
def mint : Transfer := ⟨0, burnAt, 5⟩

/-- The root of the example is that of its one mint. -/
theorem transferRoot_mint : (transferRoot realHashes [mint]).val = root := by
  rw [transferRoot, transferLeaves, List.map_singleton, node_singleton]
  decide +kernel

/-- Slot 1 is only filled once the mint is recorded. -/
theorem slot_one_filled (n : ℕ) (hn : n ≤ 4) :
    (run (System.step realHashes deciders) system (acts.take n) ()).verifier.provedTransferRoots 1
        = 0
      ∨ (run (System.step realHashes deciders) system (acts.take n) ()).token.events.take 1
        = [mint] := by
  interval_cases n <;> decide +kernel

/-- So every root of the example's run is genuine. -/
theorem genuineAlong :
    GenuineAlong realHashes deciders registry (fun _ _ _ => none) system acts := by
  intro xs hxs
  rw [List.prefix_iff_eq_take.mp hxs]
  obtain ⟨hproved, hglobal⟩ := slots_run xs.length
  refine ⟨?_, fun _ k hk => absurd (hglobal k) hk⟩
  rintro ⟨⟩ k hk
  rcases hproved k hk with ⟨-, hval⟩ | ⟨rfl, hval⟩
  · exact ⟨0, Nat.zero_le _, by rw [hval, List.take_zero, transferRoot_empty]⟩
  · rcases slot_one_filled xs.length hxs.length_le with hzero | hevents
    · exact absurd hzero hk
    · refine ⟨1, ?_, by rw [hval, hevents, transferRoot_mint]⟩
      have hlen := congrArg List.length hevents
      rw [List.length_take, List.length_singleton] at hlen
      exact min_eq_left_iff.mp hlen

end BurnExample

/-- The run of the example teleports 3 that were burned. -/
theorem teleport_conservation_burn :
    ∃ s, run (System.step realHashes BurnExample.deciders) BurnExample.system BurnExample.acts = s
      ∧ (s ()).verifier.totalTeleported BurnExample.recipientHash = 3
      ∧ (∀ i, (s i).TeleportInv realHashes) := by
  obtain ⟨s, hreach⟩ : ∃ s, run (System.step realHashes BurnExample.deciders) BurnExample.system
      BurnExample.acts = s := ⟨_, rfl⟩
  have htotal : (s ()).verifier.totalTeleported BurnExample.recipientHash = 3 := by
    rw [← hreach]
    decide +kernel
  have hfresh : BurnExample.system.Fresh := fun _ =>
    ⟨1, 1, 2, 3, 4, 0, 30101, ⟨21, 22, 23, 24, 25⟩, fun _ => 0, rfl⟩
  have hlaw := teleport_conservation realHashes BurnExample.deciders BurnExample.registry
    BurnExample.witnesses (fun _ _ _ => none) BurnExample.decidersSound BurnExample.system hfresh
    BurnExample.acts BurnExample.genuineAlong s hreach
  exact ⟨s, hreach, htotal, hlaw.1⟩

end Zerc20
