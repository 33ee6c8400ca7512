import Zerc20.Contracts.Moves
import Zerc20.Lib.Latest
import Mathlib.Data.Set.Function
import Mathlib.Order.Interval.Set.Basic

/-!
# The leaves of the Hub converge

Every leaf of the Hub is a register that keeps the newest root of its chain
(`Zerc20.Lib.Latest`): the index of a message is its version, and since a Verifier proves one
root per index, messages of equal index carry equal roots. What a leaf holds is therefore
determined by the messages that were delivered, whatever their order and multiplicity and
whatever other calls came in between.

`Tracked` adds the accepted messages to a run as a ghost. A call that reverts takes the
deliveries made inside it back, so every open call remembers the list it started with.
-/

namespace Zerc20

open Machine

/-! ## Slots -/

namespace Hub

variable {u u' : Hub}

/-- The root and the tree index that the Hub holds for an endpoint. -/
def leaf (u : Hub) (eid : ℕ) : ℕ × ℕ :=
  (u.transferRoots.getD (u.eidToPosition eid - 1) 0,
    u.transferTreeIndices.getD (u.eidToPosition eid - 1) 0)

/-- Every slot has its endpoint, every endpoint its slot, and there are at most `MAX_LEAVES`. -/
structure Placed (u : Hub) : Prop extends u.Aligned where
  registered : ∀ i eid, u.eids[i]? = some eid → u.eidToPosition eid = i + 1
  capacity : u.transferRoots.length ≤ MAX_LEAVES

/-- There are as many chain ids as leaves. -/
theorem Placed.eids_length (hu : u.Placed) : u.eids.length = u.transferRoots.length := by
  rw [eids, List.length_map, hu.infos_length]

theorem Placed.position_le (hu : u.Placed) {eid : ℕ} (hne : u.eidToPosition eid ≠ 0) :
    u.eidToPosition eid - 1 < u.transferRoots.length := by
  rw [← hu.eids_length]
  exact (List.getElem?_eq_some_iff.mp (hu.position eid hne)).1

theorem Placed.injective (hu : u.Placed) {eid eid' : ℕ} (hne : u.eidToPosition eid ≠ 0)
    (heq : u.eidToPosition eid = u.eidToPosition eid') : eid = eid' := by
  have hpos := hu.position eid hne
  have hpos' := hu.position eid' (heq ▸ hne)
  rw [heq, hpos'] at hpos
  exact (Option.some.inj hpos).symm

/-- So the registered chains and the leaves correspond. -/
theorem Placed.bijOn (hu : u.Placed) :
    Set.BijOn u.eidToPosition {eid | u.eidToPosition eid ≠ 0}
      (Set.Icc 1 u.transferRoots.length) := by
  refine ⟨?_, ?_, ?_⟩
  · intro eid hne
    have hlt := hu.position_le hne
    have hpos : u.eidToPosition eid ≠ 0 := hne
    exact ⟨by omega, by omega⟩
  · intro eid hne eid' _ heq
    exact hu.injective hne heq
  · intro pos hpos
    obtain ⟨hone, hle⟩ := hpos
    have hlt : pos - 1 < u.eids.length := by
      rw [hu.eids_length]
      omega
    have hslot := hu.registered (pos - 1) _ (List.getElem?_eq_getElem hlt)
    refine ⟨u.eids[pos - 1], ?_, by omega⟩
    show u.eidToPosition _ ≠ 0
    omega

/-- Where the four structures stay, the alignment stays. -/
theorem Placed.unmoved (hu : u.Placed) (hsame : u.Unmoved u') : u'.Placed := by
  refine ⟨hu.toAligned.frame hsame.arrays, ?_, ?_⟩
  · rw [eids, hsame.infos, hsame.position]
    exact hu.registered
  · rw [hsame.roots]
    exact hu.capacity

theorem Unmoved.leaf (hsame : u.Unmoved u') : u'.leaf = u.leaf := by
  funext eid
  rw [Hub.leaf, hsame.roots, hsame.indices, hsame.position, Hub.leaf]

theorem initial_placed (h : Hashes) (owner endpoint : Address) :
    (initial h owner endpoint).Placed := by
  refine ⟨initial_aligned owner endpoint, ?_, Nat.zero_le _⟩
  intro i eid heid
  simp [initial, eids] at heid

section register

variable {sender : Address} {info : TokenInfo} (hok : u.registerToken sender info = .ok u')
include hok

/-- `registerToken` gives the new chain the next position. -/
theorem registerToken_position (eid : ℕ) :
    u'.eidToPosition eid
      = if eid = info.eid then u.transferRoots.length + 1 else u.eidToPosition eid := by
  obtain ⟨-, -, rfl⟩ := registerToken_eq_ok hok
  exact Function.update_apply ..

theorem registerToken_placed (hu : u.Placed) : u'.Placed := by
  refine ⟨registerToken_aligned hu.toAligned hok, ?_, ?_⟩
  · intro i eid heid
    rw [registerToken_eids hok] at heid
    rw [registerToken_position hok]
    rcases Nat.lt_or_ge i u.eids.length with hi | hi
    · rw [List.getElem?_append_left hi] at heid
      have hpos := hu.registered i eid heid
      -- the new endpoint had no slot
      have hne : eid ≠ info.eid := by
        rintro rfl
        have hfresh := (registerToken_eq_ok hok).1
        omega
      rw [if_neg hne, hpos]
    · rw [List.getElem?_append_right hi, List.getElem?_singleton] at heid
      split at heid
      · rename_i hlast
        rw [if_pos (Option.some.inj heid).symm, ← hu.eids_length]
        omega
      · cases heid
  · obtain ⟨-, hroom, rfl⟩ := registerToken_eq_ok hok
    simp only [emit, List.length_append, List.length_singleton]
    omega

/-- The new leaf is empty, and the others stay. -/
theorem registerToken_leaf (hu : u.Placed) {eid : ℕ} (hne : u'.eidToPosition eid ≠ 0) :
    u'.leaf eid = if eid = info.eid then (0, 0) else u.leaf eid := by
  have hposition := registerToken_position hok eid
  unfold leaf
  rw [hposition]
  obtain ⟨-, -, rfl⟩ := registerToken_eq_ok hok
  split
  · simp [emit, List.getD_eq_getElem?_getD, hu.indices_length]
  · rename_i heid
    rw [hposition, if_neg heid] at hne
    have hlt := hu.position_le hne
    have hlt' : u.eidToPosition eid - 1 < u.transferTreeIndices.length := by
      rw [hu.indices_length]
      exact hlt
    simp only [emit, List.getD_eq_getElem?_getD, List.getElem?_append_left hlt,
      List.getElem?_append_left hlt']

/-- The new leaf starts at index 0, the others keep theirs. -/
theorem registerToken_indices (i : ℕ) :
    u'.transferTreeIndices.getD i 0 = u.transferTreeIndices.getD i 0 := by
  obtain ⟨-, -, rfl⟩ := registerToken_eq_ok hok
  simp only [emit, List.getD_eq_getElem?_getD]
  rcases Nat.lt_or_ge i u.transferTreeIndices.length with hi | hi
  · rw [List.getElem?_append_left hi]
  · rw [List.getElem?_append_right hi, List.getElem?_eq_none hi, List.getElem?_singleton]
    split <;> rfl

end register

section update

variable {sender : Address} {info : TokenInfo} (hok : u.updateToken sender info = .ok u')
include hok

theorem updateToken_placed (hu : u.Placed) : u'.Placed := by
  have haligned := updateToken_aligned hu.toAligned hok
  have heids := updateToken_eids hu.toAligned hok
  obtain ⟨-, rfl⟩ := updateToken_eq_ok hok
  refine ⟨haligned, ?_, hu.capacity⟩
  rw [heids]
  exact hu.registered

theorem updateToken_leaf : u'.leaf = u.leaf := by
  obtain ⟨-, rfl⟩ := updateToken_eq_ok hok
  rfl

end update

section receive

variable {sender : Address} {srcEid : ℕ} {originSender : Word} {payload : Payload}

theorem lzReceive_position (hok : u.lzReceive sender srcEid originSender payload = .ok u') :
    u'.eidToPosition = u.eidToPosition := by
  obtain ⟨-, -, -, ⟨-, rfl⟩ | ⟨-, rfl⟩⟩ := lzReceive_eq_ok hok <;> rfl

/-- It sets a root and an index in place. -/
theorem lzReceive_placed (hok : u.lzReceive sender srcEid originSender payload = .ok u')
    (hu : u.Placed) : u'.Placed := by
  have haligned := lzReceive_aligned hu.toAligned hok
  obtain ⟨-, -, -, ⟨-, rfl⟩ | ⟨-, rfl⟩⟩ := lzReceive_eq_ok hok
  · exact hu
  · refine ⟨haligned, hu.registered, ?_⟩
    simp only [emit, List.length_set]
    exact hu.capacity

/-- A message moves the leaf of its source, which keeps the newer root. -/
theorem lzReceive_leaf (hok : u.lzReceive sender srcEid originSender payload = .ok u')
    (hu : u.Placed) {eid : ℕ} (hne : u.eidToPosition eid ≠ 0) :
    u'.leaf eid = if eid = srcEid
      then Latest.receive (u.leaf eid) (payload.1.val, payload.2.val) else u.leaf eid := by
  obtain ⟨-, -, hpos, ⟨hold, rfl⟩ | ⟨hnew, rfl⟩⟩ := lzReceive_eq_ok hok
  · split
    · rename_i heid
      subst heid
      rw [Latest.receive, if_pos]
      exact hold
    · rfl
  · split
    · rename_i heid
      subst heid
      have hlt := hu.position_le hne
      have hlt' : u.eidToPosition eid - 1 < u.transferTreeIndices.length := by
        rw [hu.indices_length]
        exact hlt
      have hnewer : ¬ (payload.1.val, payload.2.val).2 ≤ (u.leaf eid).2 := Nat.not_le.mpr hnew
      rw [Latest.receive, if_neg hnewer]
      simp [leaf, emit, List.getD_eq_getElem?_getD, hlt, hlt']
    · rename_i heid
      -- another slot
      have hslot : u.eidToPosition srcEid - 1 ≠ u.eidToPosition eid - 1 := by
        intro heq
        have hsame : u.eidToPosition eid = u.eidToPosition srcEid := by omega
        exact heid (hu.injective hne hsame)
      simp [leaf, emit, List.getD_eq_getElem?_getD, List.getElem?_set_ne hslot]

/-- The index of a leaf never falls: an older message is ignored. -/
theorem lzReceive_indices (hok : u.lzReceive sender srcEid originSender payload = .ok u')
    (i : ℕ) : u.transferTreeIndices.getD i 0 ≤ u'.transferTreeIndices.getD i 0 := by
  obtain ⟨-, -, -, ⟨-, rfl⟩ | ⟨hnew, rfl⟩⟩ := lzReceive_eq_ok hok
  · exact le_rfl
  · simp only [emit, List.getD_eq_getElem?_getD]
    by_cases hi : u.eidToPosition srcEid - 1 = i
    · subst hi
      rcases Nat.lt_or_ge (u.eidToPosition srcEid - 1) u.transferTreeIndices.length with hlt | hge
      · rw [List.getElem?_set_self hlt]
        rw [List.getD_eq_getElem?_getD] at hnew
        exact hnew.le
      · rw [List.getElem?_eq_none hge]
        exact Nat.zero_le _
    · rw [List.getElem?_set_ne hi]

/-- What the endpoint may be refused for. -/
theorem lzReceive_accepts (hpeer : u.peers srcEid ≠ 0)
    (horigin : u.peers srcEid = originSender.val) (hpos : u.eidToPosition srcEid ≠ 0)
    (hindex : payload.2.val < 2 ^ 64) :
    ∃ u', u.lzReceive u.endpoint srcEid originSender payload = .ok u' := by
  simp only [lzReceive, lzReceiveInternal, bind_eq_ok, require_eq_ok, exists_const]
  split
  · exact ⟨_, trivial, hpeer, horigin, hpos, hindex, rfl⟩
  · exact ⟨_, trivial, hpeer, horigin, hpos, hindex, rfl⟩

end receive

end Hub

/-! ## Deliveries -/

/-- A message as the Hub sees it. -/
structure Delivery where
  eid : ℕ
  root : ℕ
  index : ℕ
  deriving DecidableEq

def Message.toDelivery (m : Message) : Delivery := ⟨m.srcEid, m.payload.1.val, m.payload.2.val⟩

/-- The messages of one endpoint. -/
def messagesOf (eid : ℕ) (ds : List Delivery) : List (ℕ × ℕ) :=
  (ds.filter (·.eid = eid)).map fun m => (m.root, m.index)

/-- The messages of a chain are those delivered from it. -/
theorem mem_messagesOf {eid : ℕ} {ds : List Delivery} {x : ℕ × ℕ} :
    x ∈ messagesOf eid ds ↔ ⟨eid, x.1, x.2⟩ ∈ ds := by
  simp only [messagesOf, List.mem_map, List.mem_filter, decide_eq_true_eq]
  constructor
  · rintro ⟨m, ⟨hm, rfl⟩, rfl⟩
    exact hm
  · intro hm
    exact ⟨_, ⟨hm, rfl⟩, rfl⟩

/-- One more delivery adds one to its own chain's. -/
theorem messagesOf_concat (eid : ℕ) (ds : List Delivery) (m : Delivery) :
    messagesOf eid (ds ++ [m])
      = if m.eid = eid then messagesOf eid ds ++ [(m.root, m.index)] else messagesOf eid ds := by
  simp only [messagesOf, List.filter_append, List.map_append]
  split
  · rename_i heq
    simp [heq]
  · rename_i hne
    simp [hne]

variable (h : Hashes) (d : ℕ → DeciderSets) (D : Deployment)

structure Tracked where
  state : NetState
  /-- The messages that the Hub accepted and that no revert took back, in order. -/
  delivered : List Delivery
  /-- What was delivered when each open call started, the innermost first. -/
  saved : List (List Delivery)

namespace Tracked

def initial : Tracked := ⟨D.initial h, [], []⟩

/-- The ghosts after an accepted action that leads to `s`. -/
def record (t : Tracked) (s : NetState) : NetAction → Tracked
  | .deliver m =>
    ⟨s, if D.AtHub m then t.delivered ++ [m.toDelivery] else t.delivered, t.saved⟩
  | .broadcast _ _ _ | .relay _ _ _ => ⟨s, t.delivered, t.delivered :: t.saved⟩
  | .finish => ⟨s, t.delivered, t.saved.tail⟩
  | .revert => ⟨s, t.saved.headD [], t.saved.tail⟩
  | _ => ⟨s, t.delivered, t.saved⟩

def step (t : Tracked) (a : NetAction) : Tracked :=
  match t.state.exec h d D a with
  | .ok s => t.record D s a
  | .error _ => t

end Tracked

/-! ## The invariant -/

/-- The leaves are what was delivered, and what was delivered was proved. -/
structure Converged (w : World) (ds : List Delivery) : Prop where
  placed : w.hub.Placed
  proved : ∀ m ∈ ds, m.root ≠ 0
    ∧ (w.chains m.eid).verifier.provedTransferRoots m.index = m.root
  registered : ∀ m ∈ ds, w.hub.eidToPosition m.eid ≠ 0
  leaf : ∀ eid, w.hub.eidToPosition eid ≠ 0 →
    Latest.Holds (0, 0) (messagesOf eid ds) (w.hub.leaf eid)
  /-- The index of a message in flight fits its type. -/
  inFlight : ∀ m ∈ w.sent, m.payload.2.val < 2 ^ 64

variable {h d D} {w w' : World} {ds : List Delivery}

/-- A Verifier proves one root per index. -/
theorem Converged.functional (hw : Converged w ds) (eid : ℕ) :
    Latest.Functional (messagesOf eid ds) := by
  intro x hx y hy heq
  have hx' := (hw.proved _ (mem_messagesOf.mp hx)).2
  have hy' := (hw.proved _ (mem_messagesOf.mp hy)).2
  simp only at hx' hy'
  rw [← hx', ← hy', heq]

/-- Deliveries stay proved. -/
theorem Converged.proved_mono (hw : Converged w ds) (hext : Extends w w') :
    ∀ m ∈ ds, m.root ≠ 0 ∧ (w'.chains m.eid).verifier.provedTransferRoots m.index = m.root := by
  intro m hm
  obtain ⟨hne, hproved⟩ := hw.proved m hm
  exact ⟨hne, hext.proved.eq hne hproved⟩

/-- An action that the Hub does not notice. -/
theorem Converged.unmoved (hw : Converged w ds) (hhub : w.hub.Unmoved w'.hub)
    (hext : Extends w w') (hsent : ∀ m ∈ w'.sent, m ∈ w.sent ∨ m.payload.2.val < 2 ^ 64) :
    Converged w' ds := by
  refine ⟨hw.placed.unmoved hhub, hw.proved_mono hext, ?_, ?_, ?_⟩
  · rw [hhub.position]
    exact hw.registered
  · rw [hhub.position, hhub.leaf]
    exact hw.leaf
  · intro m hm
    rcases hsent m hm with hm | hlt
    · exact hw.inFlight m hm
    · exact hlt

/-- A chain that is being registered has delivered nothing yet, since deliveries of unregistered
chains are refused. -/
theorem Converged.register {sender : Address} {info : TokenInfo} {u : Hub}
    (hw : Converged w ds) (hok : w.hub.registerToken sender info = .ok u) :
    Converged { w with hub := u } ds := by
  have hposition := Hub.registerToken_position hok
  have hfresh := (Hub.registerToken_eq_ok hok).1
  refine ⟨Hub.registerToken_placed hok hw.placed, hw.proved, ?_, ?_, hw.inFlight⟩
  · intro m hm
    have hne := hw.registered m hm
    show u.eidToPosition m.eid ≠ 0
    rw [hposition]
    split
    · exact Nat.succ_ne_zero _
    · exact hne
  · intro eid hne
    rw [Hub.registerToken_leaf hok hw.placed hne]
    split
    · -- nothing was accepted from an endpoint without a slot
      rename_i heid
      subst heid
      refine Or.inl ⟨rfl, ?_⟩
      intro x hx
      exact absurd hfresh (hw.registered _ (mem_messagesOf.mp hx))
    · rename_i heid
      refine hw.leaf eid ?_
      have hne' : u.eidToPosition eid ≠ 0 := hne
      rw [hposition, if_neg heid] at hne'
      exact hne'

/-- An update of the token's data touches no leaf. -/
theorem Converged.update {sender : Address} {info : TokenInfo} {u : Hub}
    (hw : Converged w ds) (hok : w.hub.updateToken sender info = .ok u) :
    Converged { w with hub := u } ds := by
  have hplaced := Hub.updateToken_placed hok hw.placed
  have hleaf := Hub.updateToken_leaf hok
  obtain ⟨-, rfl⟩ := Hub.updateToken_eq_ok hok
  refine ⟨hplaced, hw.proved, hw.registered, ?_, hw.inFlight⟩
  rw [hleaf]
  exact hw.leaf

/-- A delivery with a newer index becomes the leaf. With an older or the same index it is ignored,
and the leaf is still that of the highest index. -/
theorem Converged.receive {m : Message} {u : Hub} (hw : Converged w ds)
    (hproved : m.payload.1.val ≠ 0
      ∧ (w.chains m.srcEid).verifier.provedTransferRoots m.payload.2.val = m.payload.1.val)
    (hok : w.hub.lzReceive w.hub.endpoint m.srcEid m.sender m.payload = .ok u) :
    Converged { w with hub := u } (ds ++ [m.toDelivery]) := by
  have hposition := Hub.lzReceive_position hok
  have hsource : w.hub.eidToPosition m.srcEid ≠ 0 := (Hub.lzReceive_eq_ok hok).2.2.1
  refine ⟨Hub.lzReceive_placed hok hw.placed, ?_, ?_, ?_, hw.inFlight⟩
  · intro m' hm'
    rcases List.mem_append.mp hm' with hm' | hm'
    · exact hw.proved m' hm'
    · rw [List.mem_singleton.mp hm']
      exact hproved
  · intro m' hm'
    show u.eidToPosition m'.eid ≠ 0
    rw [hposition]
    rcases List.mem_append.mp hm' with hm' | hm'
    · exact hw.registered m' hm'
    · rw [List.mem_singleton.mp hm']
      exact hsource
  -- its own leaf takes the message, the others do not change
  · intro eid hne
    have hne' : w.hub.eidToPosition eid ≠ 0 := by
      rw [← hposition]
      exact hne
    rw [Hub.lzReceive_leaf hok hw.placed hne', messagesOf_concat]
    by_cases heid : eid = m.srcEid
    · subst heid
      rw [if_pos rfl, if_pos (by rfl)]
      exact (hw.leaf _ hne').receive _
    · rw [if_neg heid, if_neg (by exact fun heq => heid heq.symm)]
      exact hw.leaf eid hne'

/-! ## Runs -/

/-- A message that is sent with an index below 2^64 joins messages with small indices. -/
theorem mem_sent_or_small {sent : List Message} {m : Message} {index : ℕ}
    (hindex : m.payload.2 = toWord index) (hlt : index < 2 ^ 64) :
    ∀ m' ∈ sent ++ [m], m' ∈ sent ∨ m'.payload.2.val < 2 ^ 64 := by
  intro m' hm'
  rcases List.mem_append.mp hm' with hm' | hm'
  · exact Or.inl hm'
  · right
    rw [List.mem_singleton.mp hm', hindex, toWord_val (hlt.trans (by norm_num))]
    exact hlt

namespace Tracked

/-- The open calls, each with the deliveries it started with. -/
def stack (t : Tracked) : List (Frames.Frame (World × List Delivery) Pending) :=
  List.zipWith (fun f ds => ⟨(f.checkpoint, ds), f.cont⟩) t.state.frames t.saved

/-- `I` holds of every world that the run is in or may go back to. -/
structure Everywhere (I : World → List Delivery → Prop) (t : Tracked) : Prop where
  saved : t.saved.length = t.state.frames.length
  stack : Frames.Valid (fun x => I x.1 x.2) (fun _ _ => True) (fun _ _ => True)
    (t.state.world, t.delivered) t.stack

variable {I : World → List Delivery → Prop} {t : Tracked} {s : NetState}
  {f : Frames.Frame World Pending} {fs : List (Frames.Frame World Pending)}

/-- What holds everywhere holds of the current world. -/
theorem Everywhere.here (ht : t.Everywhere I) : I t.state.world t.delivered :=
  Frames.Valid.inv (I := fun x : World × List Delivery => I x.1 x.2) ht.stack

/-- A step inside the innermost call. -/
theorem Everywhere.inside (ht : t.Everywhere I) (hframes : s.frames = t.state.frames)
    (hI : I s.world ds) : (⟨s, ds, t.saved⟩ : Tracked).Everywhere I := by
  refine ⟨by rw [hframes, ht.saved], ?_⟩
  unfold Tracked.stack
  rw [hframes]
  exact Frames.Valid.mono (fun _ _ _ _ _ => trivial) (fun _ _ _ _ _ => trivial) ht.stack trivial hI

/-- A new call. -/
theorem Everywhere.push {k : Pending} (ht : t.Everywhere I)
    (hframes : s.frames = ⟨t.state.world, k⟩ :: t.state.frames) (hI : I s.world t.delivered) :
    (⟨s, t.delivered, t.delivered :: t.saved⟩ : Tracked).Everywhere I := by
  refine ⟨by rw [hframes, List.length_cons, List.length_cons, ht.saved], ?_⟩
  unfold Tracked.stack
  rw [hframes, List.zipWith_cons_cons]
  exact Frames.Valid.push ht.stack trivial hI trivial

/-- What the innermost call would go back to. -/
theorem Everywhere.exists_saved (ht : t.Everywhere I) (hframes : t.state.frames = f :: fs) :
    ∃ ds dss, t.saved = ds :: dss ∧ dss.length = fs.length
      ∧ Frames.Valid (fun x => I x.1 x.2) (fun _ _ => True) (fun _ _ => True)
        (f.checkpoint, ds) (List.zipWith (fun f ds => ⟨(f.checkpoint, ds), f.cont⟩) fs dss) := by
  have hlength := ht.saved
  have hstack := ht.stack
  unfold Tracked.stack at hstack
  rw [hframes] at hlength hstack
  cases hsaved : t.saved with
  | nil => simp [hsaved] at hlength
  | cons ds dss =>
    rw [hsaved] at hlength hstack
    exact ⟨ds, dss, rfl, Nat.succ.inj hlength, hstack.2.2.2⟩

/-- The innermost call goes on. -/
theorem Everywhere.resume {k : Pending} (ht : t.Everywhere I) (hframes : t.state.frames = f :: fs)
    (hframes' : s.frames = ⟨f.checkpoint, k⟩ :: fs) (hI : I s.world t.delivered) :
    (⟨s, t.delivered, t.saved⟩ : Tracked).Everywhere I := by
  obtain ⟨ds, dss, hsaved, hlength, hrest⟩ := ht.exists_saved hframes
  refine ⟨by rw [hframes', hsaved, List.length_cons, List.length_cons, hlength], ?_⟩
  unfold Tracked.stack
  rw [hframes', hsaved, List.zipWith_cons_cons]
  exact ⟨hI, trivial, trivial, hrest⟩

/-- The innermost call returns. -/
theorem Everywhere.pop (ht : t.Everywhere I) (hframes : t.state.frames = f :: fs)
    (hframes' : s.frames = fs) (hI : I s.world t.delivered) :
    (⟨s, t.delivered, t.saved.tail⟩ : Tracked).Everywhere I := by
  obtain ⟨ds, dss, hsaved, hlength, hrest⟩ := ht.exists_saved hframes
  refine ⟨by rw [hframes', hsaved, List.tail_cons, hlength], ?_⟩
  unfold Tracked.stack
  rw [hframes', hsaved, List.tail_cons]
  exact Frames.Valid.mono (fun _ _ _ _ _ => trivial) (fun _ _ _ _ _ => trivial) hrest trivial hI

/-- Recording the deliveries does not change the state. -/
theorem record_state (t : Tracked) (s : NetState) (a : NetAction) :
    (t.record D s a).state = s := by
  cases a <;> rfl

/-- A step that is no delivery and opens or ends no frame records nothing. -/
theorem record_quiet {a : NetAction} (hdelivery : ¬ a.IsHubDelivery D) (hframing : ¬ a.IsFraming) :
    t.record D s a = ⟨s, t.delivered, t.saved⟩ := by
  cases a with
  | deliver m => exact congrArg (Tracked.mk s · t.saved) (if_neg hdelivery)
  | broadcast | relay | finish | revert => exact absurd trivial hframing
  | _ => rfl

/-- **The rule for properties of the Hub.** Only what a move makes new has to be checked: a
revert goes back to a world where the property was checked before. -/
theorem Everywhere.record {a : NetAction} (ht : t.Everywhere I) (hmove : Move h D t.state a s)
    (hI : a ≠ .revert → I s.world (t.record D s a).delivered) :
    (t.record D s a).Everywhere I := by
  cases hmove with
  | quiet a w hhub hsent hext hdelivery hframing =>
    rw [record_quiet hdelivery hframing] at hI ⊢
    refine ht.inside rfl (hI ?_)
    rintro rfl
    exact hframing trivial
  | register | update | receive => exact ht.inside rfl (hI (by simp))
  | openBroadcast | openRelay => exact ht.push rfl (hI (by simp))
  | hubSend f fs ctx eid fee sends refund w hframes =>
    exact ht.resume hframes rfl (hI (by simp))
  | verifierSend f fs eid root index value w hframes =>
    exact ht.resume hframes rfl (hI (by simp))
  | refund f fs ctx amount hframes => exact ht.resume hframes rfl (hI (by simp))
  | finishBroadcast f fs ctx hframes => exact ht.pop hframes rfl (hI (by simp))
  | finishRelay f fs eid root index value w hframes => exact ht.pop hframes rfl (hI (by simp))
  -- the deliveries since the checkpoint are taken back with the world
  | revert f fs hframes =>
    obtain ⟨ds, dss, hsaved, hlength, hrest⟩ := ht.exists_saved hframes
    rw [Tracked.record, hsaved]
    exact ⟨hlength, hrest⟩

/-- The leaves have converged wherever the run is or may go back to. -/
structure Inv (h : Hashes) (D : Deployment) (t : Tracked) : Prop where
  state : t.state.Inv h D
  converged : t.Everywhere Converged

/-- At deployment nothing was delivered. -/
theorem initial_inv : (initial h D).Inv h D := by
  refine ⟨NetState.initial_inv, rfl, Hub.initial_placed h _ _, ?_, ?_, ?_, ?_⟩
  · intro m hm
    cases hm
  · intro m hm
    cases hm
  · intro eid hne
    exact absurd rfl hne
  · intro m hm
    cases hm

/-- What the innermost call has left to do is entitled to happen. -/
theorem Inv.entitled (ht : t.Inv h D) (hframes : t.state.frames = f :: fs) :
    Entitled t.state.world f.cont := by
  have hstate := ht.state
  unfold NetState.Inv at hstate
  rw [hframes] at hstate
  exact hstate.2.1

/-- Every step but a revert keeps the Hub's leaves the latest of the recorded deliveries. -/
theorem move_converged {a : NetAction} (ht : t.Inv h D) (hmove : Move h D t.state a s)
    (ha : a ≠ .revert) : Converged s.world (t.record D s a).delivered := by
  have hinv : NetInv h D t.state.world := Frames.Valid.inv ht.state
  have hconv : Converged t.state.world t.delivered := ht.converged.here
  cases hmove with
  | quiet a w hhub hsent hext hdelivery hframing =>
    rw [record_quiet hdelivery hframing]
    exact hconv.unmoved hhub hext fun m hm => Or.inl (hsent ▸ hm)
  | register sender info u hok => exact hconv.register hok
  | update sender info u hok => exact hconv.update hok
  | receive m u hhub hsent hok =>
    have hdelivered : (t.record D ⟨{ t.state.world with hub := u }, t.state.frames⟩
        (.deliver m)).delivered = t.delivered ++ [m.toDelivery] := if_pos hhub
    rw [hdelivered]
    refine hconv.receive ?_ hok
    rcases hinv.sent m hsent with ⟨hreceiver, -⟩ | ⟨-, -, -, hne, hproved⟩
    · -- what the Hub sends is not addressed to the Hub
      rw [hhub.1, hhub.2] at hreceiver
      exact absurd (Fin.ext hreceiver.symm) D.hubAddr_ne
    · exact ⟨hne, hproved⟩
  | openBroadcast value targetEids quote u ctx fees refund hok =>
    obtain ⟨-, -, -, -, rfl⟩ := Hub.broadcastStart_eq_ok hok
    exact hconv.unmoved ⟨rfl, rfl, rfl, rfl⟩
      ⟨fun a ha => List.mem_append_left _ ha, fun _ _ _ => rfl⟩ fun m hm => Or.inl hm
  | openRelay eid value quote root index => exact hconv
  | hubSend f fs ctx eid fee sends refund w hframes hcont hok =>
    obtain ⟨hhub, hext, -, hsent⟩ := World.hubSend_eq_ok hok
    have hentitled := ht.entitled hframes
    rw [hcont] at hentitled
    obtain ⟨x, hx, rfl⟩ := hentitled
    refine hconv.unmoved hhub hext ?_
    rw [hsent]
    exact mem_sent_or_small rfl (hinv.assigned x hx).seq_lt
  | verifierSend f fs eid root index value w hframes hcont hok =>
    obtain ⟨hhub, hext, m, hindex, hsent⟩ := World.verifierSend_eq_ok hok
    have hentitled := ht.entitled hframes
    rw [hcont] at hentitled
    refine hconv.unmoved (hhub ▸ Hub.Unmoved.refl _) hext ?_
    rw [hsent]
    exact mem_sent_or_small hindex hentitled.2.1
  | refund f fs ctx amount hframes hcont =>
    exact hconv.unmoved ⟨rfl, rfl, rfl, rfl⟩ (extends_setHub _) fun m hm => Or.inl hm
  | finishBroadcast f fs ctx hframes hcont =>
    -- the flag and the log are no part of a leaf
    exact ⟨⟨hconv.placed.toAligned.frame rfl, hconv.placed.registered, hconv.placed.capacity⟩,
      hconv.proved, hconv.registered, hconv.leaf, hconv.inFlight⟩
  | finishRelay f fs eid root index value w hframes hcont hhub hsent hext =>
    exact hconv.unmoved (hhub ▸ Hub.Unmoved.refl _) hext fun m hm => Or.inl (hsent ▸ hm)
  | revert f fs hframes => exact absurd rfl ha

/-- A revert goes back to a saved world together with the deliveries recorded then. -/
theorem step_inv (t : Tracked) (a : NetAction) (ht : t.Inv h D) : (t.step h d D a).Inv h D := by
  unfold step
  split
  · rename_i s hok
    have hmove := NetState.exec_move ht.state hok
    refine ⟨?_, ht.converged.record hmove fun ha => move_converged ht hmove ha⟩
    rw [record_state]
    exact NetState.exec_inv ht.state hok
  · exact ht

/-- The ghosts change nothing. -/
theorem step_state (t : Tracked) (a : NetAction) :
    (t.step h d D a).state = t.state.step h d D a := by
  unfold step NetState.step
  split
  · rename_i s hok
    rw [hok, record_state, commit]
  · rename_i e herror
    rw [herror, commit]

theorem run_state (t : Tracked) (acts : List NetAction) :
    (run (step h d D) t acts).state = run (NetState.step h d D) t.state acts := by
  induction acts generalizing t with
  | nil => rfl
  | cons a acts ih => rw [run_cons, ih, step_state, run_cons]

/-! ### From a state between transactions on -/

section

variable {R : Hub → Hub → Prop} (hrefl : ∀ u, R u u) (htrans : ∀ a b c, R a b → R b c → R a c)
  (hmoves : ∀ u u', HubMove u u' → R u u')
include htrans hmoves

/-- A relation between Hubs that every step keeps holds between an earlier Hub and all the worlds,
the saved ones included. -/
theorem step_rel {u : Hub} (t : Tracked) (a : NetAction)
    (ht : t.Inv h D ∧ t.Everywhere fun w _ => R u w.hub) :
    (t.step h d D a).Inv h D ∧ (t.step h d D a).Everywhere fun w _ => R u w.hub := by
  obtain ⟨hinv, hrel⟩ := ht
  refine ⟨step_inv t a hinv, ?_⟩
  unfold step
  split
  · rename_i s hok
    have hmove := NetState.exec_move hinv.state hok
    refine hrel.record hmove fun ha => htrans _ _ _ ?_ (hmoves _ _ (hmove.hubMove ha))
    exact hrel.here (I := fun w _ => R u w.hub)
  · exact hrel

include hrefl

/-- What every call to the Hub respects holds between a state where no call is open and every
later one: no revert goes back beyond such a state. -/
theorem Inv.hub_rel (ht : t.Inv h D) (hbetween : t.state.frames = []) (acts : List NetAction) :
    R t.state.world.hub (run (step h d D) t acts).state.world.hub := by
  have hstart : t.Everywhere fun w _ => R t.state.world.hub w.hub := by
    refine ⟨ht.converged.saved, ?_⟩
    unfold Tracked.stack
    rw [hbetween, List.zipWith_nil_left]
    exact hrefl _
  have hrun := run_induction ⟨ht, hstart⟩ (step_rel (d := d) htrans hmoves) acts
  exact hrun.2.here (I := fun w _ => R t.state.world.hub w.hub)

end

/-- Between transactions the indices only grow. -/
theorem Inv.indices_grow (ht : t.Inv h D) (hbetween : t.state.frames = [])
    (acts : List NetAction) (i : ℕ) : t.state.world.hub.transferTreeIndices.getD i 0
      ≤ (run (step h d D) t acts).state.world.hub.transferTreeIndices.getD i 0 := by
  refine ht.hub_rel (R := fun u u' =>
    u.transferTreeIndices.getD i 0 ≤ u'.transferTreeIndices.getD i 0)
    (fun _ => le_rfl) (fun _ _ _ => le_trans) ?_ hbetween acts
  intro u u' hmove
  cases hmove with
  | unmoved hu => rw [hu.indices]
  | register sender info hok => rw [Hub.registerToken_indices hok]
  | update sender info hok =>
    obtain ⟨-, rfl⟩ := Hub.updateToken_eq_ok hok
    exact le_rfl
  | receive sender srcEid originSender payload hok => exact Hub.lzReceive_indices hok i
  | done ctx hdone =>
    rw [hdone]
    exact le_rfl

/-- Registered endpoints stay registered. -/
theorem Inv.registered_stay (ht : t.Inv h D) (hbetween : t.state.frames = [])
    (acts : List NetAction) {eid : ℕ} (hpos : t.state.world.hub.eidToPosition eid ≠ 0) :
    (run (step h d D) t acts).state.world.hub.eidToPosition eid ≠ 0 := by
  refine ht.hub_rel (R := fun u u' => u.eidToPosition eid ≠ 0 → u'.eidToPosition eid ≠ 0)
    (fun _ => id) (fun _ _ _ hab hbc => hbc ∘ hab) ?_ hbetween acts hpos
  intro u u' hmove hne
  cases hmove with
  | unmoved hu =>
    rw [hu.position]
    exact hne
  | register sender info hok =>
    rw [Hub.registerToken_position hok]
    split
    · exact Nat.succ_ne_zero _
    · exact hne
  | update sender info hok =>
    obtain ⟨-, rfl⟩ := Hub.updateToken_eq_ok hok
    exact hne
  | receive sender srcEid originSender payload hok =>
    rw [Hub.lzReceive_position hok]
    exact hne
  | done ctx hdone =>
    rw [hdone]
    exact hne

end Tracked

/-! ## Convergence -/

/-- A sent message of a registered endpoint with a peer is not refused. -/
theorem Tracked.Inv.accepts {t : Tracked} (ht : t.Inv h D) {m : Message}
    (hsent : m ∈ t.state.world.sent) (hhub : D.AtHub m)
    (hpeer : t.state.world.hub.peers m.srcEid ≠ 0)
    (hpos : t.state.world.hub.eidToPosition m.srcEid ≠ 0) :
    ∃ s, t.state.exec h d D (.deliver m) = .ok s := by
  have hinv : NetInv h D t.state.world := Frames.Valid.inv ht.state
  -- the sender is the Verifier that the Hub has as its peer
  have horigin : t.state.world.hub.peers m.srcEid = m.sender.val := by
    rw [(hinv.hub.peers m.srcEid).resolve_left hpeer]
    rcases hinv.sent m hsent with ⟨hreceiver, -⟩ | ⟨hsender, -⟩
    · rw [hhub.1, hhub.2] at hreceiver
      exact absurd (Fin.ext hreceiver.symm) D.hubAddr_ne
    · exact hsender.symm
  obtain ⟨u, hu⟩ := Hub.lzReceive_accepts hpeer horigin hpos
    (ht.converged.here.inFlight m hsent)
  have hdeliver : t.state.world.deliver h d D m = .ok { t.state.world with hub := u } := by
    rw [World.deliver, if_pos ⟨hhub.1, hhub.2⟩, World.withHub, hu]
    rfl
  refine ⟨⟨{ t.state.world with hub := u }, t.state.frames⟩, ?_⟩
  rw [NetState.exec, hdeliver, require, if_pos (Or.inl hsent)]
  rfl

variable (h d D)

/-- The Hub after the deliveries of `t`. -/
structure LeavesConverged (t : Tracked) : Prop where
  /-- Every message that counts was proved by the Verifier it came from. -/
  genuine : ∀ m ∈ t.delivered, m.root ≠ 0
    ∧ (t.state.world.chains m.eid).verifier.provedTransferRoots m.index = m.root
  /-- None of a registered endpoint with a peer is turned away. -/
  accepted : ∀ m ∈ t.state.world.sent, D.AtHub m → t.state.world.hub.peers m.srcEid ≠ 0 →
    t.state.world.hub.eidToPosition m.srcEid ≠ 0 → ∃ s, t.state.exec h d D (.deliver m) = .ok s
  /-- A leaf is the delivered message of the greatest index, or empty. -/
  newest : ∀ eid, t.state.world.hub.eidToPosition eid ≠ 0 →
    Latest.Holds (0, 0) (messagesOf eid t.delivered) (t.state.world.hub.leaf eid)
  indices_length : t.state.world.hub.transferTreeIndices.length
    = t.state.world.hub.transferRoots.length
  infos_length : t.state.world.hub.tokenInfos.length = t.state.world.hub.transferRoots.length
  capacity : t.state.world.hub.transferRoots.length ≤ 64
  bijective : Set.BijOn t.state.world.hub.eidToPosition
    {eid | t.state.world.hub.eidToPosition eid ≠ 0}
    (Set.Icc 1 t.state.world.hub.transferRoots.length)

/-- **Leaf convergence.** In every run the leaves are the newest of the messages delivered to
them; two runs that delivered the same messages, in whatever order and number, agree on every
leaf; and from a state between transactions on no index decreases. -/
theorem hub_leaves_converge (acts : List NetAction) :
    let t := run (Tracked.step h d D) (Tracked.initial h D) acts
    t.state = run (NetState.step h d D) (D.initial h) acts
    ∧ LeavesConverged h d D t
    ∧ (∀ acts', let t' := run (Tracked.step h d D) (Tracked.initial h D) acts'
      (∀ m, m ∈ t.delivered ↔ m ∈ t'.delivered) → ∀ eid,
        t.state.world.hub.eidToPosition eid ≠ 0 → t'.state.world.hub.eidToPosition eid ≠ 0 →
        t.state.world.hub.leaf eid = t'.state.world.hub.leaf eid)
    ∧ (t.state.frames = [] → ∀ later i, t.state.world.hub.transferTreeIndices.getD i 0
      ≤ (run (Tracked.step h d D) t later).state.world.hub.transferTreeIndices.getD i 0) := by
  intro t
  have ht : t.Inv h D := run_induction Tracked.initial_inv Tracked.step_inv acts
  have hconv : Converged t.state.world t.delivered := ht.converged.here
  refine ⟨Tracked.run_state _ acts, ?_, ?_, ?_⟩
  · refine ⟨hconv.proved, fun m hsent hhub hpeer hpos => ht.accepts hsent hhub hpeer hpos,
      hconv.leaf, hconv.placed.indices_length, hconv.placed.infos_length, hconv.placed.capacity,
      hconv.placed.bijOn⟩
  -- both leaves are the latest of the same messages
  · intro acts' t' hsame eid hpos hpos'
    have ht' : t'.Inv h D := run_induction Tracked.initial_inv Tracked.step_inv acts'
    refine Latest.Holds.unique (hconv.functional eid) ?_ (hconv.leaf eid hpos)
      (ht'.converged.here.leaf eid hpos')
    intro x
    rw [mem_messagesOf, mem_messagesOf]
    exact hsame _
  · intro hbetween later i
    exact ht.indices_grow hbetween later i

end Zerc20
