import Zerc20.Contracts.Chain
import Zerc20.Zkp.RootTransition
import Zerc20.Hash.Poseidon
import Zerc20.Hash.Sha256

/-!
# Proved transfer roots

The Verifier stores a transfer root when a proof connects an older stored root to a reserved
hash chain. It never sees the transfers themselves, and the proof's witnesses are the
attacker's. `provedRoots_correct` says that the stored roots are nevertheless the roots of the
token's own history, and that two proofs never disagree, unless the run exhibits a collision.

The invariant ties each table to the history `ts` recorded so far: a reserved value is the
chain of a prefix of `ts`, and a proved root is the root of a prefix. The step from the first
to the second is `rootRun_sound`, applied to the whole history.
-/

namespace Zerc20

open Machine HashTree Zkp

variable (h : Hashes) (d : DeciderSets)

/-! ## What an accepted root proof means -/

def RootProof.initialState (p : RootProof) : RootState where
  index := ((p 1).val : Fr)
  hashChain := ((p 2).val : Fr)
  root := ((p 3).val : Fr)

def RootProof.finalState (p : RootProof) : RootState where
  index := ((p 4).val : Fr)
  hashChain := ((p 5).val : Fr)
  root := ((p 6).val : Fr)

/-- The public words are canonical, and the external inputs `es` satisfy at least two folded
steps between the two states. -/
def RootProof.Satisfied (p : RootProof) (es : List RootExternalInputs) : Prop :=
  (∀ i ∈ ([1, 2, 3, 4, 5, 6] : List (Fin 32)), (p i).val < scalarModulus)
    ∧ 2 ≤ es.length
    ∧ rootRun h transferTreeHeight p.initialState es = some p.finalState

/-- The public inputs of a satisfied proof are field elements. -/
theorem RootProof.Satisfied.val_cast {p : RootProof} {es : List RootExternalInputs}
    (hsat : p.Satisfied h es) {i : Fin 32}
    (hi : i ∈ ([1, 2, 3, 4, 5, 6] : List (Fin 32))) : (((p i).val : Fr)).val = (p i).val :=
  ZMod.val_natCast_of_lt (hsat.1 i hi)

/-! ## Hash inputs of a run -/

variable (W : RootProof → List RootExternalInputs)

/-- The root proofs submitted in a run that some set of deciders accepts. -/
def submitted (acts : List ChainAction) : Set RootProof :=
  {p | .proveTransferRoot p ∈ acts ∧ ∃ vs, (d vs).rootDecider p = true}

/-- The Poseidon inputs of the history and of the submitted proofs. -/
def poseidonInputs (acts : List ChainAction) (ts : List Transfer) : Set (Fr × Fr) :=
  transferInputs h ts
    ∪ {q | ∃ p ∈ submitted d acts, q ∈ rootRunInputs h transferTreeHeight p.initialState (W p)}

/-- The hash chain inputs of the history and of the submitted proofs. -/
def shaChainInputs (acts : List ChainAction) (ts : List Transfer) : Set ChainInput :=
  chainInputs h ts
    ∪ {q | ∃ p ∈ submitted d acts,
      q ∈ rootRunChainInputs h transferTreeHeight p.initialState (W p)}

theorem submitted_mono {acts acts' : List ChainAction} (hsub : ∀ a ∈ acts, a ∈ acts') :
    submitted d acts ⊆ submitted d acts' :=
  fun _ hp => ⟨hsub _ hp.1, hp.2⟩

theorem poseidonInputs_mono {acts acts' : List ChainAction} {ts us : List Transfer}
    (hsub : ∀ a ∈ acts, a ∈ acts') (hpre : ts <+: us) :
    poseidonInputs h d W acts ts ⊆ poseidonInputs h d W acts' us := by
  rintro q (hq | ⟨p, hp, hq⟩)
  · exact Or.inl (transferInputs_mono h hpre hq)
  · exact Or.inr ⟨p, submitted_mono d hsub hp, hq⟩

theorem shaChainInputs_mono {acts acts' : List ChainAction} {ts us : List Transfer}
    (hsub : ∀ a ∈ acts, a ∈ acts') (hpre : ts <+: us) :
    shaChainInputs h d W acts ts ⊆ shaChainInputs h d W acts' us := by
  rintro q (hq | ⟨p, hp, hq⟩)
  · exact Or.inl (chainInputs_mono h hpre hq)
  · exact Or.inr ⟨p, submitted_mono d hsub hp, hq⟩

/-! ## The invariant -/

structure Verifier.RootsInv (ts : List Transfer) (v : Verifier) : Prop where
  reserved : ∀ i, v.reservedHashChains i ≠ 0 →
    i ≤ ts.length ∧ v.reservedHashChains i = transferChain h (ts.take i)
  proved : ∀ i, v.provedTransferRoots i ≠ 0 →
    i ≤ ts.length ∧ i ≤ 2 ^ transferTreeHeight
      ∧ v.provedTransferRoots i = (transferRoot h (ts.take i)).val
  calm : ∀ i r₁ r₂, .emergencyTriggered i r₁ r₂ ∉ v.log

variable {h d W}

/-- The reserved hash chains of a history are those of its extensions. -/
theorem Verifier.reserved_extend {ts us : List Transfer} {v : Verifier}
    (hv : ∀ i, v.reservedHashChains i ≠ 0 →
      i ≤ ts.length ∧ v.reservedHashChains i = transferChain h (ts.take i)) (hpre : ts <+: us) :
    ∀ i, v.reservedHashChains i ≠ 0 →
      i ≤ us.length ∧ v.reservedHashChains i = transferChain h (us.take i) := by
  intro i hne
  obtain ⟨hle, heq⟩ := hv i hne
  obtain ⟨rest, rfl⟩ := hpre
  rw [List.take_append_of_le_length hle, List.length_append]
  exact ⟨by omega, heq⟩

/-- A proved root of a history is one of the longer history. -/
theorem Verifier.RootsInv.extend {ts us : List Transfer} {v : Verifier}
    (hinv : v.RootsInv h ts) (hpre : ts <+: us) : v.RootsInv h us := by
  refine ⟨Verifier.reserved_extend hinv.reserved hpre, ?_, hinv.calm⟩
  · obtain ⟨rest, rfl⟩ := hpre
    intro i hi
    obtain ⟨hle, hle', heq⟩ := hinv.proved i hi
    rw [List.take_append_of_le_length hle, List.length_append]
    exact ⟨by omega, hle', heq⟩

/-- The invariant speaks of the two tables. -/
theorem Verifier.RootsInv.of_tables {ts : List Transfer} {v v' : Verifier}
    (hinv : v.RootsInv h ts) (hreserved : v'.reservedHashChains = v.reservedHashChains)
    (hproved : v'.provedTransferRoots = v.provedTransferRoots)
    (hcalm : ∀ i r₁ r₂, .emergencyTriggered i r₁ r₂ ∈ v'.log →
      .emergencyTriggered i r₁ r₂ ∈ v.log) : v'.RootsInv h ts := by
  refine ⟨by rw [hreserved]; exact hinv.reserved, by rw [hproved]; exact hinv.proved, ?_⟩
  intro i r₁ r₂ hmem
  exact hinv.calm i r₁ r₂ (hcalm i r₁ r₂ hmem)

/-- At deployment the one root is that of the empty history. -/
theorem Verifier.initial_rootsInv (hinit : INITIAL_TRANSFER_ROOT = (transferRoot h []).val)
    (owner endpoint : Address) (hubEid : ℕ) (verifiers : Verifiers) :
    (Verifier.initial owner endpoint hubEid verifiers).RootsInv h [] := by
  refine ⟨fun i hi => absurd rfl hi, ?_, by simp [Verifier.initial]⟩
  intro i hi
  by_cases h0 : i = 0
  · subst h0
    exact ⟨le_refl _, Nat.zero_le _, hinit⟩
  · simp only [Verifier.initial, Function.update_of_ne h0] at hi
    exact absurd rfl hi

/-- A reservation stores the hash chain of all the transfers, at their number. -/
theorem Verifier.reserveHashChain_eq_update {t : Token} {v : Verifier} (ht : t.HistoryInv h)
    (hlen : t.events.length < 2 ^ 64) :
    (v.reserveHashChain t).reservedHashChains
      = Function.update v.reservedHashChains t.events.length (transferChain h t.events) := by
  have hindex : uint64 t.index = t.events.length := by
    rw [uint64, ht.index_eq, Nat.mod_eq_of_lt hlen]
  simp only [Verifier.reserveHashChain, Verifier.emit, hindex, ht.hashChain_eq]

/-- What is reserved is the token's hash chain at its present index. -/
theorem Verifier.reserveHashChain_reserved {t : Token} {v : Verifier} (ht : t.HistoryInv h)
    (hlen : t.events.length < 2 ^ 64)
    (hv : ∀ i, v.reservedHashChains i ≠ 0 →
      i ≤ t.events.length ∧ v.reservedHashChains i = transferChain h (t.events.take i)) :
    ∀ i, (v.reserveHashChain t).reservedHashChains i ≠ 0 →
      i ≤ t.events.length
        ∧ (v.reserveHashChain t).reservedHashChains i = transferChain h (t.events.take i) := by
  intro i hne
  rw [Verifier.reserveHashChain_eq_update ht hlen] at hne ⊢
  by_cases hi : i = t.events.length
  · subst hi
    rw [Function.update_self, List.take_length]
    exact ⟨le_rfl, rfl⟩
  · rw [Function.update_of_ne hi] at hne ⊢
    exact hv i hne

theorem Verifier.reserveHashChain_rootsInv {t : Token} {v : Verifier} (ht : t.HistoryInv h)
    (hlen : t.events.length < 2 ^ 64) (hinv : v.RootsInv h t.events) :
    (v.reserveHashChain t).RootsInv h t.events := by
  refine ⟨Verifier.reserveHashChain_reserved ht hlen hinv.reserved, hinv.proved, ?_⟩
  intro i r₁ r₂ hmem
  simp only [Verifier.reserveHashChain, Verifier.emit, List.mem_append, List.mem_singleton,
    reduceCtorEq, or_false] at hmem
  exact hinv.calm i r₁ r₂ hmem

/-! ## Proving a root -/

variable {QP : Set (Fr × Fr)} {QC : Set ChainInput}

/-- The new root of an accepted proof is the root of the history it claims to cover. -/
theorem RootProof.Satisfied.newRoot_eq {p : RootProof} {es : List RootExternalInputs}
    {ts : List Transfer} {v : Verifier} (hsat : p.Satisfied h es)
    (hP : Set.InjOn (Function.uncurry h.poseidon2) QP) (hC : Set.InjOn (hashChainOf h) QC)
    (htsP : transferInputs h ts ⊆ QP) (htsC : chainInputs h ts ⊆ QC)
    (hinP : ∀ q ∈ rootRunInputs h transferTreeHeight p.initialState es, q ∈ QP)
    (hinC : ∀ q ∈ rootRunChainInputs h transferTreeHeight p.initialState es, q ∈ QC)
    (hinv : v.RootsInv h ts) (hne : (p 3).val ≠ 0)
    (hold : v.provedTransferRoots (uint64 (p 1)) = (p 3).val)
    (hreserved : v.reservedHashChains (uint64 (p 4)) ≠ 0)
    (hchain : v.reservedHashChains (uint64 (p 4)) = (p 5).val) :
    uint64 (p 4) ≤ ts.length ∧ uint64 (p 4) ≤ 2 ^ transferTreeHeight
      ∧ (p 6).val = (transferRoot h (ts.take (uint64 (p 4)))).val := by
  have hrun := hsat.2.2
  obtain ⟨hlo, -, hhi⟩ := rootRun_index_le h (by decide)
    (fun hnil => by simpa [hnil] using hsat.2.1) hrun
  -- with at least one step both indices fit in the tree, so `uint64` does not truncate them
  have hv1 : p.initialState.index.val = (p 1).val := hsat.val_cast h (by decide)
  have hv4 : p.finalState.index.val = (p 4).val := hsat.val_cast h (by decide)
  have hsmall : (2 : ℕ) ^ transferTreeHeight < 2 ^ 64 := by decide
  have h1 : uint64 (p 1) = p.initialState.index.val := by
    rw [uint64, hv1, Nat.mod_eq_of_lt (by omega)]
  have h4 : uint64 (p 4) = p.finalState.index.val := by
    rw [uint64, hv4, Nat.mod_eq_of_lt (by omega)]
  rw [h4] at hreserved hchain ⊢
  obtain ⟨hle, hres⟩ := hinv.reserved _ hreserved
  have hfinal : p.finalState.hashChain.val
      = transferChain h (ts.take p.finalState.index.val) := by
    rw [← hres, hchain]
    exact hsat.val_cast h (by decide)
  obtain ⟨-, -, hforward⟩ := rootRun_sound h hP hC htsP htsC hinP hinC hrun hle hfinal
  -- the old root is a stored root, so the run starts from the history's root
  obtain ⟨-, -, hroot⟩ := hinv.proved (uint64 (p 1)) (by rw [hold]; exact hne)
  have hstart : p.initialState.root = transferRoot h (ts.take p.initialState.index.val) := by
    refine fr_eq_of_val_eq ?_
    rw [← h1, ← hroot, hold]
    exact hsat.val_cast h (by decide)
  refine ⟨hle, hhi, ?_⟩
  rw [← hforward hstart]
  exact (hsat.val_cast h (by decide)).symm

/-- A new proof starts from a proved root and ends at a reserved hash chain. Without a collision the
transfers that it folds are those of the history in between. -/
theorem Verifier.proveTransferRoot_rootsInv {d : Deciders} {v v' : Verifier} {p : RootProof}
    {ts : List Transfer} (hinv : v.RootsInv h ts) (hok : v.proveTransferRoot d p = .ok v')
    (hnew : (p 3).val ≠ 0 → v.provedTransferRoots (uint64 (p 1)) = (p 3).val →
      v.reservedHashChains (uint64 (p 4)) ≠ 0 →
      v.reservedHashChains (uint64 (p 4)) = (p 5).val →
      uint64 (p 4) ≤ ts.length ∧ uint64 (p 4) ≤ 2 ^ transferTreeHeight
        ∧ (p 6).val = (transferRoot h (ts.take (uint64 (p 4)))).val) :
    v'.RootsInv h ts := by
  obtain ⟨-, hne, hold, hreserved, hchain, hres, -, -, hcase⟩ :=
    Verifier.proveTransferRoot_eq_ok hok
  obtain ⟨hle, hle', hroot⟩ := hnew hne hold hreserved hchain
  rcases hcase with ⟨hex, hconflict, -⟩ | ⟨-, hproved, hlog⟩
  · -- a stored root is the history's root as well, so there is nothing to disagree about
    exact absurd ((hinv.proved _ hex).2.2.trans hroot.symm) hconflict
  · refine ⟨by rw [hres]; exact hinv.reserved, ?_, ?_⟩
    · intro i hi
      rw [hproved] at hi ⊢
      by_cases hi' : i = uint64 (p 4)
      · subst hi'
        rw [Function.update_self]
        exact ⟨hle, hle', hroot⟩
      · rw [Function.update_of_ne hi'] at hi ⊢
        exact hinv.proved i hi
    · intro i r₁ r₂ hmem
      rw [hlog, List.mem_append, List.mem_singleton] at hmem
      rcases hmem with hmem | hmem
      · exact hinv.calm i r₁ r₂ hmem
      · cases hmem

/-! ## Runs -/

/-- Token and Verifier agree with the recorded history. -/
def Chain.RootsInv (h : Hashes) (c : Chain) : Prop :=
  c.token.HistoryInv h ∧ c.verifier.RootsInv h c.token.events

/-- One step, for hashes that are injective on the inputs seen so far. -/
theorem Chain.step_rootsInv {c : Chain} {a : ChainAction} {acts : List ChainAction}
    (hW : ∀ vs p, (d vs).rootDecider p = true → p.Satisfied h (W p))
    (hP : Set.InjOn (Function.uncurry h.poseidon2) QP) (hC : Set.InjOn (hashChainOf h) QC)
    (hsubP : poseidonInputs h d W acts c.token.events ⊆ QP)
    (hsubC : shaChainInputs h d W acts c.token.events ⊆ QC) (ha : a ∈ acts)
    (hlen : c.token.events.length < 2 ^ 64) (hinv : c.RootsInv h) :
    (c.step h d a).RootsInv h := by
  obtain ⟨hhistory, hroots⟩ := hinv
  refine ⟨Chain.step_historyInv h d hhistory a, ?_⟩
  refine Verifier.RootsInv.extend ?_ (Chain.step_events_grow h d c a)
  cases Chain.step_verifierCause h d c a with
  | tables htables hrecords =>
    exact hroots.of_tables htables.reserved htables.proved htables.calm
  | reserve heq hrecords =>
    rw [heq]
    exact Verifier.reserveHashChain_rootsInv hhistory hlen hroots
  | prove p hprove hok hrecords =>
    -- the one step that stores a root: the circuit ties it to the reserved hash chain
    have hacc := (Verifier.proveTransferRoot_eq_ok hok).1
    have hmem : p ∈ submitted d acts := ⟨hprove ▸ ha, _, hacc⟩
    refine Verifier.proveTransferRoot_rootsInv hroots hok ?_
    exact (hW _ p hacc).newRoot_eq hP hC (fun q hq => hsubP (Or.inl hq))
      (fun q hq => hsubC (Or.inl hq)) (fun q hq => hsubP (Or.inr ⟨p, hmem, hq⟩))
      (fun q hq => hsubC (Or.inr ⟨p, hmem, hq⟩)) hroots
  | receive sender srcEid originSender payload hreceive hok hrecords =>
    obtain ⟨-, -, -, -, -, hcase, hreserved, hproved, -⟩ := Verifier.lzReceive_eq_ok hok
    refine hroots.of_tables hreserved hproved fun i r₁ r₂ hmem => ?_
    rcases hcase with ⟨-, -, hlog⟩ | ⟨-, -, hlog⟩
    · exact Verifier.calm_of_log (.globalRootSaved _ _) (by simp) hlog hmem
    · rwa [hlog] at hmem
  | teleport r hclaims hr =>
    rw [hr.result]
    exact hroots.of_tables rfl rfl fun i r₁ r₂ =>
      Verifier.calm_of_log (.teleport _ _) (by simp) rfl

/-- So every root that is proved in a run is that of the history. -/
theorem Chain.run_rootsInv {c : Chain} {acts : List ChainAction}
    (hW : ∀ vs p, (d vs).rootDecider p = true → p.Satisfied h (W p))
    (hlen : (run (Chain.step h d) c acts).token.events.length < 2 ^ 64)
    (hP : Set.InjOn (Function.uncurry h.poseidon2) QP) (hC : Set.InjOn (hashChainOf h) QC)
    (hsubP : poseidonInputs h d W acts (run (Chain.step h d) c acts).token.events ⊆ QP)
    (hsubC : shaChainInputs h d W acts (run (Chain.step h d) c acts).token.events ⊆ QC)
    (hinv : c.RootsInv h) : (run (Chain.step h d) c acts).RootsInv h := by
  induction acts using List.reverseRecOn with
  | nil => exact hinv
  | append_singleton acts a ih =>
    rw [run_concat] at hlen hsubP hsubC ⊢
    have hgrow := Chain.step_events_grow h d (run (Chain.step h d) c acts) a
    have hlen' : (run (Chain.step h d) c acts).token.events.length < 2 ^ 64 :=
      Nat.lt_of_le_of_lt hgrow.length_le hlen
    have hmem : ∀ b ∈ acts, b ∈ acts ++ [a] := fun b hb => List.mem_append_left _ hb
    have hprev := ih hlen' ((poseidonInputs_mono h d W hmem hgrow).trans hsubP)
      ((shaChainInputs_mono h d W hmem hgrow).trans hsubC)
    exact Chain.step_rootsInv hW hP hC
      ((poseidonInputs_mono h d W (fun _ hb => hb) hgrow).trans hsubP)
      ((shaChainInputs_mono h d W (fun _ hb => hb) hgrow).trans hsubC) (by simp) hlen' hprev

/-- The stored roots are those of the history, and no emergency was ever triggered. -/
def Chain.ProvedRootsCorrect (h : Hashes) (c : Chain) : Prop :=
  (∀ i, c.verifier.provedTransferRoots i ≠ 0 →
    i ≤ c.token.events.length ∧ i ≤ 2 ^ transferTreeHeight
      ∧ c.verifier.provedTransferRoots i = (transferRoot h (c.token.events.take i)).val)
  ∧ ∀ i r₁ r₂, .emergencyTriggered i r₁ r₂ ∉ c.verifier.log

/-- **Proved roots are correct.** `W` picks the attacker's witnesses for the accepted proofs. -/
theorem provedRoots_correct (h : Hashes) (d : DeciderSets) (W : RootProof → List RootExternalInputs)
    (hW : ∀ vs p, (d vs).rootDecider p = true → p.Satisfied h (W p))
    (hinit : INITIAL_TRANSFER_ROOT = (transferRoot h []).val)
    (chainId hubEid : ℕ) (owner endpoint verifierAddr minterAddr tokenAddress : Address)
    (verifiers : Verifiers) (underlying : Address → ℕ) (acts : List ChainAction) (c : Chain)
    (hreach : run (Chain.step h d) (Chain.initial chainId owner endpoint verifierAddr minterAddr
      tokenAddress hubEid verifiers underlying) acts = c)
    (hlen : c.token.events.length < 2 ^ 64) :
    c.ProvedRootsCorrect h
      ∨ Collision (Function.uncurry h.poseidon2) (poseidonInputs h d W acts c.token.events)
      ∨ Collision (hashChainOf h) (shaChainInputs h d W acts c.token.events) := by
  subst hreach
  rw [or_iff_not_imp_right, not_or]
  rintro ⟨hcolP, hcolC⟩
  have hinv := Chain.run_rootsInv hW hlen (injOn_of_not_collision hcolP)
    (injOn_of_not_collision hcolC) (le_refl _) (le_refl _)
    ⟨⟨rfl, rfl⟩, Verifier.initial_rootsInv hinit owner endpoint hubEid verifiers⟩
  exact ⟨hinv.2.proved, hinv.2.calm⟩

/-! ## A deposit, its reservation and its proof -/

/-- The root proof of a single transfer of 5 to address 7, with one real and one dummy step. -/
def depositProof : RootProof := fun i =>
  if i = 3 then ⟨INITIAL_TRANSFER_ROOT, INITIAL_TRANSFER_ROOT_lt⟩
  else if i = 4 then 1
  else if i = 5 then
    336882917859177776356132460297206997289434920612032358027639309916628236830
  else if i = 6 then
    10779236398203674533253897993470260597725089048136712746885362153530108622571
  else 0

def depositWitness : List RootExternalInputs :=
  let siblings := (List.range' 0 40).map (zeroAt realHashes.poseidon2 0)
  [⟨false, 7, 5, siblings⟩, ⟨true, 0, 0, siblings⟩]

def depositDeciders : DeciderSets := fun _ =>
  { rootDecider := fun p => decide (p = depositProof)
    withdrawDecider := fun _ _ => false
    singleWithdrawVerifier := fun _ _ => false }

/-- The proof of the example is one of the circuit. -/
theorem depositProof_satisfied : depositProof.Satisfied realHashes depositWitness := by
  unfold RootProof.Satisfied
  decide +kernel

theorem provedRoots_correct_deposit :
    let acts : List ChainAction :=
      [.depositNative 7 5, .reserveHashChain, .proveTransferRoot depositProof]
    ∃ c, run (Chain.step realHashes depositDeciders)
        (Chain.initial 1 1 2 3 4 0 30101 ⟨21, 22, 23, 24, 25⟩ fun _ => 0) acts = c
      ∧ c.verifier.provedTransferRoots 1 ≠ 0
      ∧ (c.ProvedRootsCorrect realHashes
        ∨ Collision (Function.uncurry realHashes.poseidon2)
            (poseidonInputs realHashes depositDeciders (fun _ => depositWitness) acts
              c.token.events)
        ∨ Collision (hashChainOf realHashes)
            (shaChainInputs realHashes depositDeciders (fun _ => depositWitness) acts
              c.token.events)) := by
  intro acts
  have hW : ∀ vs p, (depositDeciders vs).rootDecider p = true →
      p.Satisfied realHashes depositWitness := by
    intro _ p hp
    rw [of_decide_eq_true hp]
    exact depositProof_satisfied
  obtain ⟨c, hreach⟩ : ∃ c, run (Chain.step realHashes depositDeciders)
      (Chain.initial 1 1 2 3 4 0 30101 ⟨21, 22, 23, 24, 25⟩ fun _ => 0) acts = c := ⟨_, rfl⟩
  have hstored : c.verifier.provedTransferRoots 1 ≠ 0 := by
    rw [← hreach]
    decide +kernel
  have hlen : c.token.events.length < 2 ^ 64 := by
    rw [← hreach]
    decide +kernel
  exact ⟨c, hreach, hstored, provedRoots_correct realHashes depositDeciders
    (fun _ => depositWitness) hW transferRoot_empty.symm 1 30101 1 2 3 4 0 ⟨21, 22, 23, 24, 25⟩
    (fun _ => 0) acts c hreach hlen⟩

end Zerc20
