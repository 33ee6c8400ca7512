import Zerc20.Contracts.WriteOnce

/-!
# Rules for runs of the network

An open call may be reverted, so what is to hold in every state of a run has to hold of the worlds
that the open calls go back to as well (`NetState.AllWorlds`). Such a property is checked once for
every action but `revert`, which makes nothing new (`run_allWorlds`). From a state in which no call
is open, the same rule relates the worlds of a run to the first (`run_world_rel`).

`ChainTurn` is what an action does to the contracts behind one endpoint id: nothing, a transaction,
the delivery of a message, or the last line of `relayTransferRoot`.
-/

namespace Zerc20

open Machine

variable {h : Hashes} {d : ℕ → DeciderSets} {D : Deployment} {s s' : NetState}

namespace NetState

/-- `I` holds of the present world, and of every world that an open call may go back to. -/
def AllWorlds (I : World → Prop) (s : NetState) : Prop := I s.world ∧ ∀ f ∈ s.frames, I f.checkpoint

variable {I : World → Prop} {C : NetState → NetAction → Prop}

/-- A call that is open after an action goes back to the world before it, or was open before. -/
theorem checkpoint_cases {a : NetAction} (hmove : Move h D s a s') (ha : a ≠ .revert) :
    ∀ f ∈ s'.frames, f.checkpoint = s.world ∨ ∃ g ∈ s.frames, g.checkpoint = f.checkpoint := by
  -- a call that goes on keeps its checkpoint, one that ends leaves the others as they are
  have hresume : ∀ (f : Frames.Frame World Pending) (fs : List (Frames.Frame World Pending))
      (k : Pending), s.frames = f :: fs → ∀ g ∈ (⟨f.checkpoint, k⟩ :: fs : List _),
      g.checkpoint = s.world ∨ ∃ g' ∈ s.frames, g'.checkpoint = g.checkpoint := by
    intro f fs k hframes g hg
    rw [hframes]
    rcases List.mem_cons.mp hg with rfl | hg
    · exact Or.inr ⟨f, List.mem_cons_self, rfl⟩
    · exact Or.inr ⟨g, List.mem_cons_of_mem _ hg, rfl⟩
  have hpop : ∀ (f : Frames.Frame World Pending) (fs : List (Frames.Frame World Pending)),
      s.frames = f :: fs → ∀ g ∈ fs,
      g.checkpoint = s.world ∨ ∃ g' ∈ s.frames, g'.checkpoint = g.checkpoint := by
    intro f fs hframes g hg
    rw [hframes]
    exact Or.inr ⟨g, List.mem_cons_of_mem _ hg, rfl⟩
  cases hmove with
  | quiet | register | update | receive => exact fun f hf => Or.inr ⟨f, hf, rfl⟩
  | openBroadcast | openRelay =>
    intro f hf
    rcases List.mem_cons.mp hf with rfl | hf
    · exact Or.inl rfl
    · exact Or.inr ⟨f, hf, rfl⟩
  | hubSend f fs ctx eid fee sends refund w hframes => exact hresume f fs _ hframes
  | verifierSend f fs eid root index value w hframes => exact hresume f fs _ hframes
  | refund f fs ctx amount hframes => exact hresume f fs _ hframes
  | finishBroadcast f fs ctx hframes => exact hpop f fs hframes
  | finishRelay f fs eid root index value w hframes => exact hpop f fs hframes
  | revert => exact absurd rfl ha

/-- A revert goes back to a world of the stack. -/
theorem AllWorlds.revert (hI : s.AllWorlds I) (hok : s.exec h d D .revert = .ok s') :
    s'.AllWorlds I := by
  simp only [exec, NetState.revert] at hok
  split at hok
  · rename_i f fs hframes
    cases hok
    have hall : ∀ g ∈ f :: fs, I g.checkpoint := hframes ▸ hI.2
    exact ⟨hall f List.mem_cons_self, fun g hg => hall g (List.mem_cons_of_mem _ hg)⟩
  · cases hok

/-- What every step but a revert keeps holds of all worlds, as a revert goes back to one of them. -/
theorem AllWorlds.step (hs : s.Inv h D) (hI : s.AllWorlds I) {a : NetAction}
    (hkeep : ∀ s', s'.Inv h D → s.exec h d D a = .ok s' → a ≠ .revert → I s'.world) :
    (s.step h d D a).AllWorlds I := by
  rcases commit_cases s (s.exec h d D a) with ⟨-, heq⟩ | hok
  · rw [NetState.step, heq]
    exact hI
  · rw [NetState.step]
    generalize commit s (s.exec h d D a) = s' at hok ⊢
    by_cases ha : a = .revert
    · subst ha
      exact hI.revert hok
    · refine ⟨hkeep s' (exec_inv hs hok) hok ha, fun f hf => ?_⟩
      rcases checkpoint_cases (exec_move hs hok) ha f hf with heq | ⟨g, hg, heq⟩
      · rw [heq]
        exact hI.1
      · rw [← heq]
        exact hI.2 g hg

/-- **The rule for runs.** What every action but `revert` keeps holds wherever the run is or may go
back to. -/
theorem run_allWorlds (hs : s.Inv h D) (hI : s.AllWorlds I)
    (hkeep : ∀ (t : NetState) (a : NetAction) (t' : NetState), t.Inv h D → t'.Inv h D →
      I t.world → C t a → t.exec h d D a = .ok t' → a ≠ .revert → I t'.world)
    {acts : List NetAction} (hC : Along (NetState.step h d D) C s acts) :
    (run (NetState.step h d D) s acts).Inv h D
      ∧ (run (NetState.step h d D) s acts).AllWorlds I := by
  refine run_induction_along (I := fun s => s.Inv h D ∧ s.AllWorlds I) ⟨hs, hI⟩ ?_ hC
  rintro t a ⟨ht, hall⟩ hmeets
  exact ⟨step_inv t a ht,
    hall.step ht fun t' ht' hok ha => hkeep t a t' ht ht' hall.1 hmeets hok ha⟩

theorem initial_allWorlds (hI : I (D.initial h).world) : (D.initial h).AllWorlds I :=
  ⟨hI, fun _ hf => absurd hf List.not_mem_nil⟩

/-- **From a state between transactions on**: a preorder that every action but `revert` moves along
relates its world to those of the run, since no revert goes back beyond it. -/
theorem run_world_rel_along {E : World → World → Prop} (hrefl : ∀ w, E w w)
    (htrans : ∀ a b c, E a b → E b c → E a c)
    (hkeep : ∀ (t : NetState) (a : NetAction) (t' : NetState), t.Inv h D → t'.Inv h D → C t a →
      t.exec h d D a = .ok t' → a ≠ .revert → E t.world t'.world)
    (hs : s.Inv h D) (hbetween : s.frames = []) {acts : List NetAction}
    (hC : Along (NetState.step h d D) C s acts) :
    E s.world (run (NetState.step h d D) s acts).world := by
  have hstart : s.AllWorlds (E s.world) :=
    ⟨hrefl _, fun f hf => absurd (hbetween ▸ hf) List.not_mem_nil⟩
  refine (run_allWorlds hs hstart (fun t a t' ht ht' hE hmeets hok ha => ?_) hC).2.1
  exact htrans _ _ _ hE (hkeep t a t' ht ht' hmeets hok ha)

/-- The rule without a condition. -/
theorem run_world_rel {E : World → World → Prop} (hrefl : ∀ w, E w w)
    (htrans : ∀ a b c, E a b → E b c → E a c)
    (hkeep : ∀ (t : NetState) (a : NetAction) (t' : NetState), t.Inv h D → t'.Inv h D →
      t.exec h d D a = .ok t' → a ≠ .revert → E t.world t'.world)
    (hs : s.Inv h D) (hbetween : s.frames = []) (acts : List NetAction) :
    E s.world (run (NetState.step h d D) s acts).world :=
  run_world_rel_along (C := fun _ _ => True) hrefl htrans
    (fun t a t' ht ht' _ hok ha => hkeep t a t' ht ht' hok ha) hs hbetween
    (Along.of_forall fun _ _ => trivial)

end NetState

/-! ## What happens on one chain -/

section

variable (h d) (eid : ℕ)

/-- What an accepted action other than a revert does to the contracts behind `eid`. -/
inductive ChainTurn (s : NetState) : NetAction → Chain → Prop where
  | same (a : NetAction) : ChainTurn s a (s.world.chains eid)
  | transaction (b : ChainAction) (c : Chain) (hlocal : D.Local (s.world.chains eid) b)
      (hok : (s.world.chains eid).exec h (d eid) b = .ok c) : ChainTurn s (.chain eid b) c
  | receive (m : Message) (c : Chain)
      (hok : (s.world.chains eid).exec h (d eid) (.lzReceive
        (s.world.chains eid).verifier.endpoint m.srcEid m.sender m.payload) = .ok c) :
      ChainTurn s (.deliver m) c
  | relayed (root index : ℕ) : ChainTurn s .finish { s.world.chains eid with
      verifier := (s.world.chains eid).verifier.relayDone root index }

end

variable {eid : ℕ}

/-- What the transactions of a chain and the last line of a relay keep. A transaction is the action
itself, or the delivery of a message. -/
theorem ChainTurn.elim {P : Chain → Prop} {a : NetAction} {c : Chain}
    (hturn : ChainTurn h d (D := D) eid s a c) (hstay : P (s.world.chains eid))
    (hstep : ∀ b, a = .chain eid b ∨ (∃ m : Message, b = .lzReceive
        (s.world.chains eid).verifier.endpoint m.srcEid m.sender m.payload) →
      P ((s.world.chains eid).step h (d eid) b))
    (hrelay : ∀ root index, P { s.world.chains eid with
      verifier := (s.world.chains eid).verifier.relayDone root index }) : P c := by
  have hcommit : ∀ b, (s.world.chains eid).exec h (d eid) b = .ok c →
      (s.world.chains eid).step h (d eid) b = c := by
    intro b hok
    rw [Chain.step, hok, commit]
  cases hturn with
  | same => exact hstay
  | transaction b _ _ hok => exact hcommit b hok ▸ hstep b (Or.inl rfl)
  | receive m _ hok => exact hcommit _ hok ▸ hstep _ (Or.inr ⟨m, rfl⟩)
  | relayed root index => exact hrelay root index

variable (eid) in
/-- A transaction on some chain, as this chain sees it. -/
theorem World.chain_apply {w w' : World} {eid' : ℕ} {b : ChainAction}
    (hok : w.chain h d eid' b = .ok w') :
    w'.chains eid = w.chains eid ∧ eid' ≠ eid
      ∨ eid' = eid ∧ (w.chains eid).exec h (d eid) b = .ok (w'.chains eid) := by
  obtain ⟨c, hc, hret⟩ := bind_eq_ok.mp hok
  cases hret
  by_cases heq : eid = eid'
  · subst heq
    refine Or.inr ⟨rfl, ?_⟩
    show _ = Except.ok (Function.update w.chains eid c eid)
    rw [Function.update_self]
    exact liftChain_eq_ok.mp hc
  · exact Or.inl ⟨Function.update_of_ne heq _ _, fun hsame => heq hsame.symm⟩

variable (eid) in
/-- Seen from one chain, a step of the network is a turn of it or leaves it alone. -/
theorem NetState.exec_chainTurn {a : NetAction} (hok : s.exec h d D a = .ok s')
    (ha : a ≠ .revert) : ChainTurn h d (D := D) eid s a (s'.world.chains eid) := by
  cases a with
  | setHubPeer sender eid' peer =>
    obtain ⟨_, -, hok⟩ := bind_eq_ok.mp hok
    obtain ⟨u, -, rfl⟩ := withinHub_eq_ok hok
    exact .same _
  | registerToken sender info =>
    obtain ⟨u, -, rfl⟩ := withinHub_eq_ok hok
    exact .same _
  | updateToken sender info =>
    obtain ⟨u, -, rfl⟩ := withinHub_eq_ok hok
    exact .same _
  | hubReceive sender srcEid originSender payload =>
    obtain ⟨_, -, hok⟩ := bind_eq_ok.mp hok
    obtain ⟨u, -, rfl⟩ := withinHub_eq_ok hok
    exact .same _
  | forceHubNative value =>
    obtain ⟨u, -, rfl⟩ := withinHub_eq_ok hok
    exact .same _
  | chain eid' b =>
    obtain ⟨_, hlocal, hok⟩ := bind_eq_ok.mp hok
    obtain ⟨w, hw, rfl⟩ := within_eq_ok hok
    rcases World.chain_apply eid hw with ⟨hsame, -⟩ | ⟨rfl, hc⟩
    · show ChainTurn h d eid s _ (w.chains eid)
      rw [hsame]
      exact .same _
    · exact .transaction b _ (require_eq_ok.mp hlocal) hc
  | deliver m =>
    obtain ⟨_, -, hok⟩ := bind_eq_ok.mp hok
    obtain ⟨w, hw, rfl⟩ := within_eq_ok hok
    unfold World.deliver at hw
    split at hw
    · obtain ⟨u, -, rfl⟩ := World.withHub_eq_ok hw
      exact .same _
    · split at hw
      · rcases World.chain_apply eid hw with ⟨hsame, -⟩ | ⟨heid, hc⟩
        · show ChainTurn h d eid s _ (w.chains eid)
          rw [hsame]
          exact .same _
        · rw [heid] at hc
          exact .receive m _ hc
      · cases hw
  | broadcast value targetEids quote =>
    obtain ⟨⟨u, ctx, fees, refund⟩, -, hret⟩ := bind_eq_ok.mp hok
    cases hret
    exact .same _
  | relay eid' value quote =>
    obtain ⟨⟨root, index⟩, -, hrest⟩ := bind_eq_ok.mp hok
    simp only [bind_eq_ok, require_eq_ok, exists_const] at hrest
    obtain ⟨-, -, hret⟩ := hrest
    cases hret
    exact .same _
  | send =>
    simp only [exec, send] at hok
    split at hok
    · split at hok
      · obtain ⟨w, hw, rfl⟩ := resume_eq_ok hok
        simp only [World.hubSend, bind_eq_ok, require_eq_ok, exists_const] at hw
        obtain ⟨-, -, hret⟩ := hw
        cases hret
        exact .same _
      · obtain ⟨w, hw, rfl⟩ := resume_eq_ok hok
        simp only [World.verifierSend, bind_eq_ok, require_eq_ok, exists_const] at hw
        obtain ⟨-, hret⟩ := hw
        cases hret
        exact .same _
      · cases hok
    · cases hok
  | refund =>
    simp only [exec, refund] at hok
    split at hok
    · split at hok
      · simp only [bind_eq_ok, require_eq_ok, exists_const] at hok
        obtain ⟨w, hw, rfl⟩ := resume_eq_ok hok.2
        cases hw
        exact .same _
      · cases hok
    · cases hok
  | finish =>
    simp only [exec, finish] at hok
    split at hok
    · split at hok
      · cases hok
        exact .same _
      · -- `relayTransferRoot` ends by setting the flag of its own Verifier
        rename_i eid' root index value hcont
        cases hok
        show ChainTurn h d eid s _ (Function.update s.world.chains eid' _ eid)
        by_cases heq : eid = eid'
        · subst heq
          rw [Function.update_self]
          exact .relayed root index
        · rw [Function.update_of_ne heq]
          exact .same _
      · cases hok
    · cases hok
  | revert => exact absurd rfl ha

theorem Chain.step_events_le (c : Chain) (d : DeciderSets) (b : ChainAction) :
    (c.step h d b).token.events.length ≤ c.token.events.length + 1 := by
  obtain ⟨sender, heff⟩ := Chain.step_tokenEffect h d c b
  rcases heff.history h with ⟨hevents, -, -⟩ | ⟨tr, hevents, -, -⟩
  · rw [hevents]
    omega
  · rw [hevents, List.length_append, List.length_singleton]

/-- One action records at most one transfer. -/
theorem ChainTurn.events_le {a : NetAction} {c : Chain}
    (hturn : ChainTurn h d (D := D) eid s a c) :
    c.token.events.length ≤ (s.world.chains eid).token.events.length + 1 := by
  refine hturn.elim (P := fun c => c.token.events.length ≤ _) ?_ ?_ ?_
  · exact Nat.le_succ _
  · exact fun b _ => Chain.step_events_le _ (d eid) b
  · exact fun _ _ => Nat.le_succ _

/-- So a run logs at most one for each of its steps. -/
theorem NetState.run_events_le (xs : List NetAction) :
    (run (NetState.step h d D) (D.initial h) xs).AllWorlds
      fun w => ∀ eid, (w.chains eid).token.events.length ≤ xs.length := by
  induction xs using List.reverseRecOn with
  | nil => exact initial_allWorlds fun _ => Nat.zero_le _
  | append_singleton xs a ih =>
    rw [run_concat]
    have hs := run_induction (initial_inv (h := h) (D := D)) (step_inv (d := d)) xs
    have hlen : (xs ++ [a]).length = xs.length + 1 := by simp
    -- the worlds to go back to are bounded as well, so a revert needs no case of its own
    have hmono : ∀ w : World, (∀ eid, (w.chains eid).token.events.length ≤ xs.length) →
        ∀ eid, (w.chains eid).token.events.length ≤ (xs ++ [a]).length :=
      fun w hw eid => (hw eid).trans (by omega)
    refine AllWorlds.step hs ⟨hmono _ ih.1, fun f hf => hmono _ (ih.2 f hf)⟩ ?_
    intro s' _ hok ha eid
    have hle := (exec_chainTurn eid hok ha).events_le
    have hbefore := ih.1 eid
    omega

/-- A run of fewer than `2 ^ 64` actions. -/
theorem NetState.fewEvents_along {acts : List NetAction} (hlen : acts.length < 2 ^ 64) :
    Along (NetState.step h d D) (fun s _ => ∀ eid, s.FewEvents eid) (D.initial h) acts :=
  Along.of_prefixes fun xs a hpre eid => by
    have hle := hpre.length_le
    rw [List.length_append, List.length_singleton] at hle
    exact Nat.lt_of_le_of_lt ((run_events_le xs).1 eid) (by omega)

/-! ## What happens to the Hub -/

variable {u u' : Hub}

/-- Every move of the Hub keeps the alignment. -/
theorem HubMove.placed (hmove : HubMove u u') (hu : u.Placed) : u'.Placed := by
  cases hmove with
  | unmoved hsame => exact hu.unmoved hsame
  | register sender info hok => exact Hub.registerToken_placed hok hu
  | update sender info hok => exact Hub.updateToken_placed hok hu
  | receive sender srcEid originSender payload hok => exact Hub.lzReceive_placed hok hu
  | done ctx hdone =>
    rw [hdone]
    exact ⟨hu.toAligned.frame rfl, hu.registered, hu.capacity⟩

/-- Slots are only added. -/
theorem HubMove.eids (hmove : HubMove u u') (hu : u.Placed) : u.eids <+: u'.eids := by
  cases hmove with
  | unmoved hsame => rw [Hub.eids, Hub.eids, hsame.infos]
  | register sender info hok =>
    rw [Hub.registerToken_eids hok]
    exact List.prefix_append _ _
  | update sender info hok => rw [Hub.updateToken_eids hu.toAligned hok]
  | receive sender srcEid originSender payload hok =>
    obtain ⟨-, -, -, ⟨-, rfl⟩ | ⟨-, rfl⟩⟩ := Hub.lzReceive_eq_ok hok
    · exact List.prefix_refl _
    · exact List.prefix_refl _
  | done ctx hdone =>
    rw [hdone]
    exact List.prefix_refl _

theorem Hub.Placed.eids_nodup (hu : u.Placed) : u.eids.Nodup := by
  rw [List.nodup_iff_getElem?_ne_getElem?]
  intro i j hij hj heq
  have hget : u.eids[i]? = some (u.eids.get ⟨i, hij.trans hj⟩) := List.getElem?_eq_getElem _
  have hi := hu.registered i _ hget
  have hj' := hu.registered j _ (heq ▸ hget)
  omega

/-! ## What stays -/

/-- Assignments, proved roots and messages stay. -/
theorem Move.keeps {a : NetAction} (hmove : Move h D s a s') (ha : a ≠ .revert) :
    Extends s.world s'.world ∧ s.world.sent ⊆ s'.world.sent := by
  cases hmove with
  | quiet a w hhub hsent hext => exact ⟨hext, hsent ▸ List.Subset.refl _⟩
  | register | update | receive | refund | finishBroadcast =>
    exact ⟨extends_setHub _, List.Subset.refl _⟩
  | openBroadcast => exact ⟨⟨fun x hx => List.mem_append_left _ hx, fun _ _ _ => rfl⟩,
      List.Subset.refl _⟩
  | openRelay => exact ⟨Extends.refl _, List.Subset.refl _⟩
  | hubSend f fs ctx eid fee sends refund w hframes hcont hok =>
    obtain ⟨-, hext, -, hsent⟩ := World.hubSend_eq_ok hok
    exact ⟨hext, hsent ▸ List.subset_append_left _ _⟩
  | verifierSend f fs eid root index value w hframes hcont hok =>
    obtain ⟨-, hext, m, -, hsent⟩ := World.verifierSend_eq_ok hok
    exact ⟨hext, hsent ▸ List.subset_append_left _ _⟩
  | finishRelay f fs eid root index value w hframes hcont hhub hsent hext =>
    exact ⟨hext, hsent ▸ List.Subset.refl _⟩
  | revert => exact absurd rfl ha

end Zerc20
