import Zerc20.Contracts.Conservation
import Zerc20.Lib.Sums

/-!
# System solvency

Tokens enter circulation against liquidity held by a Minter, or by a teleport of tokens that
were sent to a burn address. Over all chains the circulating supply, without what sits at the
opened burn addresses, is therefore covered by the Minters.

The argument has three parts:

* per token, balances and supply are functions of the recorded transfers (`Token.MoneyInv`);
  the unchecked additions of the ERC20 never wrap, because the balances add up to the supply;
* per chain, the supply is at most the liquidity plus the teleported amounts
  (`Chain.Solvent`);
* over all chains, the teleported amounts are covered by distinct transfers to burn addresses
  (`totalTeleported_le_opened`), and what was sent to a burn address that never sends is still
  there.
-/

namespace Zerc20

open Machine HashTree Zkp Sums

variable {h : Hashes} {d : DeciderSets}

/-! ## Balances follow the history -/

def received (ts : List Transfer) (a : Address) : ℕ :=
  ((ts.filter fun t => t.dst = a).map fun t => t.value.val).sum

def sent (ts : List Transfer) (a : Address) : ℕ :=
  ((ts.filter fun t => t.src = a).map fun t => t.value.val).sum

/-- One more transfer adds to what its recipient received. -/
theorem received_concat (ts : List Transfer) (t : Transfer) (a : Address) :
    received (ts ++ [t]) a = received ts a + if t.dst = a then t.value.val else 0 := by
  unfold received
  rw [List.filter_append, List.map_append, List.sum_append]
  by_cases ha : t.dst = a
  · simp [ha]
  · simp [ha]

theorem sent_concat (ts : List Transfer) (t : Transfer) (a : Address) :
    sent (ts ++ [t]) a = sent ts a + if t.src = a then t.value.val else 0 := by
  unfold sent
  rw [List.filter_append, List.map_append, List.sum_append]
  by_cases ha : t.src = a
  · simp [ha]
  · simp [ha]

structure Token.MoneyInv (t : Token) : Prop where
  supply : ∑ a, t.balances a = t.totalSupply
  supply_le : t.totalSupply ≤ uint256Max
  flow : ∀ a, a ≠ 0 → t.balances a + sent t.events a = received t.events a

namespace Token

theorem MoneyInv.balance_le {t : Token} (hinv : t.MoneyInv) (a : Address) :
    t.balances a ≤ t.totalSupply := by
  rw [← hinv.supply]
  exact Finset.single_le_sum (fun _ _ => Nat.zero_le _) (Finset.mem_univ a)

/-- The bound of the type, as a power of two. -/
theorem lt_of_le_uint256Max {n : ℕ} (hn : n ≤ uint256Max) : n < 2 ^ 256 :=
  Nat.lt_of_le_of_lt hn (by decide)

/-- The invariant speaks of the ledger only. -/
theorem MoneyInv.of_sameLedger {t t' : Token} (hinv : t.MoneyInv) (hsame : t.SameLedger t') :
    t'.MoneyInv := by
  obtain ⟨hbalances, hsupply, -, -, hevents⟩ := hsame
  refine ⟨?_, ?_, ?_⟩
  · rw [hbalances, hsupply]
    exact hinv.supply
  · rw [hsupply]
    exact hinv.supply_le
  · rw [hbalances, hevents]
    exact hinv.flow

/-- `_mint` credits the account and the supply with the same amount. -/
theorem mintInternal_moneyInv {t t' : Token} {account : Address} {amount : ℕ}
    (hinv : t.MoneyInv) (hok : t.mintInternal h account amount = .ok t') :
    t'.MoneyInv ∧ t'.totalSupply = t.totalSupply + amount := by
  obtain ⟨haccount, hsupply, tr, hsrc, hdst, hvalue, rfl⟩ := mintInternal_eq_ok h hok
  have hbalance := hinv.balance_le account
  -- the unchecked addition does not wrap: a balance is at most the supply
  have hmod : (t.balances account + amount) % 2 ^ 256 = t.balances account + amount :=
    Nat.mod_eq_of_lt (lt_of_le_uint256Max (by omega))
  refine ⟨⟨?_, hsupply, ?_⟩, rfl⟩
  · have hsum := sum_update t.balances account (t.balances account + amount)
    rw [hinv.supply] at hsum
    simp only [record, hmod]
    omega
  · intro a ha
    have hflow := hinv.flow a ha
    have hzero : ¬ (0 : Address) = a := fun h0 => ha h0.symm
    simp only [record, received_concat, sent_concat, hsrc, hdst, hvalue, hmod, if_neg hzero]
    by_cases haa : account = a
    · subst haa
      rw [Function.update_self, if_pos rfl]
      omega
    · rw [Function.update_of_ne (Ne.symm haa), if_neg haa]
      omega

theorem burnInternal_moneyInv {t t' : Token} {account : Address} {amount : ℕ}
    (hinv : t.MoneyInv) (hok : t.burnInternal h account amount = .ok t') :
    t'.MoneyInv ∧ t'.totalSupply + amount = t.totalSupply := by
  obtain ⟨haccount, hamount, tr, hsrc, hdst, hvalue, rfl⟩ := burnInternal_eq_ok h hok
  have hbalance := hinv.balance_le account
  have hlt := lt_of_le_uint256Max hinv.supply_le
  -- the unchecked subtraction does not wrap either
  have hmod : (t.totalSupply + 2 ^ 256 - amount) % 2 ^ 256 = t.totalSupply - amount := by
    rw [show t.totalSupply + 2 ^ 256 - amount = t.totalSupply - amount + 2 ^ 256 from by omega,
      Nat.add_mod_right]
    exact Nat.mod_eq_of_lt (by omega)
  have hle := hinv.supply_le
  refine ⟨⟨?_, ?_, ?_⟩, ?_⟩
  · have hsum := sum_update t.balances account (t.balances account - amount)
    rw [hinv.supply] at hsum
    simp only [record, hmod]
    omega
  · simp only [record, hmod]
    omega
  · intro a ha
    have hflow := hinv.flow a ha
    have hzero : ¬ (0 : Address) = a := fun h0 => ha h0.symm
    simp only [record, received_concat, sent_concat, hsrc, hdst, hvalue, if_neg hzero]
    by_cases haa : account = a
    · subst haa
      rw [Function.update_self, if_pos rfl]
      omega
    · rw [Function.update_of_ne (Ne.symm haa), if_neg haa]
      omega
  · simp only [record, hmod]
    omega

/-- `_transfer` moves an amount from one balance to another, also when both are the same, and keeps
the supply. -/
theorem transferInternal_moneyInv {t t' : Token} {src dst : Address} {amount : ℕ}
    (hinv : t.MoneyInv) (hok : t.transferInternal h src dst amount = .ok t') :
    t'.MoneyInv ∧ t'.totalSupply = t.totalSupply := by
  obtain ⟨hsrc0, hdst0, hamount, tr, hsrc, hdst, hvalue, rfl⟩ := transferInternal_eq_ok h hok
  -- the sum after the subtraction bounds the destination's balance, so the addition is exact
  let balances := Function.update t.balances src (t.balances src - amount)
  have hsum₁ : ∑ a, balances a + t.balances src = t.totalSupply + (t.balances src - amount) := by
    rw [← hinv.supply]
    exact sum_update t.balances src (t.balances src - amount)
  have hle₁ : balances dst ≤ ∑ a, balances a :=
    Finset.single_le_sum (fun _ _ => Nat.zero_le _) (Finset.mem_univ dst)
  have hlt := lt_of_le_uint256Max hinv.supply_le
  have hmod : (balances dst + amount) % 2 ^ 256 = balances dst + amount :=
    Nat.mod_eq_of_lt (by omega)
  have hmoved : t.movedBalances src dst amount
      = Function.update balances dst (balances dst + amount) := by
    show Function.update balances dst ((balances dst + amount) % 2 ^ 256) = _
    rw [hmod]
  refine ⟨⟨?_, hinv.supply_le, ?_⟩, rfl⟩
  · have hsum₂ := sum_update balances dst (balances dst + amount)
    simp only [record, hmoved]
    omega
  · intro a ha
    have hflow := hinv.flow a ha
    simp only [record, received_concat, sent_concat, hsrc, hdst, hvalue, hmoved]
    by_cases hda : dst = a
    · subst hda
      rw [Function.update_self, if_pos rfl]
      by_cases hsd : src = dst
      · subst hsd
        have hself : balances src = t.balances src - amount := Function.update_self ..
        rw [hself, if_pos rfl]
        omega
      · have hother : balances dst = t.balances dst := Function.update_of_ne (Ne.symm hsd) _ _
        rw [hother, if_neg hsd]
        omega
    · rw [Function.update_of_ne (Ne.symm hda), if_neg hda]
      by_cases hsa : src = a
      · subst hsa
        have hself : balances src = t.balances src - amount := Function.update_self ..
        rw [hself, if_pos rfl]
        omega
      · have hother : balances a = t.balances a := Function.update_of_ne (Ne.symm hsa) _ _
        rw [hother, if_neg hsa]
        omega

/-- Calls of anyone but the Verifier and the Minter keep the supply. -/
theorem Effect.moneyInv {sender : Address} {t t' : Token} (hinv : t.MoneyInv)
    (heff : Effect h sender t t') (hverifier : sender ≠ t.verifier)
    (hminter : sender ≠ t.minter) : t'.MoneyInv ∧ t'.totalSupply = t.totalSupply := by
  cases heff with
  | admin hledger => exact ⟨hinv.of_sameLedger hledger, hledger.2.1⟩
  | transfer t₀ src dst amount hledger hok =>
    obtain ⟨hmoney, hsupply⟩ := transferInternal_moneyInv (hinv.of_sameLedger hledger) hok
    exact ⟨hmoney, hsupply.trans hledger.2.1⟩
  | mint dst amount hrole hok =>
    rcases hrole with hrole | hrole
    · exact absurd hrole hverifier
    · exact absurd hrole hminter
  | burn src amount hrole hok => exact absurd hrole hminter

theorem mintInternal_sameRoles {t t' : Token} {account : Address} {amount : ℕ}
    (hok : t.mintInternal h account amount = .ok t') : t.SameRoles t' := by
  obtain ⟨-, -, tr, -, -, -, rfl⟩ := mintInternal_eq_ok h hok
  exact ⟨rfl, rfl⟩

theorem burnInternal_sameRoles {t t' : Token} {account : Address} {amount : ℕ}
    (hok : t.burnInternal h account amount = .ok t') : t.SameRoles t' := by
  obtain ⟨-, -, tr, -, -, -, rfl⟩ := burnInternal_eq_ok h hok
  exact ⟨rfl, rfl⟩

theorem transferInternal_sameRoles {t t' : Token} {src dst : Address} {amount : ℕ}
    (hok : t.transferInternal h src dst amount = .ok t') : t.SameRoles t' := by
  obtain ⟨-, -, -, tr, -, -, -, rfl⟩ := transferInternal_eq_ok h hok
  exact ⟨rfl, rfl⟩

end Token

def TokenCall.SetsRole : TokenCall → Prop
  | .setVerifier _ _ | .setMinter _ _ => True
  | _ => False

/-- So the roles stay under every call but their setters. -/
theorem Token.call_sameRoles {t t' : Token} {call : TokenCall} (hok : t.call h call = .ok t')
    (hset : ¬ call.SetsRole) : t.SameRoles t' := by
  cases call with
  | transfer sender dst amount => exact Token.transferInternal_sameRoles hok
  | approve sender spender amount => exact (Token.approveInternal_eq_ok hok).2
  | transferFrom sender src dst amount =>
    obtain ⟨t₀, hspend, hmove⟩ := bind_eq_ok.mp hok
    obtain ⟨hverifier, hminter⟩ := (Token.spendAllowance_eq_ok hspend).2
    obtain ⟨hverifier', hminter'⟩ := Token.transferInternal_sameRoles hmove
    exact ⟨hverifier'.trans hverifier, hminter'.trans hminter⟩
  | increaseAllowance sender spender value =>
    obtain ⟨_, -, happrove⟩ := bind_eq_ok.mp hok
    exact (Token.approveInternal_eq_ok happrove).2
  | decreaseAllowance sender spender value =>
    obtain ⟨_, -, happrove⟩ := bind_eq_ok.mp hok
    exact (Token.approveInternal_eq_ok happrove).2
  | teleport sender dst value =>
    obtain ⟨_, -, hmint⟩ := bind_eq_ok.mp hok
    exact Token.mintInternal_sameRoles hmint
  | mint sender dst value =>
    obtain ⟨_, -, hmint⟩ := bind_eq_ok.mp hok
    exact Token.mintInternal_sameRoles hmint
  | burn sender src value =>
    obtain ⟨_, -, hburn⟩ := bind_eq_ok.mp hok
    exact Token.burnInternal_sameRoles hburn
  -- the two setters are what `hset` excludes
  | setVerifier sender newVerifier => exact absurd trivial hset
  | setMinter sender newMinter => exact absurd trivial hset
  | renounceOwnership sender =>
    obtain ⟨_, -, hret⟩ := bind_eq_ok.mp hok
    cases hret
    exact ⟨rfl, rfl⟩
  | transferOwnership sender newOwner =>
    obtain ⟨_, -, hret⟩ := bind_eq_ok.mp hok
    obtain ⟨_, -, hret⟩ := bind_eq_ok.mp hret
    cases hret
    exact ⟨rfl, rfl⟩

/-! ## One chain -/

def ChainAction.SetsRole : ChainAction → Prop
  | .token call => call.SetsRole
  | _ => False

namespace Chain

/-- The underlying assets held by the Minter. -/
def liquidity (c : Chain) : ℕ :=
  if c.tokenAddress = 0 then c.nativeBalance else c.underlying c.minterAddr

def teleported (c : Chain) : ℕ := (c.records.map TeleportRecord.minted).sum

/-- The supply is covered by the Minter's liquidity and the accepted teleports. -/
structure Solvent (c : Chain) : Prop where
  money : c.token.MoneyInv
  verifierRole : c.token.verifier = c.verifierAddr
  minterRole : c.token.minter = c.minterAddr
  covered : c.token.totalSupply ≤ c.liquidity + c.teleported

/-- A mint is to be matched by liquidity or by a teleport of the amount. -/
theorem Solvent.mint {c : Chain} {t : Token} {dst : Address} {amount : ℕ} (hc : c.Solvent)
    (hok : c.token.mintInternal h dst amount = .ok t) :
    t.MoneyInv ∧ t.verifier = c.verifierAddr ∧ t.minter = c.minterAddr
      ∧ t.totalSupply ≤ c.liquidity + c.teleported + amount := by
  obtain ⟨hmoney, hsupply⟩ := Token.mintInternal_moneyInv hc.money hok
  obtain ⟨hverifier, hminter⟩ := Token.mintInternal_sameRoles hok
  have := hc.covered
  exact ⟨hmoney, hverifier.trans hc.verifierRole, hminter.trans hc.minterRole, by omega⟩

theorem Solvent.burn {c : Chain} {t : Token} {src : Address} {amount : ℕ} (hc : c.Solvent)
    (hok : c.token.burnInternal h src amount = .ok t) :
    t.MoneyInv ∧ t.verifier = c.verifierAddr ∧ t.minter = c.minterAddr
      ∧ t.totalSupply + amount ≤ c.liquidity + c.teleported := by
  obtain ⟨hmoney, hsupply⟩ := Token.burnInternal_moneyInv hc.money hok
  obtain ⟨hverifier, hminter⟩ := Token.burnInternal_sameRoles hok
  have := hc.covered
  exact ⟨hmoney, hverifier.trans hc.verifierRole, hminter.trans hc.minterRole, by omega⟩

/-- Nobody but the Minter can take from the Minter's underlying balance. -/
theorem moveUnderlying_minter {c c' : Chain} {src dst : Address} {amount : ℕ}
    (hsrc : src ≠ c.minterAddr) (hok : c.moveUnderlying src dst amount = .ok c') :
    c'.underlying c.minterAddr
      = c.underlying c.minterAddr + if dst = c.minterAddr then amount else 0 := by
  obtain ⟨-, rfl⟩ := moveUnderlying_eq_ok hok
  by_cases hdst : dst = c.minterAddr
  · subst hdst
    simp only [Function.update_self, Function.update_of_ne (Ne.symm hsrc), if_true]
  · simp only [Function.update_of_ne (Ne.symm hdst), Function.update_of_ne (Ne.symm hsrc),
      if_neg hdst, Nat.add_zero]

/-- A teleport adds to the supply what it adds to the teleported total. -/
theorem Teleported.solvent {c c' : Chain} {r : TeleportRecord} (hr : c.Teleported h c' r)
    (hc : c.Solvent) : c'.Solvent := by
  obtain ⟨_, -, hmint⟩ := bind_eq_ok.mp hr.mint_ok
  obtain ⟨hmoney, hverifier, hminter, hle⟩ := hc.mint hmint
  have hliquidity : c'.liquidity = c.liquidity := by
    rw [hr.result]
    rfl
  have hteleported : c'.teleported = c.teleported + r.minted := by
    rw [teleported, hr.records, List.map_append, List.sum_append, List.map_singleton,
      List.sum_singleton, teleported]
  have hconfig : c'.verifierAddr = c.verifierAddr ∧ c'.minterAddr = c.minterAddr := by
    rw [hr.result]
    exact ⟨rfl, rfl⟩
  exact ⟨hmoney, hverifier.trans hconfig.1.symm, hminter.trans hconfig.2.symm, by omega⟩

/-- Every action but a role's setter keeps the supply covered: wrapping and unwrapping move the
liquidity along, teleporting the teleported total. -/
theorem exec_solvent {c c' : Chain} {a : ChainAction} (hok : c.exec h d a = .ok c')
    (hset : ¬ a.SetsRole) (hc : c.Solvent) : c'.Solvent := by
  cases a with
  | token call =>
    simp only [exec, externalSender, bind_eq_ok, require_eq_ok, exists_const,
      liftToken_eq_ok] at hok
    obtain ⟨⟨hverifier, hminter⟩, t, hcall, hret⟩ := hok
    cases hret
    -- an external sender is neither the Verifier nor the Minter, so it cannot mint or burn
    rw [← hc.verifierRole] at hverifier
    rw [← hc.minterRole] at hminter
    obtain ⟨hmoney, hsupply⟩ :=
      Token.Effect.moneyInv hc.money (Token.call_effect h hcall) hverifier hminter
    obtain ⟨hrole, hrole'⟩ := Token.call_sameRoles hcall hset
    exact ⟨hmoney, hrole.trans hc.verifierRole, hrole'.trans hc.minterRole,
      hsupply.le.trans hc.covered⟩
  | teleport isGlobal rootHint gr proof =>
    obtain ⟨r, -, hr⟩ := teleport_eq_ok h d hok
    exact hr.solvent hc
  | singleTeleport isGlobal rootHint gr proof =>
    obtain ⟨r, -, hr⟩ := singleTeleport_eq_ok h d hok
    exact hr.solvent hc
  | depositNative sender value =>
    -- supply and liquidity grow by the same amount
    obtain ⟨-, hnative, t, hmint, rfl⟩ := depositNative_eq_ok h hok
    obtain ⟨_, -, hmint⟩ := bind_eq_ok.mp hmint
    obtain ⟨hmoney, hverifier, hminter, hle⟩ := hc.mint hmint
    refine ⟨hmoney, hverifier, hminter, ?_⟩
    simp only [liquidity, if_pos hnative, teleported] at hle ⊢
    omega
  | depositToken sender amount =>
    obtain ⟨hsender, htoken, c₁, t, hmove, hmint, rfl⟩ := depositToken_eq_ok h hok
    obtain ⟨_, -, hmint⟩ := bind_eq_ok.mp hmint
    obtain ⟨hmoney, hverifier, hminter, hle⟩ := hc.mint hmint
    have hminterBalance := moveUnderlying_minter hsender hmove
    obtain ⟨-, rfl⟩ := moveUnderlying_eq_ok hmove
    refine ⟨hmoney, hverifier, hminter, ?_⟩
    simp only [liquidity, if_neg htoken, teleported, if_true] at hle hminterBalance ⊢
    omega
  | withdrawNative sender amount success =>
    -- supply and liquidity shrink by the same amount
    obtain ⟨hnative, hle, t, hburn, rfl⟩ := withdrawNative_eq_ok h hok
    obtain ⟨_, -, hburn⟩ := bind_eq_ok.mp hburn
    obtain ⟨hmoney, hverifier, hminter, hle'⟩ := hc.burn hburn
    refine ⟨hmoney, hverifier, hminter, ?_⟩
    simp only [liquidity, if_pos hnative, teleported] at hle' ⊢
    omega
  | withdrawToken sender amount =>
    obtain ⟨hsender, htoken, t, hburn, hmove⟩ := withdrawToken_eq_ok h hok
    obtain ⟨_, -, hburn⟩ := bind_eq_ok.mp hburn
    obtain ⟨hmoney, hverifier, hminter, hle⟩ := hc.burn hburn
    obtain ⟨havailable, rfl⟩ := moveUnderlying_eq_ok hmove
    refine ⟨hmoney, hverifier, hminter, ?_⟩
    simp only [liquidity, if_neg htoken, teleported, Function.update_of_ne (Ne.symm hsender),
      Function.update_self] at hle havailable ⊢
    omega
  | underlyingTransfer sender dst amount =>
    simp only [exec, externalSender, bind_eq_ok, require_eq_ok, exists_const] at hok
    obtain ⟨⟨-, hsender⟩, hmove⟩ := hok
    -- the Minter never sends, so its balance can only grow
    have hminterBalance := moveUnderlying_minter hsender hmove
    obtain ⟨-, rfl⟩ := moveUnderlying_eq_ok hmove
    refine ⟨hc.money, hc.verifierRole, hc.minterRole, hc.covered.trans ?_⟩
    refine Nat.add_le_add_right ?_ _
    simp only [liquidity] at hminterBalance ⊢
    split
    · exact le_refl _
    · omega
  | forceNative value =>
    cases hok
    refine ⟨hc.money, hc.verifierRole, hc.minterRole, hc.covered.trans ?_⟩
    refine Nat.add_le_add_right ?_ _
    simp only [liquidity]
    split
    · omega
    · exact le_refl _
  | _ =>
    obtain ⟨v, -, rfl⟩ := withVerifier_eq_ok.mp hok
    exact ⟨hc.money, hc.verifierRole, hc.minterRole, hc.covered⟩

/-- An action that fails changes nothing. -/
theorem step_solvent {c : Chain} {a : ChainAction} (hset : ¬ a.SetsRole) (hc : c.Solvent) :
    (c.step h d a).Solvent := by
  rcases commit_cases c (c.exec h d a) with ⟨-, heq⟩ | hok
  · rw [step, heq]
    exact hc
  · exact exec_solvent hok hset hc

end Chain

/-! ## Every mint of the Verifier has a record -/

/-- An event from the zero address was logged by one of the two roles. -/
theorem Token.Effect.role_of_mint {sender : Address} {t t' : Token}
    (heff : Token.Effect h sender t t') {tr : Transfer} (hevents : t'.events = t.events ++ [tr])
    (hsrc : tr.src = 0) : sender = t.verifier ∨ sender = t.minter := by
  cases heff with
  | admin hledger =>
    obtain ⟨-, -, -, -, hsame⟩ := hledger
    rw [hsame] at hevents
    exact absurd hevents (by simp)
  | transfer t₀ src dst amount hledger hok =>
    -- a transfer from the zero address is refused
    obtain ⟨-, -, -, -, hsame⟩ := hledger
    obtain ⟨hne, -, -, tr', htr, -, -, rfl⟩ := Token.transferInternal_eq_ok h hok
    replace hevents : t₀.events ++ [tr'] = t.events ++ [tr] := hevents
    rw [hsame] at hevents
    obtain rfl : tr' = tr := List.singleton_inj.mp (List.append_cancel_left hevents)
    exact absurd (htr.symm.trans hsrc) hne
  | mint dst amount hrole hok => exact hrole
  | burn src amount hrole hok => exact Or.inr hrole

/-- A burn is logged as a transfer from its account. -/
theorem Token.burn_src_ne {t t' : Token} {sender account : Address} {amount : ℕ}
    (hok : t.burn h sender account amount = .ok t') {tr : Transfer}
    (hevents : t'.events = t.events ++ [tr]) : tr.src ≠ 0 := by
  obtain ⟨_, -, hburn⟩ := bind_eq_ok.mp hok
  obtain ⟨hne, -, tr', htr, -, -, rfl⟩ := Token.burnInternal_eq_ok h hburn
  replace hevents : t.events ++ [tr'] = t.events ++ [tr] := hevents
  obtain rfl : tr' = tr := List.singleton_inj.mp (List.append_cancel_left hevents)
  rwa [htr]

def ChainAction.Deposits : ChainAction → Prop
  | .depositNative _ _ | .depositToken _ _ => True
  | _ => False

namespace Chain

/-- With the roles held by the contracts, a mint is a deposit's or a teleport's. -/
theorem exec_mint {c c' : Chain} {a : ChainAction} (hok : c.exec h d a = .ok c')
    (hverifier : c.token.verifier = c.verifierAddr) (hminter : c.token.minter = c.minterAddr)
    {t : Transfer} (hevents : c'.token.events = c.token.events ++ [t]) (hsrc : t.src = 0) :
    a.Deposits ∨ ∃ r, c.Teleported h c' r := by
  cases a with
  | token call =>
    simp only [exec, externalSender, bind_eq_ok, require_eq_ok, exists_const,
      liftToken_eq_ok] at hok
    obtain ⟨⟨hnotVerifier, hnotMinter⟩, t', hcall, hret⟩ := hok
    cases hret
    -- the sender is neither of the two contracts
    rcases (Token.call_effect h hcall).role_of_mint hevents hsrc with hrole | hrole
    · exact absurd (hrole.trans hverifier) hnotVerifier
    · exact absurd (hrole.trans hminter) hnotMinter
  | teleport isGlobal rootHint gr proof =>
    obtain ⟨r, -, hr⟩ := teleport_eq_ok h d hok
    exact Or.inr ⟨r, hr⟩
  | singleTeleport isGlobal rootHint gr proof =>
    obtain ⟨r, -, hr⟩ := singleTeleport_eq_ok h d hok
    exact Or.inr ⟨r, hr⟩
  | depositNative sender value => exact Or.inl trivial
  | depositToken sender amount => exact Or.inl trivial
  | withdrawNative sender amount success =>
    obtain ⟨-, -, t', hburn, rfl⟩ := withdrawNative_eq_ok h hok
    exact absurd hsrc (Token.burn_src_ne hburn hevents)
  | withdrawToken sender amount =>
    obtain ⟨-, -, t', hburn, hmove⟩ := withdrawToken_eq_ok h hok
    obtain ⟨-, rfl⟩ := moveUnderlying_eq_ok hmove
    exact absurd hsrc (Token.burn_src_ne hburn hevents)
  | underlyingTransfer sender dst amount =>
    obtain ⟨_, -, hmove⟩ := bind_eq_ok.mp hok
    obtain ⟨-, rfl⟩ := moveUnderlying_eq_ok hmove
    exact absurd hevents (by simp)
  | forceNative value =>
    cases hok
    exact absurd hevents (by simp)
  | _ =>
    obtain ⟨v, -, rfl⟩ := withVerifier_eq_ok.mp hok
    exact absurd hevents (by simp)

/-- Every logged mint is that of a record or has an index in `deposits`. -/
def MintsRecorded (deposits : Set ℕ) (c : Chain) : Prop :=
  ∀ n t, c.token.events[n]? = some t → t.src = 0 →
    (∃ r ∈ c.records, r.mintIndex = n) ∨ n ∈ deposits

theorem step_mintsRecorded {c : Chain} {a : ChainAction} {deposits : Set ℕ} (hc : c.Solvent)
    (hhistory : c.token.HistoryInv h) (hrec : c.MintsRecorded deposits)
    (hdeposit : a.Deposits → c.token.events.length ∈ deposits) :
    (c.step h d a).MintsRecorded deposits := by
  rcases commit_cases c (c.exec h d a) with ⟨-, heq⟩ | hok
  · rw [step, heq]
    exact hrec
  intro n t hget hsrc
  have hgrow : c.records <+: (c.step h d a).records := step_records_grow c a
  have hold : c.token.events[n]? = some t →
      (∃ r ∈ (c.step h d a).records, r.mintIndex = n) ∨ n ∈ deposits := by
    intro hbefore
    rcases hrec n t hbefore hsrc with ⟨r, hr, hn⟩ | hn
    · exact Or.inl ⟨r, hgrow.subset hr, hn⟩
    · exact Or.inr hn
  obtain ⟨sender, heff⟩ := step_tokenEffect h d c a
  rcases heff.history h with ⟨hevents, -, -⟩ | ⟨tr, hevents, -, -⟩
  · rw [hevents] at hget
    exact hold hget
  rw [hevents, List.getElem?_append] at hget
  split at hget
  · exact hold hget
  -- the event is the one that this step has logged
  rename_i hge
  obtain ⟨hindex, heq⟩ := List.getElem?_eq_some_iff.mp hget
  rw [List.length_singleton] at hindex
  obtain rfl : n = c.token.events.length := by omega
  have htr : tr = t := by simpa using heq
  subst htr
  rcases exec_mint hok hc.verifierRole hc.minterRole hevents hsrc with hdep | ⟨r, hr⟩
  · exact Or.inr (hdeposit hdep)
  · refine Or.inl ⟨r, ?_, hr.mintIndex_eq.trans hhistory.index_eq⟩
    show r ∈ (commit c (c.exec h d a)).records
    rw [hr.records]
    exact List.mem_append_right _ (List.mem_singleton_self r)

end Chain

/-! ## All chains -/

section System

variable {ι : Type} [DecidableEq ι] [Fintype ι] {R : Registry ι} {W : WithdrawWitnesses}
  {G : ι → ℕ → ℕ → Option ℕ} {s : System ι}

/-- The burn address of an opening, as an address. -/
def burnAddressOf (h : Hashes) (recipient : ℕ) (o : Opening) : Address :=
  ⟨(burnAddress h (recipient : Fr) o.secret).val % 2 ^ 160, Nat.mod_lt _ (Nat.two_pow_pos 160)⟩

/-- The burn addresses opened in the accepted teleports. -/
def burnAddresses (W : WithdrawWitnesses) (h : Hashes) (s : System ι) : Finset Address :=
  Finset.univ.biUnion fun i =>
    ((s i).records.flatMap fun r =>
      (r.openings W).map (burnAddressOf h r.claim.recipient)).toFinset

omit [DecidableEq ι] [Fintype ι] in
/-- The transfer at the opened place went to the burn address of the opening. -/
theorem Zkp.Opening.StandsFor.burnAddressOf_eq {recipient : ℕ} {o : Opening} {l : Location ι}
    (hl : o.StandsFor h s (recipient : Fr) l) :
    ∃ t, s.transferAt l = some t ∧ t.dst = burnAddressOf h recipient o := by
  obtain ⟨t, ht, hok, -⟩ := hl
  refine ⟨t, ht, Fin.ext ?_⟩
  show t.dst.val = (burnAddress h (recipient : Fr) o.secret).val % 2 ^ 160
  rw [burnAddress_of_ok h hok, addressToFr_val, Nat.mod_eq_of_lt t.dst.isLt]

omit [DecidableEq ι] in
/-- That address is one of the burn addresses of the system. -/
theorem mem_burnAddresses {i : ι} {r : TeleportRecord} {o : Opening} (hr : r ∈ (s i).records)
    (ho : o ∈ r.openings W) : burnAddressOf h r.claim.recipient o ∈ burnAddresses W h s := by
  refine Finset.mem_biUnion.mpr ⟨i, Finset.mem_univ i, ?_⟩
  rw [List.mem_toFinset, List.mem_flatMap]
  exact ⟨r, hr, List.mem_map_of_mem ho⟩

/-- All recipient hashes of accepted teleports. -/
def recipients (s : System ι) : Finset ℕ :=
  Finset.univ.biUnion fun i => ((s i).records.map fun r => r.claim.recipient).toFinset

/-- All transfers opened so far, on any chain and for any recipient. -/
def allOpened (R : Registry ι) (W : WithdrawWitnesses) (s : System ι) : Finset (Location ι) :=
  (Finset.univ ×ˢ recipients s).biUnion fun x => opened R W s x.1 x.2

omit [DecidableEq ι] in
/-- What a chain teleported is the sum of the totals of its recipients. -/
theorem teleported_eq_sum {i : ι} (hinv : (s i).TeleportInv h) :
    (s i).teleported
      = ∑ recipient ∈ recipients s, (s i).verifier.totalTeleported recipient := by
  unfold Chain.teleported
  rw [sum_map_eq_sum_filter (fun r : TeleportRecord => r.claim.recipient) _ _ (K := recipients s)]
  · exact Finset.sum_congr rfl fun recipient _ => (hinv.total recipient).symm
  · intro r hr
    refine Finset.mem_biUnion.mpr ⟨i, Finset.mem_univ i, ?_⟩
    rw [List.mem_toFinset]
    exact List.mem_map_of_mem hr

/-- The recipients named in accepted teleports. -/
def namedRecipients (s : System ι) : Set GeneralRecipient :=
  {gr | ∃ i, ∃ r ∈ (s i).records, r.gr = gr}

omit [Fintype ι] in
/-- No transfer is opened twice, on any two chains and for any two recipients. -/
theorem disjoint_opened_pairs (hinv : ∀ i, (s i).TeleportInv h)
    (hsound : ∀ i, ∀ r ∈ (s i).records, RecordSound R W h s i r)
    (hburn : ¬ BurnCollision W h s)
    (hids : ∀ i j, uint64 (s i).chainId = uint64 (s j).chainId → i = j)
    (hsha : ¬ Collision (GeneralRecipient.hash h) (namedRecipients s))
    {x y : ι × ℕ} (hxy : x ≠ y) :
    Disjoint (opened R W s x.1 x.2) (opened R W s y.1 y.2) := by
  by_cases hr : x.2 = y.2
  · rw [Finset.disjoint_left]
    intro l hl hl'
    obtain ⟨r, hr₁, hrx, -⟩ := mem_opened hl
    obtain ⟨r', hr₂, hry, -⟩ := mem_opened hl'
    -- equal recipient hashes on two chains name two general recipients with one hash
    refine hxy (Prod.ext (hids _ _ ?_) hr)
    rw [← (hinv x.1).chainId r hr₁, ← (hinv y.1).chainId r' hr₂]
    have hgr : r.gr = r'.gr := by
      by_contra hne
      refine hsha ⟨r.gr, ⟨x.1, r, hr₁, rfl⟩, r'.gr, ⟨y.1, r', hr₂, rfl⟩, hne, ?_⟩
      rw [← (hinv x.1).recipient r hr₁, ← (hinv y.1).recipient r' hr₂, hrx, hry, hr]
    rw [hgr]
  · exact disjoint_opened hsound hburn hr

/-- The teleported amounts are covered by the opened transfers. -/
theorem sum_teleported_le (hinv : ∀ i, (s i).TeleportInv h)
    (hsound : ∀ i, ∀ r ∈ (s i).records, RecordSound R W h s i r)
    (hdisjoint : ∀ x y : ι × ℕ, x ≠ y →
      Disjoint (opened R W s x.1 x.2) (opened R W s y.1 y.2)) :
    ∑ i, (s i).teleported ≤ ∑ l ∈ allOpened R W s, s.valueAt l := by
  calc ∑ i, (s i).teleported
      = ∑ x ∈ Finset.univ ×ˢ recipients s, (s x.1).verifier.totalTeleported x.2 := by
        rw [Finset.sum_product]
        exact Finset.sum_congr rfl fun i _ => teleported_eq_sum (hinv i)
    _ ≤ ∑ x ∈ Finset.univ ×ˢ recipients s, ∑ l ∈ opened R W s x.1 x.2, s.valueAt l :=
        Finset.sum_le_sum fun x _ => totalTeleported_le_opened (hinv x.1) (hsound x.1) x.2
    _ = ∑ l ∈ allOpened R W s, s.valueAt l :=
        (Finset.sum_biUnion fun x _ y _ hxy => hdisjoint x y hxy).symm

/-- Every opened place is a transfer to a burn address. -/
theorem allOpened_dst (hsound : ∀ i, ∀ r ∈ (s i).records, RecordSound R W h s i r)
    {l : Location ι} (hl : l ∈ allOpened R W s) :
    ∃ t, s.transferAt l = some t ∧ t.dst ∈ burnAddresses W h s := by
  obtain ⟨x, -, hl⟩ := Finset.mem_biUnion.mp hl
  obtain ⟨r, hr, -, o, ho, hlo⟩ := mem_opened hl
  obtain ⟨l', hl', hstands⟩ := (hsound x.1 r hr).located o ho
  rw [hlo, Option.some.injEq] at hl'
  subst hl'
  obtain ⟨t, ht, hdst⟩ := hstands.burnAddressOf_eq
  exact ⟨t, ht, by rw [hdst]; exact mem_burnAddresses hr ho⟩

end System

/-- Distinct transfers to addresses of `U` add up to at most what `U` received. -/
theorem sum_transfers_le_received (U : Finset Address) (ts : List Transfer) (N : Finset ℕ)
    (hN : ∀ n ∈ N, ∃ t, ts[n]? = some t ∧ t.dst ∈ U) :
    ∑ n ∈ N, (ts[n]?.elim 0 fun t => t.value.val) ≤ ∑ a ∈ U, received ts a := by
  induction ts using List.reverseRecOn generalizing N with
  | nil =>
    have hempty : N = ∅ := by
      refine Finset.eq_empty_of_forall_notMem fun n hn => ?_
      obtain ⟨t, ht, -⟩ := hN n hn
      simp at ht
    rw [hempty]
    exact Nat.zero_le _
  | append_singleton ts t ih =>
    -- all indices but the last one are indices of `ts`
    have hlt : ∀ n ∈ N.erase ts.length, n < ts.length := by
      intro n hn
      obtain ⟨hne, hn⟩ := Finset.mem_erase.mp hn
      obtain ⟨u, hu, -⟩ := hN n hn
      have := (List.getElem?_eq_some_iff.mp hu).1
      rw [List.length_append, List.length_singleton] at this
      omega
    have hrest := ih (N.erase ts.length) fun n hn => by
      obtain ⟨u, hu, hdst⟩ := hN n (Finset.mem_of_mem_erase hn)
      rw [List.getElem?_append_left (hlt n hn)] at hu
      exact ⟨u, hu, hdst⟩
    have hsame : ∑ n ∈ N.erase ts.length, ((ts ++ [t])[n]?.elim 0 fun t => t.value.val)
        = ∑ n ∈ N.erase ts.length, (ts[n]?.elim 0 fun t => t.value.val) :=
      Finset.sum_congr rfl fun n hn => by rw [List.getElem?_append_left (hlt n hn)]
    have hreceived : ∑ a ∈ U, received (ts ++ [t]) a
        = ∑ a ∈ U, received ts a + if t.dst ∈ U then t.value.val else 0 := by
      rw [Finset.sum_congr rfl fun a _ => received_concat ts t a, Finset.sum_add_distrib,
        Finset.sum_ite_eq]
    rw [hreceived]
    by_cases hlast : ts.length ∈ N
    · obtain ⟨u, hu, hdst⟩ := hN _ hlast
      rw [List.getElem?_concat_length, Option.some.injEq] at hu
      subst hu
      rw [← Finset.add_sum_erase _ _ hlast, hsame, if_pos hdst, List.getElem?_concat_length,
        Option.elim_some]
      omega
    · rw [Finset.erase_eq_of_notMem hlast] at hrest hsame
      rw [hsame]
      omega

section System

variable {ι : Type} [DecidableEq ι] [Fintype ι] {R : Registry ι} {W : WithdrawWitnesses}
  {G : ι → ℕ → ℕ → Option ℕ} {s : System ι}

omit [Fintype ι] in
/-- The opened transfers of one chain are covered by what its burn addresses received. -/
theorem sum_opened_chain_le {U : Finset Address} {O : Finset (Location ι)}
    (hO : ∀ l ∈ O, ∃ t, s.transferAt l = some t ∧ t.dst ∈ U) (i : ι) :
    ∑ l ∈ O with l.1 = i, s.valueAt l ≤ ∑ a ∈ U, received (s i).token.events a := by
  have hvalue : ∀ l : Location ι, l.1 = i →
      s.valueAt l = ((s i).token.events[l.2]?.elim 0 fun t => t.value.val) := by
    rintro ⟨j, n⟩ rfl
    rw [System.valueAt, System.transferAt]
    cases (s j).token.events[n]? with
    | none => rfl
    | some t => rfl
  -- on one chain a location is its index
  have hinj : ∀ l ∈ O.filter fun l => l.1 = i, ∀ l' ∈ O.filter fun l => l.1 = i,
      l.2 = l'.2 → l = l' := by
    intro l hl l' hl' heq
    have hi := (Finset.mem_filter.mp hl).2
    have hi' := (Finset.mem_filter.mp hl').2
    exact Prod.ext (hi.trans hi'.symm) heq
  calc ∑ l ∈ O with l.1 = i, s.valueAt l
      = ∑ l ∈ O with l.1 = i, ((s i).token.events[l.2]?.elim 0 fun t => t.value.val) :=
        Finset.sum_congr rfl fun l hl => hvalue l (Finset.mem_filter.mp hl).2
    _ = ∑ n ∈ (O.filter fun l => l.1 = i).image Prod.snd,
          ((s i).token.events[n]?.elim 0 fun t => t.value.val) := by
        rw [Finset.sum_image hinj]
    _ ≤ ∑ a ∈ U, received (s i).token.events a := by
        refine sum_transfers_le_received U _ _ fun n hn => ?_
        obtain ⟨l, hl, rfl⟩ := Finset.mem_image.mp hn
        obtain ⟨hmem, hi⟩ := Finset.mem_filter.mp hl
        subst hi
        exact hO l hmem

omit [DecidableEq ι] in
/-- A teleport mints from the zero address, so the zero address is not a silent burn address. -/
theorem ne_zero_of_mem_burnAddresses (hinv : ∀ i, (s i).TeleportInv h)
    (hsilent : ∀ i, ∀ t ∈ (s i).token.events, t.src ∉ burnAddresses W h s) {a : Address}
    (ha : a ∈ burnAddresses W h s) : a ≠ 0 := by
  rintro rfl
  obtain ⟨i, -, hmem⟩ := Finset.mem_biUnion.mp ha
  rw [List.mem_toFinset, List.mem_flatMap] at hmem
  obtain ⟨r, hr, -⟩ := hmem
  obtain ⟨t, ht, hsrc, -⟩ := (hinv i).minted r hr
  exact hsilent i t (List.mem_of_getElem? ht) (by rw [hsrc]; exact ha)

/-- An address that never sends has sent nothing. -/
theorem sent_eq_zero {ts : List Transfer} {a : Address} (ha : ∀ t ∈ ts, t.src ≠ a) :
    sent ts a = 0 := by
  unfold sent
  rw [List.filter_eq_nil_iff.mpr fun t ht => by simpa using ha t ht]
  rfl

/-! ### A state that is in order is solvent -/

/-- What was teleported is what the burn addresses received, and they still hold it. -/
theorem sum_teleported_le_burned (hinv : ∀ i, (s i).TeleportInv h)
    (hsolvent : ∀ i, (s i).Solvent)
    (hsound : ∀ i, ∀ r ∈ (s i).records, RecordSound R W h s i r)
    (hdisjoint : ∀ x y : ι × ℕ, x ≠ y → Disjoint (opened R W s x.1 x.2) (opened R W s y.1 y.2))
    (hsilent : ∀ i, ∀ t ∈ (s i).token.events, t.src ∉ burnAddresses W h s) :
    ∑ i, (s i).teleported ≤ ∑ i, ∑ a ∈ burnAddresses W h s, (s i).token.balances a := by
  calc ∑ i, (s i).teleported
      ≤ ∑ l ∈ allOpened R W s, s.valueAt l := sum_teleported_le hinv hsound hdisjoint
    _ = ∑ i, ∑ l ∈ allOpened R W s with l.1 = i, s.valueAt l :=
        (Finset.sum_fiberwise (allOpened R W s) Prod.fst s.valueAt).symm
    _ ≤ ∑ i, ∑ a ∈ burnAddresses W h s, received (s i).token.events a :=
        Finset.sum_le_sum fun i _ => sum_opened_chain_le (fun l hl => allOpened_dst hsound hl) i
    _ = ∑ i, ∑ a ∈ burnAddresses W h s, (s i).token.balances a := by
        refine Finset.sum_congr rfl fun i _ => Finset.sum_congr rfl fun a ha => ?_
        have hflow := (hsolvent i).money.flow a (ne_zero_of_mem_burnAddresses hinv hsilent ha)
        have hsent : sent (s i).token.events a = 0 :=
          sent_eq_zero fun t ht heq => hsilent i t ht (heq ▸ ha)
        omega

omit [DecidableEq ι] in
/-- Supplies covered by liquidity and teleports, and teleports covered by the burn balances:
together the supplies outside the burn addresses are covered by the liquidity. -/
theorem solvency_of_burned (hsolvent : ∀ i, (s i).Solvent) {U : Finset Address}
    (hteleported : ∑ i, (s i).teleported ≤ ∑ i, ∑ a ∈ U, (s i).token.balances a) :
    (∑ i, (s i).token.totalSupply : ℤ) - ∑ i, ∑ a ∈ U, ((s i).token.balances a : ℤ)
      ≤ ∑ i, ((s i).liquidity : ℤ) := by
  have hsupply : ∑ i, (s i).token.totalSupply ≤ ∑ i, (s i).liquidity + ∑ i, (s i).teleported := by
    rw [← Finset.sum_add_distrib]
    exact Finset.sum_le_sum fun i _ => (hsolvent i).covered
  have hnat : ((∑ i, (s i).token.totalSupply : ℕ) : ℤ)
      ≤ ((∑ i, (s i).liquidity + ∑ i, ∑ a ∈ U, (s i).token.balances a : ℕ) : ℤ) :=
    Int.ofNat_le.mpr (hsupply.trans (Nat.add_le_add_left hteleported _))
  push_cast at hnat
  linarith

/-- Two inputs of the run collide, or one hashes to the empty leaf. -/
def HashCollision (h : Hashes) (R : Registry ι) (W : WithdrawWitnesses)
    (G : ι → ℕ → ℕ → Option ℕ) (s : System ι) : Prop :=
  Collision (Function.uncurry h.poseidon2) (teleportInputs R W G h s)
    ∨ Preimage (Function.uncurry h.poseidon2) 0 (teleportInputs R W G h s)
    ∨ Collision (GeneralRecipient.hash h) (namedRecipients s)

omit [DecidableEq ι] [Fintype ι] in
/-- A new chain has issued nothing. -/
theorem System.Fresh.solvent {s : System ι} (hs : s.Fresh) (i : ι) : (s i).Solvent := by
  obtain ⟨_, _, _, _, _, _, _, _, _, heq⟩ := hs i
  rw [heq]
  refine ⟨⟨?_, Nat.zero_le _, fun _ _ => rfl⟩, rfl, rfl, Nat.zero_le _⟩
  exact Finset.sum_eq_zero fun _ _ => rfl

omit [Fintype ι] in
/-- Every chain of a run with fixed roles is solvent. -/
theorem run_solvent {s₀ : System ι} (hfresh : s₀.Fresh) {acts : List (ι × ChainAction)}
    (hroles : ∀ x ∈ acts, ¬ x.2.SetsRole) (i : ι) :
    (run (System.step h d) s₀ acts i).Solvent := by
  refine run_induction_along (I := fun s : System ι => ∀ i, (s i).Solvent)
    (C := fun _ x => ¬ x.2.SetsRole) hfresh.solvent ?_ (Along.of_forall hroles) i
  intro s x hs hx i
  rw [System.step_apply]
  split
  · exact Chain.step_solvent hx (hs i)
  · exact hs i

/-- The index of the mint that a deposit on chain `i` logs. -/
def depositAt (i : ι) (s : System ι) (x : ι × ChainAction) : Set ℕ :=
  {n | x.1 = i ∧ x.2.Deposits ∧ n = (s i).token.events.length}

omit [Fintype ι] in
/-- **Every mint of `zERC20.teleport` has its record**: in a run with fixed roles, an event from the
zero address is the mint of a teleport that was accepted, or the one that a deposit has logged. -/
theorem run_mintsRecorded {s₀ : System ι} (hfresh : s₀.Fresh) {acts : List (ι × ChainAction)}
    (hroles : ∀ x ∈ acts, ¬ x.2.SetsRole) (i : ι) :
    (run (System.step h d) s₀ acts i).MintsRecorded
      (gathered (System.step h d) (depositAt i) s₀ acts) := by
  have hset : Along (System.step h d) (fun _ x => ¬ x.2.SetsRole) s₀ acts := Along.of_forall hroles
  have hsteps := hset.and (along_gathered (depositAt i) s₀ acts)
  have hinit : ∀ j, (s₀ j).Solvent ∧ (s₀ j).token.HistoryInv h := fun j =>
    ⟨hfresh.solvent j, (hfresh.inv (h := h) j).1⟩
  have hnone : (s₀ i).MintsRecorded (gathered (System.step h d) (depositAt i) s₀ acts) := by
    obtain ⟨_, _, _, _, _, _, _, _, _, heq⟩ := hfresh i
    rw [heq]
    intro n t hget _
    cases hget
  -- the invariant of the books, and at the chain that its mints are recorded
  refine (run_induction_along (I := fun s : System ι =>
    (∀ j, (s j).Solvent ∧ (s j).token.HistoryInv h) ∧ (s i).MintsRecorded _)
    ⟨hinit, hnone⟩ ?_ hsteps).2
  rintro s x ⟨hs, hrec⟩ ⟨hkeeps, hdeposit⟩
  refine ⟨fun j => ?_, ?_⟩
  · rw [System.step_apply]
    split
    · exact ⟨Chain.step_solvent hkeeps (hs j).1, Chain.step_historyInv h d (hs j).2 x.2⟩
    · exact hs j
  · rw [System.step_apply]
    split
    · rename_i hchain
      exact Chain.step_mintsRecorded (hs i).1 (hs i).2 hrec
        fun hdep => hdeposit ⟨hchain.symm, hdep, rfl⟩
    · exact hrec

omit [Fintype ι] in
theorem run_chainId {s₀ : System ι} (acts : List (ι × ChainAction)) (i : ι) :
    (run (System.step h d) s₀ acts i).chainId = (s₀ i).chainId := by
  refine run_induction (I := fun s : System ι => (s i).chainId = (s₀ i).chainId) rfl ?_ acts
  intro s x hs
  rw [System.step_apply]
  split
  · rw [← hs]
    exact congrArg Prod.fst (Chain.step_config h d (s i) x.2)
  · exact hs

/-- **System solvency.** The circulating supply of all chains, without what sits at the opened
burn addresses, is covered by the liquidity of the Minters, unless the run exhibits a hash
collision. A token event with source `0` is a mint, so `hsilent` also keeps the zero address
out of the opened ones. -/
theorem system_solvency (h : Hashes) (d : DeciderSets) (R : Registry ι) (W : WithdrawWitnesses)
    (G : ι → ℕ → ℕ → Option ℕ) (hW : DecidersSound h d W) (s₀ : System ι) (hfresh : s₀.Fresh)
    (hids : ∀ i j, uint64 (s₀ i).chainId = uint64 (s₀ j).chainId → i = j)
    (acts : List (ι × ChainAction)) (hroles : ∀ x ∈ acts, ¬ x.2.SetsRole)
    (hgenuine : GenuineAlong h d R G s₀ acts) (s : System ι)
    (hreach : run (System.step h d) s₀ acts = s) (hburn : ¬ BurnCollision W h s)
    (hsilent : ∀ i, ∀ t ∈ (s i).token.events, t.src ∉ burnAddresses W h s) :
    (∑ i, (s i).token.totalSupply : ℤ)
        - ∑ i, ∑ a ∈ burnAddresses W h s, ((s i).token.balances a : ℤ)
      ≤ ∑ i, ((s i).liquidity : ℤ)
    ∨ HashCollision h R W G s := by
  subst hreach
  rw [or_iff_not_imp_right, HashCollision, not_or, not_or]
  rintro ⟨hposeidon, hempty, hsha⟩
  have hinv := fun i => (run_teleportInv (h := h) (d := d) hfresh acts i).2
  have hsolvent := fun i => run_solvent (h := h) (d := d) hfresh hroles i
  have hsound := run_recordSound hW hgenuine (injOn_of_not_collision hposeidon) hempty
    (le_refl _) fun i => (hfresh.inv (h := h) i).2.2
  generalize hs : run (System.step h d) s₀ acts = s at *
  -- no step changes a chain id
  have hids' : ∀ i j, uint64 (s i).chainId = uint64 (s j).chainId → i = j := by
    intro i j hij
    rw [← hs, run_chainId, run_chainId] at hij
    exact hids i j hij
  exact solvency_of_burned hsolvent (sum_teleported_le_burned hinv hsolvent hsound
    (fun x y => disjoint_opened_pairs hinv hsound hburn hids' hsha) hsilent)

/-- The run of the example with its burned 3 is solvent. -/
theorem system_solvency_burn :
    ∃ s, run (System.step realHashes BurnExample.deciders) BurnExample.system BurnExample.acts = s
      ∧ (s ()).token.totalSupply = 8
      ∧ ((∑ i, (s i).token.totalSupply : ℤ)
          - ∑ i, ∑ a ∈ burnAddresses BurnExample.witnesses realHashes s,
            ((s i).token.balances a : ℤ)
        ≤ ∑ i, ((s i).liquidity : ℤ)
      ∨ HashCollision realHashes BurnExample.registry BurnExample.witnesses (fun _ _ _ => none)
          s) := by
  obtain ⟨s, hreach⟩ : ∃ s, run (System.step realHashes BurnExample.deciders) BurnExample.system
      BurnExample.acts = s := ⟨_, rfl⟩
  have hsupply : (s ()).token.totalSupply = 8 := by
    rw [← hreach]
    decide +kernel
  have hfresh : BurnExample.system.Fresh := fun _ =>
    ⟨1, 1, 2, 3, 4, 0, 30101, ⟨21, 22, 23, 24, 25⟩, fun _ => 0, rfl⟩
  have hroles : ∀ x ∈ BurnExample.acts, ¬ x.2.SetsRole := by
    simp [BurnExample.acts, ChainAction.SetsRole]
  -- there is only one record, so no two recipients
  have hone : ∀ r ∈ (s ()).records, r.claim.recipient = BurnExample.recipientHash := by
    rw [← hreach]
    decide +kernel
  have hburn : ¬ BurnCollision BurnExample.witnesses realHashes s := by
    rintro ⟨_, r, hr, -, -, _, r', hr', -, -, hne, -⟩
    exact hne ((hone r hr).trans (hone r' hr').symm)
  have hsilent : ∀ i, ∀ t ∈ (s i).token.events,
      t.src ∉ burnAddresses BurnExample.witnesses realHashes s := by
    rw [← hreach]
    decide +kernel
  exact ⟨s, hreach, hsupply, system_solvency realHashes BurnExample.deciders BurnExample.registry
    BurnExample.witnesses (fun _ _ _ => none) BurnExample.decidersSound BurnExample.system hfresh
    (fun _ _ _ => rfl) BurnExample.acts hroles BurnExample.genuineAlong s hreach hburn hsilent⟩

end System

end Zerc20
