import Mathlib.Algebra.BigOperators.Group.Finset.Basic
import Mathlib.Algebra.Order.BigOperators.Group.Finset

/-!
# Cumulative claims

An account remembers the total that it has paid. A claim of `v` pays what `v` exceeds that total by,
and nothing if it does not. Whatever the order, some claims together are paid the largest of them
(`add_paidOut`). So accounts that several owners share pay everyone's due only to one of them
(`totalAfter_eq_sum_iff`).
-/

namespace Zerc20

namespace Cumulative

/-- The total after some claims. -/
def totalAfter : ℕ → List ℕ → ℕ
  | total, [] => total
  | total, v :: claims => totalAfter (max total v) claims

/-- What the claims are paid. -/
def paidOut : ℕ → List ℕ → ℕ
  | _, [] => 0
  | total, v :: claims => (max total v - total) + paidOut (max total v) claims

theorem le_totalAfter (total : ℕ) (claims : List ℕ) : total ≤ totalAfter total claims := by
  induction claims generalizing total with
  | nil => exact le_rfl
  | cons v claims ih => exact (le_max_left total v).trans (ih _)

/-- The payments add up to the growth of the total. -/
theorem add_paidOut (total : ℕ) (claims : List ℕ) :
    total + paidOut total claims = totalAfter total claims := by
  induction claims generalizing total with
  | nil => rfl
  | cons v claims ih =>
    have hle := le_max_left total v
    rw [paidOut, totalAfter, ← ih]
    omega

theorem claim_le_totalAfter {total v : ℕ} {claims : List ℕ} (hv : v ∈ claims) :
    v ≤ totalAfter total claims := by
  induction claims generalizing total with
  | nil => cases hv
  | cons w claims ih =>
    rcases List.mem_cons.mp hv with rfl | hmem
    · exact (le_max_right total v).trans (le_totalAfter _ claims)
    · exact ih hmem

theorem totalAfter_le {total bound : ℕ} {claims : List ℕ} (htotal : total ≤ bound)
    (hclaims : ∀ v ∈ claims, v ≤ bound) : totalAfter total claims ≤ bound := by
  induction claims generalizing total with
  | nil => exact htotal
  | cons v claims ih =>
    exact ih (max_le htotal (hclaims v List.mem_cons_self))
      fun w hw => hclaims w (List.mem_cons_of_mem v hw)

/-- The total is the largest claim. -/
theorem totalAfter_mem {total : ℕ} {claims : List ℕ} (hne : totalAfter total claims ≠ total) :
    totalAfter total claims ∈ claims := by
  induction claims generalizing total with
  | nil => exact absurd rfl hne
  | cons v claims ih =>
    rw [totalAfter] at hne ⊢
    by_cases hsame : totalAfter (max total v) claims = max total v
    · rw [hsame] at hne ⊢
      rcases max_choice total v with hmax | hmax
      · exact absurd hmax hne
      · rw [hmax]
        exact List.mem_cons_self
    · exact List.mem_cons_of_mem v (ih hsame)

/-! ## One account, several owners -/

section

variable {α ρ : Type*} {owner : ρ → α} {claim : ρ → ℕ} {due : α → ℕ} {rs : List ρ}

/-- Everything is due to one owner. -/
theorem sum_eq_due {A : Finset α} {a : α} (ha : a ∈ A)
    (hone : ∀ a ∈ A, ∀ b ∈ A, due a ≠ 0 → due b ≠ 0 → a = b) (hdue : due a ≠ 0) :
    ∑ b ∈ A, due b = due a := by
  refine Finset.sum_eq_single_of_mem a ha fun b hb hne => ?_
  by_contra hb0
  exact hne (hone b hb a ha hb0 hdue)

variable [DecidableEq α]

/-- An owner to whom everything is due is the only one. -/
theorem due_eq_zero {A : Finset α} {a b : α} (ha : a ∈ A) (hb : b ∈ A) (hne : b ≠ a)
    (hall : due a = ∑ x ∈ A, due x) : due b = 0 := by
  have hrest := Finset.sum_erase_add A due ha
  have hle : due b ≤ ∑ x ∈ A.erase a, due x :=
    Finset.single_le_sum (fun x _ => Nat.zero_le (due x)) (Finset.mem_erase.mpr ⟨hne, hb⟩)
  omega

/-- **Claims on one account** that are within what is due pay all of it if and only if it is due to
one owner, with a claim of all of it. -/
theorem totalAfter_eq_sum_iff (hle : ∀ r ∈ rs, claim r ≤ due (owner r)) :
    totalAfter 0 (rs.map claim) = ∑ a ∈ (rs.map owner).toFinset, due a
      ↔ (∀ a ∈ rs.map owner, ∀ b ∈ rs.map owner, due a ≠ 0 → due b ≠ 0 → a = b)
        ∧ ∀ a ∈ rs.map owner, ∃ r ∈ rs, owner r = a ∧ claim r = due a := by
  have howner : ∀ r ∈ rs, owner r ∈ (rs.map owner).toFinset := fun r hr =>
    List.mem_toFinset.mpr (List.mem_map_of_mem hr)
  have hdue : ∀ a ∈ (rs.map owner).toFinset, due a ≤ ∑ x ∈ (rs.map owner).toFinset, due x :=
    fun a ha => Finset.single_le_sum (fun x _ => Nat.zero_le (due x)) ha
  constructor
  · intro htotal
    by_cases hzero : totalAfter 0 (rs.map claim) = 0
    · -- nothing is due
      rw [hzero, eq_comm, Finset.sum_eq_zero_iff] at htotal
      refine ⟨fun a ha b _ hne => absurd (htotal a (List.mem_toFinset.mpr ha)) hne, ?_⟩
      intro a ha
      obtain ⟨r, hr, rfl⟩ := List.mem_map.mp ha
      have hdue0 := htotal _ (howner r hr)
      have hclaim := hle r hr
      exact ⟨r, hr, rfl, by omega⟩
    · obtain ⟨r, hr, hclaim⟩ := List.mem_map.mp (totalAfter_mem hzero)
      have hall : due (owner r) = ∑ x ∈ (rs.map owner).toFinset, due x := by
        have hupper := hdue _ (howner r hr)
        have hlower := hle r hr
        omega
      have hother : ∀ a ∈ rs.map owner, due a ≠ 0 → a = owner r := by
        intro a ha hne
        by_contra hnot
        exact hne (due_eq_zero (howner r hr) (List.mem_toFinset.mpr ha) hnot hall)
      refine ⟨fun a ha b hb hda hdb => (hother a ha hda).trans (hother b hb hdb).symm, ?_⟩
      intro a ha
      by_cases hda : due a = 0
      · obtain ⟨r', hr', rfl⟩ := List.mem_map.mp ha
        have hclaim' := hle r' hr'
        exact ⟨r', hr', rfl, by omega⟩
      · obtain rfl := hother a ha hda
        exact ⟨r, hr, rfl, by omega⟩
  · rintro ⟨hone, hfull⟩
    have hupper : totalAfter 0 (rs.map claim) ≤ ∑ a ∈ (rs.map owner).toFinset, due a := by
      refine totalAfter_le (Nat.zero_le _) fun v hv => ?_
      obtain ⟨r, hr, rfl⟩ := List.mem_map.mp hv
      exact (hle r hr).trans (hdue _ (howner r hr))
    refine le_antisymm hupper ?_
    by_cases hnone : ∀ a ∈ (rs.map owner).toFinset, due a = 0
    · rw [Finset.sum_eq_zero hnone]
      exact Nat.zero_le _
    · push Not at hnone
      obtain ⟨a, ha, hda⟩ := hnone
      have hsum : ∑ b ∈ (rs.map owner).toFinset, due b = due a :=
        sum_eq_due ha (fun a ha b hb => hone a (List.mem_toFinset.mp ha) b (List.mem_toFinset.mp hb))
          hda
      obtain ⟨r, hr, -, hclaim⟩ := hfull a (List.mem_toFinset.mp ha)
      rw [hsum, ← hclaim]
      exact claim_le_totalAfter (List.mem_map_of_mem hr)

end

end Cumulative

end Zerc20
