import Mathlib.Algebra.BigOperators.Group.Finset.Basic
import Mathlib.Algebra.BigOperators.Group.Finset.Piecewise
import Mathlib.Algebra.BigOperators.Fin

/-!
# Sums over accounts and over records

* `sum_update` — changing one account changes the sum of all accounts by the difference;
* `sum_map_eq_sum_filter` — a list of records can be summed key by key.
-/

namespace Sums

/-- One changed summand, without subtraction. -/
theorem sum_update {ι : Type*} [Fintype ι] [DecidableEq ι] (f : ι → ℕ) (i : ι) (x : ℕ) :
    ∑ j, Function.update f i x j + f i = ∑ j, f j + x := by
  have hmem : i ∈ Finset.univ := Finset.mem_univ i
  have hafter : ∑ j, Function.update f i x j = x + ∑ j ∈ Finset.univ \ {i}, f j :=
    Finset.sum_update_of_mem hmem f x
  have hbefore : f i + ∑ j ∈ Finset.univ \ {i}, f j = ∑ j, f j := by
    have := Finset.add_sum_erase Finset.univ f hmem
    rwa [← Finset.sdiff_singleton_eq_erase] at this
  omega

theorem sum_map_eq_sum_filter {α κ : Type*} [DecidableEq κ] (key : α → κ) (f : α → ℕ)
    (l : List α) {K : Finset κ} (hK : ∀ x ∈ l, key x ∈ K) :
    (l.map f).sum = ∑ k ∈ K, ((l.filter fun x => key x = k).map f).sum := by
  induction l with
  | nil => simp
  | cons x l ih =>
    -- the head is counted once, under its own key
    have hcons : ∀ k, (((x :: l).filter fun y => key y = k).map f).sum
        = (if key x = k then f x else 0) + ((l.filter fun y => key y = k).map f).sum := by
      intro k
      by_cases hk : key x = k
      · rw [List.filter_cons_of_pos (by simpa using hk), List.map_cons, List.sum_cons, if_pos hk]
      · rw [List.filter_cons_of_neg (by simpa using hk), if_neg hk, Nat.zero_add]
    rw [List.map_cons, List.sum_cons, ih fun y hy => hK y (List.mem_cons_of_mem _ hy),
      Finset.sum_congr rfl fun k _ => hcons k, Finset.sum_add_distrib, Finset.sum_ite_eq,
      if_pos (hK x List.mem_cons_self)]

end Sums
