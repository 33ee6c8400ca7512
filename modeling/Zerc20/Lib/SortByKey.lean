import Mathlib.Data.List.Sort

/-!
# Sorting by a key

A stable sort by a natural-number key. When no two elements have the same key, the result is
strictly increasing and does not depend on the order of the input.
-/

namespace SortByKey

variable {α β : Type*}

def sortByKey (key : α → ℕ) (l : List α) : List α :=
  l.insertionSort fun a b => key a ≤ key b

variable {key : α → ℕ}

theorem sortByKey_perm (l : List α) : (sortByKey key l).Perm l := List.perm_insertionSort _ l

theorem mem_sortByKey {l : List α} {a : α} : a ∈ sortByKey key l ↔ a ∈ l :=
  (sortByKey_perm l).mem_iff

theorem sortByKey_pairwise_le (l : List α) :
    (sortByKey key l).Pairwise fun a b => key a ≤ key b := by
  have htotal : Std.Total fun a b : α => key a ≤ key b := ⟨fun a b => Nat.le_total _ _⟩
  have htrans : IsTrans α fun a b => key a ≤ key b := ⟨fun _ _ _ => Nat.le_trans⟩
  exact List.pairwise_insertionSort _ l

theorem sortByKey_pairwise_lt {l : List α} (hnodup : (l.map key).Nodup) :
    (sortByKey key l).Pairwise fun a b => key a < key b := by
  have hne : (sortByKey key l).Pairwise fun a b => key a ≠ key b :=
    List.pairwise_map.mp (((sortByKey_perm l).map key).nodup_iff.mpr hnodup)
  exact ((sortByKey_pairwise_le l).and hne).imp fun h => Nat.lt_of_le_of_ne h.1 h.2

/-- The order of the input does not matter when the keys are distinct. -/
theorem sortByKey_congr {l m : List α} (hperm : l.Perm m) (hnodup : (l.map key).Nodup) :
    sortByKey key l = sortByKey key m := by
  have hnodup' : (m.map key).Nodup := (hperm.map key).nodup_iff.mp hnodup
  refine List.Perm.eq_of_pairwise ?_ (sortByKey_pairwise_lt hnodup)
    (sortByKey_pairwise_lt hnodup') ?_
  · intro a b _ _ hab hba
    omega
  · exact ((sortByKey_perm l).trans hperm).trans (sortByKey_perm m).symm

/-- Sorting and a map that keeps the keys commute. -/
theorem map_sortByKey {key' : β → ℕ} (f : α → β) {l : List α} (hkey : ∀ a ∈ l, key' (f a) = key a) :
    (sortByKey key l).map f = sortByKey key' (l.map f) := by
  refine List.map_insertionSort _ _ f l fun a ha b hb => ?_
  rw [hkey a ha, hkey b hb]

/-- A permutation of the images is the image of a permutation. -/
theorem exists_perm_map {f : α → β} {l : List β} {m : List α} (hperm : l.Perm (m.map f)) :
    ∃ m' : List α, m'.Perm m ∧ l = m'.map f := by
  generalize hl : m.map f = l' at hperm
  induction hperm generalizing m with
  | nil => exact ⟨m, List.Perm.refl m, hl.symm⟩
  | cons b _ ih =>
    obtain ⟨a, m, rfl, rfl, hm⟩ := List.map_eq_cons_iff.mp hl
    obtain ⟨m', hm', rfl⟩ := ih hm
    exact ⟨a :: m', hm'.cons a, rfl⟩
  | swap b c l =>
    obtain ⟨a, m, rfl, rfl, hm⟩ := List.map_eq_cons_iff.mp hl
    obtain ⟨a', m, rfl, rfl, rfl⟩ := List.map_eq_cons_iff.mp hm
    exact ⟨a' :: a :: m, List.Perm.swap a a' m, rfl⟩
  | trans _ _ ih₁ ih₂ =>
    obtain ⟨m₂, hm₂, rfl⟩ := ih₂ hl
    obtain ⟨m₁, hm₁, rfl⟩ := ih₁ rfl
    exact ⟨m₁, hm₁.trans hm₂, rfl⟩

end SortByKey
