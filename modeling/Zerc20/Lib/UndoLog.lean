import Mathlib.Data.List.Range
import Mathlib.Data.List.Flatten

/-!
# Reading an old version of a table through an undo log

A table whose version after `t` changes is `V t : κ → β` keeps its newest version and a log of
rows, each with the time, the key and the old value of one change. `overlay` looks a key up in
a part of the log that is sorted by time: the first row of the key holds the value before that
change. `overlay_eq` says that the log of the times `T + 1 .. L` and the version `L` give the
version `T`, and `filter_log` that cutting the log by time is the log of the remaining times.
-/

namespace UndoLog

variable {ρ κ β : Type*} [DecidableEq κ] (time : ρ → ℕ) (key : ρ → κ) (old : ρ → β)

/-- The old value in the first row of a key. -/
def overlay (rows : List ρ) (k : κ) : Option β := (rows.find? fun r => key r = k).map old

/-- The log of the times `a .. a + n - 1`, in order. -/
def log (rowsAt : ℕ → List ρ) (a n : ℕ) : List ρ := (List.range' a n).flatMap rowsAt

variable {time key old}

theorem overlay_append (xs ys : List ρ) (k : κ) :
    overlay key old (xs ++ ys) k = (overlay key old xs k).or (overlay key old ys k) := by
  unfold overlay
  rw [List.find?_append]
  cases xs.find? fun r => key r = k <;> rfl

/-- **An old version.** The rows of every time tell the value before it, and a key that changes
has a row. -/
theorem overlay_eq {V : ℕ → κ → β} {rowsAt : ℕ → List ρ} {k : κ}
    (hold : ∀ t, ∀ r ∈ rowsAt (t + 1), key r = k → old r = V t k)
    (hchanged : ∀ t, V t k ≠ V (t + 1) k → ∃ r ∈ rowsAt (t + 1), key r = k) (T n : ℕ) :
    (overlay key old (log rowsAt (T + 1) n) k).getD (V (T + n) k) = V T k := by
  induction n generalizing T with
  | zero => rfl
  | succ n ih =>
    have hsplit : log rowsAt (T + 1) (n + 1) = rowsAt (T + 1) ++ log rowsAt (T + 1 + 1) n := by
      rw [log, List.range'_succ, List.flatMap_cons]
      rfl
    rw [hsplit, overlay_append]
    cases hfind : (rowsAt (T + 1)).find? fun r => key r = k with
    | some r =>
      have hkey : key r = k := of_decide_eq_true (List.find?_some (p := fun r => key r = k) hfind)
      have hr := hold T r (List.mem_of_find?_eq_some hfind) hkey
      rw [overlay, hfind, Option.map_some, Option.some_or, Option.getD_some, hr]
    | none =>
      -- no row of this time, so the key did not change
      have hsame : V T k = V (T + 1) k := by
        by_contra hne
        obtain ⟨r, hr, hkey⟩ := hchanged T hne
        exact absurd hkey (by simpa using List.find?_eq_none.mp hfind r hr)
      rw [overlay, hfind, Option.map_none, Option.none_or, hsame,
        show T + (n + 1) = T + 1 + n by omega]
      exact ih (T + 1)

variable (time) in
/-- Rows are selected by their time. -/
theorem filter_log {rowsAt : ℕ → List ρ} (htime : ∀ t, ∀ r ∈ rowsAt t, time r = t)
    (p : ℕ → Bool) (a n : ℕ) :
    (log rowsAt a n).filter (fun r => p (time r))
      = ((List.range' a n).filter p).flatMap rowsAt := by
  unfold log
  induction List.range' a n with
  | nil => rfl
  | cons t ts ih =>
    rw [List.flatMap_cons, List.filter_append, ih, List.filter_cons]
    cases hp : p t with
    | true =>
      have hall : (rowsAt t).filter (fun r => p (time r)) = rowsAt t :=
        List.filter_eq_self.mpr fun r hr => by rw [htime t r hr, hp]
      rw [hall, if_pos rfl, List.flatMap_cons]
    | false =>
      have hnone : (rowsAt t).filter (fun r => p (time r)) = [] :=
        List.filter_eq_nil_iff.mpr fun r hr => by rw [htime t r hr, hp]; exact Bool.false_ne_true
      rw [hnone, List.nil_append, if_neg Bool.false_ne_true]

variable (time) in
theorem pairwise_log {rowsAt : ℕ → List ρ} (htime : ∀ t, ∀ r ∈ rowsAt t, time r = t) (a n : ℕ) :
    (log rowsAt a n).Pairwise fun r s => time r ≤ time s := by
  unfold log
  rw [List.pairwise_flatMap]
  refine ⟨fun t _ => List.pairwise_of_forall_mem_list ?_,
    (List.pairwise_le_range' ..).imp ?_⟩
  · intro r hr s hs
    rw [htime t r hr, htime t s hs]
  · intro t u htu r hr s hs
    rw [htime t r hr, htime u s hs]
    exact htu

/-- It depends on the rows of its times only. -/
theorem log_congr {rowsAt rowsAt' : ℕ → List ρ} {a n : ℕ}
    (hrows : ∀ t, a ≤ t → t < a + n → rowsAt t = rowsAt' t) :
    log rowsAt a n = log rowsAt' a n := by
  unfold log
  refine List.flatMap_congr fun t ht => ?_
  rw [List.mem_range'_1] at ht
  exact hrows t ht.1 ht.2

theorem log_succ (rowsAt : ℕ → List ρ) (a n : ℕ) :
    log rowsAt a (n + 1) = log rowsAt a n ++ rowsAt (a + n) := by
  rw [log, List.range'_concat, List.flatMap_append, Nat.one_mul, List.flatMap_singleton]
  rfl

/-- The times of a range that are in an interval are a range. -/
theorem filter_range' (a n lo hi : ℕ) :
    (List.range' a n).filter (fun t => lo ≤ t ∧ t ≤ hi)
      = List.range' (max a lo) (min (a + n) (hi + 1) - max a lo) := by
  refine List.Perm.eq_of_pairwise
    (fun x y _ _ (hxy : x ≤ y) (hyx : y ≤ x) => le_antisymm hxy hyx) ?_ ?_ ?_
  · exact (List.pairwise_le_range' ..).filter _
  · exact List.pairwise_le_range' ..
  · rw [List.perm_ext_iff_of_nodup]
    · intro t
      simp only [List.mem_filter, List.mem_range'_1, decide_eq_true_eq]
      omega
    · exact (List.nodup_range' ..).filter _
    · exact List.nodup_range' ..

end UndoLog
