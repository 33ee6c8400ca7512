import Mathlib.Data.Nat.Notation
import Mathlib.Data.List.Basic

/-!
# Searching downwards, chunk by chunk

Entries have a position and are ordered by it. They are searched for the last one with a property,
from a position down to zero, one chunk of positions after another, until a chunk has a hit.

* `Search start hit last ranges result` — a search from `last`, whose chunks begin where `start`
  says, makes these queries and ends with this result;
* `Search.exists_of_le` — it ends, if no chunk begins after its own end;
* `Search.disjoint`, `Search.covers` — its chunks are disjoint, and together one interval;
* `Search.result_eq` — its result is the last hit among all entries up to `last`.
-/

namespace SearchDown

variable {α β : Type}

/-- A chunk ends at `last` and begins at `start last`; the next one ends before it. -/
inductive Search (start : ℕ → ℕ) (hit : ℕ → ℕ → Option α) : ℕ → List (ℕ × ℕ) → Option α → Prop
  | found {last : ℕ} {a : α} (hhit : hit (start last) last = some a) :
    Search start hit last [(start last, last)] (some a)
  | exhausted {last : ℕ} (hhit : hit (start last) last = none) (hstart : start last = 0) :
    Search start hit last [(0, last)] none
  | next {last n : ℕ} {ranges : List (ℕ × ℕ)} {result : Option α}
    (hhit : hit (start last) last = none) (hstart : start last = n + 1)
    (hrest : Search start hit n ranges result) :
    Search start hit last ((n + 1, last) :: ranges) result

namespace Search

variable {start : ℕ → ℕ} {hit : ℕ → ℕ → Option α} {last : ℕ} {ranges : List (ℕ × ℕ)}
  {result : Option α}

/-! ## The chunks -/

/-- Every chunk ends before the last one, so the search ends. -/
theorem exists_of_le (hstart : ∀ last, start last ≤ last) (hit : ℕ → ℕ → Option α) (last : ℕ) :
    ∃ ranges result, Search start hit last ranges result := by
  induction last using Nat.strongRecOn with
  | ind last ih =>
    cases hhit : hit (start last) last with
    | some a => exact ⟨_, _, .found hhit⟩
    | none =>
      cases hfirst : start last with
      | zero => exact ⟨_, _, .exhausted hhit hfirst⟩
      | succ n =>
        have hle := hstart last
        obtain ⟨ranges, result, hrest⟩ := ih n (by omega)
        exact ⟨_, _, .next hhit hfirst hrest⟩

/-- A search downwards looks at no block above its start. -/
theorem le_last (hstart : ∀ last, start last ≤ last) (hs : Search start hit last ranges result) :
    ∀ range ∈ ranges, range.2 ≤ last := by
  induction hs with
  | found hhit =>
    intro range hrange
    obtain rfl := List.mem_singleton.mp hrange
    exact Nat.le_refl _
  | exhausted hhit hfirst =>
    intro range hrange
    obtain rfl := List.mem_singleton.mp hrange
    exact Nat.le_refl _
  | @next last n ranges result hhit hfirst hrest ih =>
    intro range hrange
    have hle := hstart last
    rcases List.mem_cons.mp hrange with rfl | hrange
    · exact Nat.le_refl _
    · have hlow := ih range hrange
      omega

/-- No position is queried twice. -/
theorem disjoint (hstart : ∀ last, start last ≤ last) (hs : Search start hit last ranges result) :
    ranges.Pairwise fun range lower => lower.2 < range.1 := by
  induction hs with
  | found hhit => exact List.pairwise_singleton _ _
  | exhausted hhit hfirst => exact List.pairwise_singleton _ _
  | next hhit hfirst hrest ih =>
    refine List.pairwise_cons.mpr ⟨fun lower hlower => ?_, ih⟩
    exact Nat.lt_succ_of_le (hrest.le_last hstart lower hlower)

/-- The queried positions are an interval that ends with `last`, and all of them if there is no
hit. -/
theorem covers (hstart : ∀ last, start last ≤ last) (hs : Search start hit last ranges result) :
    ∃ low ≤ last, (result = none → low = 0) ∧ ∀ position,
      (∃ range ∈ ranges, range.1 ≤ position ∧ position ≤ range.2)
        ↔ low ≤ position ∧ position ≤ last := by
  induction hs with
  | @found last a hhit =>
    refine ⟨start last, hstart last, nofun, fun position => ?_⟩
    simp only [List.mem_singleton, exists_eq_left]
  | exhausted hhit hfirst =>
    refine ⟨0, Nat.zero_le _, fun _ => rfl, fun position => ?_⟩
    simp only [List.mem_singleton, exists_eq_left]
  | @next last n ranges result hhit hfirst hrest ih =>
    obtain ⟨low, hlow, hnone, hcovers⟩ := ih
    have hle := hstart last
    refine ⟨low, by omega, hnone, fun position => ?_⟩
    simp only [List.mem_cons, exists_eq_or_imp, hcovers]
    omega

end Search

/-! ## What is found -/

section

variable (pos : α → ℕ) (p : α → Bool) (log : List α)

/-- The entries of a chunk. -/
def inRange (first last : ℕ) : List α := log.filter fun a => first ≤ pos a ∧ pos a ≤ last

/-- The last entry of a chunk with the property. -/
def lastIn (first last : ℕ) : Option α := (inRange pos log first last).reverse.find? p

end

section

variable {pos : α → ℕ} {p : α → Bool} {log : List α} {a : α} {first last : ℕ}

theorem mem_of_lastIn (ha : lastIn pos p log first last = some a) :
    a ∈ log ∧ pos a ≤ last ∧ p a = true := by
  have hmem := List.mem_reverse.mp (List.mem_of_find?_eq_some ha)
  obtain ⟨hlog, hrange⟩ := List.mem_filter.mp hmem
  exact ⟨hlog, (of_decide_eq_true hrange).2, List.find?_some ha⟩

/-- Without a hit nothing in the range matches. -/
theorem not_of_lastIn (hnone : lastIn pos p log 0 last = none) (ha : a ∈ log)
    (hle : pos a ≤ last) : p a = false := by
  have hmem : a ∈ (inRange pos log 0 last).reverse :=
    List.mem_reverse.mpr (List.mem_filter.mpr ⟨ha, decide_eq_true ⟨Nat.zero_le _, hle⟩⟩)
  exact Bool.eq_false_iff.mpr (List.find?_eq_none.mp hnone a hmem)

/-- The entries below a position come before those above. -/
theorem inRange_split (hlog : log.Pairwise fun a b => pos a ≤ pos b) {n : ℕ} (hle : n ≤ last) :
    inRange pos log 0 last = inRange pos log 0 n ++ inRange pos log (n + 1) last := by
  induction log with
  | nil => rfl
  | cons a log ih =>
    rw [List.pairwise_cons] at hlog
    have hrest := ih hlog.2
    unfold inRange at hrest ⊢
    rw [List.filter_cons, List.filter_cons, List.filter_cons, hrest]
    rcases Nat.lt_or_ge n (pos a) with hgt | hlow
    · have hempty : (log.filter fun b => decide (0 ≤ pos b ∧ pos b ≤ n)) = [] := by
        refine List.filter_eq_nil_iff.mpr fun b hb hin => ?_
        have hab := hlog.1 b hb
        have hbn := (of_decide_eq_true hin).2
        omega
      have hsame : decide (0 ≤ pos a ∧ pos a ≤ last) = decide (n + 1 ≤ pos a ∧ pos a ≤ last) :=
        decide_eq_decide.mpr (by omega)
      have hnot : decide (0 ≤ pos a ∧ pos a ≤ n) = false := decide_eq_false (by omega)
      rw [hempty, hnot, hsame]
      rfl
    · have hin : decide (0 ≤ pos a ∧ pos a ≤ last) = true := decide_eq_true (by omega)
      have hin' : decide (0 ≤ pos a ∧ pos a ≤ n) = true := decide_eq_true (by omega)
      have hnot : decide (n + 1 ≤ pos a ∧ pos a ≤ last) = false := decide_eq_false (by omega)
      rw [hin, hin', hnot]
      rfl

/-- The last hit of a range is that of its upper part, or else that of its lower part. -/
theorem lastIn_split (hlog : log.Pairwise fun a b => pos a ≤ pos b) {n : ℕ} (hle : n ≤ last) :
    lastIn pos p log 0 last = (lastIn pos p log (n + 1) last).or (lastIn pos p log 0 n) := by
  rw [lastIn, inRange_split hlog hle, List.reverse_append, List.find?_append]
  rfl

/-- **What a search finds**: the last hit of all. -/
theorem Search.result_eq (hlog : log.Pairwise fun a b => pos a ≤ pos b) {start : ℕ → ℕ}
    (hstart : ∀ last, start last ≤ last) {f : α → β} {ranges : List (ℕ × ℕ)} {result : Option β}
    (hs : Search start (fun first last => (lastIn pos p log first last).map f) last ranges
      result) : result = (lastIn pos p log 0 last).map f := by
  -- the later half of the log has no hit, so the hit is in the earlier one
  induction hs with
  | @found last b hhit =>
    cases hfirst : start last with
    | zero =>
      rw [hfirst] at hhit
      exact hhit.symm
    | succ n =>
      have hle := hstart last
      rw [hfirst] at hhit
      obtain ⟨a, ha, rfl⟩ := Option.map_eq_some_iff.mp hhit
      rw [lastIn_split hlog (show n ≤ last by omega), ha]
      rfl
  | exhausted hhit hfirst =>
    rw [hfirst] at hhit
    exact hhit.symm
  | @next last n ranges result hhit hfirst hrest ih =>
    have hle := hstart last
    rw [hfirst] at hhit
    rw [lastIn_split hlog (show n ≤ last by omega), Option.map_eq_none_iff.mp hhit, ih]
    rfl

end

end SearchDown
