import Mathlib.Order.Lattice
import Mathlib.Data.List.Basic

/-!
# Registers that keep the newest version

A register holds a value with its version and adopts what it receives when the version is
strictly newer. What it holds in the end is then a newest of the messages it received
(`Holds.receive`), and when equal versions carry equal values it depends only on which messages
came, not on their order or how often (`Holds.unique`).
-/

namespace Latest

variable {V I : Type*} [LinearOrder I]

/-- The register after the message `m`. -/
def receive (x m : V × I) : V × I := if m.2 ≤ x.2 then x else m

/-- `x` is a newest of the messages `ms`, or still the `start` when none is newer than that. -/
def Holds (start : V × I) (ms : List (V × I)) (x : V × I) : Prop :=
  (x = start ∧ ∀ m ∈ ms, m.2 ≤ start.2) ∨ (x ∈ ms ∧ start.2 < x.2 ∧ ∀ m ∈ ms, m.2 ≤ x.2)

/-- Equal versions carry equal values. -/
def Functional (ms : List (V × I)) : Prop := ∀ m ∈ ms, ∀ m' ∈ ms, m.2 = m'.2 → m.1 = m'.1

variable {start x y m : V × I} {ms ms' : List (V × I)}

/-- No version that was received is higher. -/
theorem Holds.version_le (hx : Holds start ms x) : ∀ m ∈ ms, m.2 ≤ x.2 := by
  rcases hx with ⟨rfl, hle⟩ | ⟨-, -, hle⟩
  · exact hle
  · exact hle

theorem Holds.start_le (hx : Holds start ms x) : start.2 ≤ x.2 := by
  rcases hx with ⟨rfl, -⟩ | ⟨-, hlt, -⟩
  · exact le_rfl
  · exact hlt.le

/-- Receiving one more message keeps the highest. -/
theorem Holds.receive (hx : Holds start ms x) (m : V × I) :
    Holds start (ms ++ [m]) (receive x m) := by
  unfold Latest.receive
  split
  · -- an old version: what is held is still a newest
    rename_i hold
    rcases hx with ⟨rfl, hle⟩ | ⟨hmem, hlt, hle⟩
    · refine Or.inl ⟨rfl, ?_⟩
      intro m' hm'
      rcases List.mem_append.mp hm' with hm' | hm'
      · exact hle m' hm'
      · rw [List.mem_singleton.mp hm']
        exact hold
    · refine Or.inr ⟨List.mem_append_left _ hmem, hlt, ?_⟩
      intro m' hm'
      rcases List.mem_append.mp hm' with hm' | hm'
      · exact hle m' hm'
      · rw [List.mem_singleton.mp hm']
        exact hold
  · rename_i hnew
    have hlt : x.2 < m.2 := lt_of_not_ge hnew
    refine Or.inr ⟨List.mem_append_right _ (List.mem_singleton_self m),
      hx.start_le.trans_lt hlt, ?_⟩
    intro m' hm'
    rcases List.mem_append.mp hm' with hm' | hm'
    · exact (hx.version_le m' hm').trans hlt.le
    · rw [List.mem_singleton.mp hm']

/-- The same messages leave the same behind. -/
theorem Holds.unique (hfun : Functional ms) (hsame : ∀ m, m ∈ ms ↔ m ∈ ms')
    (hx : Holds start ms x) (hy : Holds start ms' y) : x = y := by
  have hxy : y.2 ≤ x.2 := by
    rcases hy with ⟨rfl, -⟩ | ⟨hmem, -, -⟩
    · exact hx.start_le
    · exact hx.version_le y ((hsame y).mpr hmem)
  have hyx : x.2 ≤ y.2 := by
    rcases hx with ⟨rfl, -⟩ | ⟨hmem, -, -⟩
    · exact hy.start_le
    · exact hy.version_le x ((hsame x).mp hmem)
  have hversion : x.2 = y.2 := le_antisymm hyx hxy
  rcases hx with ⟨rfl, -⟩ | ⟨hmem, hlt, -⟩
  · rcases hy with ⟨rfl, -⟩ | ⟨-, hlt, -⟩
    · rfl
    · exact absurd hversion hlt.ne
  · rcases hy with ⟨rfl, -⟩ | ⟨hmem', -, -⟩
    · exact absurd hversion hlt.ne'
    · exact Prod.ext (hfun x hmem y ((hsame y).mpr hmem') hversion) hversion

theorem version_le_receive (x m : V × I) : x.2 ≤ (receive x m).2 := by
  unfold receive
  split
  · exact le_rfl
  · rename_i hnew
    exact (lt_of_not_ge hnew).le

theorem message_le_receive (x m : V × I) : m.2 ≤ (receive x m).2 := by
  unfold receive
  split
  · assumption
  · exact le_rfl

end Latest
