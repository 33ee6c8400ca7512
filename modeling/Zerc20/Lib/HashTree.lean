import Zerc20.Lib.Radix
import Mathlib.Data.Set.Function
import Mathlib.Data.List.GetD

/-!
# Perfect hash trees and their openings

A perfect binary tree over an arbitrary two-to-one hash `H`, given by a leaf function
`f : ℕ → α`. The node at level `k` and position `p` covers the leaves `j` with
`j / 2 ^ k = p`, so a tree of depth `d` has its root at level `d`, position `0`.

* `node` / `zeroAt` — the nodes of the tree, and those of the tree of a constant leaf;
* `path` / `climb` — the siblings of a leaf from the bottom up, and the fold that
  recomputes the root from a leaf and a list of siblings;
* `climb_path` — the tree's own siblings fold back to its root (completeness);
* `climb_binding` — a fold that ends in the tree's root used the tree's own leaf and
  siblings, as long as the hash inputs of the fold and of the tree do not collide;
* `path_congr` — changing a leaf does not change the siblings of that leaf.

A collision is always explicit: `Collision h Q` names two different inputs of the set `Q`
with one hash. A bare "some collision exists" is true of every compressing hash and says
nothing.
-/

namespace HashTree

open Radix

/-! ## Explicit collisions -/

/-- Two different inputs of `Q` with the same hash. -/
def Collision {α β : Type*} (h : α → β) (Q : Set α) : Prop :=
  ∃ x ∈ Q, ∃ y ∈ Q, x ≠ y ∧ h x = h y

/-- Without a collision the hash is injective on the inputs. -/
theorem injOn_of_not_collision {α β : Type*} {h : α → β} {Q : Set α}
    (hc : ¬ Collision h Q) : Set.InjOn h Q := by
  intro x hx y hy heq
  by_contra hne
  exact hc ⟨x, hx, y, hy, hne, heq⟩

/-- An input of `Q` that hashes to `z`. -/
def Preimage {α β : Type*} (h : α → β) (z : β) (Q : Set α) : Prop := ∃ x ∈ Q, h x = z

/-! ## Nodes -/

variable {α : Type*} (H : α → α → α)

/-- The node at level `k` and position `p` of the tree over the leaves `f`. -/
def node (f : ℕ → α) : ℕ → ℕ → α
  | 0, p => f p
  | k + 1, p => H (node f k (2 * p)) (node f k (2 * p + 1))

/-- The level-`k` node of the tree whose leaves are all `z`. -/
def zeroAt (z : α) : ℕ → α
  | 0 => z
  | k + 1 => H (zeroAt z k) (zeroAt z k)

/-- The siblings met when climbing `d` levels from position `p` of level `k`. -/
def path (f : ℕ → α) : ℕ → ℕ → ℕ → List α
  | _, _, 0 => []
  | k, p, d + 1 => node H f k (p ^^^ 1) :: path f (k + 1) (p / 2) d

/-- One step of a climb: the current node is the right child when the bit is set. -/
def join (b : Bool) (x s : α) : α × α := if b then (s, x) else (x, s)

/-- The fold that recomputes an ancestor from a node and the siblings above it. -/
def climb (x : α) : List (Bool × α) → α
  | [] => x
  | (b, s) :: rest => climb (Function.uncurry H (join b x s)) rest

/-- The hash inputs of that fold, from the bottom up. -/
def climbInputs (x : α) : List (Bool × α) → List (α × α)
  | [] => []
  | (b, s) :: rest => join b x s :: climbInputs (Function.uncurry H (join b x s)) rest

/-- The hash inputs of the tree of depth `d` over the leaves `f`. -/
def treeInputs (f : ℕ → α) (d : ℕ) : Set (α × α) :=
  {q | ∃ k < d, ∃ p < 2 ^ (d - 1 - k), q = (node H f k (2 * p), node H f k (2 * p + 1))}

/-! ## Siblings -/

/-- Flipping the last bit goes to the neighbour. -/
theorem xor_one_eq (p : ℕ) : p ^^^ 1 = if p % 2 = 1 then p - 1 else p + 1 := by
  rcases Nat.mod_two_eq_zero_or_one p with h | h
  · rw [if_neg (by omega), Nat.xor_one_of_even (Nat.even_iff.mpr h)]
  · rw [if_pos h, Nat.xor_one_of_odd (Nat.odd_iff.mpr h)]

theorem xor_one_ne (p : ℕ) : p ^^^ 1 ≠ p := by
  rw [xor_one_eq]
  split <;> omega

/-- A node and its sibling, put in order, are the two children of their parent. -/
theorem join_children (g : ℕ → α) (p : ℕ) :
    join (decide (p % 2 = 1)) (g p) (g (p ^^^ 1)) = (g (2 * (p / 2)), g (2 * (p / 2) + 1)) := by
  rw [xor_one_eq]
  rcases Nat.mod_two_eq_zero_or_one p with h | h
  · have hp : 2 * (p / 2) = p := by omega
    simp [join, h, hp]
  · have hp : 2 * (p / 2) + 1 = p := by omega
    have hp' : p - 1 = 2 * (p / 2) := by omega
    simp [join, h, hp, hp']

/-- A node from either child and that child's sibling. -/
theorem node_parent (f : ℕ → α) (k p : ℕ) :
    node H f (k + 1) (p / 2)
      = if p % 2 = 0 then H (node H f k p) (node H f k (p ^^^ 1))
        else H (node H f k (p ^^^ 1)) (node H f k p) := by
  have hjoin := join_children (node H f k) p
  rw [node]
  rcases Nat.mod_two_eq_zero_or_one p with heven | hodd
  · rw [if_pos heven]
    rw [heven] at hjoin
    have hchildren := Prod.mk.inj hjoin
    rw [← hchildren.1, ← hchildren.2]
  · rw [if_neg (by omega)]
    rw [hodd] at hjoin
    have hchildren := Prod.mk.inj hjoin
    rw [← hchildren.1, ← hchildren.2]

/-- The two inputs of a hash can be read off it. -/
theorem join_inj {b : Bool} {x s y t : α} (h : join b x s = join b y t) : x = y ∧ s = t := by
  cases b <;> simp [join] at h <;> tauto

/-! ## Dependence on the leaves -/

/-- A node depends on the leaves below it. -/
theorem node_congr {f g : ℕ → α} (k p : ℕ) (h : ∀ j, j / 2 ^ k = p → f j = g j) :
    node H f k p = node H g k p := by
  induction k generalizing p with
  | zero => exact h p (by simp)
  | succ k ih =>
    -- the leaves under either child are leaves under the parent
    have hchild : ∀ c, c / 2 = p → node H f k c = node H g k c := by
      intro c hc
      refine ih c fun j hj => h j ?_
      rw [Nat.pow_succ, ← Nat.div_div_eq_div_mul, hj, hc]
    rw [node, node, hchild _ (by omega), hchild _ (by omega)]

/-- Over equal leaves it is the root of such a subtree. -/
theorem node_const (z : α) (f : ℕ → α) (k p : ℕ) (h : ∀ j, j / 2 ^ k = p → f j = z) :
    node H f k p = zeroAt H z k := by
  rw [node_congr H k p (g := fun _ => z) h]
  clear h
  induction k generalizing p with
  | zero => rfl
  | succ k ih => rw [node, zeroAt, ih, ih]

/-- A map that commutes with the hash commutes with the tree. -/
theorem node_map {β : Type*} {H : α → α → α} {H' : β → β → β} {φ : α → β}
    (hφ : ∀ x y, φ (H x y) = H' (φ x) (φ y)) (f : ℕ → α) (k p : ℕ) :
    φ (node H f k p) = node H' (fun i => φ (f i)) k p := by
  induction k generalizing p with
  | zero => rfl
  | succ k ih => rw [node, node, hφ, ih, ih]

/-- The tree over the first level of nodes. -/
theorem node_succ (f : ℕ → α) (k p : ℕ) :
    node H f (k + 1) p = node H (fun q => H (f (2 * q)) (f (2 * q + 1))) k p := by
  induction k generalizing p with
  | zero => rfl
  | succ k ih => rw [node, ih, ih, node]

theorem path_length (f : ℕ → α) (k p d : ℕ) : (path H f k p d).length = d := by
  induction d generalizing k p with
  | zero => rfl
  | succ d ih => rw [path, List.length_cons, ih]

/-- The sibling met on level `j` of a climb. -/
theorem path_getElem? (f : ℕ → α) (k p : ℕ) {j d : ℕ} (hj : j < d) :
    (path H f k p d)[j]? = some (node H f (k + j) (p / 2 ^ j ^^^ 1)) := by
  induction d generalizing k p j with
  | zero => exact absurd hj (Nat.not_lt_zero j)
  | succ d ih =>
    cases j with
    | zero => rw [path, List.getElem?_cons_zero, Nat.pow_zero, Nat.div_one, Nat.add_zero]
    | succ j =>
      rw [path, List.getElem?_cons_succ, ih _ _ (by omega), Nat.div_div_eq_div_mul,
        ← Nat.pow_succ', Nat.add_assoc, Nat.add_comm 1 j]

/-- The siblings of a position only depend on the leaves outside its subtree. -/
theorem path_congr {f g : ℕ → α} (k p d : ℕ) (h : ∀ j, j / 2 ^ k ≠ p → f j = g j) :
    path H f k p d = path H g k p d := by
  induction d generalizing k p with
  | zero => rfl
  | succ d ih =>
    have hsib : node H f k (p ^^^ 1) = node H g k (p ^^^ 1) :=
      node_congr H k _ fun j hj => h j (by rw [hj]; exact xor_one_ne p)
    have hrest : path H f (k + 1) (p / 2) d = path H g (k + 1) (p / 2) d := by
      refine ih (k + 1) (p / 2) fun j hj => h j fun hjp => hj ?_
      rw [Nat.pow_succ, ← Nat.div_div_eq_div_mul, hjp]
    rw [path, path, hsib, hrest]

/-! ## Completeness and binding -/

/-- **Completeness.** The tree's own siblings fold back to the tree's own ancestor. -/
theorem climb_path (f : ℕ → α) (k p d : ℕ) :
    climb H (node H f k p) ((bitsLE d p).zip (path H f k p d)) = node H f (k + d) (p / 2 ^ d) := by
  induction d generalizing k p with
  | zero => simp [bitsLE, climb]
  | succ d ih =>
    rw [bitsLE_succ, path, List.zip_cons_cons, climb, join_children]
    have hparent : Function.uncurry H (node H f k (2 * (p / 2)), node H f k (2 * (p / 2) + 1))
        = node H f (k + 1) (p / 2) := rfl
    rw [hparent, ih, Nat.div_div_eq_div_mul, ← Nat.pow_succ']
    congr 1
    omega

/-- **Binding.** A fold over `d` siblings that ends in an ancestor of the tree started from
the tree's own node and used the tree's own siblings, provided the hash is injective on a
set that holds the inputs of the fold and those of the tree along the way. -/
theorem climb_binding (f : ℕ → α) {Q : Set (α × α)}
    (hinj : Set.InjOn (Function.uncurry H) Q) (k p d : ℕ) (x : α) (s : List α)
    (hlen : s.length = d)
    (hclimb : ∀ q ∈ climbInputs H x ((bitsLE d p).zip s), q ∈ Q)
    (htree : ∀ j < d, (node H f (k + j) (2 * (p / 2 ^ (j + 1))),
      node H f (k + j) (2 * (p / 2 ^ (j + 1)) + 1)) ∈ Q)
    (hroot : climb H x ((bitsLE d p).zip s) = node H f (k + d) (p / 2 ^ d)) :
    x = node H f k p ∧ s = path H f k p d := by
  induction d generalizing k p x s with
  | zero =>
    have hs : s = [] := List.length_eq_zero_iff.mp hlen
    subst hs
    exact ⟨by simpa [bitsLE, climb] using hroot, rfl⟩
  | succ d ih =>
    obtain ⟨t, s, rfl⟩ := List.exists_cons_of_length_eq_add_one hlen
    rw [bitsLE_succ, List.zip_cons_cons] at hclimb hroot
    rw [climb] at hroot
    -- above the first level the induction hypothesis applies to the parent
    obtain ⟨hparent, hrest⟩ := ih (k + 1) (p / 2)
      (Function.uncurry H (join (decide (p % 2 = 1)) x t)) s
      (by simpa using hlen)
      (fun q hq => hclimb q (by rw [climbInputs]; exact List.mem_cons_of_mem _ hq))
      (fun j hj => by
        have h := htree (j + 1) (by omega)
        rw [show k + (j + 1) = k + 1 + j from by omega, Nat.pow_succ' (n := j + 1),
          ← Nat.div_div_eq_div_mul] at h
        exact h)
      (by
        rw [hroot, Nat.pow_succ', ← Nat.div_div_eq_div_mul]
        congr 1
        omega)
    -- the two inputs of the parent hash agree, so the children do
    have hjoin : join (decide (p % 2 = 1)) x t
        = join (decide (p % 2 = 1)) (node H f k p) (node H f k (p ^^^ 1)) := by
      refine hinj (hclimb _ (by rw [climbInputs]; exact List.mem_cons_self)) ?_ ?_
      · rw [join_children]
        simpa using htree 0 (by omega)
      · rw [hparent, join_children]
        rfl
    obtain ⟨hx, ht⟩ := join_inj hjoin
    exact ⟨hx, by rw [path, ht, hrest]⟩

/-- The two children of a node are inputs of the tree. -/
theorem mem_treeInputs {f : ℕ → α} {d k p : ℕ} (hk : k < d) (hp : p < 2 ^ d) :
    (node H f k (2 * (p / 2 ^ (k + 1))), node H f k (2 * (p / 2 ^ (k + 1)) + 1))
      ∈ treeInputs H f d := by
  refine ⟨k, hk, p / 2 ^ (k + 1), ?_, rfl⟩
  rw [Nat.div_lt_iff_lt_mul (Nat.two_pow_pos _), ← Nat.pow_add]
  rwa [show d - 1 - k + (k + 1) = d from by omega]

/-- Binding for a whole tree: the fold ends in the root of the depth-`d` tree. -/
theorem climb_binding_root (f : ℕ → α) {Q : Set (α × α)}
    (hinj : Set.InjOn (Function.uncurry H) Q) {p d : ℕ} (hp : p < 2 ^ d) {x : α} {s : List α}
    (hlen : s.length = d)
    (hclimb : ∀ q ∈ climbInputs H x ((bitsLE d p).zip s), q ∈ Q)
    (htree : treeInputs H f d ⊆ Q)
    (hroot : climb H x ((bitsLE d p).zip s) = node H f d 0) :
    x = f p ∧ s = path H f 0 p d := by
  refine climb_binding H f hinj 0 p d x s hlen hclimb ?_ ?_
  · intro j hj
    rw [Nat.zero_add]
    exact htree (mem_treeInputs H hj hp)
  · rw [hroot, Nat.zero_add, Nat.div_eq_of_lt hp]

/-! ## Trees of trees -/

theorem climb_steps_append (x : α) (l m : List (Bool × α)) :
    climb H x (l ++ m) = climb H (climb H x l) m := by
  induction l generalizing x with
  | nil => rfl
  | cons bs l ih => rw [List.cons_append, climb, climb, ih]

theorem climbInputs_append (x : α) (l m : List (Bool × α)) :
    climbInputs H x (l ++ m) = climbInputs H x l ++ climbInputs H (climb H x l) m := by
  induction l generalizing x with
  | nil => rfl
  | cons bs l ih => rw [List.cons_append, climbInputs, climbInputs, climb, ih, List.cons_append]

/-- A fold over at least one level ends in the hash of one of its inputs. -/
theorem climb_eq_hash (x : α) {l : List (Bool × α)} (hne : l ≠ []) :
    ∃ q ∈ climbInputs H x l, climb H x l = Function.uncurry H q := by
  induction l generalizing x with
  | nil => exact absurd rfl hne
  | cons bs l ih =>
    rw [climbInputs, climb]
    cases l with
    | nil => exact ⟨_, List.mem_cons_self, rfl⟩
    | cons bs' l =>
      obtain ⟨q, hq, heq⟩ := ih (Function.uncurry H (join bs.1 x bs.2)) (by simp)
      exact ⟨q, List.mem_cons_of_mem _ hq, heq⟩

/-- Binding for the upper part of a path: a fold over `d + e` levels that ends in the root of a
depth-`e` tree passes through that tree's leaf after `d` levels. -/
theorem climb_binding_upper (f : ℕ → α) {Q : Set (α × α)}
    (hinj : Set.InjOn (Function.uncurry H) Q) {p d e : ℕ} (hp : p < 2 ^ (d + e)) {x : α}
    {s : List α} (hlen : s.length = d + e)
    (hclimb : ∀ q ∈ climbInputs H x ((bitsLE (d + e) p).zip s), q ∈ Q)
    (htree : treeInputs H f e ⊆ Q)
    (hroot : climb H x ((bitsLE (d + e) p).zip s) = node H f e 0) :
    climb H x ((bitsLE d p).zip (s.take d)) = f (p / 2 ^ d)
      ∧ ∀ q ∈ climbInputs H x ((bitsLE d p).zip (s.take d)), q ∈ Q := by
  have hsplit : (bitsLE (d + e) p).zip s
      = (bitsLE d p).zip (s.take d) ++ (bitsLE e (p / 2 ^ d)).zip (s.drop d) := by
    rw [bitsLE_add, ← List.zip_append (by simp [hlen]), List.take_append_drop]
  rw [hsplit] at hclimb hroot
  rw [climb_steps_append] at hroot
  rw [climbInputs_append] at hclimb
  have hupper : p / 2 ^ d < 2 ^ e := by
    rw [Nat.div_lt_iff_lt_mul (Nat.two_pow_pos _), ← Nat.pow_add, Nat.add_comm]
    exact hp
  refine ⟨(climb_binding_root H f hinj hupper (by simp [hlen])
    (fun q hq => hclimb q (List.mem_append_right _ hq)) htree hroot).1, ?_⟩
  exact fun q hq => hclimb q (List.mem_append_left _ hq)

/-- The upper part of a tree is a tree over the nodes of a level. -/
theorem node_add (f : ℕ → α) (d e p : ℕ) : node H f (d + e) p = node H (node H f d) e p := by
  induction e generalizing p with
  | zero => rfl
  | succ e ih => rw [← Nat.add_assoc, node, ih, ih, node]

/-- A node is a node of the tree over the leaves from `s * 2 ^ k` on. -/
theorem node_shift (f : ℕ → α) (k s p : ℕ) :
    node H (fun i => f (s * 2 ^ k + i)) k p = node H f k (s + p) := by
  induction k generalizing s p with
  | zero => simp [node]
  | succ k ih =>
    have hshift : s * 2 ^ (k + 1) = 2 * s * 2 ^ k := by ring
    rw [node, node, hshift, ih, ih]
    congr 2 <;> ring

/-- The position `a` of a tree over trees and the index `i` of a leaf, packed. -/
theorem packed_mod {a i d : ℕ} (hi : i < 2 ^ d) : ((a <<< d) + i) % 2 ^ d = i := by
  rw [Nat.shiftLeft_eq, Nat.mul_comm, Nat.mul_add_mod, Nat.mod_eq_of_lt hi]

theorem packed_div {a i d : ℕ} (hi : i < 2 ^ d) : ((a <<< d) + i) / 2 ^ d = a := by
  rw [Nat.shiftLeft_eq, Nat.mul_comm, Nat.mul_add_div (Nat.two_pow_pos d), Nat.div_eq_of_lt hi,
    Nat.add_zero]

/-- A packed index fits both heights together. -/
theorem packed_lt {a i d e : ℕ} (hi : i < 2 ^ d) (ha : a < 2 ^ e) :
    (a <<< d) + i < 2 ^ (d + e) := by
  have hdiv : ((a <<< d) + i) / 2 ^ d < 2 ^ e := by
    rw [packed_div hi]
    exact ha
  rwa [Nat.div_lt_iff_lt_mul (Nat.two_pow_pos d), ← Nat.pow_add, Nat.add_comm e d] at hdiv

/-- The bits of a packed index select first inside the tree, then among the trees. -/
theorem bitsLE_packed {a i d : ℕ} (e : ℕ) (hi : i < 2 ^ d) :
    bitsLE (d + e) ((a <<< d) + i) = bitsLE d i ++ bitsLE e a := by
  rw [bitsLE_add, packed_div hi, ← bitsLE_mod (le_refl d), packed_mod hi]

/-- **Trees of trees.** A fold along a packed index goes through the root of its inner tree. -/
theorem climb_packed {a i : ℕ} (x : α) (s t : List α) (hi : i < 2 ^ s.length) :
    climb H x ((bitsLE (s.length + t.length) ((a <<< s.length) + i)).zip (s ++ t))
      = climb H (climb H x ((bitsLE s.length i).zip s)) ((bitsLE t.length a).zip t) := by
  rw [bitsLE_packed _ hi, List.zip_append (bitsLE_length _ _), climb_steps_append]

/-! ## Appending a leaf -/

/-- The leaf function of a list of leaves, padded with `z`. -/
def leavesOf (z : α) (l : List α) (i : ℕ) : α := l.getD i z

/-- One more leaf is an update at the end. -/
theorem leavesOf_concat (z : α) (l : List α) (v : α) :
    leavesOf z (l ++ [v]) = Function.update (leavesOf z l) l.length v := by
  funext i
  rw [Function.update_apply, leavesOf, leavesOf]
  rcases Nat.lt_trichotomy i l.length with hlt | rfl | hgt
  · rw [if_neg hlt.ne, List.getD_append _ _ _ _ hlt]
  · rw [if_pos rfl, List.getD_eq_getElem?_getD, List.getElem?_concat_length, Option.getD_some]
  · rw [if_neg hgt.ne', List.getD_eq_default _ _ hgt.le, List.getD_eq_default]
    rw [List.length_append, List.length_singleton]
    exact hgt

/-- Subtrees behind the last leaf are zero subtrees. -/
theorem node_leavesOf_of_le (z : α) {l : List α} {k p : ℕ} (hle : l.length ≤ p * 2 ^ k) :
    node H (leavesOf z l) k p = zeroAt H z k := by
  refine node_const H z _ _ _ fun j hj => ?_
  have hpj : p * 2 ^ k ≤ j := by
    rw [← hj]
    exact Nat.div_mul_le_self j _
  exact List.getD_eq_default _ _ (hle.trans hpj)

/-- Putting `v` into the first free position with that position's siblings gives the tree
of the list with `v` appended. -/
theorem climb_append (z : α) (l : List α) (v : α) {d : ℕ} (hlt : l.length < 2 ^ d) :
    climb H v ((bitsLE d l.length).zip (path H (leavesOf z l) 0 l.length d))
      = node H (leavesOf z (l ++ [v])) d 0 := by
  have hpath : path H (leavesOf z l) 0 l.length d
      = path H (leavesOf z (l ++ [v])) 0 l.length d := by
    refine path_congr H 0 l.length d fun j hj => ?_
    rw [Nat.pow_zero, Nat.div_one] at hj
    rcases Nat.lt_or_ge j l.length with hjl | hjl
    · exact (List.getD_append _ _ _ _ hjl).symm
    · rw [leavesOf, leavesOf, List.getD_eq_default _ _ hjl,
        List.getD_eq_default _ _ (by rw [List.length_append, List.length_singleton]; omega)]
  have hleaf : node H (leavesOf z (l ++ [v])) 0 l.length = v := by
    simp [node, leavesOf]
  have hclimb := climb_path H (leavesOf z (l ++ [v])) 0 l.length d
  rw [hleaf, ← hpath, Nat.zero_add, Nat.div_eq_of_lt hlt] at hclimb
  exact hclimb

/-- The siblings of a tree whose leaves are all `z`. -/
theorem path_const (z : α) (k p d : ℕ) :
    path H (fun _ => z) k p d = (List.range' k d).map (zeroAt H z) := by
  induction d generalizing k p with
  | zero => rfl
  | succ d ih =>
    rw [path, ih, node_const H z _ _ _ (fun _ _ => rfl), List.range'_succ, List.map_cons]

/-- The root of a tree with one leaf written, at position `0`. -/
theorem node_singleton (z v : α) (d : ℕ) :
    node H (leavesOf z [v]) d 0
      = climb H v ((bitsLE d 0).zip ((List.range' 0 d).map (zeroAt H z))) := by
  have hclimb := climb_append H z [] v (d := d) (Nat.two_pow_pos d)
  rw [List.nil_append, List.length_nil] at hclimb
  have hnil : leavesOf z ([] : List α) = fun _ => z := by
    funext i
    rfl
  rw [← hclimb, hnil, path_const]

end HashTree
