import Mathlib.Order.Defs.Unbundled
import Mathlib.Order.Lattice
import Mathlib.Data.Nat.Notation

/-!
# Nested calls that can be reverted

A call that hands control to unknown code is a frame: the state to go back to if the call
reverts, and what is left to do when control comes back. While the frame is open the unknown
code may start further calls, so the open frames form a stack, innermost first.

`Valid I C E` says that every state of the stack satisfies the invariant `I`, that what is
left to do of each open call is still justified (`C`) in the state the call sees, and that
states only move along the order `E` between a checkpoint and the present. Its rules are the
four things that can happen: `Valid.mono` (a step inside the innermost call), `Valid.push`,
`Valid.pop` (the call returns) and `Valid.revert`.

`Since E w₀ n` compares the stack with an earlier state `w₀`, of whose open calls the `n` outermost
are still open: the present state, and every state that a call opened since then goes back to,
is later than `w₀`.

`Throughout I` relates every state of the stack to what is left to do of the calls that are open in
it. `OpenOver` is what stays of one call until it is closed, however the stack above it changes
(`OpenOver.moves`).
-/

namespace Frames

variable {ω κ : Type*}

structure Frame (ω κ : Type*) where
  checkpoint : ω
  cont : κ

def Valid (I : ω → Prop) (C : ω → κ → Prop) (E : ω → ω → Prop) : ω → List (Frame ω κ) → Prop
  | w, [] => I w
  | w, f :: fs => I w ∧ C w f.cont ∧ E f.checkpoint w ∧ Valid I C E f.checkpoint fs

variable {I : ω → Prop} {C : ω → κ → Prop} {E : ω → ω → Prop} {w w' : ω} {f : Frame ω κ}
  {fs : List (Frame ω κ)}

/-- The current state satisfies the invariant. -/
theorem Valid.inv (hv : Valid I C E w fs) : I w := by
  cases fs with
  | nil => exact hv
  | cons f fs => exact hv.1

/-- A revert goes back to a state that was valid for the frames below. -/
theorem Valid.revert (hv : Valid I C E w (f :: fs)) : Valid I C E f.checkpoint fs := hv.2.2.2

variable (hC : ∀ w w' k, E w w' → C w k → C w' k) (htrans : ∀ a b c, E a b → E b c → E a c)
include hC htrans

theorem Valid.mono (hv : Valid I C E w fs) (hE : E w w') (hI : I w') : Valid I C E w' fs := by
  cases fs with
  | nil => exact hI
  | cons f fs => exact ⟨hI, hC _ _ _ hE hv.2.1, htrans _ _ _ hv.2.2.1 hE, hv.2.2.2⟩

theorem Valid.pop (hv : Valid I C E w (f :: fs)) (hE : E w w') (hI : I w') :
    Valid I C E w' fs :=
  Valid.mono hC htrans hv.2.2.2 (htrans _ _ _ hv.2.2.1 hE) hI

omit hC in
/-- The innermost call goes on to `k`. -/
theorem Valid.resume {k : κ} (hv : Valid I C E w (f :: fs)) (hE : E w w') (hI : I w')
    (hk : C w' k) : Valid I C E w' (⟨f.checkpoint, k⟩ :: fs) :=
  ⟨hI, hk, htrans _ _ _ hv.2.2.1 hE, hv.2.2.2⟩

omit hC htrans in
/-- A new frame starts from the current state. -/
theorem Valid.push {k : κ} (hv : Valid I C E w fs) (hE : E w w') (hI : I w') (hk : C w' k) :
    Valid I C E w' (⟨w, k⟩ :: fs) :=
  ⟨hI, hk, hE, hv⟩

/-! ## Since an earlier state -/

def Since (E : ω → ω → Prop) (w₀ : ω) (n : ℕ) (w : ω) (fs : List (Frame ω κ)) : Prop :=
  E w₀ w ∧ ∀ f ∈ fs.take (fs.length - n), E w₀ f.checkpoint

variable {w₀ : ω} {n : ℕ}

omit hC htrans in
theorem Since.refl (hw : E w₀ w₀) : Since E w₀ fs.length w₀ fs := by
  refine ⟨hw, fun f hf => ?_⟩
  rw [Nat.sub_self, List.take_zero] at hf
  cases hf

omit hC htrans in
/-- Only the frames that are open count. -/
theorem Since.clip (hs : Since E w₀ n w fs) : Since E w₀ (min n fs.length) w fs := by
  refine ⟨hs.1, ?_⟩
  rw [show fs.length - min n fs.length = fs.length - n by omega]
  exact hs.2

omit hC in
theorem Since.mono (hs : Since E w₀ n w fs) (hE : E w w') : Since E w₀ n w' fs :=
  ⟨htrans _ _ _ hs.1 hE, hs.2⟩

omit hC in
/-- A new frame is one that was opened since. -/
theorem Since.push {k : κ} (hs : Since E w₀ n w fs) (hE : E w w') :
    Since E w₀ n w' (⟨w, k⟩ :: fs) := by
  refine ⟨htrans _ _ _ hs.1 hE, fun f hf => ?_⟩
  rw [List.length_cons] at hf
  rcases Nat.lt_or_ge fs.length n with hlt | hle
  · rw [Nat.sub_eq_zero_of_le (by omega), List.take_zero] at hf
    cases hf
  · rw [show fs.length + 1 - n = fs.length - n + 1 by omega, List.take_succ_cons,
      List.mem_cons] at hf
    rcases hf with rfl | hf
    · exact hs.1
    · exact hs.2 f hf

omit hC in
/-- The innermost frame goes on with another continuation. -/
theorem Since.resume {k : κ} (hs : Since E w₀ n w (f :: fs)) (hE : E w w') :
    Since E w₀ n w' (⟨f.checkpoint, k⟩ :: fs) := by
  refine ⟨htrans _ _ _ hs.1 hE, fun g hg => ?_⟩
  have hall := hs.2
  rw [List.length_cons] at hg hall
  cases hm : fs.length + 1 - n with
  | zero =>
    rw [hm, List.take_zero] at hg
    cases hg
  | succ m =>
    rw [hm, List.take_succ_cons] at hg hall
    rcases List.mem_cons.mp hg with rfl | hg
    · exact hall f List.mem_cons_self
    · exact hall g (List.mem_cons_of_mem _ hg)

omit hC htrans in
/-- The calls that are left when the innermost one is gone. -/
theorem Since.tail (hs : Since E w₀ n w (f :: fs)) :
    ∀ g ∈ fs.take (fs.length - min n fs.length), E w₀ g.checkpoint := by
  intro g hg
  rcases Nat.le_total n fs.length with hle | hle
  · rw [min_eq_left hle] at hg
    refine hs.2 g ?_
    rw [List.length_cons, show fs.length + 1 - n = fs.length - n + 1 by omega, List.take_succ_cons]
    exact List.mem_cons_of_mem _ hg
  · rw [min_eq_right hle, Nat.sub_self, List.take_zero] at hg
    cases hg

omit hC in
/-- It ends, and the frames older than the start may now be fewer. -/
theorem Since.pop (hs : Since E w₀ n w (f :: fs)) (hE : E w w') :
    Since E w₀ (min n fs.length) w' fs :=
  ⟨htrans _ _ _ hs.1 hE, hs.tail⟩

omit hC htrans in
/-- A call that was opened since may be reverted. -/
theorem Since.revert (hs : Since E w₀ n w (f :: fs)) (hn : n < (f :: fs).length) :
    Since E w₀ (min n fs.length) f.checkpoint fs := by
  rw [List.length_cons] at hn
  refine ⟨hs.2 f ?_, hs.tail⟩
  rw [List.length_cons, show fs.length + 1 - n = fs.length - n + 1 by omega, List.take_succ_cons]
  exact List.mem_cons_self

/-! ## What holds throughout the stack -/

/-- What is left to do of the calls, innermost first. -/
def conts (fs : List (Frame ω κ)) : List κ := fs.map Frame.cont

/-- `I` holds of the present, and of every state on the stack with the calls open in it. -/
def Throughout (I : ω → List κ → Prop) : ω → List (Frame ω κ) → Prop
  | w, [] => I w []
  | w, f :: fs => I w (f.cont :: conts fs) ∧ Throughout I f.checkpoint fs

section

omit hC htrans

variable {J : ω → List κ → Prop}

theorem Throughout.inv (ht : Throughout J w fs) : J w (conts fs) := by
  cases fs with
  | nil => exact ht
  | cons f fs => exact ht.1

/-- And of the state that a revert goes back to. -/
theorem Throughout.revert (ht : Throughout J w (f :: fs)) : Throughout J f.checkpoint fs := ht.2

theorem Throughout.mono (ht : Throughout J w fs) (hJ : J w' (conts fs)) :
    Throughout J w' fs := by
  cases fs with
  | nil => exact hJ
  | cons f fs => exact ⟨hJ, ht.2⟩

theorem Throughout.push {k : κ} (ht : Throughout J w fs) (hJ : J w' (k :: conts fs)) :
    Throughout J w' (⟨w, k⟩ :: fs) := ⟨hJ, ht⟩

theorem Throughout.resume {k : κ} (ht : Throughout J w (f :: fs)) (hJ : J w' (k :: conts fs)) :
    Throughout J w' (⟨f.checkpoint, k⟩ :: fs) := ⟨hJ, ht.2⟩

theorem Throughout.pop (ht : Throughout J w (f :: fs)) (hJ : J w' (conts fs)) :
    Throughout J w' fs := ht.revert.mono hJ

end

/-! ## A call while it is open -/

section

omit hC htrans

variable {σ : Type*} {sig : κ → σ}

/-- What a step may do to the stack. A call that goes on keeps its `sig`. -/
inductive Moves (sig : κ → σ) : List (Frame ω κ) → List (Frame ω κ) → Prop where
  | stay (fs : List (Frame ω κ)) : Moves sig fs fs
  | push (f : Frame ω κ) (fs : List (Frame ω κ)) : Moves sig fs (f :: fs)
  | pop (f : Frame ω κ) (fs : List (Frame ω κ)) : Moves sig (f :: fs) fs
  | resume (f : Frame ω κ) (fs : List (Frame ω κ)) (k : κ) (hsig : sig k = sig f.cont) :
      Moves sig (f :: fs) (⟨f.checkpoint, k⟩ :: fs)

/-- Right above the calls `fs₀` a call is open that goes back to `w₀` and has the `sig` `x`. -/
def OpenOver (sig : κ → σ) (w₀ : ω) (x : σ) (fs₀ fs : List (Frame ω κ)) : Prop :=
  ∃ above f, fs = above ++ f :: fs₀ ∧ f.checkpoint = w₀ ∧ sig f.cont = x

variable {x : σ} {fs₀ fs' : List (Frame ω κ)}

/-- A frame that is deeper than the given ones stays open until it is itself ended or reverted. -/
theorem OpenOver.moves (ho : OpenOver sig w₀ x fs₀ fs) (hm : Moves sig fs fs')
    (hopen : fs₀.length < fs'.length) : OpenOver sig w₀ x fs₀ fs' := by
  obtain ⟨above, f, hfs, hcheckpoint, hsig⟩ := ho
  cases hm with
  | stay => exact ⟨above, f, hfs, hcheckpoint, hsig⟩
  | push g => exact ⟨g :: above, f, congrArg (List.cons g) hfs, hcheckpoint, hsig⟩
  | pop g =>
    cases above with
    | nil =>
      -- only the call itself could have been closed
      rw [List.nil_append, List.cons.injEq] at hfs
      rw [hfs.2] at hopen
      exact absurd hopen (lt_irrefl _)
    | cons g' above =>
      rw [List.cons_append, List.cons.injEq] at hfs
      exact ⟨above, f, hfs.2, hcheckpoint, hsig⟩
  | resume g gs k hk =>
    cases above with
    | nil =>
      rw [List.nil_append, List.cons.injEq] at hfs
      obtain ⟨rfl, rfl⟩ := hfs
      exact ⟨[], _, rfl, hcheckpoint, hk.trans hsig⟩
    | cons g' above =>
      rw [List.cons_append, List.cons.injEq] at hfs
      exact ⟨⟨g.checkpoint, k⟩ :: above, f, congrArg (List.cons _) hfs.2, hcheckpoint, hsig⟩

/-- A call with nothing above it is the innermost one. -/
theorem OpenOver.innermost (ho : OpenOver sig w₀ x fs₀ fs) (hlen : fs.length = fs₀.length + 1) :
    ∃ k, fs = ⟨w₀, k⟩ :: fs₀ ∧ sig k = x := by
  obtain ⟨above, f, hfs, hcheckpoint, hsig⟩ := ho
  have habove : above = [] := by
    rw [hfs, List.length_append, List.length_cons] at hlen
    exact List.eq_nil_of_length_eq_zero (by omega)
  rw [habove, List.nil_append] at hfs
  exact ⟨f.cont, by rw [hfs, ← hcheckpoint], hsig⟩

end

end Frames
