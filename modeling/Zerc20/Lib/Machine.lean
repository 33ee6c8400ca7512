import Mathlib.Data.List.Induction
import Mathlib.Data.Set.Basic

/-!
# Runs of a step function

A system is a total step function `step : σ → α → σ` over its actions; an action that the
system refuses leaves the state as it is. A run is the fold of the step function over a
list of actions, so the reachable states are the final states of all runs.

* `run_induction` — what holds initially and survives every step holds of every run;
* `Along` — every action of a run meets a condition in the state it is taken in;
* `run_induction_along` — the same invariant rule when only the steps that meet the
  condition preserve the invariant;
* `along_iff_under` — a condition that is exactly what a step needs to keep a property is exactly
  what a run needs to have it throughout;
* `run_rel` — a reflexive and transitive relation kept by every step relates the first and
  the last state of a run;
* `gathered` — what the steps of a run contribute to a set, such as the inputs it hashes.

A call that may be refused is a function into `Except`; `require` is its guard and `commit`
keeps the old state when the call is refused.
-/

namespace Machine

variable {σ α : Type*} (step : σ → α → σ)

/-- The state reached from `s` by taking the actions `acts` in order. -/
def run (s : σ) (acts : List α) : σ := acts.foldl step s

/-- Every action of the run meets `C` in the state it is taken in. -/
def Along (C : σ → α → Prop) : σ → List α → Prop
  | _, [] => True
  | s, a :: acts => C s a ∧ Along C (step s a) acts

instance Along.decidable (C : σ → α → Prop) [∀ s a, Decidable (C s a)] :
    (s : σ) → (acts : List α) → Decidable (Along step C s acts)
  | _, [] => isTrue trivial
  | s, a :: acts =>
    have := Along.decidable C (step s a) acts
    inferInstanceAs (Decidable (C s a ∧ Along step C (step s a) acts))

@[simp] theorem run_nil (s : σ) : run step s [] = s := rfl

@[simp] theorem run_cons (s : σ) (a : α) (acts : List α) :
    run step s (a :: acts) = run step (step s a) acts := rfl

/-- A run goes on from where its first part ends. -/
theorem run_append (s : σ) (xs ys : List α) :
    run step s (xs ++ ys) = run step (run step s xs) ys := by
  simp [run, List.foldl_append]

@[simp] theorem run_concat (s : σ) (acts : List α) (a : α) :
    run step s (acts ++ [a]) = step (run step s acts) a := by
  simp [run_append]

variable {step}

/-- **The invariant rule.** -/
theorem run_induction {I : σ → Prop} {s : σ} (h0 : I s)
    (hstep : ∀ t a, I t → I (step t a)) (acts : List α) : I (run step s acts) := by
  induction acts generalizing s with
  | nil => exact h0
  | cons a acts ih => exact ih (hstep s a h0)

/-- **The invariant rule under a condition on the steps.** -/
theorem run_induction_along {I : σ → Prop} {C : σ → α → Prop} {s : σ} (h0 : I s)
    (hstep : ∀ t a, I t → C t a → I (step t a)) {acts : List α}
    (hC : Along step C s acts) : I (run step s acts) := by
  induction acts generalizing s with
  | nil => exact h0
  | cons a acts ih => exact ih (hstep s a h0 hC.1) hC.2

/-- **The exact condition**, in runs whose steps meet `D`. When such a step keeps `P` just if it meets
`C`, then `C` holds along the run just if `P` holds in every state of it. `J` is what the steps
keep. -/
theorem along_iff_under {J P : σ → Prop} {C D : σ → α → Prop}
    (hJ : ∀ t a, J t → D t a → J (step t a))
    (hC : ∀ t a, J t → P t → D t a → (C t a ↔ P (step t a))) {s : σ} (hJs : J s) (hPs : P s)
    {acts : List α} (hD : Along step D s acts) :
    Along step C s acts ↔ ∀ n, P (run step s (acts.take n)) := by
  induction acts generalizing s with
  | nil => simp [Along, hPs]
  | cons a acts ih =>
    have hiff := hC s a hJs hPs hD.1
    constructor
    · rintro ⟨hmeets, hrest⟩ n
      cases n with
      | zero => exact hPs
      | succ n => exact (ih (hJ s a hJs hD.1) (hiff.mp hmeets) hD.2).mp hrest n
    · intro hall
      have hPstep : P (step s a) := by simpa using hall 1
      exact ⟨hiff.mpr hPstep, (ih (hJ s a hJs hD.1) hPstep hD.2).mpr fun n => hall (n + 1)⟩

/-- A preorder that every step moves along also relates the two ends of a run. -/
theorem run_rel {R : σ → σ → Prop} (hrefl : ∀ s, R s s)
    (htrans : ∀ a b c, R a b → R b c → R a c) (hstep : ∀ s a, R s (step s a))
    (s : σ) (acts : List α) : R s (run step s acts) := by
  induction acts generalizing s with
  | nil => exact hrefl s
  | cons a acts ih => exact htrans _ _ _ (hstep s a) (ih (step s a))

/-- A condition on the actions alone holds along every run of them. -/
theorem Along.of_forall {C : α → Prop} {s : σ} {acts : List α} (hC : ∀ a ∈ acts, C a) :
    Along step (fun _ a => C a) s acts := by
  induction acts generalizing s with
  | nil => trivial
  | cons a acts ih =>
    exact ⟨hC a List.mem_cons_self, ih fun b hb => hC b (List.mem_cons_of_mem _ hb)⟩

/-- Along a run is along its first part and then along the rest. -/
theorem Along.append {C : σ → α → Prop} {s : σ} {xs ys : List α} :
    Along step C s (xs ++ ys) ↔ Along step C s xs ∧ Along step C (run step s xs) ys := by
  induction xs generalizing s with
  | nil => simp [Along]
  | cons a xs ih => simp [Along, ih, and_assoc]

/-- A condition on every step of the run, by the actions before it. -/
theorem Along.of_prefixes {C : σ → α → Prop} {s : σ} {acts : List α}
    (hC : ∀ xs a, xs ++ [a] <+: acts → C (run step s xs) a) : Along step C s acts := by
  induction acts generalizing s with
  | nil => trivial
  | cons a acts ih =>
    refine ⟨hC [] a ⟨acts, rfl⟩, ih fun xs b hpre => ?_⟩
    exact hC (a :: xs) b ((List.prefix_cons_inj a).mpr hpre)

variable (step) in
/-- What the steps of a run contribute. -/
def gathered {β : Type*} (F : σ → α → Set β) (s : σ) (acts : List α) : Set β :=
  {q | ∃ xs a, xs ++ [a] <+: acts ∧ q ∈ F (run step s xs) a}

/-- What a run gathers has what each of its steps adds. -/
theorem along_gathered {β : Type*} (F : σ → α → Set β) (s : σ) (acts : List α) :
    Along step (fun t a => F t a ⊆ gathered step F s acts) s acts :=
  Along.of_prefixes fun xs a hpre _ hq => ⟨xs, a, hpre, hq⟩

/-- A weaker condition holds along the run, too. -/
theorem Along.imp {C C' : σ → α → Prop} (himp : ∀ s a, C s a → C' s a) {s : σ} {acts : List α}
    (hC : Along step C s acts) : Along step C' s acts := by
  induction acts generalizing s with
  | nil => trivial
  | cons a acts ih => exact ⟨himp s a hC.1, ih hC.2⟩

/-- Two conditions hold along it together. -/
theorem Along.and {C C' : σ → α → Prop} {s : σ} {acts : List α} (hC : Along step C s acts)
    (hC' : Along step C' s acts) : Along step (fun t a => C t a ∧ C' t a) s acts := by
  induction acts generalizing s with
  | nil => trivial
  | cons a acts ih => exact ⟨⟨hC.1, hC'.1⟩, ih hC.2 hC'.2⟩

/-! ## Calls that may be refused -/

def require {ε : Type*} (p : Prop) [Decidable p] (e : ε) : Except ε Unit :=
  if p then .ok () else .error e

/-- The state after a call: the result, or the old state when the call is refused. -/
def commit {ε : Type*} (s : σ) : Except ε σ → σ
  | .ok s' => s'
  | .error _ => s

section

variable {ε : Type*} {β γ : Type}

/-- A sequence succeeds when both of its parts do. -/
theorem bind_eq_ok {x : Except ε β} {f : β → Except ε γ} {c : γ} :
    (x >>= f) = .ok c ↔ ∃ b, x = .ok b ∧ f b = .ok c := by
  cases x with
  | error e => simp [bind, Except.bind]
  | ok b => simp [bind, Except.bind]

/-- `require` succeeds when its condition holds. -/
theorem require_eq_ok {p : Prop} [Decidable p] {e : ε} {u : Unit} :
    require p e = .ok u ↔ p := by
  unfold require
  split <;> simp_all

theorem require_of {p : Prop} [Decidable p] {e : ε} (hp : p) : require p e = .ok () :=
  require_eq_ok.mpr hp

/-- A loop of calls that are all accepted. -/
theorem mapM_eq_ok {α : Type} {f : α → Except ε β} {g : α → β} {l : List α}
    (hf : ∀ a ∈ l, f a = .ok (g a)) : l.mapM f = .ok (l.map g) := by
  induction l with
  | nil => rfl
  | cons a l ih =>
    rw [List.mapM_cons, hf a List.mem_cons_self, ih fun b hb => hf b (List.mem_cons_of_mem _ hb)]
    rfl

/-- A map over a list and one more element. -/
theorem mapM_concat_eq_ok {α : Type} {f : α → Except ε β} {xs : List α} {x : α} {ys : List β}
    (hok : (xs ++ [x]).mapM f = .ok ys) :
    ∃ zs z, xs.mapM f = .ok zs ∧ f x = .ok z ∧ ys = zs ++ [z] := by
  rw [List.mapM_append, bind_eq_ok] at hok
  obtain ⟨zs, hzs, hrest⟩ := hok
  obtain ⟨last, hlast, hret⟩ := bind_eq_ok.mp hrest
  rw [List.mapM_cons, bind_eq_ok] at hlast
  obtain ⟨z, hz, htail⟩ := hlast
  cases htail
  cases hret
  exact ⟨zs, z, hzs, hz, rfl⟩

theorem mapM_length {α : Type} {f : α → Except ε β} {xs : List α} {ys : List β}
    (hok : xs.mapM f = .ok ys) : ys.length = xs.length := by
  induction xs generalizing ys with
  | nil =>
    cases hok
    rfl
  | cons x xs ih =>
    rw [List.mapM_cons, bind_eq_ok] at hok
    obtain ⟨y, -, hrest⟩ := hok
    obtain ⟨zs, hzs, hret⟩ := bind_eq_ok.mp hrest
    cases hret
    rw [List.length_cons, List.length_cons, ih hzs]

/-- The calls and the results of a loop. -/
theorem mapM_inv {α : Type} {f : α → Except ε β} {xs : List α} {ys : List β}
    (hok : xs.mapM f = .ok ys) :
    (∀ x ∈ xs, ∃ y ∈ ys, f x = .ok y) ∧ ∀ y ∈ ys, ∃ x ∈ xs, f x = .ok y := by
  induction xs generalizing ys with
  | nil =>
    cases hok
    exact ⟨nofun, nofun⟩
  | cons x xs ih =>
    rw [List.mapM_cons, bind_eq_ok] at hok
    obtain ⟨y, hy, hrest⟩ := hok
    obtain ⟨zs, hzs, hret⟩ := bind_eq_ok.mp hrest
    cases hret
    obtain ⟨hcalls, hresults⟩ := ih hzs
    constructor
    · intro x' hx'
      rcases List.mem_cons.mp hx' with rfl | hmem
      · exact ⟨y, List.mem_cons_self, hy⟩
      · obtain ⟨y', hy', hok'⟩ := hcalls x' hmem
        exact ⟨y', List.mem_cons_of_mem y hy', hok'⟩
    · intro y' hy'
      rcases List.mem_cons.mp hy' with rfl | hmem
      · exact ⟨x, List.mem_cons_self, hy⟩
      · obtain ⟨x', hx', hok'⟩ := hresults y' hmem
        exact ⟨x', List.mem_cons_of_mem x hx', hok'⟩

/-- A loop succeeds if each of its calls does. -/
theorem exists_mapM_eq_ok {α : Type} {f : α → Except ε β} {l : List α} :
    (∃ ys, l.mapM f = .ok ys) ↔ ∀ a ∈ l, ∃ b, f a = .ok b := by
  constructor
  · rintro ⟨ys, hok⟩ a ha
    obtain ⟨b, -, hb⟩ := (mapM_inv hok).1 a ha
    exact ⟨b, hb⟩
  · intro hall
    induction l with
    | nil => exact ⟨[], rfl⟩
    | cons a l ih =>
      obtain ⟨b, hb⟩ := hall a List.mem_cons_self
      obtain ⟨zs, hzs⟩ := ih fun a' ha' => hall a' (List.mem_cons_of_mem a ha')
      refine ⟨b :: zs, ?_⟩
      rw [List.mapM_cons, hb, hzs]
      rfl

/-- A result that may be missing, with the error for that case. -/
def okOr (x : Option β) (e : ε) : Except ε β :=
  match x with
  | some b => .ok b
  | none => .error e

/-- `ok_or` succeeds when there is something. -/
theorem okOr_eq_ok {x : Option β} {e : ε} {b : β} : okOr x e = .ok b ↔ x = some b := by
  cases x <;> simp [okOr]

theorem mapError_eq_ok {ε' : Type*} {x : Except ε β} {f : ε → ε'} {b : β} :
    x.mapError f = .ok b ↔ x = .ok b := by
  cases x <;> simp [Except.mapError]

/-- Calls that are all accepted, one after the other. -/
def AllAccepted {ε : Type*} (exec : σ → α → Except ε σ) : σ → List α → σ → Prop
  | s, [], t => t = s
  | s, a :: acts, t => ∃ s', exec s a = .ok s' ∧ AllAccepted exec s' acts t

/-- When every action is accepted, the run is the sequence of the calls. -/
theorem AllAccepted.run_eq {exec : σ → α → Except ε σ} {s t : σ} {acts : List α}
    (hok : AllAccepted exec s acts t) : run (fun s a => commit s (exec s a)) s acts = t := by
  induction acts generalizing s with
  | nil => exact hok.symm
  | cons a acts ih =>
    obtain ⟨s', hs', hrest⟩ := hok
    rw [run_cons, hs', commit]
    exact ih hrest

theorem AllAccepted.append {exec : σ → α → Except ε σ} {s t : σ} {xs ys : List α} :
    AllAccepted exec s (xs ++ ys) t
      ↔ ∃ m, AllAccepted exec s xs m ∧ AllAccepted exec m ys t := by
  induction xs generalizing s with
  | nil => exact ⟨fun hok => ⟨s, rfl, hok⟩, fun ⟨_, heq, hok⟩ => heq ▸ hok⟩
  | cons a xs ih =>
    constructor
    · rintro ⟨s', hs', hrest⟩
      obtain ⟨m, hxs, hys⟩ := ih.mp hrest
      exact ⟨m, ⟨s', hs', hxs⟩, hys⟩
    · rintro ⟨m, ⟨s', hs', hxs⟩, hys⟩
      exact ⟨s', hs', ih.mpr ⟨m, hxs, hys⟩⟩

/-- A run none of whose calls is refused. -/
theorem AllAccepted.of_along {exec : σ → α → Except ε σ} {s : σ} {acts : List α}
    (hok : Along (fun s a => commit s (exec s a)) (fun s a => (exec s a).isOk = true) s acts) :
    AllAccepted exec s acts (run (fun s a => commit s (exec s a)) s acts) := by
  induction acts generalizing s with
  | nil => rfl
  | cons a acts ih =>
    obtain ⟨ha, hrest⟩ := hok
    cases hexec : exec s a with
    | error e => rw [hexec] at ha; cases ha
    | ok s' =>
      have hs' : commit s (exec s a) = s' := by rw [hexec, commit]
      rw [run_cons]
      dsimp only at hrest ⊢
      rw [hs'] at hrest ⊢
      exact ⟨s', hexec, ih hrest⟩

/-- A call either is refused and changes nothing, or returns the new state. -/
theorem commit_cases (s : σ) (r : Except ε σ) :
    ((∃ e, r = .error e) ∧ commit s r = s) ∨ r = .ok (commit s r) := by
  cases r with
  | error e => exact Or.inl ⟨⟨e, rfl⟩, rfl⟩
  | ok s' => exact Or.inr rfl

end

/-! ## Loops that skip items -/

/-- What a loop does with an item: it keeps a result, goes on, or stops with an error. -/
inductive Handled (ε β : Type) where
  | keep (b : β)
  | skip
  | abort (e : ε)

def Handled.kept {ε β : Type} : Handled ε β → Option β
  | .keep b => some b
  | .skip => none
  | .abort _ => none

/-- What is kept is handled again. -/
def Handled.andThen {ε β γ : Type} (x : Handled ε β) (g : β → Handled ε γ) : Handled ε γ :=
  match x with
  | .keep b => g b
  | .skip => .skip
  | .abort e => .abort e

section

variable {α β ε : Type} {f : α → Handled ε β}

def sift (f : α → Handled ε β) : List α → Except ε (List β)
  | [] => .ok []
  | a :: l =>
    match f a with
    | .keep b => (sift f l).map (b :: ·)
    | .skip => sift f l
    | .abort e => .error e

/-- The loop ends well when no item stops it, and then it has what every item gave. -/
theorem sift_eq_ok {l : List α} {ys : List β} :
    sift f l = .ok ys
      ↔ (∀ a ∈ l, ∀ e, f a ≠ .abort e) ∧ ys = l.filterMap fun a => (f a).kept := by
  induction l generalizing ys with
  | nil => simp [sift, eq_comm]
  | cons a l ih =>
    rw [List.forall_mem_cons, List.filterMap_cons]
    cases hfa : f a with
    | keep b =>
      simp only [sift, hfa, Handled.kept]
      constructor
      · intro hok
        cases hrest : sift f l with
        | error e => rw [hrest] at hok; cases hok
        | ok zs =>
          rw [hrest] at hok
          cases hok
          obtain ⟨hall, hzs⟩ := ih.mp hrest
          subst hzs
          exact ⟨⟨nofun, hall⟩, rfl⟩
      · rintro ⟨⟨-, hall⟩, rfl⟩
        rw [ih.mpr ⟨hall, rfl⟩]
        rfl
    | skip =>
      simp only [sift, hfa, Handled.kept]
      rw [ih]
      exact and_congr_left fun _ => (and_iff_right nofun).symm
    -- the first abort ends the whole list
    | abort e =>
      simp only [sift, hfa]
      constructor
      · intro hok
        cases hok
      · rintro ⟨⟨hall, -⟩, -⟩
        exact absurd rfl (hall e)

/-- One loop after the other ends well as the loop that does both at each item. -/
theorem sift_bind_eq_ok {γ : Type} {g : β → Handled ε γ} {l : List α} {ys : List γ} :
    (sift f l >>= sift g) = .ok ys
      ↔ (∀ a ∈ l, ∀ e, (f a).andThen g ≠ .abort e)
        ∧ ys = l.filterMap fun a => ((f a).andThen g).kept := by
  have hkept : (l.filterMap fun a => ((f a).andThen g).kept)
      = (l.filterMap fun a => (f a).kept).filterMap fun b => (g b).kept := by
    rw [List.filterMap_filterMap]
    refine congrArg (List.filterMap · l) (funext fun a => ?_)
    cases f a <;> rfl
  -- the second pass meets only what the first has kept
  have hfine : (∀ a ∈ l, ∀ e, (f a).andThen g ≠ .abort e)
      ↔ (∀ a ∈ l, ∀ e, f a ≠ .abort e)
        ∧ ∀ b ∈ l.filterMap fun a => (f a).kept, ∀ e, g b ≠ .abort e := by
    constructor
    · refine fun hall => ⟨fun a ha e hfa => hall a ha e (by rw [hfa]; rfl), fun b hb e => ?_⟩
      obtain ⟨a, ha, hfa⟩ := List.mem_filterMap.mp hb
      have hand := hall a ha e
      cases hcase : f a with
      | keep c =>
        rw [hcase] at hfa hand
        rwa [← Option.some.inj hfa]
      | skip => rw [hcase] at hfa; cases hfa
      | abort e => rw [hcase] at hfa; cases hfa
    · rintro ⟨hf, hg⟩ a ha e
      cases hcase : f a with
      | keep c => exact hg c (List.mem_filterMap.mpr ⟨a, ha, by rw [hcase]; rfl⟩) e
      | skip => exact nofun
      | abort e => exact absurd hcase (hf a ha e)
  rw [bind_eq_ok, hkept, hfine]
  constructor
  · rintro ⟨zs, hzs, hys⟩
    obtain ⟨hf, rfl⟩ := sift_eq_ok.mp hzs
    obtain ⟨hg, rfl⟩ := sift_eq_ok.mp hys
    exact ⟨⟨hf, hg⟩, rfl⟩
  · rintro ⟨⟨hf, hg⟩, rfl⟩
    exact ⟨_, sift_eq_ok.mpr ⟨hf, rfl⟩, sift_eq_ok.mpr ⟨hg, rfl⟩⟩

/-- A loop over pages, each of which is processed item by item. -/
theorem mapM_pages_eq_ok {process : List α → Except ε (List β)} {Fine : α → Prop}
    {kept : α → Option β} (hprocess : ∀ page ys, process page = .ok ys
      ↔ (∀ a ∈ page, Fine a) ∧ ys = page.filterMap kept)
    {pages : List (List α)} {results : List (List β)} :
    pages.mapM process = .ok results
      ↔ (∀ a ∈ pages.flatten, Fine a) ∧ results = pages.map (List.filterMap kept) := by
  induction pages generalizing results with
  | nil =>
    simp only [List.mapM_nil, List.flatten_nil, List.not_mem_nil, false_implies, implies_true,
      true_and, List.map_nil]
    exact ⟨fun hok => (Except.ok.inj hok).symm, fun heq => congrArg Except.ok heq.symm⟩
  | cons page pages ih =>
    rw [List.mapM_cons, bind_eq_ok, List.flatten_cons, List.map_cons]
    constructor
    -- page by page, the rest only after this one is fine
    · rintro ⟨ys, hpage, hrest⟩
      obtain ⟨zs, hzs, hret⟩ := bind_eq_ok.mp hrest
      obtain ⟨hall, rfl⟩ := (hprocess _ _).mp hpage
      obtain ⟨hmore, rfl⟩ := ih.mp hzs
      refine ⟨fun a ha => ?_, (Except.ok.inj hret).symm⟩
      rcases List.mem_append.mp ha with ha | ha
      · exact hall a ha
      · exact hmore a ha
    · rintro ⟨hall, rfl⟩
      refine ⟨_, (hprocess _ _).mpr ⟨fun a ha => hall a (List.mem_append_left _ ha), rfl⟩, ?_⟩
      rw [ih.mpr ⟨fun a ha => hall a (List.mem_append_right _ ha), rfl⟩]
      rfl

end

end Machine
