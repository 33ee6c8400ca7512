import Mathlib.Data.Nat.Notation

/-!
# Programs of statements on a shared state

A job that works on a database, a chain or another shared state does so statement by statement.
Before each statement the others may move, and the statement itself may take effect, fail, or take
effect although its answer is lost. A process that is killed at a statement is one whose statement
fails: nothing follows it. So the state a program ends in, over all environments, is every state it
can leave behind.

* `Prog` — such a program, with `stmt` for one statement and `fail` for an error of its own;
* `Spec R F P p Q E` — from a state with `P`, in surroundings that move along `R` and let
  statements fail only if `F`, the program returns with `Q` or stops with `E`;
* `Spec.bind`, `Spec.stmt`, … — the rules, one for each constructor.

With `F := True` and `E := fun _ => True` a specification is partial correctness; with `F := False`
and `E := fun _ => False` it says that the program returns.
-/

namespace Statements

/-- What becomes of a statement. -/
inductive Reply where
  | done
  | refused
  /-- It takes effect, but the program does not learn of it. -/
  | lost
  deriving DecidableEq

/-- The surroundings of a program: what the others do before its `n`-th statement, and what becomes
of that statement. -/
structure Env (σ : Type) where
  move : ℕ → σ → σ
  reply : ℕ → Reply

/-- Nobody else moves, and nothing fails. -/
def Env.still (σ : Type) : Env σ := ⟨fun _ s => s, fun _ => .done⟩

/-- The others do not move, and the program is killed at its `n`-th statement. -/
def Env.killedAt (σ : Type) (n : ℕ) : Env σ :=
  ⟨fun _ s => s, fun m => if m < n then .done else .refused⟩

/-- A program over the state `σ`, from its surroundings, the number of statements made so far and
the current state. -/
def Prog (σ ε α : Type) : Type := Env σ → ℕ → σ → Except ε α × ℕ × σ

namespace Prog

variable {σ ε α β : Type}

def ret (a : α) : Prog σ ε α := fun _ n s => (.ok a, n, s)

def fail (e : ε) : Prog σ ε α := fun _ n s => (.error e, n, s)

def andThen (p : Prog σ ε α) (f : α → Prog σ ε β) : Prog σ ε β := fun env n s =>
  match p env n s with
  | (.ok a, n', s') => f a env n' s'
  | (.error e, n', s') => (.error e, n', s')

instance : Monad (Prog σ ε) where
  pure := ret
  bind := andThen

/-- One statement; `e` is the error of a statement that fails. -/
def stmt (e : ε) (f : σ → α × σ) : Prog σ ε α := fun env n s =>
  let s := env.move n s
  match env.reply n with
  | .done => (.ok (f s).1, n + 1, (f s).2)
  | .refused => (.error e, n + 1, s)
  | .lost => (.error e, n + 1, (f s).2)

def read (e : ε) (f : σ → α) : Prog σ ε α := stmt e fun s => (f s, s)

def write (e : ε) (f : σ → σ) : Prog σ ε Unit := stmt e fun s => ((), f s)

def ofExcept : Except ε α → Prog σ ε α
  | .ok a => ret a
  | .error e => fail e

/-! ### Running a program part by part -/

section

variable {env : Env σ} {n n' : ℕ} {s s' : σ}

/-- A statement that succeeds is followed by the rest. -/
theorem bind_of_ok {p : Prog σ ε α} {f : α → Prog σ ε β} {a : α}
    (hp : p env n s = (.ok a, n', s')) : (p >>= f) env n s = f a env n' s' := by
  show andThen p f env n s = f a env n' s'
  rw [andThen, hp]

theorem bind_of_error {p : Prog σ ε α} {f : α → Prog σ ε β} {e : ε}
    (hp : p env n s = (.error e, n', s')) : (p >>= f) env n s = (.error e, n', s') := by
  show andThen p f env n s = (.error e, n', s')
  rw [andThen, hp]

/-- A first part that runs like another program from there. -/
theorem bind_of_eq {p q : Prog σ ε α} {f : α → Prog σ ε β} (hp : p env n s = q env n' s') :
    (p >>= f) env n s = (q >>= f) env n' s' := by
  show andThen p f env n s = andThen q f env n' s'
  rw [andThen, hp]
  rfl

/-- A statement that is done has moved the state. -/
theorem stmt_of_done {e : ε} {f : σ → α × σ} (hreply : env.reply n = .done) :
    stmt e f env n s = (.ok (f (env.move n s)).1, n + 1, (f (env.move n s)).2) := by
  unfold stmt
  rw [hreply]

/-- A read that is done returns what is there. -/
theorem read_of_done {e : ε} {f : σ → α} (hreply : env.reply n = .done) :
    read e f env n s = (.ok (f (env.move n s)), n + 1, env.move n s) := stmt_of_done hreply

end

/-- The result of a program and the state it leaves behind. -/
def outcome (p : Prog σ ε α) (env : Env σ) (s : σ) : Except ε α × σ :=
  ((p env 0 s).1, (p env 0 s).2.2)

end Prog

/-! ## Specifications -/

section

variable {σ ε α β : Type} {R : σ → σ → Prop} {F : Prop}

/-- What is promised of the result of a program and the state it leaves behind. -/
def Ends (Q : α → σ → Prop) (E : σ → Prop) : Except ε α × σ → Prop
  | (.ok a, s) => Q a s
  | (.error _, s) => E s

/-- The others move along `R`, and statements fail only if `F`. -/
structure Env.Obeys (R : σ → σ → Prop) (F : Prop) (env : Env σ) : Prop where
  move : ∀ n s, R s (env.move n s)
  reply : F ∨ ∀ n, env.reply n = .done

def Spec (R : σ → σ → Prop) (F : Prop) (P : σ → Prop) (p : Prog σ ε α) (Q : α → σ → Prop)
    (E : σ → Prop) : Prop :=
  ∀ env : Env σ, env.Obeys R F → ∀ n s, P s → Ends Q E ((p env n s).1, (p env n s).2.2)

variable {P P' : σ → Prop} {p : Prog σ ε α} {Q Q' : α → σ → Prop} {E E' : σ → Prop}

/-- A specification says how a run in an obeying environment ends. -/
theorem Spec.outcome (hp : Spec R F P p Q E) {env : Env σ} (henv : env.Obeys R F) {s : σ}
    (hs : P s) : Ends Q E (p.outcome env s) :=
  hp env henv 0 s hs

/-- The rule of a program without statements. -/
theorem Spec.pure {a : α} (h : ∀ s, P s → Q a s) :
    Spec R F P (Pure.pure a : Prog σ ε α) Q E := by
  intro env _ n s hs
  exact h s hs

theorem Spec.fail {e : ε} (h : ∀ s, P s → E s) : Spec R F P (Prog.fail e : Prog σ ε α) Q E := by
  intro env _ n s hs
  exact h s hs

/-- The rule of a sequence: the middle condition has to hold of what the first part returns. -/
theorem Spec.bind {M : α → σ → Prop} {f : α → Prog σ ε β} {Q : β → σ → Prop}
    (hp : Spec R F P p M E) (hf : ∀ a, Spec R F (M a) (f a) Q E) :
    Spec R F P (p >>= f) Q E := by
  intro env henv n s hs
  have hmid := hp env henv n s hs
  show Ends Q E ((Prog.andThen p f env n s).1, (Prog.andThen p f env n s).2.2)
  unfold Prog.andThen
  -- the result of the first part decides
  match hrun : p env n s with
  | (.ok a, n', s') =>
    rw [hrun] at hmid
    exact hf a env henv n' s' hmid
  | (.error e, n', s') =>
    rw [hrun] at hmid
    exact hmid

/-- **The rule for a statement**: the others move first. -/
theorem Spec.stmt {e : ε} {f : σ → α × σ}
    (h : ∀ s s', P s → R s s' → Q (f s').1 (f s').2 ∧ (F → E s' ∧ E (f s').2)) :
    Spec R F P (Prog.stmt e f) Q E := by
  intro env henv n s hs
  obtain ⟨hdone, hfail⟩ := h s (env.move n s) hs (henv.move n s)
  unfold Prog.stmt
  cases hreply : env.reply n with
  | done => exact hdone
  -- not executed
  | refused =>
    refine (hfail ?_).1
    rcases henv.reply with hF | hall
    · exact hF
    · rw [hall n] at hreply
      cases hreply
  -- executed, but the answer is lost
  | lost =>
    refine (hfail ?_).2
    rcases henv.reply with hF | hall
    · exact hF
    · rw [hall n] at hreply
      cases hreply

/-- The rule of a read: the others move first, and then the value is that of the state. -/
theorem Spec.read {e : ε} {f : σ → α}
    (h : ∀ s s', P s → R s s' → Q (f s') s' ∧ (F → E s')) : Spec R F P (Prog.read e f) Q E :=
  .stmt fun s s' hs hmove =>
    ⟨(h s s' hs hmove).1, fun hF => ⟨(h s s' hs hmove).2 hF, (h s s' hs hmove).2 hF⟩⟩

/-- The rule of a write: when its answer is lost, it may have happened or not. -/
theorem Spec.write {e : ε} {f : σ → σ} {Q : Unit → σ → Prop}
    (h : ∀ s s', P s → R s s' → Q () (f s') ∧ (F → E s' ∧ E (f s'))) :
    Spec R F P (Prog.write e f) Q E :=
  .stmt h

/-- The rule of a check within the process. -/
theorem Spec.ofExcept {r : Except ε α} (hok : ∀ a s, r = .ok a → P s → Q a s)
    (herror : ∀ e s, r = .error e → P s → E s) : Spec R F P (Prog.ofExcept r) Q E := by
  cases r with
  | ok a => exact .pure fun s hs => hok a s rfl hs
  | error e => exact .fail fun s hs => herror e s rfl hs

theorem Spec.mono (hp : Spec R F P p Q E) (hP : ∀ s, P' s → P s)
    (hQ : ∀ a s, Q a s → Q' a s) (hE : ∀ s, E s → E' s) : Spec R F P' p Q' E' := by
  intro env henv n s hs
  have hend := hp env henv n s (hP s hs)
  match hrun : p env n s with
  | (.ok a, n', s') =>
    rw [hrun] at hend
    exact hQ a s' hend
  | (.error e, n', s') =>
    rw [hrun] at hend
    exact hE s' hend

/-- A part that is run only if `c`, and else `a` stands for its result. -/
theorem Spec.ite_bind {c : Prop} [Decidable c] {a : α} {M : α → σ → Prop}
    {f : α → Prog σ ε β} {Q : β → σ → Prop} (hp : c → Spec R F P p M E)
    (ha : ¬ c → ∀ s, P s → M a s) (hf : ∀ a, Spec R F (M a) (f a) Q E) :
    Spec R F P (if c then p >>= f else f a) Q E := by
  split
  · rename_i hc
    exact Spec.bind (hp hc) hf
  · rename_i hc
    exact (hf a).mono (ha hc) (fun _ _ hs => hs) fun _ hs => hs

/-- A sequence may be read from either side. -/
theorem Spec.bind_assoc {γ : Type} {f : α → Prog σ ε β} {g : β → Prog σ ε γ}
    {Q : γ → σ → Prop} (h : Spec R F P (p >>= f >>= g) Q E) :
    Spec R F P (p >>= fun a => f a >>= g) Q E := by
  intro env henv n s hs
  have hend := h env henv n s hs
  have heq : (p >>= f >>= g) env n s = (p >>= fun a => f a >>= g) env n s := by
    show Prog.andThen (Prog.andThen p f) g env n s
      = Prog.andThen p (fun a => Prog.andThen (f a) g) env n s
    unfold Prog.andThen
    match p env n s with
    | (.ok a, n', s') => rfl
    | (.error e, n', s') => rfl
  rw [← heq]
  exact hend

/-- Fewer surroundings. -/
theorem Spec.rely {R' : σ → σ → Prop} {F' : Prop} (hp : Spec R F P p Q E)
    (hR : ∀ s s', R' s s' → R s s') (hF : F' → F) : Spec R' F' P p Q E := by
  intro env henv
  exact hp env ⟨fun n s => hR _ _ (henv.move n s), henv.reply.imp_left hF⟩

/-- What does not depend on the state can be taken out of the precondition. -/
theorem Spec.assume {A : Prop} (hp : A → Spec R F P p Q E) :
    Spec R F (fun s => A ∧ P s) p Q E := by
  intro env henv n s hs
  exact hp hs.1 env henv n s hs.2

/-- A value that the precondition leaves open can be fixed. -/
theorem Spec.exists {τ : Type} {P : τ → σ → Prop} (hp : ∀ x, Spec R F (P x) p Q E) :
    Spec R F (fun s => ∃ x, P x s) p Q E := by
  intro env henv n s hs
  obtain ⟨x, hx⟩ := hs
  exact hp x env henv n s hx

/-! ## Invariants -/

/-- The program keeps `J`, however it ends. -/
def Keeps (R : σ → σ → Prop) (J : σ → Prop) (p : Prog σ ε α) : Prop :=
  Spec R True J p (fun _ => J) J

variable {J : σ → Prop}

/-- A program that keeps an invariant keeps it however it ends. -/
theorem Keeps.outcome (hp : Keeps R J p) {env : Env σ} (henv : ∀ n s, R s (env.move n s)) {s : σ}
    (hs : J s) : J (p.outcome env s).2 := by
  have hend : Ends (fun _ => J) J (p.outcome env s) :=
    Spec.outcome hp ⟨henv, Or.inl trivial⟩ hs
  match hrun : p.outcome env s with
  | (.ok a, s') =>
    rw [hrun] at hend
    exact hend
  | (.error e, s') =>
    rw [hrun] at hend
    exact hend

theorem Keeps.pure (a : α) : Keeps R J (Pure.pure a : Prog σ ε α) := Spec.pure fun _ hs => hs

theorem Keeps.fail (e : ε) : Keeps R J (Prog.fail e : Prog σ ε α) := Spec.fail fun _ hs => hs

/-- A sequence keeps what its parts keep. -/
theorem Keeps.bind {f : α → Prog σ ε β} (hp : Keeps R J p) (hf : ∀ a, Keeps R J (f a)) :
    Keeps R J (p >>= f) := Spec.bind hp hf

/-- A statement keeps what the others and its own effect keep. -/
theorem Keeps.stmt {e : ε} {f : σ → α × σ} (hmove : ∀ s s', J s → R s s' → J s')
    (hf : ∀ s, J s → J (f s).2) : Keeps R J (Prog.stmt e f) :=
  Spec.stmt fun s s' hs hR =>
    ⟨hf s' (hmove s s' hs hR), fun _ => ⟨hmove s s' hs hR, hf s' (hmove s s' hs hR)⟩⟩

theorem Keeps.read {e : ε} {f : σ → α} (hmove : ∀ s s', J s → R s s' → J s') :
    Keeps R J (Prog.read e f) := Keeps.stmt hmove fun _ hs => hs

theorem Keeps.write {e : ε} {f : σ → σ} (hmove : ∀ s s', J s → R s s' → J s')
    (hf : ∀ s, J s → J (f s)) : Keeps R J (Prog.write e f) := Keeps.stmt hmove hf

theorem Keeps.ofExcept (r : Except ε α) : Keeps R J (Prog.ofExcept r) :=
  Spec.ofExcept (fun _ _ _ hs => hs) fun _ _ _ hs => hs

end

end Statements
