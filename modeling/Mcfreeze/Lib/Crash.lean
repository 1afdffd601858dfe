import Mathlib.Logic.Relation
import Mathlib.Data.List.Forall2

/-!
# Programs that can be killed

A program over a store `σ` is a tree of atomic operations.  Between two operations it can
be killed, and any operation can fail without effect.  Where several tasks run at the same
time the program contains a *phase*, a transition system over the store that it waits for.

`wp I Q p s` says that the program `p`, started in the store `s`, keeps the store in `I`
whatever happens, and that `Q` holds of its result and the store if it returns one.  Since
`I` holds at every point, it holds of the store a killed program leaves behind; a
`Session` is a sequence of runs over one store, each killed at some point or run to the
end, and an invariant of the single runs is an invariant of the session.
-/

namespace Crash

/-! ### Programs -/

/-- A program over the store `σ` with errors in `ε` and phases in `S`. -/
inductive Prog (σ ε S α : Type) : Type where
  | done (result : Except ε α)
  | op (update : σ → σ) (next : σ → Prog σ ε S α)
  | choose (next : Nat → Prog σ ε S α)
  | phase (start : S) (next : S → Prog σ ε S α)

/-- The transition systems of the phases: how a phase moves together with the store, and
when it is over. -/
structure Phases (S σ : Type) where
  step : S → σ → S → σ → Prop
  final : S → Prop

/-- No phases. -/
def Phases.none (σ : Type) : Phases Empty σ where
  step c := c.elim
  final c := c.elim

/-- Phases of two kinds. -/
def Phases.sum {S T σ : Type} (P : Phases S σ) (R : Phases T σ) : Phases (S ⊕ T) σ where
  step
    | .inl c, s, .inl c', s' => P.step c s c' s'
    | .inr c, s, .inr c', s' => R.step c s c' s'
    | _, _, _, _ => False
  final
    | .inl c => P.final c
    | .inr c => R.final c

namespace Prog

variable {σ ε S α β : Type}

/-- Run `p`, and `f` on its result. -/
def bind (p : Prog σ ε S α) (f : α → Prog σ ε S β) : Prog σ ε S β :=
  match p with
  | done (.ok a) => f a
  | done (.error e) => done (.error e)
  | op update next => op update fun s => (next s).bind f
  | choose next => choose fun k => (next k).bind f
  | phase start next => phase start fun c => (next c).bind f

instance : Monad (Prog σ ε S) where
  pure a := done (.ok a)
  bind := bind

/-- Give up with an error. -/
def throw (e : ε) : Prog σ ε S α := done (.error e)

/-- Look at the store. -/
def read : Prog σ ε S σ := op id fun s => done (.ok s)

/-- Change the store in one operation. -/
def modify (update : σ → σ) : Prog σ ε S Unit := op update fun _ => done (.ok ())

/-- One operation that looks at the store and changes it, or fails without effect. -/
def atomic (f : σ → Except ε (α × σ)) : Prog σ ε S α :=
  op (fun s => match f s with
      | .ok (_, s') => s'
      | .error _ => s)
    fun s => match f s with
      | .ok (a, _) => done (.ok a)
      | .error e => done (.error e)

/-- A number the environment picks. -/
def pick : Prog σ ε S Nat := choose fun k => done (.ok k)

/-- The result of a pure computation. -/
def ofExcept (r : Except ε α) : Prog σ ε S α := done r

/-- Run a phase. -/
def await (start : S) : Prog σ ε S S := phase start fun c => done (.ok c)

/-- One step of a program: an operation is carried out or fails, the environment picks a
number, a phase moves or is over. -/
inductive Step (P : Phases S σ) : Prog σ ε S α → σ → Prog σ ε S α → σ → Prop where
  | op {update next s} : Step P (op update next) s (next s) (update s)
  | fail {update next s} (e : ε) : Step P (op update next) s (done (.error e)) s
  | choose {next s} (k : Nat) : Step P (choose next) s (next k) s
  | move {c c' next s s'} : P.step c s c' s' → Step P (phase c next) s (phase c' next) s'
  | leave {c next s} : P.final c → Step P (phase c next) s (next c) s

/-- Some steps of a program. -/
inductive Steps (P : Phases S σ) : Prog σ ε S α → σ → Prog σ ε S α → σ → Prop where
  | refl {p s} : Steps P p s p s
  | head {p p' p'' s s' s''} : Step P p s p' s' → Steps P p' s' p'' s'' → Steps P p s p'' s''

end Prog

open Prog

/-! ### Weakest preconditions -/

section

variable {σ ε S α β : Type} {P : Phases S σ} {I : σ → Prop}

/-- The program keeps the store in `I`, and `Q` holds when it returns a result.  A phase
needs an invariant of its own. -/
def wp (P : Phases S σ) (I : σ → Prop) (Q : α → σ → Prop) : Prog σ ε S α → σ → Prop
  | done (.ok a), s => I s ∧ Q a s
  | done (.error _), s => I s
  | op update next, s => I s ∧ wp P I Q (next s) (update s)
  | choose next, s => I s ∧ ∀ k, wp P I Q (next k) s
  | phase start next, s => ∃ K : S → σ → Prop, K start s ∧
      (∀ c s, K c s → I s) ∧
      (∀ c s c' s', K c s → P.step c s c' s' → K c' s') ∧
      ∀ c s, K c s → P.final c → wp P I Q (next c) s

/-- The invariant holds where the program starts. -/
theorem wp_inv {Q : α → σ → Prop} {p : Prog σ ε S α} {s : σ} (h : wp P I Q p s) :
  I s
  := by
  cases p with
  | done result =>
    cases result with
    | ok a => apply h.1
    | error e => apply h
  | op update next => apply h.1
  | choose next => apply h.1
  | phase start next =>
    obtain ⟨K, hK, hI, -⟩ := h
    apply hI _ _ hK

/-- A step of the program preserves its weakest precondition. -/
theorem wp_step {Q : α → σ → Prop} {p p' : Prog σ ε S α} {s s' : σ} (h : wp P I Q p s)
    (hstep : Step P p s p' s') :
  wp P I Q p' s'
  := by
  cases hstep with
  | op => apply h.2
  | fail e => apply h.1
  | choose k => apply h.2 k
  | move hmove =>
    obtain ⟨K, hK, hI, hpres, hfinal⟩ := h
    exact ⟨K, hpres _ _ _ _ hK hmove, hI, hpres, hfinal⟩
  | leave hover =>
    obtain ⟨K, hK, hI, hpres, hfinal⟩ := h
    apply hfinal _ _ hK hover

theorem wp_steps {Q : α → σ → Prop} {p p' : Prog σ ε S α} {s s' : σ} (h : wp P I Q p s)
    (hsteps : Steps P p s p' s') :
  wp P I Q p' s'
  := by
  induction hsteps with
  | refl => apply h
  | head hstep _ ih => apply ih (wp_step h hstep)

/-- The postcondition may be weakened, on the stores with the invariant. -/
theorem wp_mono {Q R : α → σ → Prop} {p : Prog σ ε S α} {s : σ} (h : wp P I Q p s)
    (hQ : ∀ a s, I s → Q a s → R a s) :
  wp P I R p s
  := by
  induction p generalizing s with
  | done result =>
    cases result with
    | ok a => exact ⟨h.1, hQ a s h.1 h.2⟩
    | error e => apply h
  | op update next ih =>
    constructor
    · apply h.1
    · apply ih _ h.2
  | choose next ih =>
    constructor
    · apply h.1
    · intro k
      apply ih _ (h.2 k)
  | phase start next ih =>
    obtain ⟨K, hK, hI, hpres, hfinal⟩ := h
    refine ⟨K, hK, hI, hpres, ?_⟩
    intro c s hc hf
    apply ih _ (hfinal c s hc hf)

/-- The invariant may be weakened. -/
theorem wp_weaken {J : σ → Prop} {Q : α → σ → Prop} {p : Prog σ ε S α} {s : σ} (h : wp P I Q p s)
    (hI : ∀ s, I s → J s) :
  wp P J Q p s
  := by
  induction p generalizing s with
  | done result =>
    cases result with
    | ok a => exact ⟨hI s h.1, h.2⟩
    | error e => apply hI s h
  | op update next ih =>
    constructor
    · apply hI s h.1
    · apply ih _ h.2
  | choose next ih =>
    constructor
    · apply hI s h.1
    · intro k
      apply ih _ (h.2 k)
  | phase start next ih =>
    obtain ⟨K, hK, hinv, hpres, hfinal⟩ := h
    refine ⟨K, hK, fun c s hc => hI s (hinv c s hc), hpres, ?_⟩
    intro c s hc hf
    apply ih _ (hfinal c s hc hf)

/-- What is known of a program can be put together. -/
theorem wp_and {J : σ → Prop} {Q R : α → σ → Prop} {p : Prog σ ε S α} {s : σ} (h : wp P I Q p s)
    (h' : wp P J R p s) :
  wp P (fun s => I s ∧ J s) (fun a s => Q a s ∧ R a s) p s
  := by
  induction p generalizing s with
  | done result =>
    cases result with
    | ok a => exact ⟨⟨h.1, h'.1⟩, h.2, h'.2⟩
    | error e => exact ⟨h, h'⟩
  | op update next ih => exact ⟨⟨h.1, h'.1⟩, ih _ h.2 h'.2⟩
  | choose next ih => exact ⟨⟨h.1, h'.1⟩, fun k => ih _ (h.2 k) (h'.2 k)⟩
  | phase start next ih =>
    obtain ⟨K, hK, hI, hpres, hfinal⟩ := h
    obtain ⟨K', hK', hI', hpres', hfinal'⟩ := h'
    refine ⟨fun c s => K c s ∧ K' c s, ⟨hK, hK'⟩, ?_, ?_, ?_⟩
    · rintro c s ⟨hc, hc'⟩
      exact ⟨hI c s hc, hI' c s hc'⟩
    · rintro c s c' s' ⟨hc, hc'⟩ hstep
      exact ⟨hpres c s c' s' hc hstep, hpres' c s c' s' hc' hstep⟩
    · rintro c s ⟨hc, hc'⟩ hf
      apply ih _ (hfinal c s hc hf) (hfinal' c s hc' hf)

/-- Nothing has to be known of a program to know nothing of its results. -/
theorem wp_trivial {p : Prog σ ε S α} {s : σ} :
  wp P (fun _ => True) (fun _ _ => True) p s
  := by
  induction p generalizing s with
  | done result => cases result <;> simp [wp]
  | op update next ih => exact ⟨trivial, ih _⟩
  | choose next ih => exact ⟨trivial, fun k => ih k⟩
  | phase start next ih =>
    exact ⟨fun _ _ => True, trivial, fun _ _ _ => trivial, fun _ _ _ _ _ _ => trivial,
      fun c _ _ _ => ih c⟩

/-- Sequencing: the second program starts where the first one returned. -/
theorem wp_bind {Q : β → σ → Prop} {p : Prog σ ε S α} {f : α → Prog σ ε S β} {s : σ}
    (h : wp P I (fun a s => wp P I Q (f a) s) p s) :
  wp P I Q (p >>= f) s
  := by
  induction p generalizing s with
  | done result =>
    cases result with
    | ok a => apply h.2
    | error e => apply h
  | op update next ih =>
    constructor
    · apply h.1
    · apply ih _ h.2
  | choose next ih =>
    constructor
    · apply h.1
    · intro k
      apply ih _ (h.2 k)
  | phase start next ih =>
    obtain ⟨K, hK, hI, hpres, hfinal⟩ := h
    refine ⟨K, hK, hI, hpres, ?_⟩
    intro c s hc hf
    apply ih _ (hfinal c s hc hf)

theorem wp_pure {Q : α → σ → Prop} {a : α} {s : σ} (hI : I s) (hQ : Q a s) :
  wp P I Q (pure a : Prog σ ε S α) s
  :=
  ⟨hI, hQ⟩

theorem wp_throw {Q : α → σ → Prop} {e : ε} {s : σ} (hI : I s) :
  wp P I Q (throw e : Prog σ ε S α) s
  :=
  hI

theorem wp_ofExcept {Q : α → σ → Prop} {r : Except ε α} {s : σ} (hI : I s)
    (hQ : ∀ a, r = .ok a → Q a s) :
  wp P I Q (ofExcept r : Prog σ ε S α) s
  := by
  cases r with
  | ok a => exact ⟨hI, hQ a rfl⟩
  | error e => apply hI

theorem wp_read {Q : σ → σ → Prop} {s : σ} (hI : I s) (hQ : Q s s) :
  wp P I Q (read : Prog σ ε S σ) s
  :=
  ⟨hI, hI, hQ⟩

theorem wp_modify {Q : Unit → σ → Prop} {update : σ → σ} {s : σ} (hI : I s)
    (hI' : I (update s)) (hQ : Q () (update s)) :
  wp P I Q (modify update : Prog σ ε S Unit) s
  :=
  ⟨hI, hI', hQ⟩

/-- An atomic operation fails and changes nothing, or takes effect at once. -/
theorem wp_atomic {Q : α → σ → Prop} {f : σ → Except ε (α × σ)} {s : σ} (hI : I s)
    (hQ : ∀ a s', f s = .ok (a, s') → I s' ∧ Q a s') :
  wp P I Q (atomic f : Prog σ ε S α) s
  := by
  rw [atomic, wp]
  refine ⟨hI, ?_⟩
  cases hf : f s with
  | ok r =>
    obtain ⟨a, s'⟩ := r
    apply hQ a s' hf
  | error e => apply hI

theorem wp_pick {Q : Nat → σ → Prop} {s : σ} (hI : I s) (hQ : ∀ k, Q k s) :
  wp P I Q (pick : Prog σ ε S Nat) s
  :=
  ⟨hI, fun k => ⟨hI, hQ k⟩⟩

/-- A loop over a list: `R rest s` holds before each iteration. -/
theorem wp_forM {f : α → Prog σ ε S Unit} {R : List α → σ → Prop}
    (hI : ∀ rest s, R rest s → I s)
    (hstep : ∀ x rest s, R (x :: rest) s → wp P I (fun _ s' => R rest s') (f x) s)
    (l : List α) (s : σ) (h : R l s) :
  wp P I (fun _ s' => R [] s') (l.forM f) s
  := by
  induction l generalizing s with
  | nil => exact ⟨hI _ s h, h⟩
  | cons x l ih =>
    apply wp_bind (p := f x)
    apply wp_mono (hstep x l s h)
    intro _ s' _ h'
    apply ih s' h'

/-- A loop over a list with a state: `R rest b s` holds before each iteration. -/
theorem wp_foldlM {f : β → α → Prog σ ε S β} {R : List α → β → σ → Prop}
    (hI : ∀ rest b s, R rest b s → I s)
    (hstep : ∀ x rest b s, R (x :: rest) b s → wp P I (fun b' s' => R rest b' s') (f b x) s)
    (l : List α) (b : β) (s : σ) (h : R l b s) :
  wp P I (fun b' s' => R [] b' s') (l.foldlM f b) s
  := by
  induction l generalizing b s with
  | nil => apply wp_pure (hI _ _ _ h) h
  | cons x rest ih =>
    rw [List.foldlM_cons]
    apply wp_bind
    apply wp_mono (hstep x rest b s h)
    intro b' s' _ h'
    apply ih _ _ h'

end

/-! ### Runs without failures -/

section

variable {σ ε S α β : Type}

/-- When no operation fails, the program returns a result in `Q` without waiting for a
phase, whatever numbers are picked. -/
def Ends (Q : α → σ → Prop) : Prog σ ε S α → σ → Prop
  | done (.ok a), s => Q a s
  | done (.error _), _ => False
  | op update next, s => Ends Q (next s) (update s)
  | choose next, s => ∀ k, Ends Q (next k) s
  | phase _ _, _ => False

/-- The postcondition may be weakened. -/
theorem Ends.mono {Q R : α → σ → Prop} {p : Prog σ ε S α} {s : σ} (h : Ends Q p s)
    (hQ : ∀ a s, Q a s → R a s) :
  Ends R p s
  := by
  induction p generalizing s with
  | done result =>
    cases result with
    | ok a => apply hQ a s h
    | error e => apply h
  | op update next ih => apply ih _ h
  | choose next ih =>
    intro k
    apply ih _ (h k)
  | phase c => exact h.elim

/-- A sequence ends when its second part does from where the first one ends. -/
theorem Ends.bind {Q : β → σ → Prop} {p : Prog σ ε S α} {f : α → Prog σ ε S β} {s : σ}
    (h : Ends (fun a s => Ends Q (f a) s) p s) :
  Ends Q (p >>= f) s
  := by
  induction p generalizing s with
  | done result =>
    cases result with
    | ok a => apply h
    | error e => exact h.elim
  | op update next ih => apply ih _ h
  | choose next ih =>
    intro k
    apply ih _ (h k)
  | phase c => exact h.elim

theorem Ends.read {Q : σ → σ → Prop} {s : σ} (hQ : Q s s) :
  Ends Q (read : Prog σ ε S σ) s
  :=
  hQ

theorem Ends.ofExcept {Q : α → σ → Prop} {r : Except ε α} {s : σ} {a : α} (h : r = .ok a) (hQ : Q a s) :
  Ends Q (ofExcept r : Prog σ ε S α) s
  := by
  rw [Prog.ofExcept, h]
  exact hQ

theorem Ends.atomic {Q : α → σ → Prop} {f : σ → Except ε (α × σ)} {s s' : σ} {a : α}
    (h : f s = .ok (a, s')) (hQ : Q a s') :
  Ends Q (atomic f : Prog σ ε S α) s
  := by
  rw [Prog.atomic, Ends, h]
  exact hQ

/-- A loop over a list: `R rest s` holds before each iteration. -/
theorem Ends.forM {f : α → Prog σ ε S Unit} {R : List α → σ → Prop}
    (hstep : ∀ x rest s, R (x :: rest) s → Ends (fun _ s' => R rest s') (f x) s)
    (l : List α) (s : σ) (h : R l s) :
  Ends (fun _ s' => R [] s') (l.forM f) s
  := by
  induction l generalizing s with
  | nil => exact h
  | cons x l ih =>
    apply Ends.bind (p := f x)
    apply (hstep x l s h).mono
    intro _ s' h'
    apply ih s' h'

end

/-! ### The errors of a program -/

section

variable {σ ε α β : Type} {F X : ε → Prop}

/-- A run to the end, in which operations fail from outside only with errors in `F`. -/
inductive RunsTo (F : ε → Prop) : Prog σ ε Empty α → σ → Except ε α → σ → Prop where
  | done {r s} : RunsTo F (done r) s r s
  | op {update next s r s'} : RunsTo F (next s) (update s) r s' → RunsTo F (op update next) s r s'
  | fail {update next s} {e : ε} : F e → RunsTo F (op update next) s (.error e) s
  | choose {next s r s'} (k : Nat) : RunsTo F (next k) s r s' → RunsTo F (choose next) s r s'

/-- In every store, the errors that the program itself gives up with are in `X`. -/
def Quiet (X : ε → Prop) : Prog σ ε Empty α → Prop
  | done (.ok _) => True
  | done (.error e) => X e
  | op _ next => ∀ s, Quiet X (next s)
  | choose next => ∀ k, Quiet X (next k)
  | phase c _ => c.elim

/-- A sequence gives up with nothing but the errors of its parts. -/
theorem Quiet.bind {p : Prog σ ε Empty α} {f : α → Prog σ ε Empty β} (h : Quiet X p)
    (hf : ∀ a, Quiet X (f a)) :
  Quiet X (p >>= f)
  := by
  induction p with
  | done result =>
    cases result with
    | ok a => apply hf
    | error e => apply h
  | op update next ih =>
    intro s
    apply ih s (h s)
  | choose next ih =>
    intro k
    apply ih k (h k)
  | phase c => exact c.elim

theorem Quiet.pure {a : α} :
  Quiet X (pure a : Prog σ ε Empty α)
  :=
  trivial

theorem Quiet.ofExcept {r : Except ε α} (h : ∀ e, r = .error e → X e) :
  Quiet X (ofExcept r : Prog σ ε Empty α)
  := by
  cases r with
  | ok a => trivial
  | error e => apply h e rfl

theorem Quiet.read :
  Quiet X (read : Prog σ ε Empty σ)
  :=
  fun _ => trivial

theorem Quiet.modify {update : σ → σ} :
  Quiet X (modify update : Prog σ ε Empty Unit)
  :=
  fun _ => trivial

theorem Quiet.pick :
  Quiet X (pick : Prog σ ε Empty Nat)
  :=
  fun _ => trivial

theorem Quiet.atomic {f : σ → Except ε (α × σ)} (h : ∀ s e, f s = .error e → X e) :
  Quiet X (atomic f : Prog σ ε Empty α)
  := by
  intro s
  dsimp only
  cases hf : f s with
  | ok r => trivial
  | error e => apply h s e hf

theorem Quiet.forM {f : α → Prog σ ε Empty Unit} (h : ∀ a, Quiet X (f a)) (l : List α) :
  Quiet X (l.forM f)
  := by
  induction l with
  | nil => apply Quiet.pure
  | cons a l ih => apply Quiet.bind (h a) (fun _ => ih)

/-- When no operation fails from outside, the program returns a result in `Q` or gives up
with an error in `X`, whatever numbers are picked. -/
def Outcome (X : ε → Prop) (Q : α → σ → Prop) : Prog σ ε Empty α → σ → Prop
  | done (.ok a), s => Q a s
  | done (.error e), _ => X e
  | op update next, s => Outcome X Q (next s) (update s)
  | choose next, s => ∀ k, Outcome X Q (next k) s
  | phase c _, _ => c.elim

/-- A run ends with an error in `X`, if the failures from outside are in `X` as well. -/
theorem Outcome.runsTo {Q : α → σ → Prop} {p : Prog σ ε Empty α} {s s' : σ} {r : Except ε α}
    (h : Outcome X Q p s) (hF : ∀ e, F e → X e) (hrun : RunsTo F p s r s') :
  ∀ e, r = .error e → X e
  := by
  induction hrun with
  | done =>
    rintro e rfl
    apply h
  | op _ ih => apply ih h
  | fail hfail =>
    intro e he
    obtain rfl := Except.error.inj he
    apply hF _ hfail
  | choose k _ ih => apply ih (h k)

/-- The postcondition may be weakened. -/
theorem Outcome.mono {Q R : α → σ → Prop} {p : Prog σ ε Empty α} {s : σ} (h : Outcome X Q p s)
    (hQ : ∀ a s, Q a s → R a s) :
  Outcome X R p s
  := by
  induction p generalizing s with
  | done result =>
    cases result with
    | ok a => apply hQ a s h
    | error e => apply h
  | op update next ih => apply ih _ h
  | choose next ih =>
    intro k
    apply ih _ (h k)
  | phase c => exact c.elim

/-- A sequence has the outcome of its second part from where the first one ends. -/
theorem Outcome.bind {Q : β → σ → Prop} {p : Prog σ ε Empty α} {f : α → Prog σ ε Empty β} {s : σ}
    (h : Outcome X (fun a s => Outcome X Q (f a) s) p s) :
  Outcome X Q (p >>= f) s
  := by
  induction p generalizing s with
  | done result =>
    cases result with
    | ok a => apply h
    | error e => apply h
  | op update next ih => apply ih _ h
  | choose next ih =>
    intro k
    apply ih _ (h k)
  | phase c => exact c.elim

theorem Outcome.ofExcept {Q : α → σ → Prop} {r : Except ε α} {s : σ} (hX : ∀ e, r = .error e → X e)
    (hQ : ∀ a, r = .ok a → Q a s) :
  Outcome X Q (ofExcept r) s
  := by
  cases r with
  | ok a => apply hQ a rfl
  | error e => apply hX e rfl

theorem Outcome.read {Q : σ → σ → Prop} {s : σ} (hQ : Q s s) :
  Outcome X Q (read : Prog σ ε Empty σ) s
  :=
  hQ

theorem Outcome.modify {Q : Unit → σ → Prop} {update : σ → σ} {s : σ} (hQ : Q () (update s)) :
  Outcome X Q (modify update : Prog σ ε Empty Unit) s
  :=
  hQ

/-- What is known of the results of a program whose errors are in `X`. -/
theorem Quiet.outcome {I : σ → Prop} {Q : α → σ → Prop} {p : Prog σ ε Empty α} {s : σ} (h : Quiet X p)
    (hwp : wp (.none σ) I Q p s) :
  Outcome X Q p s
  := by
  induction p generalizing s with
  | done result =>
    cases result with
    | ok a => apply hwp.2
    | error e => apply h
  | op update next ih => apply ih s (h s) hwp.2
  | choose next ih =>
    intro k
    apply ih k (h k) (hwp.2 k)
  | phase c => exact c.elim

/-- A loop over a list with a state: `R rest b s` holds before each iteration. -/
theorem Outcome.foldlM {f : β → α → Prog σ ε Empty β} {R : List α → β → σ → Prop}
    (hstep : ∀ x rest b s, R (x :: rest) b s → Outcome X (fun b' s' => R rest b' s') (f b x) s)
    (l : List α) (b : β) (s : σ) (h : R l b s) :
  Outcome X (fun b' s' => R [] b' s') (l.foldlM f b) s
  := by
  induction l generalizing b s with
  | nil => exact h
  | cons x rest ih =>
    rw [List.foldlM_cons]
    apply Outcome.bind
    apply (hstep x rest b s h).mono
    intro b' s' h'
    apply ih _ _ h'

end

/-! ### Tasks on disjoint parts of the store -/

/-- The parts of a store: each key has its own part, and parts of different keys do not
overlap. -/
structure Parts (κ σ τ : Type) where
  get : κ → σ → τ
  put : κ → τ → σ → σ
  get_put : ∀ k t s, get k (put k t s) = t
  put_get : ∀ k s, put k (get k s) s = s
  get_put_ne : ∀ k k' t s, k ≠ k' → get k (put k' t s) = get k s

/-- A program over the part of a key, as a program over the store. -/
def Prog.lift {κ σ τ ε S α : Type} (L : Parts κ σ τ) (k : κ) :
    Prog τ ε Empty α → Prog σ ε S α
  | done r => done r
  | op update next => op (fun s => L.put k (update (L.get k s)) s) fun s => (next (L.get k s)).lift L k
  | choose next => choose fun i => (next i).lift L k
  | phase c _ => c.elim

/-- A program that ends over a part of the store ends over the whole. -/
theorem Ends.lift {κ σ τ ε S α : Type} {L : Parts κ σ τ} {k : κ} {Q : α → τ → Prop}
    {p : Prog τ ε Empty α} {s : σ} (h : Ends Q p (L.get k s)) :
  Ends (fun a s' => Q a (L.get k s')) (p.lift L k : Prog σ ε S α) s
  := by
  induction p generalizing s with
  | done result =>
    cases result with
    | ok a => apply h
    | error e => exact h.elim
  | op update next ih =>
    apply ih
    rw [L.get_put]
    apply h
  | choose next ih =>
    intro i
    apply ih i (h i)
  | phase c => exact c.elim

/-- A program over the part of `k`: `G` is what is known of the rest of the store, and
what every operation on the part keeps. -/
theorem wp_lift {κ σ τ ε S α : Type} {L : Parts κ σ τ} {P : Phases S σ} {k : κ} {I : σ → Prop}
    {Q : α → σ → Prop} {J : τ → Prop} {R : α → τ → Prop} {G : σ → Prop}
    {p : Prog τ ε Empty α} {s : σ} (hinv : ∀ s, G s → J (L.get k s) → I s)
    (hput : ∀ t s, G s → J (L.get k s) → J t → G (L.put k t s))
    (hpost : ∀ a s, G s → J (L.get k s) → R a (L.get k s) → Q a s) (hG : G s)
    (h : wp (.none τ) J R p (L.get k s)) :
  wp P I Q (p.lift L k) s
  := by
  induction p generalizing s with
  | done result =>
    cases result with
    | ok a => exact ⟨hinv s hG h.1, hpost a s hG h.1 h.2⟩
    | error e => apply hinv s hG h
  | op update next ih =>
    have hnext := h.2
    refine ⟨hinv s hG h.1, ?_⟩
    apply ih
    · apply hput _ _ hG h.1 (wp_inv hnext)
    · rw [L.get_put]
      apply hnext
  | choose next ih =>
    refine ⟨hinv s hG h.1, ?_⟩
    intro i
    apply ih _ hG (h.2 i)
  | phase c next => exact c.elim

section

variable {κ σ τ ε β : Type}

/-- Tasks that run at the same time, each over the part of the store of its key. -/
abbrev Tasks (κ τ ε β : Type) := List (κ × Prog τ ε Empty β)

/-- Some task takes a step; the phase is over when every task has ended. -/
def Parts.tasks (L : Parts κ σ τ) (ε β : Type) : Phases (Tasks κ τ ε β) σ where
  step ts s ts' s' := ∃ (i : Nat) (k : κ) (p p' : Prog τ ε Empty β) (t' : τ),
    ts[i]? = some (k, p) ∧ Step (.none τ) p (L.get k s) p' t'
      ∧ ts' = ts.set i (k, p') ∧ s' = L.put k t' s
  final ts := ∀ t ∈ ts, ∃ r, t.2 = done r

/-- The results of tasks that have ended, or the error of the first that failed. -/
def Tasks.results : Tasks κ τ ε β → Except ε (List β)
  | [] => .ok []
  | (_, done (.ok b)) :: ts =>
    match results ts with
    | .ok bs => .ok (b :: bs)
    | .error e => .error e
  | (_, done (.error e)) :: _ => .error e
  | (_, op _ _) :: ts => results ts
  | (_, choose _) :: ts => results ts
  | (_, phase _ _) :: ts => results ts

/-- The task of key `k` keeps its part in `I k` and gives a result in `Q k`. -/
def Tasks.Safe (L : Parts κ σ τ) (I : κ → τ → Prop) (Q : κ → β → τ → Prop)
    (ts : Tasks κ τ ε β) (s : σ) : Prop :=
  ∀ t ∈ ts, wp (.none τ) (I t.1) (Q t.1) t.2 (L.get t.1 s)

/-- A step of one task keeps every task safe: the others do not see it. -/
theorem Tasks.Safe.step {L : Parts κ σ τ} {I : κ → τ → Prop} {Q : κ → β → τ → Prop}
    {ts ts' : Tasks κ τ ε β} {s s' : σ} (h : ts.Safe L I Q s)
    (hnodup : (ts.map Prod.fst).Nodup) (hstep : (L.tasks ε β).step ts s ts' s') :
  ts'.Safe L I Q s' ∧ ts'.map Prod.fst = ts.map Prod.fst
    ∧ ∃ k ∈ ts.map Prod.fst, ∃ t', I k t' ∧ s' = L.put k t' s
  := by
  obtain ⟨i, k, p, p', t', hi, hp, rfl, rfl⟩ := hstep
  have hlt : i < ts.length := (List.getElem?_eq_some_iff.mp hi).1
  have hget : ts[i] = (k, p) := (List.getElem?_eq_some_iff.mp hi).2
  have hmem : (k, p) ∈ ts := List.mem_of_getElem? hi
  have hwp : wp (.none τ) (I k) (Q k) p' t' := wp_step (h _ hmem) hp
  refine ⟨?_, ?_, k, List.mem_map_of_mem hmem, t', wp_inv hwp, rfl⟩
  · intro x hx
    obtain ⟨j, hj, rfl⟩ := List.mem_iff_getElem.mp hx
    rw [List.getElem_set]
    split
    · rw [L.get_put]
      apply hwp
    · next hij =>
      have hj' : j < ts.length := by simpa using hj
      have hne : ts[j].1 ≠ k := by
        intro heq
        apply hij
        have hmap : (ts.map Prod.fst)[i]? = (ts.map Prod.fst)[j]? := by
          simp [hlt, hj', hget, heq]
        apply (List.getElem?_inj (by simpa using hlt) hnodup).mp hmap
      rw [L.get_put_ne _ _ _ _ hne]
      apply h _ (List.getElem_mem hj')
  · rw [List.map_set]
    apply List.ext_getElem
    · simp
    · intro j h₁ h₂
      rw [List.getElem_set]
      split
      · next hij =>
        subst hij
        simp [hget]
      · rfl

theorem Tasks.Safe.inv {L : Parts κ σ τ} {I : κ → τ → Prop} {Q : κ → β → τ → Prop}
    {ts : Tasks κ τ ε β} {s : σ} (h : ts.Safe L I Q s) :
  ∀ k ∈ ts.map Prod.fst, I k (L.get k s)
  := by
  intro k hk
  obtain ⟨t, ht, rfl⟩ := List.mem_map.mp hk
  apply wp_inv (h t ht)

/-- Safe tasks that have all ended well gave a result in `Q` each, in the order of the
tasks. -/
theorem Tasks.Safe.results {L : Parts κ σ τ} {I : κ → τ → Prop} {Q : κ → β → τ → Prop}
    {ts : Tasks κ τ ε β} {s : σ} {bs : List β} (h : ts.Safe L I Q s)
    (hfinal : (L.tasks ε β).final ts) (hres : ts.results = .ok bs) :
  List.Forall₂ (fun k b => Q k b (L.get k s)) (ts.map Prod.fst) bs
  := by
  induction ts generalizing bs with
  | nil =>
    obtain rfl : [] = bs := Except.ok.inj hres
    apply List.Forall₂.nil
  | cons t ts ih =>
    obtain ⟨k, p⟩ := t
    obtain ⟨r, hr⟩ := hfinal (k, p) List.mem_cons_self
    obtain rfl : p = done r := hr
    cases r with
    | error e => simp [Tasks.results] at hres
    | ok b =>
      rw [Tasks.results] at hres
      split at hres
      · next bs' hbs =>
        obtain rfl := Except.ok.inj hres
        apply List.Forall₂.cons
        · apply (h _ List.mem_cons_self).2
        · apply ih
          · intro t ht
            apply h t (List.mem_cons_of_mem _ ht)
          · intro t ht
            apply hfinal t (List.mem_cons_of_mem _ ht)
          · apply hbs
      · simp at hres

end

section

variable {κ σ τ ε β S : Type} {L : Parts κ σ τ} {R : Phases S σ} {I : σ → Prop}

/-- Waiting for safe tasks: `G` is what the rest of the program knows of the store, and
what every operation of a task must keep. -/
theorem wp_await_tasks {J : κ → τ → Prop} {W : κ → β → τ → Prop} {G : σ → Prop}
    {Q : Tasks κ τ ε β ⊕ S → σ → Prop} {ts : Tasks κ τ ε β} {s : σ}
    (hnodup : (ts.map Prod.fst).Nodup) (hsafe : ts.Safe L J W s) (hG : G s)
    (hinv : ∀ s, G s → (∀ k ∈ ts.map Prod.fst, J k (L.get k s)) → I s)
    (hput : ∀ k ∈ ts.map Prod.fst, ∀ t s, G s → (∀ k ∈ ts.map Prod.fst, J k (L.get k s)) →
      J k t → G (L.put k t s))
    (hpost : ∀ ts' s, ts'.map Prod.fst = ts.map Prod.fst → (L.tasks ε β).final ts' →
      ts'.Safe L J W s → G s → Q (.inl ts') s) :
  wp ((L.tasks ε β).sum R) I Q (await (.inl ts) : Prog σ ε (Tasks κ τ ε β ⊕ S) _) s
  := by
  let K : Tasks κ τ ε β ⊕ S → σ → Prop := fun c s =>
    ∃ ts', c = .inl ts' ∧ ts'.map Prod.fst = ts.map Prod.fst ∧ ts'.Safe L J W s ∧ G s
  have hI : ∀ c s, K c s → I s := by
    rintro c s ⟨ts', rfl, hkeys, hsafe, hG⟩
    apply hinv s hG
    rw [← hkeys]
    apply hsafe.inv
  refine ⟨K, ⟨ts, rfl, rfl, hsafe, hG⟩, hI, ?_, ?_⟩
  · rintro c s c' s' ⟨ts', rfl, hkeys, hsafe, hG⟩ hstep
    cases c' with
    | inr c' => exact hstep.elim
    | inl ts'' =>
      rw [← hkeys] at hnodup
      obtain ⟨hsafe', hkeys', k, hk, t', ht', rfl⟩ := hsafe.step hnodup hstep
      refine ⟨ts'', rfl, hkeys'.trans hkeys, hsafe', ?_⟩
      have hparts := hsafe.inv
      rw [hkeys] at hk hparts
      apply hput k hk t' s hG hparts ht'
  · rintro c s hK hfinal
    constructor
    · apply hI c s hK
    · obtain ⟨ts', rfl, hkeys, hsafe, hG⟩ := hK
      apply hpost ts' s hkeys hfinal hsafe hG

end

/-- Waiting for a phase of the second kind: `K` is an invariant of its steps. -/
theorem wp_await_inr {σ ε S T : Type} {P : Phases T σ} {R : Phases S σ} {I : σ → Prop}
    {Q : T ⊕ S → σ → Prop} {K : S → σ → Prop} {c : S} {s : σ} (hK : K c s) (hI : ∀ c s, K c s → I s)
    (hstep : ∀ c s c' s', K c s → R.step c s c' s' → K c' s')
    (hpost : ∀ c s, K c s → R.final c → Q (.inr c) s) :
  wp (P.sum R) I Q (await (.inr c) : Prog σ ε (T ⊕ S) _) s
  := by
  have hinv : ∀ (x : T ⊕ S) (s : σ), (∃ c, x = .inr c ∧ K c s) → I s := by
    rintro _ s ⟨c, rfl, h⟩
    apply hI c s h
  refine ⟨fun x s => ∃ c, x = .inr c ∧ K c s, ⟨c, rfl, hK⟩, hinv, ?_, ?_⟩
  · rintro _ s x' s' ⟨c, rfl, h⟩ hmove
    cases x' with
    | inl t => exact hmove.elim
    | inr c' => exact ⟨c', rfl, hstep c s c' s' h hmove⟩
  · rintro _ s ⟨c, rfl, h⟩ hfinal
    exact ⟨hI c s h, hpost c s h hfinal⟩

/-! ### Sequences of runs -/

section

variable {σ ε S α C : Type}

/-- What happens over a store at a given moment: nothing, a run of a command, or a run
that has returned.  When nothing happens, `last` is the command that was run last. -/
inductive Session (σ ε S α C : Type) where
  | idle (last : Option C)
  | running (c : C) (p : Prog σ ε S α)
  | returned (c : C) (r : Except ε α)

/-- No run is going on. -/
def Session.Stopped : Session σ ε S α C → Prop
  | .idle _ => True
  | .running _ _ => False
  | .returned _ _ => True

/-- The command that was run last. -/
def Session.last : Session σ ε S α C → Option C
  | .idle last => last
  | .running c _ => some c
  | .returned c _ => some c

/-- The sessions over a store that starts in `init`, in which a command `c` is run after
the command `last` only in a store where `allowed last c` holds.  A run can be killed at
any point. -/
inductive Reachable (P : Phases S σ) (run : C → Prog σ ε S α) (init : σ → Prop)
    (allowed : Option C → C → σ → Prop) : Session σ ε S α C → σ → Prop where
  | init {s} : init s → Reachable P run init allowed (.idle none) s
  | start {x s} (c : C) : Reachable P run init allowed x s → x.Stopped → allowed x.last c s →
      Reachable P run init allowed (.running c (run c)) s
  | step {c p p' s s'} : Reachable P run init allowed (.running c p) s → Step P p s p' s' →
      Reachable P run init allowed (.running c p') s'
  | finish {c r s} : Reachable P run init allowed (.running c (done r)) s →
      Reachable P run init allowed (.returned c r) s
  | kill {c p s} : Reachable P run init allowed (.running c p) s →
      Reachable P run init allowed (.idle (some c)) s

theorem Reachable.steps {P : Phases S σ} {run : C → Prog σ ε S α} {init : σ → Prop}
    {allowed : Option C → C → σ → Prop} {c : C} {p p' : Prog σ ε S α} {s s' : σ}
    (h : Reachable P run init allowed (.running c p) s) (hsteps : Steps P p s p' s') :
  Reachable P run init allowed (.running c p') s'
  := by
  induction hsteps with
  | refl => apply h
  | head hstep _ ih => apply ih (.step h hstep)

/-- What is known of the current run when every run of `c` satisfies
`wp P (J (some c)) (Q c)`. -/
def Session.Safe (P : Phases S σ) (J : Option C → σ → Prop) (Q : C → α → σ → Prop) :
    Session σ ε S α C → σ → Prop
  | .idle last, s => J last s
  | .running c p, s => wp P (J (some c)) (Q c) p s
  | .returned c (.ok a), s => J (some c) s ∧ Q c a s
  | .returned c (.error _), s => J (some c) s

/-- The invariant holds at every point of a session. -/
theorem Session.Safe.inv {P : Phases S σ} {J : Option C → σ → Prop} {Q : C → α → σ → Prop}
    {x : Session σ ε S α C} {s : σ} (h : x.Safe P J Q s) :
  J x.last s
  := by
  cases x with
  | idle last => apply h
  | running c p => apply wp_inv h
  | returned c r =>
    cases r with
    | ok a => apply h.1
    | error e => apply h

/-- An invariant of every allowed run is an invariant of the session. -/
theorem Reachable.safe {P : Phases S σ} {run : C → Prog σ ε S α} {init : σ → Prop}
    {allowed : Option C → C → σ → Prop} {J : Option C → σ → Prop} {Q : C → α → σ → Prop}
    (hinit : ∀ s, init s → J none s)
    (hrun : ∀ last c s, J last s → allowed last c s → wp P (J (some c)) (Q c) (run c) s)
    {x : Session σ ε S α C} {s : σ} (h : Reachable P run init allowed x s) :
  x.Safe P J Q s
  := by
  induction h with
  | init hs => apply hinit _ hs
  | @start x s c _ _ hallowed ih => apply hrun x.last c s ih.inv hallowed
  | step _ hstep ih => apply wp_step ih hstep
  | @finish c r s _ ih =>
    cases r with
    | ok a => apply ih
    | error e => apply ih
  | kill _ ih => apply wp_inv ih

end

end Crash
