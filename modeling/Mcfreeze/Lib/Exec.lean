import Mcfreeze.Lib.Crash

/-!
# Running a program to its end

`exec` runs a program that is neither killed nor hit by a failing operation: one number is
picked throughout, the tasks of a phase run one after the other, and other phases are run by
a scheduler.  It is one of the ways in which the steps of the program can go, so a computed
result is a reachable one.
-/

namespace Crash

open Prog

/-- Some steps of a phase. -/
inductive Phases.Steps {S σ : Type} (R : Phases S σ) : S → σ → S → σ → Prop where
  | refl {c s} : Steps R c s c s
  | head {c c' c'' s s' s''} : R.step c s c' s' → Steps R c' s' c'' s'' → Steps R c s c'' s''

/-- The scheduler takes a phase to its end, if it gives a result. -/
def Phases.Schedules {S σ : Type} (R : Phases S σ) (sched : S → σ → Option (S × σ)) : Prop :=
  ∀ c s c' s', sched c s = some (c', s') → R.Steps c s c' s' ∧ R.final c'

/-- A program that ends when no operation fails has a run to its end. -/
theorem Ends.steps {σ ε S α : Type} {P : Phases S σ} {Q : α → σ → Prop} {p : Prog σ ε S α} {s : σ}
    (h : Ends Q p s) :
  ∃ a s', Steps P p s (done (.ok a)) s' ∧ Q a s'
  := by
  induction p generalizing s with
  | done result =>
    cases result with
    | ok a => exact ⟨a, s, .refl, h⟩
    | error e => exact h.elim
  | op update next ih =>
    obtain ⟨a, s', hsteps, hQ⟩ := ih _ h
    exact ⟨a, s', .head .op hsteps, hQ⟩
  | choose next ih =>
    obtain ⟨a, s', hsteps, hQ⟩ := ih 0 (h 0)
    exact ⟨a, s', .head (.choose 0) hsteps, hQ⟩
  | phase c => exact h.elim

namespace Prog

variable {κ σ τ ε S α β : Type}

theorem Steps.trans {P : Phases S σ} {p p' p'' : Prog σ ε S α} {s s' s'' : σ}
    (h₁ : Steps P p s p' s') (h₂ : Steps P p' s' p'' s'') :
  Steps P p s p'' s''
  := by
  induction h₁ with
  | refl => apply h₂
  | head hstep _ ih => apply Steps.head hstep (ih h₂)

/-- The steps of the first of two programs. -/
theorem Steps.bind {P : Phases S σ} {p p' : Prog σ ε S α} {f : α → Prog σ ε S β} {s s' : σ}
    (h : Steps P p s p' s') :
  Steps P (p >>= f) s (p' >>= f) s'
  := by
  induction h with
  | refl => apply Steps.refl
  | head hstep _ ih =>
    apply Steps.head _ ih
    cases hstep with
    | op => apply Step.op
    | fail e => apply Step.fail
    | choose k => apply Step.choose
    | move hmove => apply Step.move hmove
    | leave hfinal => apply Step.leave hfinal

/-- Run a program that returns a result, and then go on with it. -/
theorem Steps.bind_ok {P : Phases S σ} {p : Prog σ ε S α} {f : α → Prog σ ε S β} {a : α}
    {p' : Prog σ ε S β} {s s' s'' : σ} (h : Steps P p s (done (.ok a)) s')
    (hf : Steps P (f a) s' p' s'') :
  Steps P (p >>= f) s p' s''
  :=
  h.bind.trans hf

/-- The program neither picks a number nor waits for a phase, and when no operation fails it
returns `a` and leaves the store `s'`. -/
def Yields (a : α) (s' : σ) : Prog σ ε S α → σ → Prop
  | done r, s => r = .ok a ∧ s = s'
  | op update next, s => Yields a s' (next s) (update s)
  | choose _, _ => False
  | phase _ _, _ => False

section

variable {P : Phases S σ} {p : Prog σ ε S α} {a : α} {s s' : σ}

/-- The program has a run to its end. -/
theorem Yields.steps (h : Yields a s' p s) :
  Steps P p s (done (.ok a)) s'
  := by
  induction p generalizing s with
  | done r =>
    obtain ⟨rfl, rfl⟩ := h
    apply Steps.refl
  | op update next ih => apply Steps.head Step.op (ih _ h)
  | choose next => exact h.elim
  | phase c next => exact h.elim

theorem Yields.wp (h : Yields a s' p s) :
  wp P (fun _ => True) (fun a' s'' => a' = a ∧ s'' = s') p s
  := by
  induction p generalizing s with
  | done r =>
    obtain ⟨rfl, rfl⟩ := h
    exact ⟨trivial, rfl, rfl⟩
  | op update next ih => exact ⟨trivial, ih _ h⟩
  | choose next => exact h.elim
  | phase c next => exact h.elim

/-- Every run that returns a result returns this one. -/
theorem Yields.unique (h : Yields a s' p s) {a' : α} {s'' : σ}
    (hsteps : Steps P p s (done (.ok a')) s'') :
  a' = a ∧ s'' = s'
  :=
  (wp_steps h.wp hsteps).2

/-- The results of two programs in sequence. -/
theorem Yields.bind {f : α → Prog σ ε S β} {b : β} {s'' : σ} (h : Yields a s' p s)
    (hf : Yields b s'' (f a) s') :
  Yields b s'' (p >>= f) s
  := by
  induction p generalizing s with
  | done r =>
    obtain ⟨rfl, rfl⟩ := h
    apply hf
  | op update next ih => apply ih _ h
  | choose next => exact h.elim
  | phase c next => exact h.elim

theorem Yields.pure :
  Yields a s (pure a : Prog σ ε S α) s
  :=
  ⟨rfl, rfl⟩

theorem Yields.read :
  Yields s s (read : Prog σ ε S σ) s
  :=
  ⟨rfl, rfl⟩

theorem Yields.modify {update : σ → σ} :
  Yields () (update s) (modify update : Prog σ ε S Unit) s
  :=
  ⟨rfl, rfl⟩

theorem Yields.atomic {f : σ → Except ε (α × σ)} (h : f s = .ok (a, s')) :
  Yields a s' (atomic f : Prog σ ε S α) s
  := by
  rw [Prog.atomic, Yields, h]
  exact ⟨rfl, rfl⟩

theorem Yields.ofExcept {r : Except ε α} (h : r = .ok a) :
  Yields a s (ofExcept r : Prog σ ε S α) s
  :=
  ⟨h, rfl⟩

end

/-- Run a program over a part of the store; `k` is the number that is picked. -/
def execPart (L : Parts κ σ τ) (key : κ) (k : Nat) : Prog τ ε Empty β → σ → Except ε β × σ
  | done r, s => (r, s)
  | op update next, s => (next (L.get key s)).execPart L key k (L.put key (update (L.get key s)) s)
  | choose next, s => (next k).execPart L key k s
  | phase c _, _ => c.elim

/-- Run the tasks of a phase one after the other. -/
def execTasks (L : Parts κ σ τ) (k : Nat) : Tasks κ τ ε β → σ → Tasks κ τ ε β × σ
  | [], s => ([], s)
  | (key, p) :: ts, s =>
    let r := p.execPart L key k s
    let rest := execTasks L k ts r.2
    ((key, done r.1) :: rest.1, rest.2)

/-- Run a program to its end. -/
def exec (L : Parts κ σ τ) (sched : S → σ → Option (S × σ)) (k : Nat) :
    Prog σ ε (Tasks κ τ ε β ⊕ S) α → σ → Option (Except ε α × σ)
  | done r, s => some (r, s)
  | op update next, s => (next s).exec L sched k (update s)
  | choose next, s => (next k).exec L sched k s
  | phase (.inl ts) next, s =>
    (next (.inl (execTasks L k ts s).1)).exec L sched k (execTasks L k ts s).2
  | phase (.inr c) next, s =>
    match sched c s with
    | none => none
    | some (c', s') => (next (.inr c')).exec L sched k s'

/-- The scheduler when there are no other phases. -/
def noPhases : Empty → σ → Option (Empty × σ) :=
  fun c => c.elim

theorem noPhases_schedules (R : Phases Empty σ) :
  R.Schedules noPhases
  := by
  intro c
  exact c.elim

/-- Run a program without phases to its end. -/
def run (k : Nat) : Prog σ ε Empty α → σ → Except ε α × σ
  | done r, s => (r, s)
  | op update next, s => (next s).run k (update s)
  | choose next, s => (next k).run k s
  | phase c _, _ => c.elim

theorem steps_run (P : Phases Empty σ) (k : Nat) (p : Prog σ ε Empty α) (s : σ) :
  Steps P p s (done (p.run k s).1) (p.run k s).2
  := by
  induction p generalizing s with
  | done r => apply Steps.refl
  | op update next ih => apply Steps.head Step.op (ih s (update s))
  | choose next ih => apply Steps.head (Step.choose k) (ih k s)
  | phase c => exact c.elim

/-- A sequence is run one part after the other, up to the first error. -/
theorem run_bind (k : Nat) (p : Prog σ ε Empty α) (f : α → Prog σ ε Empty β) (s : σ) :
  (p >>= f).run k s
    = match p.run k s with
      | (.ok a, s') => (f a).run k s'
      | (.error e, s') => (.error e, s')
  := by
  induction p generalizing s with
  | done r =>
    cases r with
    | ok a => rfl
    | error e => rfl
  | op update next ih => apply ih
  | choose next ih => apply ih
  | phase c => exact c.elim

/-- The program has ended. -/
def isDone : Prog σ ε S α → Bool
  | done _ => true
  | _ => false

/-- Run a program as far as the numbers to be picked last. -/
def follow (picks : List Nat) : Prog σ ε Empty α → σ → Prog σ ε Empty α × σ
  | done r, s => (done r, s)
  | op update next, s => (next s).follow picks (update s)
  | choose next, s =>
    match picks with
    | [] => (choose next, s)
    | k :: picks => (next k).follow picks s
  | phase c _, _ => c.elim

/-- A run that follows a list of picks is a run. -/
theorem steps_follow (P : Phases Empty σ) (picks : List Nat) (p : Prog σ ε Empty α) (s : σ) :
  Steps P p s (p.follow picks s).1 (p.follow picks s).2
  := by
  induction p generalizing picks s with
  | done r => apply Steps.refl
  | op update next ih => apply Steps.head Step.op (ih s picks (update s))
  | choose next ih =>
    cases picks with
    | nil => apply Steps.refl
    | cons k picks => apply Steps.head (Step.choose k) (ih k picks s)
  | phase c => exact c.elim

variable {L : Parts κ σ τ} {R : Phases S σ}

/-- The execution of one task is a run of the phase: the task ends, and the others stay. -/
theorem execPart_steps {ε α : Type} {key : κ} {k i : Nat} {p : Prog τ ε Empty β}
    {ts : Tasks κ τ ε β} {next : Tasks κ τ ε β ⊕ S → Prog σ ε (Tasks κ τ ε β ⊕ S) α} {s : σ}
    (h : ts[i]? = some (key, p)) :
  Steps ((L.tasks ε β).sum R) (phase (.inl ts) next) s
    (phase (.inl (ts.set i (key, done (p.execPart L key k s).1))) next)
    (p.execPart L key k s).2
  := by
  have hlt : i < ts.length := (List.getElem?_eq_some_iff.mp h).1
  induction p generalizing ts s with
  | done r =>
    have hget : ts[i] = (key, done r) := (List.getElem?_eq_some_iff.mp h).2
    have hset : ts.set i (key, done r) = ts := by rw [← hget, List.set_getElem_self]
    rw [execPart, hset]
    apply Steps.refl
  | op update next' ih =>
    have hnext := @ih (L.get key s) (ts.set i (key, next' (L.get key s)))
      (L.put key (update (L.get key s)) s) (List.getElem?_set_self hlt) (by rwa [List.length_set])
    rw [List.set_set] at hnext
    apply Steps.head _ hnext
    apply Step.move
    exact ⟨i, key, _, _, _, h, Step.op, rfl, rfl⟩
  | choose next' ih =>
    have hnext := @ih k (ts.set i (key, next' k)) s (List.getElem?_set_self hlt)
      (by rwa [List.length_set])
    rw [List.set_set] at hnext
    apply Steps.head _ hnext
    apply Step.move
    exact ⟨i, key, _, _, _, h, Step.choose k, rfl, (L.put_get key s).symm⟩
  | phase c => exact c.elim

/-- The tasks that are run stand between others. -/
theorem execTasks_steps {ε α : Type} {k : Nat} {ts : Tasks κ τ ε β} (pre post : Tasks κ τ ε β)
    {next : Tasks κ τ ε β ⊕ S → Prog σ ε (Tasks κ τ ε β ⊕ S) α} {s : σ} :
  Steps ((L.tasks ε β).sum R) (phase (.inl (pre ++ (ts ++ post))) next) s
    (phase (.inl (pre ++ ((execTasks L k ts s).1 ++ post))) next) (execTasks L k ts s).2
  := by
  induction ts generalizing pre s with
  | nil => apply Steps.refl
  | cons t ts ih =>
    obtain ⟨key, p⟩ := t
    have hget : (pre ++ ((key, p) :: ts ++ post))[pre.length]? = some (key, p) := by
      rw [List.getElem?_append_right (Nat.le_refl _), Nat.sub_self]
      rfl
    have hfirst : Steps ((L.tasks ε β).sum R) (phase (.inl (pre ++ ((key, p) :: ts ++ post))) next) s
        _ _ := execPart_steps (k := k) hget
    rw [List.set_append_right _ _ (Nat.le_refl _), Nat.sub_self, List.cons_append, List.set_cons_zero]
      at hfirst
    have hrest := ih (pre ++ [(key, done (p.execPart L key k s).1)])
      (s := (p.execPart L key k s).2)
    rw [List.append_assoc, List.append_assoc, List.singleton_append, List.singleton_append] at hrest
    apply hfirst.trans hrest

/-- After the execution all tasks have ended. -/
theorem execTasks_final {k : Nat} (ts : Tasks κ τ ε β) (s : σ) :
  (L.tasks ε β).final (execTasks L k ts s).1
  := by
  induction ts generalizing s with
  | nil =>
    intro t ht
    simp [execTasks] at ht
  | cons t ts ih =>
    obtain ⟨key, p⟩ := t
    intro t ht
    rcases List.mem_cons.mp ht with rfl | ht
    · exact ⟨_, rfl⟩
    · apply ih _ t ht

/-- A phase of tasks is left when they are run to their ends. -/
theorem steps_execTasks {ε α : Type} {k : Nat} {ts : Tasks κ τ ε β}
    {next : Tasks κ τ ε β ⊕ S → Prog σ ε (Tasks κ τ ε β ⊕ S) α} {s : σ} :
  Steps ((L.tasks ε β).sum R) (phase (.inl ts) next) s (next (.inl (execTasks L k ts s).1))
    (execTasks L k ts s).2
  := by
  have htasks : Steps ((L.tasks ε β).sum R) (phase (.inl ([] ++ (ts ++ []))) next) s
      (phase (.inl ([] ++ ((execTasks L k ts s).1 ++ []))) next) (execTasks L k ts s).2 :=
    execTasks_steps [] []
  rw [List.append_nil, List.append_nil] at htasks
  apply htasks.trans
  apply Steps.head _ .refl
  apply Step.leave
  apply execTasks_final

theorem Steps.move {next : S → Prog σ ε S α} {c c' : S} {s s' : σ} (h : R.Steps c s c' s') :
  Steps R (phase c next) s (phase c' next) s'
  := by
  induction h with
  | refl => apply Steps.refl
  | head hstep _ ih => apply Steps.head (Step.move hstep) ih

theorem steps_sum_inr {T : Type} {P : Phases T σ} {c c' : S} {s s' : σ} (h : R.Steps c s c' s') :
  (P.sum R).Steps (.inr c) s (.inr c') s'
  := by
  induction h with
  | refl => apply Phases.Steps.refl
  | @head c c' c'' s s' s'' hstep _ ih =>
    have hmove : (P.sum R).step (.inr c) s (.inr c') s' := hstep
    apply Phases.Steps.head hmove ih

/-- A computed run is a run. -/
theorem steps_of_exec {sched : S → σ → Option (S × σ)} (hsched : R.Schedules sched) {k : Nat}
    {p : Prog σ ε (Tasks κ τ ε β ⊕ S) α} {s s' : σ} {r : Except ε α}
    (h : p.exec L sched k s = some (r, s')) :
  Steps ((L.tasks ε β).sum R) p s (done r) s'
  := by
  induction p generalizing s with
  | done r =>
    obtain ⟨rfl, rfl⟩ := Prod.mk.inj (Option.some.inj h)
    apply Steps.refl
  | op update next ih => apply Steps.head Step.op (ih s h)
  | choose next ih => apply Steps.head (Step.choose k) (ih k h)
  | phase c next ih =>
    cases c with
    | inr c =>
      rw [exec] at h
      split at h
      · simp at h
      · next c' s₁ hc' =>
        obtain ⟨hsteps, hfinal⟩ := hsched c s c' s₁ hc'
        apply Steps.trans (Steps.move (steps_sum_inr hsteps))
        apply Steps.head (Step.leave (c := .inr c') hfinal) (ih _ h)
    | inl ts =>
      apply steps_execTasks.trans (ih _ h)

/-- Run a program for `n` of its operations; every task of a phase that is run to its end
counts as one. -/
def cut (L : Parts κ σ τ) (sched : S → σ → Option (S × σ)) (k : Nat) :
    Prog σ ε (Tasks κ τ ε β ⊕ S) α → Nat → σ → Prog σ ε (Tasks κ τ ε β ⊕ S) α × σ
  | done r, _, s => (done r, s)
  | op update next, 0, s => (op update next, s)
  | op update next, n + 1, s => (next s).cut L sched k n (update s)
  | choose next, n, s => (next k).cut L sched k n s
  | phase (.inl ts) next, n, s =>
    if n < ts.length then
      (phase (.inl ((execTasks L k (ts.take n) s).1 ++ ts.drop n)) next, (execTasks L k (ts.take n) s).2)
    else
      (next (.inl (execTasks L k ts s).1)).cut L sched k (n - ts.length) (execTasks L k ts s).2
  | phase (.inr c) next, n, s =>
    match sched c s with
    | none => (phase (.inr c) next, s)
    | some (c', s') => (next (.inr c')).cut L sched k n s'

/-- A run that is cut off after some steps is a run. -/
theorem steps_cut {sched : S → σ → Option (S × σ)} (hsched : R.Schedules sched) (k n : Nat)
    (p : Prog σ ε (Tasks κ τ ε β ⊕ S) α) (s : σ) :
  Steps ((L.tasks ε β).sum R) p s (p.cut L sched k n s).1 (p.cut L sched k n s).2
  := by
  induction p generalizing n s with
  | done r => apply Steps.refl
  | op update next ih =>
    cases n with
    | zero => apply Steps.refl
    | succ n => apply Steps.head Step.op (ih s n (update s))
  | choose next ih => apply Steps.head (Step.choose k) (ih k n s)
  | phase c next ih =>
    cases c with
    | inr c =>
      rw [cut]
      split
      · apply Steps.refl
      · next c' s' hc' =>
        obtain ⟨hsteps, hfinal⟩ := hsched c s c' s' hc'
        apply Steps.trans (Steps.move (steps_sum_inr hsteps))
        apply Steps.head (Step.leave (c := .inr c') hfinal) (ih _ n s')
    | inl ts =>
      rw [cut]
      split
      · have htasks : Steps ((L.tasks ε β).sum R) (phase (.inl ([] ++ (ts.take n ++ ts.drop n))) next) s
            _ _ := execTasks_steps (k := k) [] (ts.drop n)
        rw [List.take_append_drop] at htasks
        apply htasks
      · apply steps_execTasks.trans (ih _ _ _)

end Prog

/-- A run that is computed to its end is one of the runs of a session. -/
theorem Reachable.exec {κ σ τ ε β S α C : Type} {L : Parts κ σ τ} {R : Phases S σ}
    {sched : S → σ → Option (S × σ)} (hsched : R.Schedules sched) {k : Nat}
    {run : C → Prog σ ε (Tasks κ τ ε β ⊕ S) α} {init : σ → Prop} {allowed : Option C → C → σ → Prop}
    {x : Session σ ε (Tasks κ τ ε β ⊕ S) α C} {c : C} {s s' : σ} {r : Except ε α}
    (h : Reachable ((L.tasks ε β).sum R) run init allowed x s) (hstopped : x.Stopped)
    (hallowed : allowed x.last c s) (hexec : (run c).exec L sched k s = some (r, s')) :
  Reachable ((L.tasks ε β).sum R) run init allowed (.returned c r) s'
  := by
  apply Reachable.finish
  apply (Reachable.start c h hstopped hallowed).steps
  apply Prog.steps_of_exec hsched hexec

/-- A run can be killed after any number of operations. -/
theorem Reachable.cut {κ σ τ ε β S α C : Type} {L : Parts κ σ τ} {R : Phases S σ}
    {sched : S → σ → Option (S × σ)} (hsched : R.Schedules sched) {k n : Nat}
    {run : C → Prog σ ε (Tasks κ τ ε β ⊕ S) α} {init : σ → Prop} {allowed : Option C → C → σ → Prop}
    {x : Session σ ε (Tasks κ τ ε β ⊕ S) α C} {c : C} {s : σ}
    (h : Reachable ((L.tasks ε β).sum R) run init allowed x s) (hstopped : x.Stopped)
    (hallowed : allowed x.last c s) :
  Reachable ((L.tasks ε β).sum R) run init allowed (.idle (some c))
    ((run c).cut L sched k n s).2
  := by
  apply Reachable.kill
  apply (Reachable.start c h hstopped hallowed).steps
  apply Prog.steps_cut hsched

/-- A run without failures is one of the runs of a session. -/
theorem Reachable.run {σ ε α C : Type} {program : C → Prog σ ε Empty α} {init : σ → Prop}
    {allowed : Option C → C → σ → Prop} {x : Session σ ε Empty α C} {c : C} {s : σ}
    (h : Reachable (.none σ) program init allowed x s) (hstopped : x.Stopped)
    (hallowed : allowed x.last c s) (k : Nat) :
  Reachable (.none σ) program init allowed (.returned c ((program c).run k s).1)
    ((program c).run k s).2
  := by
  apply Reachable.finish
  apply (Reachable.start c h hstopped hallowed).steps
  apply Prog.steps_run

end Crash
