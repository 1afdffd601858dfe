import Mcfreeze.Lib.Exec
import Mathlib.Logic.Function.Basic

/-!
# Programs that run side by side

Workers run their programs over one store, an operation at a time, while the world around them
changes the store as it likes.  An operation can fail without effect, and a program can be
given up at any point.

What a worker does is described by a *rely* and a *guarantee*: provided that everything that
happens between two of its operations is in the rely, each of its operations is in the
guarantee.  If the guarantee of every worker is in the rely of every other one, an invariant
that the operations of each worker keep is an invariant of the whole.
-/

namespace Crash

open Prog

section

variable {σ ε α β : Type}

/-- The terms on which a program works: an invariant that all keep, what is assumed of every
state that is reached, what others may do between two operations, and what an operation may
do. -/
structure Terms (σ : Type) where
  inv : σ → Prop
  within : σ → Prop
  rely : σ → σ → Prop
  guarantee : σ → σ → Prop

/-- The program keeps to the terms from a state that others may change before its next
operation, and `Q` holds when it returns a result. -/
def Behaves (T : Terms σ) (Q : α → σ → Prop) : Prog σ ε Empty α → σ → Prop
  | done (.ok a), s => Q a s
  | done (.error _), _ => True
  | op update next, s => ∀ s', T.rely s s' → T.inv s' → T.within (update s') →
      T.inv (update s') ∧ T.guarantee s' (update s') ∧ Behaves T Q (next s') (update s')
  | choose next, s => ∀ k, Behaves T Q (next k) s
  | phase c _, _ => c.elim

/-- The postcondition may be weakened. -/
theorem Behaves.mono {T : Terms σ} {Q R : α → σ → Prop} {p : Prog σ ε Empty α} {s : σ}
    (h : Behaves T Q p s) (hQ : ∀ a s, Q a s → R a s) :
  Behaves T R p s
  := by
  induction p generalizing s with
  | done result =>
    cases result with
    | ok a => apply hQ a s h
    | error e => trivial
  | op update next ih =>
    intro s' hrely hinv hwithin
    obtain ⟨hinv', hguarantee, hnext⟩ := h s' hrely hinv hwithin
    exact ⟨hinv', hguarantee, ih _ hnext⟩
  | choose next ih =>
    intro k
    apply ih _ (h k)
  | phase c => exact c.elim

/-- A sequence keeps to the terms when its second part does from where the first one ends. -/
theorem Behaves.bind {T : Terms σ} {Q : β → σ → Prop} {p : Prog σ ε Empty α}
    {f : α → Prog σ ε Empty β} {s : σ} (h : Behaves T (fun a s => Behaves T Q (f a) s) p s) :
  Behaves T Q (p >>= f) s
  := by
  induction p generalizing s with
  | done result =>
    cases result with
    | ok a => apply h
    | error e => trivial
  | op update next ih =>
    intro s' hrely hinv hwithin
    obtain ⟨hinv', hguarantee, hnext⟩ := h s' hrely hinv hwithin
    exact ⟨hinv', hguarantee, ih _ hnext⟩
  | choose next ih =>
    intro k
    apply ih _ (h k)
  | phase c => exact c.elim

/-- What others do before the next operation does not matter. -/
theorem Behaves.stable {T : Terms σ} {p : Prog σ ε Empty α} {s s' : σ}
    (htrans : ∀ s₁ s₂ s₃, T.rely s₁ s₂ → T.rely s₂ s₃ → T.rely s₁ s₃)
    (h : Behaves T (fun _ _ => True) p s) (hrely : T.rely s s') :
  Behaves T (fun _ _ => True) p s'
  := by
  induction p with
  | done result =>
    cases result with
    | ok a => trivial
    | error e => trivial
  | op update next _ =>
    intro s'' hrely'
    exact h s'' (htrans _ _ _ hrely hrely')
  | choose next ih =>
    intro k
    apply ih _ (h k)
  | phase c => exact c.elim

theorem Behaves.read {T : Terms σ} {Q : σ → σ → Prop} {s : σ} (hrefl : ∀ s, T.guarantee s s)
    (hQ : ∀ s', T.rely s s' → T.inv s' → Q s' s') :
  Behaves T Q (read : Prog σ ε Empty σ) s
  := by
  intro s' hrely hinv _
  exact ⟨hinv, hrefl s', hQ s' hrely hinv⟩

theorem Behaves.pick {T : Terms σ} {Q : Nat → σ → Prop} {s : σ} (hQ : ∀ k, Q k s) :
  Behaves T Q (pick : Prog σ ε Empty Nat) s
  :=
  hQ

theorem Behaves.modify {T : Terms σ} {Q : Unit → σ → Prop} {update : σ → σ} {s : σ}
    (h : ∀ s', T.rely s s' → T.inv s' → T.within (update s') →
      T.inv (update s') ∧ T.guarantee s' (update s') ∧ Q () (update s')) :
  Behaves T Q (modify update : Prog σ ε Empty Unit) s
  :=
  h

/-- An atomic operation keeps to the terms when it does in every state that others may leave to
it. -/
theorem Behaves.atomic {T : Terms σ} {Q : α → σ → Prop} {f : σ → Except ε (α × σ)} {s : σ}
    (hrefl : ∀ s, T.guarantee s s)
    (h : ∀ s', T.rely s s' → T.inv s' → ∀ a s'', f s' = .ok (a, s'') → T.within s'' →
      T.inv s'' ∧ T.guarantee s' s'' ∧ Q a s'') :
  Behaves T Q (atomic f : Prog σ ε Empty α) s
  := by
  rw [Prog.atomic, Behaves]
  intro s' hrely hinv hwithin
  cases hf : f s' with
  | ok r =>
    obtain ⟨a, s''⟩ := r
    rw [hf] at hwithin
    exact h s' hrely hinv a s'' hf hwithin
  | error e => exact ⟨hinv, hrefl s', trivial⟩

/-- Every operation of the program is in `S`, in whatever store it is carried out. -/
def Prog.Always {τ : Type} (S : τ → τ → Prop) : Prog τ ε Empty α → Prop
  | done _ => True
  | op update next => (∀ t, S t (update t)) ∧ ∀ t, (next t).Always S
  | choose next => ∀ k, (next k).Always S
  | phase c _ => c.elim

/-- A sequence does nothing but what its parts do. -/
theorem Prog.Always.bind {τ : Type} {S : τ → τ → Prop} {p : Prog τ ε Empty α}
    {f : α → Prog τ ε Empty β} (hp : p.Always S) (hf : ∀ a, (f a).Always S) :
  (p >>= f).Always S
  := by
  induction p with
  | done result =>
    cases result with
    | ok a => apply hf
    | error e => trivial
  | op update next ih => exact ⟨hp.1, fun t => ih t (hp.2 t)⟩
  | choose next ih => exact fun k => ih k (hp k)
  | phase c => exact c.elim

/-- An atomic operation that fails changes nothing. -/
theorem Prog.Always.atomic {τ : Type} {S : τ → τ → Prop} {f : τ → Except ε (α × τ)}
    (hrefl : ∀ t, S t t) (h : ∀ t a t', f t = .ok (a, t') → S t t') :
  (atomic f : Prog τ ε Empty α).Always S
  := by
  rw [Prog.atomic, Prog.Always]
  constructor
  · intro t
    cases hf : f t with
    | ok r => exact h t r.1 r.2 hf
    | error e => exact hrefl t
  · intro t
    cases f t with
    | ok r => trivial
    | error e => trivial

theorem Prog.Always.forM {τ : Type} {S : τ → τ → Prop} {f : α → Prog τ ε Empty Unit} (l : List α)
    (hf : ∀ x, (f x).Always S) :
  (l.forM f).Always S
  := by
  induction l with
  | nil => trivial
  | cons x l ih => exact Prog.Always.bind (hf x) fun _ => ih

/-- A program over a part of the store, each of whose operations is in `S`. -/
theorem Behaves.lift {κ τ : Type} {L : Parts κ σ τ} {k : κ} {T : Terms σ} {S : τ → τ → Prop}
    {p : Prog τ ε Empty α} {s : σ}
    (hput : ∀ t s, T.inv s → S (L.get k s) t → T.inv (L.put k t s) ∧ T.guarantee s (L.put k t s))
    (hp : p.Always S) :
  Behaves T (fun _ _ => True) (p.lift L k) s
  := by
  induction p generalizing s with
  | done result =>
    cases result with
    | ok a => trivial
    | error e => trivial
  | op update next ih =>
    intro s' _ hs' _
    obtain ⟨hinv', hguarantee⟩ := hput _ s' hs' (hp.1 _)
    exact ⟨hinv', hguarantee, ih _ (hp.2 _)⟩
  | choose next ih => exact fun i => ih i (hp i)
  | phase c => exact c.elim

/-- A loop over a list: `R rest s` holds before each iteration. -/
theorem Behaves.forM {T : Terms σ} {f : α → Prog σ ε Empty Unit} {R : List α → σ → Prop}
    (hstep : ∀ x rest s, R (x :: rest) s → Behaves T (fun _ s' => R rest s') (f x) s)
    (l : List α) {s : σ} (h : R l s) :
  Behaves T (fun _ s' => R [] s') (l.forM f) s
  := by
  induction l generalizing s with
  | nil => exact h
  | cons x l ih =>
    apply Behaves.bind
    exact (hstep x l s h).mono fun _ s' hs' => ih hs'

/-- A program that keeps to its terms whatever the others do. -/
theorem Prog.Always.behaves {T : Terms σ} {S : σ → σ → Prop} {p : Prog σ ε Empty α} {s : σ}
    (hS : ∀ s s', T.inv s → T.within s' → S s s' → T.inv s' ∧ T.guarantee s s') (hp : p.Always S) :
  Behaves T (fun _ _ => True) p s
  := by
  induction p generalizing s with
  | done result => cases result <;> trivial
  | op update next ih =>
    intro s' _ hs' hwithin
    obtain ⟨hinv', hguarantee⟩ := hS s' _ hs' hwithin (hp.1 s')
    exact ⟨hinv', hguarantee, ih _ (hp.2 s')⟩
  | choose next ih => exact fun k => ih k (hp k)
  | phase c => exact c.elim

/-- What is always done to a part is always done to the whole. -/
theorem Prog.Always.lift {κ τ : Type} {L : Parts κ σ τ} {k : κ} {S : τ → τ → Prop}
    {S' : σ → σ → Prop} {p : Prog τ ε Empty α} (hput : ∀ t s, S (L.get k s) t → S' s (L.put k t s))
    (hp : p.Always S) :
  (p.lift L k : Prog σ ε Empty α).Always S'
  := by
  induction p with
  | done result => trivial
  | op update next ih =>
    exact ⟨fun s => hput _ s (hp.1 _), fun s => ih _ (hp.2 _)⟩
  | choose next ih => exact fun i => ih i (hp i)
  | phase c => exact c.elim

/-- Terms on a part of the store. -/
def Terms.part {κ τ : Type} (L : Parts κ σ τ) (k : κ) (T : Terms τ) : Terms σ where
  inv s := T.inv (L.get k s)
  within s := T.within (L.get k s)
  rely s s' := T.rely (L.get k s) (L.get k s')
  guarantee s s' := T.guarantee (L.get k s) (L.get k s')

/-- A program over a part of the store keeps to the terms on this part. -/
theorem Behaves.part {κ τ : Type} {L : Parts κ σ τ} {k : κ} {T : Terms τ} {Q : α → τ → Prop}
    {p : Prog τ ε Empty α} {s : σ} (h : Behaves T Q p (L.get k s)) :
  Behaves (T.part L k) (fun a s => Q a (L.get k s)) (p.lift L k) s
  := by
  induction p generalizing s with
  | done result => cases result <;> exact h
  | op update next ih =>
    intro s' hrely hinv hwithin
    have hget := L.get_put k (update (L.get k s')) s'
    simp only [Terms.part, hget] at hwithin ⊢
    obtain ⟨hinv', hguarantee, hnext⟩ := h _ hrely hinv hwithin
    exact ⟨hinv', hguarantee, ih _ (by rwa [hget])⟩
  | choose next ih => exact fun i => ih i (h i)
  | phase c => exact c.elim

end

/-! ### Interleavings -/

section

variable {ι σ ε α : Type} [DecidableEq ι]

/-- The states that workers in `ι` reach together: the programs they are running, and the
store.  A worker that is idle starts one of its programs; a program that has returned, or that
is given up, leaves its worker idle.  Every state that is reached has to be `within` what is
assumed. -/
inductive Interleaved (world : σ → σ → Prop) (starts : ι → Prog σ ε Empty α → Prop)
    (init within : σ → Prop) : (ι → Option (Prog σ ε Empty α)) → σ → Prop where
  | init {s} : init s → Interleaved world starts init within (fun _ => none) s
  | world {calls s s'} : Interleaved world starts init within calls s → world s s' → within s' →
      Interleaved world starts init within calls s'
  | start {calls s} (i : ι) (p : Prog σ ε Empty α) : Interleaved world starts init within calls s →
      calls i = none → starts i p →
      Interleaved world starts init within (Function.update calls i (some p)) s
  | step {calls s p p' s'} (i : ι) : Interleaved world starts init within calls s →
      calls i = some p → Step (.none σ) p s p' s' → within s' →
      Interleaved world starts init within (Function.update calls i (some p')) s'
  | stop {calls s} (i : ι) : Interleaved world starts init within calls s →
      Interleaved world starts init within (Function.update calls i none) s

/-- What the world does leads to a state within what is assumed. -/
theorem Interleaved.within_world {world : σ → σ → Prop} {starts : ι → Prog σ ε Empty α → Prop}
    {init within : σ → Prop} {calls : ι → Option (Prog σ ε Empty α)} {s : σ}
    (h : Interleaved world starts init within calls s) :
  Interleaved (fun s s' => world s s' ∧ within s') starts init within calls s
  := by
  induction h with
  | init hs => exact .init hs
  | world _ hchange hwithin ih => exact .world ih ⟨hchange, hwithin⟩ hwithin
  | start i p _ hidle hstart ih => exact .start i p ih hidle hstart
  | step i _ hcall hstep hwithin ih => exact .step i ih hcall hstep hwithin
  | stop i _ ih => exact .stop i ih

/-- A call can take some steps in a row. -/
theorem Interleaved.steps {world : σ → σ → Prop} {starts : ι → Prog σ ε Empty α → Prop}
    {init : σ → Prop} {calls : ι → Option (Prog σ ε Empty α)} {i : ι} {p p' : Prog σ ε Empty α}
    {s s' : σ} (h : Interleaved world starts init (fun _ => True) calls s) (hcall : calls i = some p)
    (hsteps : Steps (.none σ) p s p' s') :
  Interleaved world starts init (fun _ => True) (Function.update calls i (some p')) s'
  := by
  induction hsteps generalizing calls with
  | refl => rwa [← hcall, Function.update_eq_self]
  | head hstep _ ih =>
    have hnext := ih (Interleaved.step i h hcall hstep trivial) (Function.update_self _ _ _)
    rwa [Function.update_idem] at hnext

/-- Workers whose guarantees are in the relies of the others keep the invariant. -/
theorem Interleaved.safe {world : σ → σ → Prop} {starts : ι → Prog σ ε Empty α → Prop}
    {init : σ → Prop} {T : ι → Terms σ} {I within : σ → Prop}
    (hterms : ∀ i, (T i).inv = I ∧ (T i).within = within)
    (hrefl : ∀ i s, (T i).rely s s)
    (htrans : ∀ i s₁ s₂ s₃, (T i).rely s₁ s₂ → (T i).rely s₂ s₃ → (T i).rely s₁ s₃)
    (hinit : ∀ s, init s → I s)
    (hworld : ∀ s s', I s → world s s' → I s' ∧ ∀ i, (T i).rely s s')
    (hstarts : ∀ i p s, starts i p → I s → Behaves (T i) (fun _ _ => True) p s)
    (hothers : ∀ i j s s', i ≠ j → (T i).guarantee s s' → (T j).rely s s')
    {calls : ι → Option (Prog σ ε Empty α)} {s : σ}
    (h : Interleaved world starts init within calls s) :
  I s ∧ ∀ i p, calls i = some p → Behaves (T i) (fun _ _ => True) p s
  := by
  induction h with
  | init hs =>
    refine ⟨hinit _ hs, ?_⟩
    intro i p hp
    simp at hp
  | world _ hchange _ ih =>
    obtain ⟨hinv, hrely⟩ := hworld _ _ ih.1 hchange
    exact ⟨hinv, fun i p hp => (ih.2 i p hp).stable (htrans i) (hrely i)⟩
  | start i p _ _ hstart ih =>
    refine ⟨ih.1, ?_⟩
    intro j q hq
    by_cases hij : j = i
    · subst hij
      rw [Function.update_self] at hq
      cases hq
      exact hstarts j p _ hstart ih.1
    · rw [Function.update_of_ne hij] at hq
      exact ih.2 j q hq
  | @step calls s p p' s' i _ hcall hstep hwithin ih =>
    obtain ⟨hinvi, hwithini⟩ := hterms i
    have hbehaves := ih.2 i p hcall
    suffices hsuff : I s' ∧ Behaves (T i) (fun _ _ => True) p' s' ∧
        ∀ j, j ≠ i → (T j).rely s s' by
      refine ⟨hsuff.1, ?_⟩
      intro j q hq
      by_cases hij : j = i
      · subst hij
        rw [Function.update_self] at hq
        cases hq
        exact hsuff.2.1
      · rw [Function.update_of_ne hij] at hq
        exact (ih.2 j q hq).stable (htrans j) (hsuff.2.2 j hij)
    cases hstep with
    | op =>
      obtain ⟨hinv', hguarantee, hnext⟩ := hbehaves s (hrefl i s) (hinvi ▸ ih.1) (hwithini ▸ hwithin)
      exact ⟨hinvi ▸ hinv', hnext, fun j hj => hothers i j _ _ hj.symm hguarantee⟩
    | fail e => exact ⟨ih.1, trivial, fun j _ => hrefl j s⟩
    | choose k => exact ⟨ih.1, hbehaves k, fun j _ => hrefl j s⟩
    | @move c => exact c.elim
    | @leave c => exact c.elim
  | stop i _ ih =>
    refine ⟨ih.1, ?_⟩
    intro j q hq
    by_cases hij : j = i
    · subst hij
      simp at hq
    · rw [Function.update_of_ne hij] at hq
      exact ih.2 j q hq

/-- The states that an undisturbed run comes by. -/
def Prog.visited (k : Nat) : Prog σ ε Empty α → σ → List σ
  | done _, _ => []
  | op update next, s => update s :: (next s).visited k (update s)
  | choose next, s => s :: (next k).visited k s
  | phase c _, _ => c.elim

/-- An idle worker makes a call that nobody disturbs. -/
theorem Interleaved.run {world : σ → σ → Prop} {starts : ι → Prog σ ε Empty α → Prop}
    {init within : σ → Prop} {calls : ι → Option (Prog σ ε Empty α)} {s : σ} {i : ι}
    {p : Prog σ ε Empty α} (k : Nat) (h : Interleaved world starts init within calls s)
    (hidle : calls i = none) (hstart : starts i p) (hwithin : ∀ t ∈ p.visited k s, within t) :
  Interleaved world starts init within calls (p.run k s).2
  := by
  suffices hall : ∀ (p : Prog σ ε Empty α) s,
      Interleaved world starts init within (Function.update calls i (some p)) s →
      (∀ t ∈ p.visited k s, within t) →
      ∃ q, Interleaved world starts init within (Function.update calls i (some q)) (p.run k s).2 by
    obtain ⟨q, hq⟩ := hall p s (.start i p h hidle hstart) hwithin
    have hstopped := Interleaved.stop i hq
    rwa [Function.update_idem, ← hidle, Function.update_eq_self] at hstopped
  intro p
  induction p with
  | done result =>
    intro s h _
    exact ⟨_, h⟩
  | op update next ih =>
    intro s h hwithin
    have hnext := Interleaved.step i h (Function.update_self _ _ _) .op
      (hwithin _ List.mem_cons_self)
    rw [Function.update_idem] at hnext
    exact ih s _ hnext fun t ht => hwithin t (List.mem_cons_of_mem _ ht)
  | choose next ih =>
    intro s h hwithin
    have hnext := Interleaved.step i h (Function.update_self _ _ _) (.choose k)
      (hwithin _ List.mem_cons_self)
    rw [Function.update_idem] at hnext
    exact ih k s hnext fun t ht => hwithin t (List.mem_cons_of_mem _ ht)
  | phase c => exact c.elim

end

end Crash
