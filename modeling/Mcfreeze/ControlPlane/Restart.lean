import Mcfreeze.ControlPlane.Broker

/-!
# Restarts of the control plane

An agent keeps the generation of the last response it received and polls with it, while a
restarted control plane has a new broker whose generations start again.  An answer can be
lost on its way, or arrive after a restart.

When the broker has other assignments than the agent's last response, the poll is answered
at once if the response came from this broker.  After a restart it is answered at once
only when the new broker has already stored assignments more often than the old number
says.
-/

namespace ControlPlane

open Polling

/-- A control plane and an agent.  A response is kept together with the broker it came
from: `incarnation` counts the restarts.  `stores` counts how often the assignments of the
agent's node were stored since the last restart. -/
structure Served where
  polling : Polling
  incarnation : Nat
  stores : Nat
  inFlight : Option (AssignmentsResponse × Nat)
  last : Option (AssignmentsResponse × Nat)

namespace Served

def new : Served := ⟨.new, 0, 0, none, none⟩

variable (node : String)

/-- A handler answers: it found something new, or has waited for its channel. -/
def Answers (p : Polling) (response : AssignmentsResponse) : Prop :=
  (∃ r ∈ p.reads, r.node = node ∧ r.chan = none ∧ r.response = response)
    ∨ ∃ w ∈ p.waits, w.read.node = node ∧ w.answer = response

/-- A call to the broker, an answer to the agent, its arrival or loss, or a restart. -/
inductive Step : Served → Served → Prop where
  | call {s call polling} : Polling.Step s.polling call polling →
      Step s { s with
        polling := polling
        stores := s.stores + if (s.polling.stores node call).isSome then 1 else 0 }
  | answer {s response} : Answers node s.polling response →
      Step s { s with inFlight := some (response, s.incarnation) }
  | deliver {s x} : s.inFlight = some x → Step s { s with inFlight := none, last := some x }
  | drop {s} : Step s { s with inFlight := none }
  | restart {s} : Step s { s with polling := .new, incarnation := s.incarnation + 1, stores := 0 }

/-- The states reached from a new control plane and a new agent. -/
inductive Reachable : Served → Prop where
  | new : Reachable .new
  | step {s s'} : Reachable s → Step node s s' → Reachable s'

/-- The poll with the generation of the last response is answered at once, with the
assignments of the broker. -/
def AnsweredAtOnce (s : Served) (response : AssignmentsResponse) : Prop :=
  let read := s.polling.broker.getAssignments node response.generation
  read.2.1 = none ∧ some read.1.assignments = s.polling.broker.assignments node

/-- What the broker has stored for the node is not what the agent received last. -/
def Differs (s : Served) (response : AssignmentsResponse) : Prop :=
  ∃ assignments, s.polling.broker.assignments node = some assignments
    ∧ assignments ≠ response.assignments

/-- Assignments are delivered whatever happens. -/
def AlwaysDelivers : Prop :=
  ∀ s, Reachable node s → ∀ response incarnation, s.last = some (response, incarnation) →
    Differs node s response → AnsweredAtOnce node s response

/-- A response of the current broker is one of its reads. -/
def Known (s : Served) (x : AssignmentsResponse × Nat) : Prop :=
  x.2 ≤ s.incarnation
    ∧ (x.2 = s.incarnation → ∃ r ∈ s.polling.reads, r.node = node ∧ r.response = x.1)

/-- The invariant. -/
structure Inv (s : Served) : Prop where
  polling : Polling.Reachable s.polling
  stores : s.polling.broker.generation node = s.stores
  waits : ∀ w ∈ s.polling.waits, ∃ r ∈ s.polling.reads, r.node = w.read.node ∧ r.response = w.answer
  inFlight : ∀ x, s.inFlight = some x → Known node s x
  last : ∀ x, s.last = some x → Known node s x

variable {node}

/-- The answer of every wait was that of a read. -/
theorem waits_step {p p' : Polling} {call : Call} (hstep : Polling.Step p call p')
    (h : ∀ w ∈ p.waits, ∃ r ∈ p.reads, r.node = w.read.node ∧ r.response = w.answer) :
  ∀ w ∈ p'.waits, ∃ r ∈ p'.reads, r.node = w.read.node ∧ r.response = w.answer
  := by
  have hold : ∀ w ∈ p.waits, ∃ r ∈ p'.reads, r.node = w.read.node ∧ r.response = w.answer := by
    intro w hw
    obtain ⟨r, hr, heq⟩ := h w hw
    exact ⟨r, hstep.reads_mono r hr, heq⟩
  cases hstep with
  | register => apply hold
  | set => apply hold
  | merge => apply hold
  | get => apply hold
  | wake =>
    intro w hw
    rcases List.mem_cons.mp hw with rfl | hw
    · exact ⟨_, List.mem_cons_self, rfl, rfl⟩
    · apply hold w hw

theorem Known.call {s : Served} {polling : Polling} {stores : Nat} {x : AssignmentsResponse × Nat}
    (h : Known node s x) (hreads : ∀ r ∈ s.polling.reads, r ∈ polling.reads) :
  Known node { s with polling := polling, stores := stores } x
  := by
  refine ⟨h.1, ?_⟩
  intro heq
  obtain ⟨r, hr, hrx⟩ := h.2 heq
  exact ⟨r, hreads r hr, hrx⟩

theorem Known.restart {s : Served} {x : AssignmentsResponse × Nat} (h : Known node s x) :
  Known node
    { s with polling := .new, incarnation := s.incarnation + 1, stores := 0 } x
  := by
  have hle := h.1
  refine ⟨Nat.le_succ_of_le hle, ?_⟩
  intro heq
  dsimp only at heq
  omega

/-- A step of the polls, and a restart of the control plane, keep the invariant. -/
theorem Inv.step {s s' : Served} (h : Inv node s) (hstep : Step node s s') :
  Inv node s'
  := by
  cases hstep with
  | @call call polling hcall =>
    refine ⟨h.polling.step hcall, ?_, waits_step hcall h.waits, ?_, ?_⟩
    · dsimp only
      rw [(hcall.stores node).1, h.stores]
      split <;> simp
    · intro x hx
      apply (h.inFlight x hx).call hcall.reads_mono
    · intro x hx
      apply (h.last x hx).call hcall.reads_mono
  | @answer response hanswer =>
    refine ⟨h.polling, h.stores, h.waits, ?_, h.last⟩
    rintro _ ⟨⟩
    refine ⟨Nat.le_refl _, ?_⟩
    intro _
    rcases hanswer with ⟨r, hr, hnode, -, rfl⟩ | ⟨w, hw, hnode, rfl⟩
    · exact ⟨r, hr, hnode, rfl⟩
    · obtain ⟨r, hr, hrnode, hresponse⟩ := h.waits w hw
      exact ⟨r, hr, hrnode.trans hnode, hresponse⟩
  | deliver hx =>
    refine ⟨h.polling, h.stores, h.waits, ?_, ?_⟩
    · rintro _ ⟨⟩
    · rintro _ ⟨⟩
      apply h.inFlight _ hx
  | drop =>
    refine ⟨h.polling, h.stores, h.waits, ?_, h.last⟩
    rintro _ ⟨⟩
  | restart =>
    refine ⟨.new, rfl, ?_, ?_, ?_⟩
    · intro w hw
      simp [Polling.new] at hw
    · intro x hx
      apply (h.inFlight x hx).restart
    · intro x hx
      apply (h.last x hx).restart

/-- The invariant holds after any steps and restarts. -/
theorem Reachable.inv {s : Served} (h : Reachable node s) :
  Inv node s
  := by
  induction h with
  | new =>
    refine ⟨.new, rfl, ?_, ?_, ?_⟩
    · intro w hw
      simp [Served.new, Polling.new] at hw
    · rintro _ ⟨⟩
    · rintro _ ⟨⟩
  | step _ hstep ih => apply ih.step hstep

/-- When the broker has other assignments than the agent's last response, the poll is
answered at once exactly if the response came from this broker, or the assignments were
stored more often since the restart than the generation of the response says. -/
theorem answeredAtOnce_iff {s : Served} (h : Reachable node s) {response : AssignmentsResponse}
    {incarnation : Nat} (hlast : s.last = some (response, incarnation))
    (hdiffers : Differs node s response) :
  AnsweredAtOnce node s response
    ↔ incarnation = s.incarnation ∨ response.generation < (s.stores : Int)
  := by
  have hinv := h.inv
  obtain ⟨assignments, hassign, hne⟩ := hdiffers
  have hat : AnsweredAtOnce node s response
      ↔ response.generation < s.polling.broker.generation node := by
    rw [AnsweredAtOnce, Broker.getAssignments]
    split
    · next hlt => simpa [Broker.response, hassign] using hlt
    · next hge =>
      split
      · simpa using hge
      · simpa using hge
  rw [hat, ← hinv.stores]
  constructor
  · exact Or.inr
  · rintro (rfl | hlt)
    · obtain ⟨r, hr, rfl, rfl⟩ := (hinv.last _ hlast).2 rfl
      have hok := hinv.polling.inv.reads r hr
      rcases Int.lt_or_eq_of_le hok.le with hlt | heq
      · apply hlt
      · exfalso
        apply hne
        rw [hok.current heq, Broker.response, hassign]
        rfl
    · apply hlt

/-- An assignment of a dataset. -/
def sampleAssignment (dataset : String) : NodeAssignment :=
  ⟨dataset, dataset, .of "v1" dataset ("pv-" ++ dataset)⟩

/-- The agent has received the assignments of generation 1 and they change. -/
theorem changed_reachable :
  ∃ s, Reachable "node" s ∧ s.last = some (⟨1, some [sampleAssignment "users"]⟩, 0)
    ∧ s.incarnation = 0 ∧ Differs "node" s ⟨1, some [sampleAssignment "users"]⟩
  := by
  have hset : Reachable "node" _ :=
    Reachable.new.step (.call (.set "node" (some [sampleAssignment "users"])))
  have hget : Reachable "node" _ := hset.step (.call (.get "node" 0 rfl))
  have hanswer : Reachable "node" _ := hget.step (.answer (.inl ⟨_, List.mem_cons_self, rfl, rfl, rfl⟩))
  have hdeliver : Reachable "node" _ := hanswer.step (.deliver rfl)
  have hchange : Reachable "node" _ := hdeliver.step (.call (.set "node" (some [])))
  exact ⟨_, hchange, rfl, rfl, some [], by decide, by decide⟩

theorem answeredAtOnce_iff_changed :
  ∃ s, s.last = some (⟨1, some [sampleAssignment "users"]⟩, 0)
    ∧ (AnsweredAtOnce "node" s ⟨1, some [sampleAssignment "users"]⟩
      ↔ 0 = s.incarnation ∨ (1 : Int) < (s.stores : Int))
  := by
  obtain ⟨s, hs, hlast, -, hdiffers⟩ := changed_reachable
  exact ⟨s, hlast, answeredAtOnce_iff hs hlast hdiffers⟩

/-- After a restart the first assignments of the new broker have the number of the agent's
last response, and the agent waits. -/
theorem not_alwaysDelivers_restart :
  ¬ AlwaysDelivers "node"
  := by
  intro h
  have hset : Reachable "node" _ :=
    Reachable.new.step (.call (.set "node" (some [sampleAssignment "users"])))
  have hget : Reachable "node" _ := hset.step (.call (.get "node" 0 rfl))
  have hanswer : Reachable "node" _ := hget.step (.answer (.inl ⟨_, List.mem_cons_self, rfl, rfl, rfl⟩))
  have hdeliver : Reachable "node" _ := hanswer.step (.deliver rfl)
  have hrestart : Reachable "node" _ := hdeliver.step .restart
  have hchange : Reachable "node" _ := hrestart.step (.call (.set "node" (some [sampleAssignment "items"])))
  have hanswered := h _ hchange _ _ rfl ⟨some [sampleAssignment "items"], by decide, by decide⟩
  revert hanswered
  unfold AnsweredAtOnce
  decide

end Served

end ControlPlane
