import Mcfreeze.Loader.Scatter
import Mcfreeze.Lib.Exec

/-!
# Load runs

What a load does before the index phase (`lib.rs`): it looks whether scatter has already
completed, in the sentinel `scatter.done` or else partition by partition, and scatters the
sources if it has not.

When the sources are scattered, the main task may return an error while producers and
writers are still at work; they go on by themselves.
-/

open Format Crash

namespace Loader

section

variable {σ τ App S T : Type} (F : FormatBuilder σ τ App)

/-! ### Scatter completion detection -/

/-- What is known of a scatter that was already completed. -/
structure ScatterDoneInfo where
  nKeys : Nat
  dataBytes : Nat
  deriving DecidableEq, Repr

/-- Probe some partitions, up to the first that is not scattered. -/
def probeAll : List Nat → Prog σ Error S (Option (List ScatterProbe))
  | [] => return some []
  | p :: ps => do
    let s ← Prog.read
    match ← Prog.ofExcept (F.scatterProbe p s) with
    | none => return none
    | some probe =>
      match ← probeAll ps with
      | none => return none
      | some probes => return some (probe :: probes)

/-- The contents of a `scatter.done` that is derived from the state of the partitions. -/
def probedDone (probes : List ScatterProbe) : ScatterDone :=
  { format := F.format
    nKeys := (probes.map (·.nKeys)).sum
    nPartitions := F.n
    dataBytes := (probes.map (·.dataBytes)).sum
    partitions := probes.map (·.nKeys) }

/-- Whether scatter can be skipped.  The sentinel is only compared with the format of the
builder. -/
def checkScatterDone : Prog σ Error S (Option ScatterDoneInfo) := do
  let s ← Prog.read
  match F.root.scatterDone s with
  | some done =>
    if done.format ≠ F.format then .throw .formatMismatch
    else return some ⟨done.nKeys, 0⟩
  | none =>
    match ← probeAll F (List.range F.n) with
    | none => return none
    | some probes =>
      .modify (F.root.setScatterDone (probedDone F probes))
      return some ⟨(probedDone F probes).nKeys, 0⟩

/-! ### Scattering -/

variable [Inhabited App] (cfg : Config) (sources : List Source)

/-- Create the appenders, and run producers, writers and the main task until all of them
have ended. -/
def runTasks : Prog σ Error (T ⊕ Scatter σ τ App) (Scatter σ τ App) := do
  let appenders ← F.createAppenders (List.range F.n)
  match ← Prog.await (.inr (Scatter.start F cfg sources (appenders.getD · default))) with
  | .inl _ => .throw (.panic "not a scatter")
  | .inr c => return c

/-- What the main task returned. -/
def Scatter.result (c : Scatter σ τ App) : Except Error ScatterStats :=
  match c.main with
  | .ended r => r
  | _ => .error (.panic "the main task is running")

def runScatterSources : Prog σ Error (T ⊕ Scatter σ τ App) ScatterStats := do
  let c ← runTasks F cfg sources
  Prog.ofExcept c.result

def scatterParallel : Prog σ Error (T ⊕ Scatter σ τ App) ScatterStats := do
  match ← checkScatterDone F with
  | some info => return ⟨info.nKeys, info.dataBytes⟩
  | none => runScatterSources F cfg sources

end

theorem Scatter.main_of_result {σ τ App : Type} {c : Scatter σ τ App} {st : ScatterStats}
    (h : c.result = .ok st) :
  c.main = .ended (.ok st)
  := by
  rw [Scatter.result] at h
  split at h
  · next r hr => rw [hr, h]
  · simp at h

/-! ### What the check finds -/

section

variable {σ τ App S : Type} {F : FormatBuilder σ τ App} {P : Phases S σ} {I : σ → Prop} {s : σ}

/-- Every partition is probed as scattered. -/
def AllProbed (F : FormatBuilder σ τ App) (s : σ) : Prop :=
  ∀ p < F.n, ∃ probe, F.scatterProbe p s = .ok (some probe)

/-- Some partition is probed as not scattered. -/
def SomeUnprobed (F : FormatBuilder σ τ App) (s : σ) : Prop :=
  ∃ p < F.n, F.scatterProbe p s = .ok none

/-- Either all partitions are probed as scattered, or one is not. -/
theorem wp_probeAll (hI : I s) (ps : List Nat) :
  wp P I
    (fun r s' => s = s' ∧ match r with
      | none => ∃ p ∈ ps, F.scatterProbe p s = .ok none
      | some _ => ∀ p ∈ ps, ∃ probe, F.scatterProbe p s = .ok (some probe))
    (probeAll F ps : Prog σ Error S _) s
  := by
  induction ps with
  | nil =>
    refine ⟨hI, rfl, ?_⟩
    intro p hp
    simp at hp
  | cons p ps ih =>
    apply wp_bind
    apply wp_read hI
    apply wp_bind
    apply wp_ofExcept hI
    intro r hr
    cases r with
    | none => exact ⟨hI, rfl, p, List.mem_cons_self, hr⟩
    | some probe =>
      apply wp_bind
      apply wp_mono ih
      rintro (_ | probes) _ - ⟨rfl, hrest⟩
      · obtain ⟨q, hq, hnone⟩ := hrest
        exact ⟨hI, rfl, q, List.mem_cons_of_mem _ hq, hnone⟩
      · refine ⟨hI, rfl, ?_⟩
        intro q hq
        rcases List.mem_cons.mp hq with rfl | hq
        · exact ⟨probe, hr⟩
        · apply hrest q hq

/-- What the check finds, and what it leaves behind. -/
def Checked (F : FormatBuilder σ τ App) (s : σ) (r : Option ScatterDoneInfo) (s' : σ) : Prop :=
  match r with
  | none => F.root.scatterDone s = none ∧ SomeUnprobed F s ∧ s' = s
  | some _ => (∃ done, F.root.scatterDone s = some done ∧ done.format = F.format ∧ s' = s)
      ∨ F.root.scatterDone s = none ∧ AllProbed F s
        ∧ ∃ probes, s' = F.root.setScatterDone (probedDone F probes) s

/-- The check leaves the directory as it is, or adds the sentinel when all partitions are
probed as scattered. -/
theorem wp_checkScatterDone (hI : I s)
    (hI' : F.root.scatterDone s = none → AllProbed F s →
      ∀ probes, I (F.root.setScatterDone (probedDone F probes) s)) :
  wp P I (Checked F s) (checkScatterDone F) s
  := by
  apply wp_bind
  apply wp_read hI
  cases hdone : F.root.scatterDone s with
  | some done =>
    dsimp only
    split
    · apply wp_throw hI
    · next hformat =>
      refine ⟨hI, .inl ⟨done, hdone, ?_, rfl⟩⟩
      simpa using hformat
  | none =>
    apply wp_bind
    apply wp_mono (wp_probeAll hI _)
    rintro (_ | probes) _ - ⟨rfl, hprobes⟩
    · obtain ⟨p, hp, hnone⟩ := hprobes
      exact ⟨hI, hdone, ⟨p, List.mem_range.mp hp, hnone⟩, rfl⟩
    · have hall : AllProbed F s := fun p hp => hprobes p (List.mem_range.mpr hp)
      apply wp_bind
      apply wp_modify hI (hI' hdone hall probes)
      exact ⟨hI' hdone hall probes, .inr ⟨hdone, hall, probes, rfl⟩⟩

/-- The probes end when all partitions are probed as scattered. -/
theorem ends_probeAll (ps : List Nat) (h : ∀ p ∈ ps, ∃ probe, F.scatterProbe p s = .ok (some probe)) :
  Ends (fun r s' => r.isSome = true ∧ s = s') (probeAll F ps : Prog σ Error S _) s
  := by
  induction ps with
  | nil => exact ⟨rfl, rfl⟩
  | cons p ps ih =>
    obtain ⟨probe, hprobe⟩ := h p List.mem_cons_self
    have hrest := ih fun q hq => h q (List.mem_cons_of_mem _ hq)
    rw [probeAll]
    apply Ends.bind
    apply Ends.read
    apply Ends.bind
    apply Ends.ofExcept hprobe
    apply Ends.bind
    apply hrest.mono
    rintro (_ | probes) _ ⟨hsome, rfl⟩
    · simp at hsome
    · exact ⟨rfl, rfl⟩

/-- A run of the check takes the scatter for complete. -/
def TakesOver (F : FormatBuilder σ τ App) (s : σ) : Prop :=
  ∃ info s', Prog.Steps (.none σ) (checkScatterDone F) s (.done (.ok (some info))) s'

/-- A scatter is taken over when its sentinel has the format of the builder, or when there is
none and all partitions are probed as scattered. -/
theorem takesOver_iff :
  TakesOver F s ↔ (∃ done, F.root.scatterDone s = some done ∧ done.format = F.format)
    ∨ F.root.scatterDone s = none ∧ AllProbed F s
  := by
  constructor
  · rintro ⟨info, s', hsteps⟩
    have hcheck := wp_steps (wp_checkScatterDone (P := .none σ) (I := fun _ => True) (F := F) trivial
      fun _ _ _ => trivial) hsteps
    rcases hcheck.2 with ⟨done, hdone, hformat, -⟩ | ⟨hdone, hall, -⟩
    · exact .inl ⟨done, hdone, hformat⟩
    · exact .inr ⟨hdone, hall⟩
  · intro h
    have hends : Ends (fun r _ => r.isSome = true) (checkScatterDone F : Prog σ Error Empty _) s := by
      apply Ends.bind
      apply Ends.read
      rcases h with ⟨done, hdone, hformat⟩ | ⟨hdone, hall⟩
      · rw [hdone]
        dsimp only
        rw [if_neg (by simpa using hformat)]
        rfl
      · rw [hdone]
        apply Ends.bind
        apply (ends_probeAll _ fun p hp => hall p (List.mem_range.mp hp)).mono
        rintro (_ | probes) _ ⟨hsome, rfl⟩
        · simp at hsome
        · rfl
    obtain ⟨r, s', hsteps, hsome⟩ := hends.steps
    obtain ⟨info, rfl⟩ := Option.isSome_iff_exists.mp hsome
    exact ⟨info, s', hsteps⟩

end

end Loader
