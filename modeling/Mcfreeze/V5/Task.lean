import Mcfreeze.V5.Arrival
import Mcfreeze.Lib.Files

/-!
# File operations in a partition directory

The data files of a partition, and the deletion of what only a build needs.
-/

open Format Crash Files

namespace V5

/-- A program over a partition directory. -/
abbrev Task := Prog PartDir Error Empty

/-- The data files of a partition directory. -/
inductive PartFile where
  | arrival
  | bucket (b : Nat)
  | blocks
  | heap
  | fences
  | sketch
  deriving DecidableEq, Repr

instance : FileStore PartDir PartFile where
  file d
    | .arrival => d.arrival
    | .bucket b => d.buckets b
    | .blocks => d.blocks
    | .heap => d.heap
    | .fences => d.fences
    | .sketch => d.sketch
  setFile d f contents :=
    match f with
    | .arrival => { d with arrival := contents }
    | .bucket b => { d with buckets := fun b' => if b' = b then contents else d.buckets b' }
    | .blocks => { d with blocks := contents }
    | .heap => { d with heap := contents }
    | .fences => { d with fences := contents }
    | .sketch => { d with sketch := contents }
  file_setFile d f contents := by
    cases f <;> simp
  file_setFile_ne d f g h contents := by
    cases f with
    | bucket b =>
      cases g with
      | bucket b' =>
        have hb : b' ≠ b := fun heq => h (by rw [heq])
        simp [hb]
      | _ => rfl
    | _ =>
      cases g with
      | bucket b' => rfl
      | _ => first | rfl | exact absurd rfl h
  setFile_setFile d f c c' := by
    cases f with
    | bucket i =>
      simp only [PartDir.mk.injEq, true_and, and_true]
      funext i'
      split <;> rfl
    | _ => rfl

@[simp]
theorem buildDone_setFile (d : PartDir) (f : PartFile) (contents : Option Bytes) :
  (setFile d f contents).buildDone = d.buildDone
  := by
  cases f <;> rfl

@[simp]
theorem arrivalStats_setFile (d : PartDir) (f : PartFile) (contents : Option Bytes) :
  (setFile d f contents).arrivalStats = d.arrivalStats
  := by
  cases f <;> rfl

/-- Delete the bucket files that are left. -/
def removeBucketFiles : Task Unit :=
  (List.range maxRadixBuckets).forM fun b => remove (.bucket b)

/-- Delete what only the build needed. -/
def sweepPartitionTransients : Task Unit := do
  remove .arrival
  .modify fun d => { d with arrivalStats := none }
  removeBucketFiles

section

variable {I : PartDir → Prop} {d : PartDir}

/-- Removing the bucket files changes nothing else. -/
theorem wp_removeBucketFiles {Q : Unit → PartDir → Prop}
    (hI : ∀ d', d' = { d with buckets := d'.buckets } → I d')
    (hQ : ∀ d', d' = { d with buckets := d'.buckets } → Q () d') :
  wp (.none _) I Q removeBucketFiles d
  := by
  have hloop : wp (.none _) I (fun _ d' => d' = { d with buckets := d'.buckets })
      removeBucketFiles d := by
    apply wp_forM (R := fun _ d' => d' = { d with buckets := d'.buckets }) (fun _ => hI) _ _ d rfl
    intro b _ d' hd'
    have hnext : setFile d' (.bucket b) none
        = { d with buckets := (setFile d' (.bucket b) none).buckets } := by
      rw [hd']
      rfl
    apply wp_remove (hI d' hd') (hI _ hnext) hnext
  apply wp_mono hloop
  intro _ d' _ hd'
  apply hQ d' hd'

/-- A directory with some of its transient files deleted. -/
structure Swept (d d' : PartDir) : Prop where
  files : d' = ⟨d'.arrival, d'.arrivalStats, d'.buckets, d.buildDone, d.blocks, d.heap, d.fences,
    d.sketch⟩
  stats : d'.arrivalStats = d.arrivalStats ∨ d'.arrivalStats = none

/-- The sweep deletes transient files only, the statistics among them. -/
theorem wp_sweepPartitionTransients {Q : Unit → PartDir → Prop} (hI : ∀ d', Swept d d' → I d')
    (hQ : ∀ d', Swept d d' → d'.arrivalStats = none → Q () d') :
  wp (.none _) I Q sweepPartitionTransients d
  := by
  have h₀ : Swept d d := ⟨rfl, Or.inl rfl⟩
  have h₁ : Swept d (setFile d .arrival none) := ⟨rfl, Or.inl rfl⟩
  have h₂ : ∀ d', d' = { setFile d .arrival none with arrivalStats := none, buckets := d'.buckets } →
      Swept d d' ∧ d'.arrivalStats = none := by
    intro d' hd'
    rw [hd']
    exact ⟨⟨rfl, Or.inr rfl⟩, rfl⟩
  apply wp_bind
  apply wp_remove (hI _ h₀) (hI _ h₁)
  apply wp_bind
  apply wp_modify (hI _ h₁) (hI _ (h₂ _ rfl).1)
  apply wp_removeBucketFiles
  · intro d' hd'
    apply hI _ (h₂ d' hd').1
  · intro d' hd'
    apply hQ _ (h₂ d' hd').1 (h₂ d' hd').2

end

end V5
