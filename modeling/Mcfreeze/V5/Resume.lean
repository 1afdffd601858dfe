import Mcfreeze.V5.Builder
import Mcfreeze.Lib.Exec
import Mcfreeze.Lib.XxHash
import Mathlib.Data.List.Sort

/-!
# Resuming a V5 build

The states a snapshot directory goes through after scatter: the logs are complete; the
plan is published and partitions are built under it; all partitions are built and
`index.done` is published; the metadata is written and the sentinels are removed.

Every run keeps the directory in one of these states, whatever its options are and
wherever it is killed.  So the metadata, once written, always describes partitions that
were built under one plan.
-/

open Format Crash

namespace V5

open V5Builder

/-! ### Plans -/

/-- The dictionary a plan compresses with. -/
def Plan.dictOf (plan : Plan) (dict : Option Bytes) : Option Bytes :=
  if plan.dictChecksum.isSome then dict else none

/-- The plan is consistent with the dictionary file. -/
structure PlanOk (E : Env) (plan : Plan) (dict : Option Bytes) : Prop where
  blockSize : validateBlockSize plan.blockSize = .ok ()
  compressor : plan.compression ≠ .none → E.zstd.compressor (plan.dictOf dict) = .ok ()
  checksum : ∀ c, plan.dictChecksum = some c → ∃ bytes, dict = some bytes ∧ checksum32 E.hash bytes = c

/-- A power of two that is brought within the bounds is a valid block size. -/
theorem isPowerOfTwo_clamp (k : Nat) :
  validateBlockSize (max minBlockSize (min (2 ^ k) maxAutoBlockSize)) = .ok ()
  := by
  have h12 : minBlockSize = 2 ^ 12 := rfl
  have h16 : maxAutoBlockSize = 2 ^ 16 := rfl
  have hpow : (max minBlockSize (min (2 ^ k) maxAutoBlockSize)).isPowerOfTwo := by
    rw [h12, h16]
    rcases Nat.le_total k 16 with hk | hk
    · have hle : 2 ^ k ≤ 2 ^ 16 := Nat.pow_le_pow_right (by omega) hk
      rw [Nat.min_eq_left hle]
      rcases Nat.le_total k 12 with hk' | hk'
      · rw [Nat.max_eq_left (Nat.pow_le_pow_right (by omega) hk')]
        exact ⟨12, rfl⟩
      · rw [Nat.max_eq_right (Nat.pow_le_pow_right (by omega) hk')]
        exact ⟨k, rfl⟩
    · rw [Nat.min_eq_right (Nat.pow_le_pow_right (by omega) hk)]
      exact ⟨16, rfl⟩
  rw [validateBlockSize, if_neg]
  rintro (hnot | hlt)
  · apply hnot hpow
  · omega

/-- Auto-tuning gives a valid block size. -/
theorem validate_autoTuneBlockSize {hist : List Nat} {bs : Nat} (h : autoTuneBlockSize hist = .ok bs) :
  validateBlockSize bs = .ok ()
  := by
  simp only [autoTuneBlockSize] at h
  split at h
  · obtain rfl := Except.ok.inj h
    apply isPowerOfTwo_clamp 0
  · split at h
    · simp at h
    · obtain rfl := Except.ok.inj h
      apply isPowerOfTwo_clamp

section

variable {S : Type} {R : Phases S Dir} {E : Env} {b : V5Builder} {I : Dir → Prop} {d : Dir}

/-- The phases of a run: the builds of the partitions, and whatever else there is. -/
abbrev phases (R : Phases S Dir) : Phases (BuildTasks ⊕ S) Dir :=
  (partDirs.tasks Error PartitionBuildDone).sum R

/-- Reading the sample pools changes nothing. -/
theorem wp_firstSamples (hI : I d) (ps : List Nat) :
  wp (phases R) I (fun _ d' => d = d') (b.firstSamples ps) d
  := by
  induction ps with
  | nil => exact ⟨hI, rfl⟩
  | cons p ps ih =>
    apply wp_bind
    apply wp_atomic hI
    intro samples d' h
    have hd : d = d' := by
      split at h
      · simp at h
      · exact (Prod.mk.inj (Except.ok.inj h)).2
    subst hd
    refine ⟨hI, ?_⟩
    split
    · apply ih
    · exact ⟨hI, rfl⟩

/-- What planning may change: the dictionary file. -/
def DictOnly (d d' : Dir) : Prop :=
  d' = { d with dict := d'.dict }

/-- Training leaves a plan that is consistent with the dictionary file. -/
theorem wp_trainPlan (hI : ∀ d', DictOnly d d' → I d') (samples : List Bytes) (plan : Plan)
    (hmode : plan.compression = b.compression) (hdict : plan.dictChecksum = none) :
  wp (phases R) I
    (fun r d' => DictOnly d d' ∧ r.2 = r.1.dictOf d'.dict ∧ (r.1.compression ≠ .none ∨ b.compression = .none)
      ∧ ∀ c, r.1.dictChecksum = some c → ∃ bytes, d'.dict = some bytes ∧ checksum32 E.hash bytes = c)
    (b.trainPlan E plan samples) d
  := by
  have hd : DictOnly d d := rfl
  have hnone : ∀ dict, plan.dictOf dict = none := by
    intro dict
    simp [Plan.dictOf, hdict]
  rw [trainPlan]
  split
  · next hm =>
    apply wp_bind
    apply wp_pick (hI d hd)
    intro seed
    dsimp only
    split
    · next bytes _ =>
      have hset : ∀ c, DictOnly d { d with dict := c } := fun c => rfl
      apply wp_bind
      apply wp_bind
      apply wp_modify (hI d hd) (hI _ (hset _))
      apply wp_bind
      apply wp_pick (hI _ (hset _))
      intro k
      apply wp_bind
      apply wp_modify (hI _ (hset _)) (hI _ (hset _))
      apply wp_modify (hI _ (hset _)) (hI _ (hset _))
      apply wp_pure (hI _ (hset _))
      refine ⟨hset _, rfl, ?_, ?_⟩
      · left
        rw [hmode, hm]
        simp
      · intro c hc
        exact ⟨bytes, rfl, Option.some.inj hc⟩
    · apply wp_pure (hI d hd)
      refine ⟨hd, ?_, ?_, ?_⟩
      · exact (hnone _).symm
      · left
        simp
      · simp [hdict]
  · apply wp_pure (hI d hd)
    refine ⟨hd, (hnone _).symm, ?_, ?_⟩
    · rw [hmode]
      tauto
    · simp [hdict]

/-- The samples change nothing in the plan but their sizes. -/
theorem measureSamples_plan {compressor : Compressor} {samples : List Bytes} {plan plan' : Plan}
    {hist hist' : List Nat}
    (h : measureSamples E compressor samples (plan, hist) = .ok (plan', hist')) :
  ∃ raw stored, plan' = { plan with sampleBytesRaw := raw, sampleBytesStored := stored }
  := by
  induction samples generalizing plan hist with
  | nil =>
    obtain ⟨rfl, rfl⟩ := Prod.mk.inj (Except.ok.inj h)
    exact ⟨_, _, rfl⟩
  | cons v samples ih =>
    simp only [measureSamples] at h
    split at h
    · simp at h
    · obtain ⟨raw, stored, rfl⟩ := ih h
      exact ⟨raw, stored, rfl⟩

/-- The plan before the block size is chosen. -/
def Drafted (E : Env) (plan : Plan) (dict : Option Bytes) : Prop :=
  (plan.compression ≠ .none → E.zstd.compressor (plan.dictOf dict) = .ok ())
    ∧ ∀ c, plan.dictChecksum = some c → ∃ bytes, dict = some bytes ∧ checksum32 E.hash bytes = c

/-- The plan of the compression agrees with the dictionary file. -/
theorem wp_compressionPlan (hI : ∀ d', DictOnly d d' → I d') (hist : List Nat) :
  wp (phases R) I (fun r d' => DictOnly d d' ∧ Drafted E r.1 d'.dict) (b.compressionPlan E hist) d
  := by
  have hd : DictOnly d d := rfl
  rw [compressionPlan]
  split
  · next hmode =>
    apply wp_pure (hI d hd)
    refine ⟨hd, ?_, ?_⟩
    · intro hne
      exact absurd hmode hne
    · simp [initialPlan]
  · next hmode =>
    apply wp_bind
    apply wp_bind
    apply wp_mono (wp_firstSamples (hI d hd) _)
    rintro samples _ - rfl
    apply wp_bind
    apply wp_mono (wp_trainPlan (E := E) hI samples { b.initialPlan E with nSamples := samples.length } rfl rfl)
    rintro ⟨plan, dict⟩ d' hd' ⟨honly, hdict, -, hsum⟩
    dsimp only at hdict
    subst hdict
    apply wp_bind
    apply wp_ofExcept hd'
    intro compressor hcomp
    have hok : E.zstd.compressor (plan.dictOf d'.dict) = .ok () := by
      rw [Compressor.new] at hcomp
      split at hcomp
      · assumption
      · simp at hcomp
    apply wp_ofExcept hd'
    rintro ⟨plan', hist'⟩ hmeasure
    obtain ⟨raw, stored, rfl⟩ := measureSamples_plan hmeasure
    apply wp_pure hd'
    refine ⟨honly, ?_, hsum⟩
    intro _
    exact hok

/-- Deriving a plan: when the statistics are complete, a consistent plan is published; when
the first partition has none, nothing happens. -/
theorem wp_derivePlan (hI : ∀ d', DictOnly d d' → I d')
    (hblock : ∀ bs, b.blockSizeOverride = some bs → validateBlockSize bs = .ok ())
    (hpublish : ∀ d' plan, DictOnly d d' → PlanOk E plan d'.dict → I { d' with plan := some plan }) :
  wp (phases R) I
    (fun plan d' => ∃ d₁, DictOnly d d₁ ∧ PlanOk E plan d₁.dict ∧ d' = { d₁ with plan := some plan })
    (b.derivePlan E) d
  := by
  have hd : DictOnly d d := rfl
  have hread : wp (phases R) I (fun _ d' => d = d')
      ((List.range b.layout.nPartitions).foldlM
        (fun hist p => do
          let stats ← b.readStats (S := S) p
          return addHist hist stats.hist) emptyHist) d := by
    apply wp_foldlM (R := fun _ _ d' => d = d')
    · rintro _ _ _ rfl
      apply hI _ hd
    · rintro p _ hist _ rfl
      apply wp_bind
      apply wp_atomic (hI _ hd)
      intro stats d' h
      have heq : d = d' := by
        split at h
        · simp at h
        · exact (Prod.mk.inj (Except.ok.inj h)).2
      subst heq
      exact ⟨hI _ hd, hI _ hd, rfl⟩
    · rfl
  apply wp_bind
  apply wp_mono hread
  rintro hist _ - rfl
  have hnone : DictOnly d { d with dict := none } := rfl
  have hfrom : ∀ d', DictOnly { d with dict := none } d' → DictOnly d d' := fun d' h => h
  apply wp_bind
  apply wp_modify (hI _ hd) (hI _ hnone)
  apply wp_bind
  apply wp_mono (wp_compressionPlan (E := E) (fun d' h => hI d' (hfrom d' h)) hist)
  rintro ⟨plan, hist'⟩ d₁ hd₁ ⟨honly, hcomp, hsum⟩
  apply wp_bind
  apply wp_ofExcept hd₁
  intro blockSize hbs
  have hok : PlanOk E { plan with blockSize := blockSize, inlineThreshold := blockSize / 2 } d₁.dict := by
    refine ⟨?_, hcomp, hsum⟩
    rw [chooseBlockSize] at hbs
    split at hbs
    · next bs hover =>
      obtain rfl := Except.ok.inj hbs
      apply hblock _ hover
    · apply validate_autoTuneBlockSize hbs
  apply wp_bind
  apply wp_modify hd₁ (hpublish d₁ _ (hfrom d₁ honly) hok)
  apply wp_pure (hpublish d₁ _ (hfrom d₁ honly) hok)
  exact ⟨d₁, hfrom d₁ honly, hok, rfl⟩

/-- Without the statistics of the first partition no plan is derived, and nothing is
touched. -/
theorem wp_derivePlan_of_no_stats (hI : I d)
    (hstats : (d.part (b.dirOf 0)).arrivalStats = none) {Q : Plan → Dir → Prop} :
  wp (phases R) I Q (b.derivePlan E) d
  := by
  obtain ⟨n, hn⟩ : ∃ n, b.layout.nPartitions = n + 1 := ⟨b.layout.nPartitions - 1, by
    have hpos := b.layout.pos
    omega⟩
  rw [derivePlan, hn, List.range_succ_eq_map, List.foldlM_cons]
  apply wp_bind
  apply wp_bind
  apply wp_bind
  apply wp_atomic hI
  intro stats d' h
  rw [hstats] at h
  simp at h

end

/-! ### The states of a directory -/

/-- What the snapshot is made from: the frames and the statistics of each partition, with
the layout and the seed that all runs share.  `before` is the metadata that was there
before. -/
structure Load where
  layout : Layout
  seed : UInt64
  frames : Nat → List Frame
  stats : Nat → ArrivalStats
  before : Option Meta

/-- The values fit the length fields of the format. -/
def Load.Fits (L : Load) : Prop :=
  ∀ p < L.layout.nPartitions, ∀ f ∈ L.frames p, f.Fits

/-- The directory of a partition of the load. -/
def Load.dir (L : Load) (p : Nat) (d : Dir) : PartDir :=
  d.part (partitionDir L.layout.nPartitions p)

/-- Scatter has completed, and nothing is planned. -/
structure Scattered (L : Load) (d : Dir) : Prop where
  unplanned : d.plan = none
  indexDone : d.indexDone = none
  metaJson : d.metaJson = L.before
  parts : ∀ p < L.layout.nPartitions, HasLog (L.frames p) (L.stats p) (L.dir p d)

/-- The codec of a plan, given the dictionary file. -/
def Plan.codecOf (plan : Plan) (dict : Option Bytes) : Option Decompressor :=
  plan.codec (plan.dictOf dict)

/-- The plan is published, and partitions are built under it. -/
structure Planned (E : Env) (L : Load) (plan : Plan) (d : Dir) : Prop where
  published : d.plan = some plan
  indexDone : d.indexDone = none
  metaJson : d.metaJson = L.before
  ok : PlanOk E plan d.dict
  parts : ∀ p < L.layout.nPartitions,
    Resumable E plan (plan.codecOf d.dict) (L.frames p) (L.stats p) (L.dir p d)

/-- All partitions are built under the plan, and their transient files are gone. -/
structure AllBuilt (E : Env) (L : Load) (plan : Plan) (dones : List PartitionBuildDone) (d : Dir) :
    Prop where
  ok : PlanOk E plan d.dict
  length : dones.length = L.layout.nPartitions
  parts : ∀ p done, dones[p]? = some done →
    Built E plan (plan.codecOf d.dict) (L.frames p) done (L.dir p d)
      ∧ (L.dir p d).arrivalStats = none

/-- All partitions are built, and `index.done` says so; the metadata may be written. -/
structure Indexed (E : Env) (L : Load) (plan : Plan) (dones : List PartitionBuildDone) (d : Dir) :
    Prop where
  built : AllBuilt E L plan dones d
  indexDone : d.indexDone = some (indexDoneOf plan dones)
  metaJson : d.metaJson = L.before ∨ d.metaJson = some (metaOf L.seed (indexDoneOf plan dones))

/-- The metadata is written and the sentinels are removed. -/
structure Finished (E : Env) (L : Load) (plan : Plan) (dones : List PartitionBuildDone) (d : Dir) :
    Prop where
  built : AllBuilt E L plan dones d
  unplanned : d.plan = none
  indexDone : d.indexDone = none
  metaJson : d.metaJson = some (metaOf L.seed (indexDoneOf plan dones))

/-- The states a directory goes through after scatter. -/
inductive Phase (E : Env) (L : Load) (d : Dir) : Prop where
  | scattered : Scattered L d → Phase E L d
  | planned (plan : Plan) : Planned E L plan d → Phase E L d
  | indexed (plan : Plan) (dones : List PartitionBuildDone) : Indexed E L plan dones d → Phase E L d
  | finished (plan : Plan) (dones : List PartitionBuildDone) : Finished E L plan dones d → Phase E L d

/-- The builder belongs to the load, and its options were accepted. -/
structure Accepted (L : Load) (b : V5Builder) : Prop where
  layout : b.layout = L.layout
  seed : b.verifySeed = L.seed
  blockSize : ∀ bs, b.blockSizeOverride = some bs → validateBlockSize bs = .ok ()

section

variable {S : Type} {R : Phases S Dir} {E : Env} {L : Load} {b : V5Builder} {d : Dir} {plan : Plan}
  {dones : List PartitionBuildDone}

theorem Scattered.of_dictOnly (h : Scattered L d) {d' : Dir} (hd' : DictOnly d d') :
  Scattered L d'
  := by
  rw [hd']
  exact ⟨h.unplanned, h.indexDone, h.metaJson, h.parts⟩

theorem Scattered.publish (h : Scattered L d) (hok : PlanOk E plan d.dict) :
  Planned E L plan { d with plan := some plan }
  :=
  ⟨rfl, h.indexDone, h.metaJson, hok, fun p hp => Or.inl (h.parts p hp)⟩

/-- `ensure_plan` in a process that has no plan yet. -/
theorem wp_ensurePlan (hb : Accepted L b) (h : Phase E L d) (hindex : d.indexDone = none) :
  wp (phases R) (Phase E L) (fun plan d' => Planned E L plan d') (b.ensurePlan E none) d
  := by
  apply wp_bind
  apply wp_read h
  cases h with
  | scattered hs =>
    rw [hs.unplanned]
    apply wp_mono (wp_derivePlan _ hb.blockSize _)
    · rintro plan d' - ⟨d₁, honly, hok, rfl⟩
      apply (hs.of_dictOnly honly).publish hok
    · intro d' honly
      apply Phase.scattered (hs.of_dictOnly honly)
    · intro d' plan honly hok
      apply Phase.planned plan ((hs.of_dictOnly honly).publish hok)
  | planned plan hp =>
    rw [hp.published]
    apply wp_bind
    apply wp_atomic (.planned plan hp)
    intro dict d' hdict
    have heq : d = d' := by
      split at hdict
      · exact (Prod.mk.inj (Except.ok.inj hdict)).2
      · split at hdict
        · simp at hdict
        · split at hdict
          · simp at hdict
          · exact (Prod.mk.inj (Except.ok.inj hdict)).2
    subst heq
    refine ⟨.planned plan hp, ?_⟩
    apply wp_pure (.planned plan hp) hp
  | indexed plan dones hi =>
    rw [hi.indexDone] at hindex
    simp at hindex
  | finished plan dones hf =>
    rw [hf.unplanned]
    apply wp_derivePlan_of_no_stats (.finished plan dones hf)
    have hpos := L.layout.pos
    obtain ⟨done, hdone⟩ : ∃ done, dones[0]? = some done :=
      ⟨_, List.getElem?_eq_getElem (by rw [hf.built.length]; omega)⟩
    have hstats := (hf.built.parts 0 done hdone).2
    rw [Load.dir, ← hb.layout] at hstats
    apply hstats

/-- What a process remembers of `plan`: the plan that is published, or nothing when
`index.done` is. -/
def Remembers (E : Env) (L : Load) (cached : Option Plan) (d : Dir) : Prop :=
  match cached with
  | some plan => Planned E L plan d
  | none => ∃ plan dones, Indexed E L plan dones d

theorem Remembers.phase {cached : Option Plan} (h : Remembers E L cached d) :
  Phase E L d
  := by
  cases cached with
  | some plan => apply Phase.planned plan h
  | none =>
    obtain ⟨plan, dones, hi⟩ := h
    apply Phase.indexed plan dones hi

/-- After planning, the process remembers a plan that is published, or the index is complete. -/
theorem wp_plan (hb : Accepted L b) (h : Phase E L d) :
  wp (phases R) (Phase E L) (fun cached d' => Remembers E L cached d') (b.plan E) d
  := by
  apply wp_bind
  apply wp_read h
  split
  · next done hdone =>
    apply wp_pure h
    cases h with
    | scattered hs =>
      rw [hs.indexDone] at hdone
      simp at hdone
    | planned plan hp =>
      rw [hp.indexDone] at hdone
      simp at hdone
    | indexed plan dones hi => exact ⟨plan, dones, hi⟩
    | finished plan dones hf =>
      rw [hf.indexDone] at hdone
      simp at hdone
  · next hnone =>
    apply wp_bind
    apply wp_mono (wp_ensurePlan hb h hnone)
    intro plan d' hd' hp
    exact ⟨hd', hp⟩

/-! ### Building -/

/-- The dictionary of the plan is that of the file. -/
theorem wp_loadDict {I : Dir → Prop} (hI : I d) :
  wp (phases R) I (fun dict d' => d = d' ∧ dict = plan.dictOf d.dict) (loadDict E plan) d
  := by
  apply wp_atomic hI
  intro dict d' h
  rw [Plan.dictOf]
  split at h
  · next hnone =>
    obtain ⟨rfl, rfl⟩ := Prod.mk.inj (Except.ok.inj h)
    exact ⟨hI, rfl, by simp [hnone]⟩
  · next expected hsome =>
    split at h
    · simp at h
    · next bytes hbytes =>
      split at h
      · simp at h
      · obtain ⟨rfl, rfl⟩ := Prod.mk.inj (Except.ok.inj h)
        exact ⟨hI, rfl, by simp [hsome, hbytes]⟩

/-- The partition of a directory name. -/
theorem part_put (n p q : Nat) (t : PartDir) (d : Dir) :
  (partDirs.put (partitionDir n p) t d).part (partitionDir n q)
    = if q = p then t else d.part (partitionDir n q)
  := by
  apply get_put_partitionDir partDirs

/-- Replacing the directory of one partition by one that is built as well. -/
theorem AllBuilt.put (h : AllBuilt E L plan dones d) {p : Nat} {t : PartDir}
    (ht : ∀ done, dones[p]? = some done →
      Built E plan (plan.codecOf d.dict) (L.frames p) done t ∧ t.arrivalStats = none) :
  AllBuilt E L plan dones (partDirs.put (partitionDir L.layout.nPartitions p) t d)
  := by
  refine ⟨h.ok, h.length, ?_⟩
  intro q done hdone
  rw [Load.dir, part_put]
  split
  · next heq =>
    subst heq
    apply ht done hdone
  · apply h.parts q done hdone

/-- Taking over a build that is complete. -/
theorem wp_sweepTransients (hb : Accepted L b) (h : Indexed E L plan dones d) :
  wp (phases R) (Phase E L) (fun _ d' => Indexed E L plan dones d' ∧ d'.plan = none)
    b.sweepTransients d
  := by
  have h' : Indexed E L plan dones { d with plan := none } :=
    ⟨⟨h.built.ok, h.built.length, h.built.parts⟩, h.indexDone, h.metaJson⟩
  apply wp_bind
  apply wp_modify (.indexed plan dones h) (.indexed plan dones h')
  rw [hb.layout]
  have hloop := wp_forM (P := phases R) (I := Phase E L)
    (f := fun name => sweepPartitionTransients.lift partDirs name)
    (R := fun rest d => (∀ name ∈ rest, name ∈ partitionDirs L.layout.nPartitions)
      ∧ Indexed E L plan dones d ∧ d.plan = none)
    (fun _ d hd => .indexed plan dones hd.2.1)
    (by
      rintro name rest d ⟨hnames, hd⟩
      obtain ⟨p, hp, rfl⟩ := exists_of_mem_partitionDirs (hnames name List.mem_cons_self)
      let J : Option Bytes → PartDir → Prop := fun dict t => ∀ done, dones[p]? = some done →
        Built E plan (plan.codecOf dict) (L.frames p) done t ∧ t.arrivalStats = none
      apply wp_lift (J := J d.dict) (R := fun _ _ => True)
        (G := fun d' => (Indexed E L plan dones d' ∧ d'.plan = none) ∧ d'.dict = d.dict)
      · intro d' hG _
        apply Phase.indexed plan dones hG.1.1
      · rintro t d' ⟨⟨hi, hnone⟩, hdict⟩ _ ht
        rw [← hdict] at ht
        exact ⟨⟨⟨hi.built.put ht, hi.indexDone, hi.metaJson⟩, hnone⟩, hdict⟩
      · intro _ d' hG _ _
        exact ⟨fun name h => hnames name (List.mem_cons_of_mem _ h), hG.1⟩
      · exact ⟨hd, rfl⟩
      · apply wp_sweepPartitionTransients
        · intro t ht done hdone
          obtain ⟨hbuilt, hstats⟩ := hd.1.built.parts p done hdone
          refine ⟨hbuilt.sweep ht, ?_⟩
          rcases ht.stats with hs | hs
          · rw [hs]
            apply hstats
          · apply hs
        · intro t _ _
          trivial)
    _ _ ⟨fun name h => h, h', rfl⟩
  apply wp_mono hloop
  rintro _ d' - ⟨-, hd'⟩
  apply hd'

/-- Building all partitions under a published plan. -/
theorem wp_buildAll (hE : E.Lawful) (hL : L.Fits) (hb : Accepted L b) (h : Planned E L plan d) :
  wp (phases R) (Phase E L)
    (fun dones d' => AllBuilt E L plan dones d' ∧ d'.indexDone = none ∧ d'.metaJson = L.before
      ∧ Phase E L d')
    (b.buildAll E plan (plan.dictOf d.dict)) d
  := by
  let G : Dir → Prop := fun d' => d'.plan = some plan ∧ d'.indexDone = none ∧ d'.metaJson = L.before
    ∧ d'.dict = d.dict
  let I : DirName → PartDir → Prop := fun name t => ∀ p < L.layout.nPartitions,
    partitionDir L.layout.nPartitions p = name →
      Resumable E plan (plan.codecOf d.dict) (L.frames p) (L.stats p) t
  let Q : DirName → PartitionBuildDone → PartDir → Prop := fun name done t =>
    ∀ p < L.layout.nPartitions, partitionDir L.layout.nPartitions p = name →
      Built E plan (plan.codecOf d.dict) (L.frames p) done t ∧ t.arrivalStats = none
  have hkeys : ((partitionDirs L.layout.nPartitions).map fun name =>
      (name, buildPartition E plan (plan.dictOf d.dict) b.bucketBytes)).map Prod.fst
        = partitionDirs L.layout.nPartitions := by
    rw [List.map_map]
    apply List.map_id
  have hinv : ∀ d', G d' → (∀ name ∈ partitionDirs L.layout.nPartitions, I name (d'.part name)) →
      Phase E L d' := by
    rintro d' ⟨hplan, hindex, hmeta, hdict⟩ hparts
    refine .planned plan ⟨hplan, hindex, hmeta, ?_, ?_⟩
    · rw [hdict]
      apply h.ok
    · intro p hp
      rw [hdict]
      apply hparts _ (List.mem_map_of_mem (List.mem_range.mpr hp)) p hp rfl
  apply wp_bind
  rw [hb.layout]
  apply wp_await_tasks (L := partDirs) (G := G) (J := I) (W := Q)
  · rw [hkeys]
    apply nodup_partitionDirs
  · intro t ht
    obtain ⟨name, hname, rfl⟩ := List.mem_map.mp ht
    obtain ⟨p, hp, rfl⟩ := exists_of_mem_partitionDirs hname
    have hbuild := wp_buildPartition hE (plan.dictOf d.dict) b.bucketBytes (hL p hp) (h.parts p hp)
    have hsame : ∀ q, partitionDir L.layout.nPartitions q = partitionDir L.layout.nPartitions p →
        q = p := fun q hq => partitionDir_injective hq
    apply wp_mono (wp_weaken hbuild _)
    · rintro done t - hdone q hq heq
      rw [hsame q heq]
      apply hdone
    · rintro t ht q hq heq
      rw [hsame q heq]
      apply ht
  · exact ⟨h.published, h.indexDone, h.metaJson, rfl⟩
  · rw [hkeys]
    apply hinv
  · intro name _ t d' hG _ _
    apply hG
  · intro ts d' hts hfinal hsafe hG
    rw [hkeys] at hts
    have hphase : Phase E L d' := by
      apply hinv d' hG
      rw [← hts]
      apply hsafe.inv
    apply wp_ofExcept hphase
    intro dones hres
    have hdones := hsafe.results hfinal hres
    rw [hts] at hdones
    have hlength : dones.length = L.layout.nPartitions := by
      rw [← hdones.length_eq, partitionDirs, List.length_map, List.length_range]
    refine ⟨⟨?_, hlength, ?_⟩, hG.2.1, hG.2.2.1, hphase⟩
    · rw [hG.2.2.2]
      apply h.ok
    · intro p done hdone
      have hp : p < L.layout.nPartitions := by
        rw [← hlength]
        apply (List.getElem?_eq_some_iff.mp hdone).1
      have hname : (partitionDirs L.layout.nPartitions)[p]?
          = some (partitionDir L.layout.nPartitions p) := by
        simp [partitionDirs, hp]
      rw [hG.2.2.2]
      apply hdones.of_getElem? hname hdone p hp rfl

/-- Building a snapshot, or taking over one that is built. -/
theorem wp_build (hE : E.Lawful) (hL : L.Fits) (hb : Accepted L b) {cached : Option Plan}
    (h : Remembers E L cached d) :
  wp (phases R) (Phase E L)
    (fun done d' => ∃ plan dones, done = indexDoneOf plan dones ∧ Indexed E L plan dones d'
      ∧ d'.plan = none)
    (b.build E cached) d
  := by
  apply wp_bind
  apply wp_read h.phase
  cases cached with
  | none =>
    obtain ⟨plan, dones, hi⟩ := h
    rw [hi.indexDone]
    apply wp_bind
    apply wp_mono (wp_sweepTransients hb hi)
    intro _ d' hd' hi'
    exact ⟨hd', plan, dones, rfl, hi'⟩
  | some plan =>
    have hp : Planned E L plan d := h
    rw [hp.indexDone]
    apply wp_bind
    refine ⟨.planned plan hp, ?_⟩
    apply wp_bind
    apply wp_mono (wp_loadDict (.planned plan hp))
    rintro _ _ - ⟨rfl, rfl⟩
    apply wp_bind
    apply wp_mono (wp_buildAll hE hL hb hp)
    rintro dones d' - ⟨hbuilt, hindex, hmeta, hphase⟩
    have h₁ : Indexed E L plan dones { d' with indexDone := some (indexDoneOf plan dones) } := by
      refine ⟨⟨hbuilt.ok, hbuilt.length, hbuilt.parts⟩, rfl, ?_⟩
      left
      apply hmeta
    have h₂ : Indexed E L plan dones
        { d' with indexDone := some (indexDoneOf plan dones), plan := none } :=
      ⟨⟨hbuilt.ok, hbuilt.length, hbuilt.parts⟩, rfl, h₁.metaJson⟩
    apply wp_bind
    apply wp_modify hphase (.indexed plan dones h₁)
    apply wp_bind
    apply wp_modify (.indexed plan dones h₁) (.indexed plan dones h₂)
    exact ⟨.indexed plan dones h₂, plan, dones, rfl, h₂, rfl⟩

/-- A whole run, with whatever options, from whatever state. -/
theorem wp_finalizeLoad (hE : E.Lawful) (hL : L.Fits) (hb : Accepted L b) (h : Phase E L d) :
  wp (phases R) (Phase E L) (fun _ d' => ∃ plan dones, Finished E L plan dones d')
    (b.finalizeLoad E) d
  := by
  apply wp_bind
  apply wp_mono (wp_plan hb h)
  intro cached d _ hrem
  apply wp_bind
  apply wp_mono (wp_build hE hL hb hrem)
  rintro _ d - ⟨plan, dones, rfl, hi, hnone⟩
  have h₁ : Indexed E L plan dones
      { d with metaJson := some (metaOf b.verifySeed (indexDoneOf plan dones)) } := by
    refine ⟨⟨hi.built.ok, hi.built.length, hi.built.parts⟩, hi.indexDone, ?_⟩
    right
    rw [← hb.seed]
  have h₂ : Indexed E L plan dones
      { d with metaJson := some (metaOf b.verifySeed (indexDoneOf plan dones)), scatterDone := none } :=
    ⟨⟨hi.built.ok, hi.built.length, hi.built.parts⟩, hi.indexDone, h₁.metaJson⟩
  have h₃ : Finished E L plan dones
      { d with
        metaJson := some (metaOf b.verifySeed (indexDoneOf plan dones))
        scatterDone := none
        indexDone := none } := by
    refine ⟨⟨hi.built.ok, hi.built.length, hi.built.parts⟩, hnone, rfl, ?_⟩
    rw [← hb.seed]
  apply wp_bind
  apply wp_modify (.indexed plan dones hi) (.indexed plan dones h₁)
  apply wp_bind
  apply wp_modify (.indexed plan dones h₁) (.indexed plan dones h₂)
  apply wp_bind
  apply wp_modify (.indexed plan dones h₂) (.finished plan dones h₃)
  exact ⟨.finished plan dones h₃, plan, dones, h₃⟩

/-! ### What the metadata describes -/

/-- The reader opens the codec of the plan. -/
theorem openCodec_metaOf (hE : E.Lawful) {dict : Option Bytes} (h : PlanOk E plan dict) (seed : UInt64) :
  openCodec E dict (metaOf seed (indexDoneOf plan dones)).compression
    = .ok (plan.codecOf dict)
  := by
  have hnew : plan.compression ≠ .none →
      Decompressor.new E.zstd (plan.dictOf dict) = .ok ⟨plan.dictOf dict⟩ := by
    intro hmode
    rw [Decompressor.new, hE.zstd.decompressor_of_compressor _ (h.compressor hmode)]
  have hcomp : plan.compression ≠ .none → openCodec E dict
      (some ⟨codecZstd, plan.dictChecksum.isSome, plan.dictChecksum, plan.minCompressLen,
        plan.zstdVersion⟩) = .ok (some ⟨plan.dictOf dict⟩) := by
    intro hmode
    replace hnew := hnew hmode
    rw [Plan.dictOf] at hnew ⊢
    cases hsum : plan.dictChecksum with
    | none =>
      rw [hsum] at hnew
      simp only [openCodec, Option.isSome_none, Bool.false_eq_true, if_false] at hnew ⊢
      rw [hnew]
      rfl
    | some c =>
      obtain ⟨bytes, rfl, rfl⟩ := h.checksum c hsum
      rw [hsum] at hnew
      simp only [openCodec, Option.isSome_some, if_true, verifyDict, ne_eq, not_true_eq_false,
        if_false] at hnew ⊢
      rw [hnew]
      rfl
  cases hmode : plan.compression with
  | none => simp only [metaOf, indexDoneOf, hmode, openCodec, Plan.codecOf, Plan.codec]
  | zstd =>
    simp only [metaOf, indexDoneOf, hmode, Plan.codecOf, Plan.codec]
    apply hcomp
    simp [hmode]
  | zstdDict =>
    simp only [metaOf, indexDoneOf, hmode, Plan.codecOf, Plan.codec]
    apply hcomp
    simp [hmode]

/-- The compression that the metadata names is consistent. -/
theorem checkCompression_metaOf (seed : UInt64) :
  checkCompression (metaOf seed (indexDoneOf plan dones)).compression = .ok ()
  := by
  have hcomp : checkCompression (some ⟨codecZstd, plan.dictChecksum.isSome, plan.dictChecksum,
      plan.minCompressLen, plan.zstdVersion⟩) = .ok () := by
    cases hsum : plan.dictChecksum with
    | none => simp [checkCompression]
    | some c => simp [checkCompression]
  cases hmode : plan.compression with
  | none => simp only [metaOf, indexDoneOf, hmode, checkCompression]
  | zstd =>
    simp only [metaOf, indexDoneOf, hmode]
    apply hcomp
  | zstdDict =>
    simp only [metaOf, indexDoneOf, hmode]
    apply hcomp

/-- The metadata of partitions that are all built under one plan describes them. -/
theorem AllBuilt.describes (hE : E.Lawful) (hcount : L.layout.nPartitions < 2 ^ 32)
    (h : AllBuilt E L plan dones d) :
  Describes E L.layout L.seed L.frames d (metaOf L.seed (indexDoneOf plan dones))
    (plan.codecOf d.dict)
  := by
  have hsketch : (metaOf L.seed (indexDoneOf plan dones)).sketch.isSome = plan.sketch := by
    by_cases hs : plan.sketch = true
    · simp [metaOf, indexDoneOf, hs]
    · simp [metaOf, indexDoneOf, hs]
  refine ⟨rfl, rfl, rfl, h.ok.blockSize, ?_, checkCompression_metaOf L.seed,
    openCodec_metaOf hE h.ok L.seed, ?_, hcount, ?_⟩
  · intro kind hkind
    simp only [metaOf] at hkind
    split at hkind
    · exact (Option.some.inj hkind).symm
    · simp at hkind
  · simp only [metaOf, indexDoneOf, List.length_map, h.length]
  · intro p pm hpm
    simp only [metaOf, indexDoneOf, List.getElem?_map, Option.map_eq_some_iff] at hpm
    obtain ⟨done, hdone, rfl⟩ := hpm
    rw [hsketch]
    apply (h.parts p done hdone).1.2

/-- Metadata is only ever found over partitions that are all built under one plan. -/
theorem Phase.allBuilt (h : Phase E L d) (hL : L.before = none) {m : Meta}
    (hm : d.metaJson = some m) :
  ∃ plan dones, AllBuilt E L plan dones d ∧ m = metaOf L.seed (indexDoneOf plan dones)
  := by
  cases h with
  | scattered hs =>
    rw [hs.metaJson, hL] at hm
    simp at hm
  | planned plan hp =>
    rw [hp.metaJson, hL] at hm
    simp at hm
  | indexed plan dones hi =>
    rcases hi.metaJson with hnone | hsome
    · rw [hnone, hL] at hm
      simp at hm
    · rw [hsome] at hm
      exact ⟨plan, dones, hi.built, (Option.some.inj hm).symm⟩
  | finished plan dones hf =>
    rw [hf.metaJson] at hm
    exact ⟨plan, dones, hf.built, (Option.some.inj hm).symm⟩

/-- In each phase a partition has its log, or it is built. -/
theorem Phase.hasLog_or_built (h : Phase E L d) {p : Nat} (hp : p < L.layout.nPartitions) :
  HasLog (L.frames p) (L.stats p) (L.dir p d) ∨ (L.dir p d).buildDone.isSome = true
  := by
  have hall : ∀ plan dones, AllBuilt E L plan dones d → (L.dir p d).buildDone.isSome = true := by
    intro plan dones hbuilt
    obtain ⟨done, hdone⟩ : ∃ done, dones[p]? = some done :=
      ⟨_, List.getElem?_eq_getElem (by rw [hbuilt.length]; exact hp)⟩
    rw [(hbuilt.parts p done hdone).1.1]
    rfl
  cases h with
  | scattered hs =>
    left
    apply hs.parts p hp
  | planned plan hplan =>
    rcases hplan.parts p hp with hlog | ⟨done, hdone⟩
    · left
      apply hlog
    · right
      rw [hdone.1]
      rfl
  | indexed plan dones hi =>
    right
    apply hall plan dones hi.built
  | finished plan dones hf =>
    right
    apply hall plan dones hf.built

/-- A log is deleted only when its partition is built. -/
theorem Phase.log_or_built (h : Phase E L d) {p : Nat} (hp : p < L.layout.nPartitions) :
  (L.dir p d).arrival = some (encodeFrames (L.frames p)) ∨ (L.dir p d).buildDone.isSome
  := by
  rcases h.hasLog_or_built hp with hlog | hbuilt
  · left
    apply hlog.arrival
  · right
    apply hbuilt

/-- No phase depends on `scatter.done`. -/
theorem Phase.setScatterDone (h : Phase E L d) (done : Option ScatterDone) :
  Phase E L { d with scatterDone := done }
  := by
  cases h with
  | scattered hs =>
    obtain ⟨hplan, hindex, hmeta, hparts⟩ := hs
    exact .scattered ⟨hplan, hindex, hmeta, hparts⟩
  | planned plan hp =>
    obtain ⟨hplan, hindex, hmeta, hok, hparts⟩ := hp
    exact .planned plan ⟨hplan, hindex, hmeta, hok, hparts⟩
  | indexed plan dones hi =>
    obtain ⟨⟨hok, hlength, hparts⟩, hindex, hmeta⟩ := hi
    exact .indexed plan dones ⟨⟨hok, hlength, hparts⟩, hindex, hmeta⟩
  | finished plan dones hf =>
    obtain ⟨⟨hok, hlength, hparts⟩, hplan, hindex, hmeta⟩ := hf
    exact .finished plan dones ⟨⟨hok, hlength, hparts⟩, hplan, hindex, hmeta⟩

end

/-! ### Sequences of runs -/

/-- A run with the given options: options that are not accepted are an error. -/
def runFinalize (E : Env) (nPartitions : Nat) (seed : UInt64) (v5 : V5Options) :
    Root Empty IndexDone :=
  match V5Builder.new nPartitions seed v5 with
  | .error e => .throw e
  | .ok b => b.finalizeLoad E

/-- Scatter has completed for some pairs: the log of each partition holds the frames of
its pairs, in some order. -/
def ScatterCompleted (E : Env) (layout : Layout) (seed : UInt64) (kvs : List Pair) (d : Dir) :
    Prop :=
  ∃ L : Load, L.layout = layout ∧ L.seed = seed ∧ L.before = none
    ∧ (∀ p < layout.nPartitions, (L.frames p).Perm (framesOf E.hash layout seed kvs p))
    ∧ Scattered L d

/-- An accepted builder has the layout and the seed it was given, and a valid block size. -/
theorem V5Builder.new_eq_ok {n : Nat} {seed : UInt64} {v5 : V5Options} {b : V5Builder}
    (h : V5Builder.new n seed v5 = .ok b) :
  Layout.new n = .ok b.layout ∧ b.verifySeed = seed
    ∧ ∀ bs, b.blockSizeOverride = some bs → validateBlockSize bs = .ok ()
  := by
  simp only [V5Builder.new] at h
  split at h
  · simp at h
  · next hchecked =>
    split at h
    · simp at h
    · next layout hlayout =>
      obtain rfl := Except.ok.inj h
      refine ⟨hlayout, rfl, ?_⟩
      intro bs hbs
      simp only at hbs
      rw [hbs] at hchecked
      apply hchecked

theorem accepted_new {L : Load} {v5 : V5Options} {b : V5Builder}
    (h : V5Builder.new L.layout.nPartitions L.seed v5 = .ok b) :
  Accepted L b
  := by
  obtain ⟨hlayout, hseed, hblock⟩ := V5Builder.new_eq_ok h
  rw [Layout.new_nPartitions] at hlayout
  exact ⟨(Except.ok.inj hlayout).symm, hseed, hblock⟩

theorem wp_runFinalize {E : Env} (hE : E.Lawful) {L : Load} (hL : L.Fits) {d : Dir} (h : Phase E L d)
    (v5 : V5Options) :
  wp (phases (.none Dir)) (Phase E L) (fun _ d' => ∃ plan dones, Finished E L plan dones d')
    (runFinalize E L.layout.nPartitions L.seed v5) d
  := by
  rw [runFinalize]
  split
  · apply wp_throw h
  · next b hb => apply wp_finalizeLoad hE hL (accepted_new hb) h

theorem framesOf_fits {H : Hash} {layout : Layout} {seed : UInt64} {kvs : List Pair}
    (hvalues : ∀ kv ∈ kvs, kv.2.length ≤ maxValueLen) (p : Nat) :
  ∀ f ∈ framesOf H layout seed kvs p, f.Fits
  := by
  intro f hf
  obtain ⟨kv, hkv, -, rfl⟩ := mem_framesOf.mp hf
  apply hvalues kv hkv

/-- Over a directory for which scatter has completed, whatever runs are made, with
whatever options, and wherever they are killed: when there is metadata, it is valid, it
describes partitions that were all built under one plan, and the snapshot serves the
scattered pairs.  A log is deleted only when its partition is built. -/
theorem reachable_serves {E : Env} (hE : E.Lawful) {layout : Layout}
    (hcount : layout.nPartitions < 2 ^ 32) {seed : UInt64} {kvs : List Pair}
    (hkeys : (kvs.map Prod.fst).Nodup) (hvalues : ∀ kv ∈ kvs, kv.2.length ≤ maxValueLen)
    (hcoll : NoCollisions E.hash layout seed kvs) {d₀ : Dir}
    (hscatter : ScatterCompleted E layout seed kvs d₀)
    {x : Session Dir Error (BuildTasks ⊕ Empty) IndexDone V5Options} {d : Dir}
    (hreach : Reachable (phases (.none Dir)) (runFinalize E layout.nPartitions seed) (· = d₀)
      (fun _ _ _ => True) x d) :
  (∀ m, d.metaJson = some m → m.layout = .ok layout
      ∧ (∃ frames codec, Describes E layout seed frames d m codec
        ∧ ∀ p < layout.nPartitions, (frames p).Perm (framesOf E.hash layout seed kvs p))
      ∧ Serves E layout seed kvs d)
    ∧ ∀ p < layout.nPartitions, ∃ frames, frames.Perm (framesOf E.hash layout seed kvs p)
      ∧ ((d.part (partitionDir layout.nPartitions p)).arrival = some (encodeFrames frames)
        ∨ (d.part (partitionDir layout.nPartitions p)).buildDone.isSome)
  := by
  obtain ⟨L, rfl, rfl, hbefore, hframes, hscattered⟩ := hscatter
  have hL : L.Fits := by
    intro p hp f hf
    apply framesOf_fits hvalues p f ((hframes p hp).mem_iff.mp hf)
  have hphase : Phase E L d := by
    have hsafe := hreach.safe (J := fun _ => Phase E L)
      (Q := fun _ _ d' => ∃ plan dones, Finished E L plan dones d')
      (by
        rintro d rfl
        apply Phase.scattered hscattered)
      (by
        intro _ v5 d hd _
        apply wp_runFinalize hE hL hd v5)
    apply hsafe.inv
  constructor
  · intro m hm
    obtain ⟨plan, dones, hbuilt, rfl⟩ := hphase.allBuilt hbefore hm
    have hd := hbuilt.describes hE hcount
    refine ⟨hd.layout_eq, ⟨L.frames, _, hd, hframes⟩, ?_⟩
    apply Complete.serves ⟨_, _, hm, hd⟩ hframes hkeys hcoll
  · intro p hp
    exact ⟨L.frames p, hframes p hp, hphase.log_or_built hp⟩

/-! ### A run to the end -/

/-- The order of frames. -/
def Frame.le (f g : Frame) : Prop :=
  f.fp.toNat ≤ g.fp.toNat

instance : DecidableRel Frame.le :=
  fun f g => inferInstanceAs (Decidable (f.fp.toNat ≤ g.fp.toNat))

/-- An environment for snapshots without compression and sketches. -/
def plainEnv : Env where
  hash := ⟨XxHash.xxh64⟩
  zstd :=
    { compressor := fun _ => .error "unavailable"
      compress := fun _ _ => .error "unavailable"
      decompressor := fun _ => .error "unavailable"
      decompress := fun _ _ _ => .error "unavailable"
      fromSamples := fun _ _ _ => .error "unavailable"
      version := "unavailable" }
  xorf := { tryFrom := fun _ => .error "unavailable", contains := fun _ _ => true }
  sortUnstable := List.insertionSort Frame.le

/-- The environment of the examples does what is asked of the libraries. -/
theorem plainEnv_lawful :
  plainEnv.Lawful
  := by
  have htotal : Std.Total Frame.le := ⟨fun f g => Nat.le_total _ _⟩
  have htrans : IsTrans Frame Frame.le := ⟨fun f g h => Nat.le_trans⟩
  refine ⟨⟨?_, ?_, ?_⟩, ⟨?_, ?_⟩, ?_, ?_⟩
  · intro dict value frame h
    simp [plainEnv] at h
  · intro dict value frame h
    simp [plainEnv] at h
  · intro dict h
    simp [plainEnv] at h
  · intro fps bytes h
    simp [plainEnv] at h
  · intro fps bytes h
    simp [plainEnv] at h
  · intro frames
    apply List.perm_insertionSort
  · intro frames
    apply List.pairwise_insertionSort Frame.le frames

def plainOptions : V5Options := ⟨some 4096, none, false, .none, defaultMinCompressLen⟩

/-- Four pairs are scattered to two partitions. -/
def twoLoad : Load where
  layout := .two
  seed := defaultVerifySeed
  frames := framesOf plainEnv.hash .two defaultVerifySeed fourPairs
  stats p :=
    let pairs := pairsOf plainEnv.hash .two fourPairs p
    ⟨pairs.length, (encodeFrames (framesOf plainEnv.hash .two defaultVerifySeed fourPairs p)).length,
      pairs.foldl (fun hist kv => countSize hist kv.2.length) emptyHist⟩
  before := none

def scatteredPart (p : Nat) : PartDir :=
  { PartDir.empty with
    arrival := some (encodeFrames (twoLoad.frames p))
    arrivalStats := some (twoLoad.stats p) }

def twoScattered : Dir :=
  { Dir.empty with
    part := fun name =>
      if name = partitionDir 2 0 then scatteredPart 0
      else if name = partitionDir 2 1 then scatteredPart 1
      else .empty }

theorem scattered_two :
  Scattered twoLoad twoScattered
  := by
  refine ⟨rfl, rfl, rfl, ?_⟩
  intro p hp
  have hdir : twoLoad.dir p twoScattered = scatteredPart p := by
    obtain rfl | rfl : p = 0 ∨ p = 1 := Nat.le_one_iff_eq_zero_or_eq_one.mp (Nat.le_of_lt_succ hp)
    · rfl
    · rfl
  rw [hdir]
  exact ⟨rfl, rfl, rfl⟩

/-- The runs that are made over it. -/
abbrev runTwo (options : V5Options) : Root Empty IndexDone :=
  runFinalize plainEnv 2 defaultVerifySeed options

/-- A run with larger blocks is killed when it has built the first partition. -/
def killedTwo : Dir :=
  ((runTwo { plainOptions with blockSize := some 8192 }).cut partDirs Prog.noPhases 0 9 twoScattered).2

/-- The next run. -/
def resumedTwo : Option (Except Error IndexDone × Dir) :=
  (runTwo plainOptions).exec partDirs Prog.noPhases 0 killedTwo

/-- What is built of a partition. -/
def builtOf (p : Nat) (d : Dir) : Bool :=
  (d.part (partitionDir 2 p)).buildDone.isSome

/-- The second run takes over the block size of the first, and its first partition. -/
theorem reachable_serves_resumed :
  builtOf 0 killedTwo = true ∧ builtOf 1 killedTwo = false
    ∧ ∃ r d m, resumedTwo = some (r, d) ∧ d.metaJson = some m ∧ m.blockSize = 8192
      ∧ Serves plainEnv .two defaultVerifySeed fourPairs d
  := by
  have hbuilt : builtOf 0 killedTwo = true ∧ builtOf 1 killedTwo = false := by decide +kernel
  refine ⟨hbuilt.1, hbuilt.2, ?_⟩
  have hscatter : ScatterCompleted plainEnv .two defaultVerifySeed fourPairs twoScattered :=
    ⟨twoLoad, rfl, rfl, rfl, fun p _ => List.Perm.refl _, scattered_two⟩
  have hmeta : resumedTwo.map (·.2.metaJson.map (·.blockSize)) = some (some 8192) := by decide +kernel
  obtain ⟨⟨r, d⟩, hrun, hblock⟩ := Option.map_eq_some_iff.mp hmeta
  obtain ⟨m, hm, hsize⟩ := Option.map_eq_some_iff.mp hblock
  have hkilled : Reachable (phases (.none Dir)) (runFinalize plainEnv 2 defaultVerifySeed)
      (· = twoScattered) (fun _ _ _ => True) (.idle (some _)) killedTwo :=
    Reachable.cut (Prog.noPhases_schedules _) (.init rfl) trivial trivial
  have hresumed : Reachable (phases (.none Dir)) (runFinalize plainEnv 2 defaultVerifySeed)
      (· = twoScattered) (fun _ _ _ => True) (.returned plainOptions r) d :=
    Reachable.exec (Prog.noPhases_schedules _) hkilled trivial trivial hrun
  have hcoll : NoCollisions plainEnv.hash .two defaultVerifySeed fourPairs := by
    unfold NoCollisions Format.NoCollisions Format.Distinguished
    decide +kernel
  have hserves := reachable_serves plainEnv_lawful (by decide) (by decide +kernel) (by decide +kernel)
    hcoll hscatter hresumed
  exact ⟨r, d, m, hrun, hm, hsize, (hserves.1 m hm).2.2⟩

end V5
