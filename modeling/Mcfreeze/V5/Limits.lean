import Mcfreeze.V5.Tuning

/-!
# Values that scatter accepted fit

The limits of the format are enforced when a value is appended to the log of its partition.
After that nothing is too large: a value that is stored inline takes at most half a block,
a larger one goes to the heap and leaves a stub, and every record size has a class in the
histograms.  So a build never gives up with a size error, whatever the compressor does, and
the tuned block size is always valid.
-/

open Format Crash Files Histogram

namespace V5

open V5Builder

/-! ### Errors -/

/-- A record or a value is too large. -/
def IsSizeError : Error → Prop
  | .recordTooLarge _ _ => True
  | .valueTooLarge _ _ => True
  | _ => False

def IsIoError : Error → Prop
  | .io _ => True
  | _ => False

def NotSize (e : Error) : Prop :=
  ¬ IsSizeError e

theorem notSize_io (message : String) :
  NotSize (IoError.io message)
  :=
  id

theorem notSize_of_isIoError (e : Error) (h : IsIoError e) :
  NotSize e
  := by
  cases e <;> simp [NotSize, IsIoError, IsSizeError] at h ⊢

/-! ### What cannot fail on size -/

/-- A frame that cannot be read does not fail on a size. -/
theorem notSize_readFrame {input : Bytes} {e : Error} (h : readFrame input = .error e) :
  NotSize e
  := by
  simp only [readFrame] at h
  split at h
  · simp at h
  · split at h
    · obtain rfl := Except.error.inj h
      apply notSize_io
    · split at h
      · obtain rfl := Except.error.inj h
        apply notSize_io
      · simp at h

/-- The compression does not fail on a size. -/
theorem notSize_compress {Z : Zstd} {c : Compressor} {value : Bytes} {e : Error}
    (h : c.compress Z value = .error e) :
  NotSize e
  := by
  rw [Compressor.compress] at h
  split at h
  · simp at h
  · split at h
    · obtain rfl := Except.error.inj h
      exact id
    · simp at h

/-- The stored form of a value does not fail on a size. -/
theorem notSize_storedForm {Z : Zstd} {compressor : Option Compressor} {value : Bytes} {e : Error}
    (h : storedForm Z compressor value = .error e) :
  NotSize e
  := by
  simp only [storedForm] at h
  split at h
  · simp at h
  · split at h
    · next hc =>
      obtain rfl := Except.error.inj h
      apply notSize_compress hc
    · simp at h
    · simp at h

/-- The compressor does not fail on a size. -/
theorem notSize_openCompressor {E : Env} {plan : Plan} {dict : Option Bytes} {e : Error}
    (h : openCompressor E plan dict = .error e) :
  NotSize e
  := by
  have hnew : ∀ n, (Compressor.new E.zstd dict n).map some = .error e → NotSize e := by
    intro n hn
    rw [Compressor.new] at hn
    split at hn
    · simp [Except.map] at hn
    · obtain rfl := Except.error.inj hn
      exact id
  rw [openCompressor] at h
  split at h
  · simp at h
  · apply hnew _ h
  · apply hnew _ h

/-- The distribution over the buckets does not fail on a size. -/
theorem quiet_scatterFrames (nBuckets fuel : Nat) (input : Bytes) (pending : Nat → Bytes) :
  Quiet NotSize (scatterFrames nBuckets fuel input pending)
  := by
  induction fuel generalizing input pending with
  | zero => apply Quiet.pure
  | succ fuel ih =>
    apply Quiet.bind (Quiet.ofExcept fun e => notSize_readFrame)
    intro r
    cases r with
    | none => apply Quiet.pure
    | some r =>
      apply Quiet.bind (quiet_bufWrite notSize_io _ _ _)
      intro held
      apply ih

/-- The opening of the buckets does not fail on a size. -/
theorem quiet_openBuckets (nBuckets : Nat) :
  Quiet NotSize (openBuckets nBuckets)
  := by
  rw [openBuckets]
  split
  · apply Quiet.pure
  · apply Quiet.bind (Quiet.forM (fun b => Quiet.modify) _)
    intro _
    apply Quiet.bind (quiet_readFile notSize_io _)
    intro input
    apply Quiet.bind (quiet_scatterFrames _ _ _ _)
    intro pending
    apply Quiet.bind (Quiet.forM (fun b => quiet_append notSize_io _ _) _)
    intro _
    apply Quiet.pure

theorem quiet_sink (pending : Bytes) (sealed : Option Bytes) :
  Quiet NotSize (sink pending sealed)
  := by
  cases sealed with
  | none => apply Quiet.pure
  | some block => apply quiet_bufWrite notSize_io

theorem quiet_sweepPartitionTransients :
  Quiet NotSize sweepPartitionTransients
  := by
  apply Quiet.bind Quiet.modify
  intro _
  apply Quiet.bind Quiet.modify
  intro _
  apply Quiet.forM (fun b => Quiet.modify)

/-- The sketch does not fail on a size. -/
theorem quiet_writeSketch (E : Env) (plan : Plan) (fps : List UInt64) :
  Quiet NotSize (writeSketch E plan fps)
  := by
  rw [writeSketch]
  split
  · apply Quiet.bind
    · apply Quiet.ofExcept
      intro e h
      rw [Sketch.build] at h
      split at h
      · simp at h
      · obtain rfl := Except.error.inj h
        exact id
    intro bytes
    apply Quiet.bind (quiet_writeDataFile notSize_io _ _)
    intro _
    apply Quiet.pure
  · apply Quiet.pure

/-- The end of a build does not fail on a size. -/
theorem quiet_completeBuild (E : Env) (plan : Plan) (dataBytes : Nat) (st : BuildState) :
  Quiet NotSize (completeBuild E plan dataBytes st)
  := by
  apply Quiet.bind (quiet_sink _ _)
  intro blocksPending
  apply Quiet.bind (quiet_append notSize_io _ _)
  intro _
  apply Quiet.bind (quiet_append notSize_io _ _)
  intro _
  apply Quiet.bind (quiet_writeDataFile notSize_io _ _)
  intro _
  apply Quiet.bind (quiet_writeSketch E plan _)
  intro sketch
  apply Quiet.bind Quiet.modify
  intro _
  apply Quiet.bind quiet_sweepPartitionTransients
  intro _
  apply Quiet.pure

/-! ### What fits into a block -/

theorem minBlockSize_le_of_validate {blockSize : Nat} (h : validateBlockSize blockSize = .ok ()) :
  minBlockSize ≤ blockSize
  := by
  rw [validateBlockSize] at h
  split at h
  · simp at h
  · next hnot => exact Nat.not_lt.mp fun hlt => hnot (Or.inr hlt)

/-- Half a block leaves room for the header, the padding and the checksum. -/
theorem encodedLen_le_of_half {blockSize n : Nat} (h : minBlockSize ≤ blockSize) (hn : n ≤ blockSize / 2) :
  encodedLen n ≤ blockSize - checksumLen
  := by
  simp only [encodedLen, align8, headerLen, recordAlign, checksumLen, minBlockSize] at h ⊢
  omega

section

variable {asm : BlockAssembler}

/-- A push that keeps the block size, and does not fail on size. -/
def Pushes (asm : BlockAssembler) (r : Except Error (Option Bytes × BlockAssembler)) : Prop :=
  (∀ e, r = .error e → NotSize e) ∧ ∀ sealed asm', r = .ok (sealed, asm') → asm'.blockSize = asm.blockSize

/-- A record that fits a block is pushed. -/
theorem pushes_pushHeader (H : Hash) (fp vfp : UInt64) {payloadLen : Nat}
    (h : encodedLen payloadLen ≤ asm.blockSize - checksumLen) (lengthFlags : Nat) :
  Pushes asm (asm.pushHeader H fp vfp payloadLen lengthFlags)
  := by
  rw [BlockAssembler.pushHeader]
  split
  · refine ⟨?_, by simp⟩
    intro e he
    obtain rfl := Except.error.inj he
    exact id
  · dsimp only
    rw [if_neg (Nat.not_lt.mpr h)]
    refine ⟨by simp, ?_⟩
    intro sealed asm' hr
    obtain ⟨-, rfl⟩ := Prod.mk.inj (Except.ok.inj hr)
    rfl

/-- The payload keeps the block size. -/
theorem Pushes.payload {r r' : Except Error (Option Bytes × BlockAssembler)} {payload : Bytes}
    (h : Pushes asm r) (hr : r' = r.map fun x => (x.1, x.2.pushPayload payload)) :
  Pushes asm r'
  := by
  subst hr
  cases r with
  | error e => exact ⟨h.1, by simp [Except.map]⟩
  | ok r =>
    refine ⟨by simp [Except.map], ?_⟩
    intro sealed asm' hr
    obtain ⟨-, rfl⟩ := Prod.mk.inj (Except.ok.inj hr)
    apply h.2 r.1 r.2 rfl

theorem pushes_pushInline (H : Hash) (fp vfp : UInt64) {stored : Bytes} (hlen : stored.length ≤ maxValueLen)
    (h : encodedLen stored.length ≤ asm.blockSize - checksumLen) (compressed : Bool) :
  Pushes asm (asm.pushInline H fp vfp stored compressed)
  := by
  apply (pushes_pushHeader H fp vfp h _).payload
  rw [BlockAssembler.pushInline, if_neg (Nat.not_lt.mpr hlen)]
  dsimp only
  split
  · next e he => rw [he]; rfl
  · next hok => rw [hok]; rfl

theorem pushes_pushStub (H : Hash) (fp vfp : UInt64) {stub : Stub} (hlen : stub.storedLen ≤ maxValueLen)
    (h : encodedLen stubPayloadLen ≤ asm.blockSize - checksumLen) (compressed : Bool) :
  Pushes asm (asm.pushStub H fp vfp stub compressed)
  := by
  apply (pushes_pushHeader H fp vfp h _).payload
  rw [BlockAssembler.pushStub, if_neg (Nat.not_lt.mpr hlen)]
  dsimp only
  split
  · next e he => rw [he]; rfl
  · next hok => rw [hok]; rfl

end

/-! ### Building -/

section

variable {E : Env} {plan : Plan} {compressor : Option Compressor} {F : PartDir → Prop} {d : PartDir}
  {st : BuildState}

/-- The plans of the builder: a valid block size, and values up to half of it are inline. -/
structure PlanFits (plan : Plan) : Prop where
  blockSize : validateBlockSize plan.blockSize = .ok ()
  inlineThreshold : plan.inlineThreshold = plan.blockSize / 2

theorem outcome_sink (hF : Framed F) (hd : F d) (pending : Bytes) (sealed : Option Bytes) :
  Outcome NotSize (fun _ d' => F d') (sink pending sealed) d
  := by
  apply (quiet_sink pending sealed).outcome (I := fun _ => True)
  cases sealed with
  | none => apply wp_pure trivial hd
  | some block =>
    apply wp_bufWrite trivial
    intro b flushed rest _ _
    exact ⟨trivial, hF.blocks d _ hd⟩

/-- Emitting a frame does not fail on size. -/
theorem outcome_emitFrame (hplan : PlanFits plan) (hF : Framed F) {f : Frame} (hf : f.Fits) (hd : F d)
    (hst : st.asm.blockSize = plan.blockSize) :
  Outcome NotSize (fun st' d' => F d' ∧ st'.asm.blockSize = plan.blockSize)
    (emitFrame E plan compressor st f) d
  := by
  have hmin := minBlockSize_le_of_validate hplan.blockSize
  apply Outcome.bind
  apply Outcome.ofExcept (fun e => notSize_storedForm)
  rintro ⟨stored, compressed⟩ hstored
  have hlen : stored.length ≤ maxValueLen := Nat.le_trans (length_storedForm_le hstored) hf
  have hmod : stored.length % 2 ^ 32 = stored.length := by
    apply Nat.mod_eq_of_lt
    rw [maxValueLen] at hlen
    omega
  dsimp only
  rw [hmod, hplan.inlineThreshold]
  split
  · next hinline =>
    have hroom : encodedLen stored.length ≤ st.asm.blockSize - checksumLen := by
      rw [hst]
      apply encodedLen_le_of_half hmin hinline
    have hpush := pushes_pushInline E.hash f.fp f.vfp hlen hroom compressed
    apply Outcome.bind
    apply Outcome.ofExcept hpush.1
    rintro ⟨sealed, asm⟩ hasm
    apply Outcome.bind
    apply (outcome_sink hF hd _ sealed).mono
    intro blocksPending d' hd'
    exact ⟨hd', (hpush.2 sealed asm hasm).trans hst⟩
  · have hroom : encodedLen stubPayloadLen ≤ st.asm.blockSize - checksumLen := by
      rw [hst]
      apply encodedLen_le_of_half hmin
      simp only [stubPayloadLen, minBlockSize] at hmin ⊢
      omega
    apply Outcome.bind
    apply Outcome.mono (Q := fun _ d' => F d')
    · apply (quiet_bufWrite notSize_io _ _ _).outcome (I := fun _ => True)
      apply wp_bufWrite trivial
      intro b flushed rest _ _
      exact ⟨trivial, hF.heap d _ hd⟩
    intro heapPending d₁ hd₁
    let stub : Stub := ⟨st.heapOffset, stored.length, checksum32 E.hash stored⟩
    have hstub : stub.storedLen ≤ maxValueLen := hlen
    have hpush := pushes_pushStub E.hash f.fp f.vfp hstub hroom compressed
    apply Outcome.bind
    apply Outcome.ofExcept hpush.1
    rintro ⟨sealed, asm⟩ hasm
    apply Outcome.bind
    apply (outcome_sink hF hd₁ _ sealed).mono
    intro blocksPending d' hd'
    exact ⟨hd', (hpush.2 sealed asm hasm).trans hst⟩

/-- Emitting a bucket does not fail on size: its file is the log of frames that fit. -/
theorem outcome_emitBucket (hsort : ∀ frames, (E.sortUnstable frames).Perm frames)
    (hplan : PlanFits plan) {frames : List Frame} {stats : ArrivalStats} {b : PartFile} {fs : List Frame}
    {rest : List (PartFile × List Frame)} (hfs : ∀ f ∈ fs, f.Fits)
    (hbuckets : ∀ b' ∈ rest, b'.1.IsBucket) (hnew : b ∉ rest.map Prod.fst)
    (hd : Buckets frames stats ((b, fs) :: rest) d) (hst : st.asm.blockSize = plan.blockSize) :
  Outcome NotSize (fun st' d' => Buckets frames stats rest d' ∧ st'.asm.blockSize = plan.blockSize)
    (emitBucket E plan compressor st b) d
  := by
  have hd₀ : Buckets frames stats rest d :=
    ⟨hd.1, fun b' hb' => hd.2 b' (List.mem_cons_of_mem _ hb')⟩
  have hread : Outcome NotSize (fun buf d' => buf = encodeFrames fs ∧ d' = d)
      (readFile b : Task Bytes) d := by
    apply (quiet_readFile notSize_io b).outcome (I := fun _ => True)
    apply wp_readFile trivial
    intro buf hbuf
    rw [hd.2 _ List.mem_cons_self] at hbuf
    exact ⟨(Option.some.inj hbuf).symm, rfl⟩
  apply Outcome.bind
  apply hread.mono
  rintro _ _ ⟨rfl, rfl⟩
  rw [parseFrames_encodeFrames hfs]
  apply Outcome.bind
  apply Outcome.ofExcept (by simp)
  intro fs' hfs'
  obtain rfl := Except.ok.inj hfs'
  apply Outcome.bind
  apply Outcome.mono (Outcome.foldlM (R := fun todo st' d' => (∀ f ∈ todo, f.Fits)
    ∧ Buckets frames stats rest d' ∧ st'.asm.blockSize = plan.blockSize) _ _ _ _ ⟨?_, hd₀, hst⟩)
  · rintro st' d' ⟨-, hB, hst'⟩
    split
    · next hne =>
      apply Outcome.bind
      apply Outcome.modify
      exact ⟨hB.remove hne hnew, hst'⟩
    · exact ⟨hB, hst'⟩
  · rintro f todo st' d' ⟨hfits, hB, hst'⟩
    apply (outcome_emitFrame hplan (framed_buckets hbuckets) (hfits f List.mem_cons_self) hB hst').mono
    rintro st'' d'' h
    exact ⟨fun g hg => hfits g (List.mem_cons_of_mem _ hg), h⟩
  · intro f hf
    apply hfs f ((hsort fs).mem_iff.mp hf)

/-- Emitting the buckets one after the other. -/
theorem outcome_emitBuckets (hsort : ∀ frames, (E.sortUnstable frames).Perm frames)
    (hplan : PlanFits plan) {frames : List Frame} {stats : ArrivalStats}
    (bs : List (PartFile × List Frame)) (hfits : ∀ b ∈ bs, ∀ f ∈ b.2, f.Fits)
    (hbuckets : ∀ b ∈ bs, b.1.IsBucket) (hnodup : (bs.map Prod.fst).Nodup)
    (hd : Buckets frames stats bs d) (hst : st.asm.blockSize = plan.blockSize) :
  Outcome NotSize (fun _ _ => True) ((bs.map Prod.fst).foldlM (emitBucket E plan compressor) st) d
  := by
  induction bs generalizing st d with
  | nil => trivial
  | cons b bs ih =>
    rw [List.map_cons, List.nodup_cons] at hnodup
    rw [List.map_cons, List.foldlM_cons]
    have hrest : ∀ b' ∈ bs, b'.1.IsBucket := fun b' hb' => hbuckets b' (List.mem_cons_of_mem _ hb')
    apply Outcome.bind
    apply (outcome_emitBucket hsort hplan (hfits b List.mem_cons_self) hrest hnodup.1 hd hst).mono
    rintro st' d' ⟨hd', hst'⟩
    apply ih (fun b' hb' => hfits b' (List.mem_cons_of_mem _ hb')) hrest hnodup.2 hd' hst'

theorem notSize_new {blockSize : Nat} {e : Error} (h : BlockAssembler.new blockSize = .error e) :
  NotSize e
  := by
  rw [BlockAssembler.new] at h
  split at h
  · simp at h
  · obtain rfl := Except.error.inj h
    exact id

/-- A build from the log does not fail on size. -/
theorem outcome_buildFromLog (hsort : ∀ frames, (E.sortUnstable frames).Perm frames)
    (hplan : PlanFits plan) (dict : Option Bytes) (bucketBytes : Nat) {frames : List Frame}
    {stats : ArrivalStats} (hfits : ∀ f ∈ frames, f.Fits) (hlog : HasLog frames stats d) :
  Outcome NotSize (fun _ _ => True) (buildFromLog E plan dict bucketBytes) d
  := by
  have hremoved : HasLog frames stats
      (setFile (setFile (setFile (setFile d .blocks none) .heap none) .fences none) .sketch none) :=
    (((hlog.setFile (by simp) none).setFile (by simp) none).setFile (by simp) none).setFile (by simp) none
  apply Outcome.bind
  apply Outcome.modify
  apply Outcome.bind
  apply Outcome.modify
  apply Outcome.bind
  apply Outcome.modify
  apply Outcome.bind
  apply Outcome.modify
  apply Outcome.bind
  apply Outcome.mono (Q := fun _ d' => HasLog frames stats d')
  · apply Quiet.outcome (I := fun _ => True) (Quiet.forM (fun b => Quiet.modify) _)
    apply wp_removeBucketFiles (fun _ _ => trivial)
    intro d' hd'
    apply hremoved.of_buckets hd'
  intro _ d hlog
  apply Outcome.bind
  apply Outcome.mono (Q := fun _ d' => HasLog frames stats d')
  · apply (quiet_readFile notSize_io _).outcome (I := fun _ => True)
    apply wp_readFile trivial
    intro _ _
    apply hlog
  intro arrival d hlog
  generalize bucketCount arrival.length bucketBytes = nBuckets
  obtain ⟨hbuckets, hnodup, hmem, -⟩ := bucketsOf_spec (E := E) nBuckets frames
  apply Outcome.bind
  apply ((quiet_openBuckets nBuckets).outcome
    (wp_openBuckets (I := fun _ => True) (fun _ _ => trivial) nBuckets hfits hlog)).mono
  rintro _ d ⟨rfl, hB⟩
  have hF : Framed (Buckets frames stats (bucketsOf nBuckets frames)) := framed_buckets hbuckets
  apply Outcome.bind
  apply Outcome.modify
  apply Outcome.bind
  apply Outcome.modify
  apply Outcome.bind
  apply Outcome.ofExcept (fun e => notSize_openCompressor)
  intro compressor _
  apply Outcome.bind
  apply Outcome.ofExcept (fun e => notSize_new)
  intro asm hasm
  apply Outcome.bind
  apply (outcome_emitBuckets hsort hplan _ (fun b hb f hf => hfits f (hmem b hb f hf)) hbuckets hnodup
    (hF.heap _ _ (hF.blocks _ _ hB)) (packed_new (H := E.hash) hasm).2).mono
  intro st d _
  apply (quiet_completeBuild E plan _ st).outcome (I := fun _ => True)
  apply wp_trivial

/-- Building a partition whose log holds frames that fit does not fail on size. -/
theorem outcome_buildPartition (hsort : ∀ frames, (E.sortUnstable frames).Perm frames)
    (hplan : PlanFits plan) (dict : Option Bytes) (bucketBytes : Nat) {frames : List Frame}
    (hd : Counted frames d) :
  Outcome NotSize (fun _ _ => True) (buildPartition E plan dict bucketBytes) d
  := by
  obtain ⟨stats, hstats, -⟩ := hd.hist
  apply Outcome.bind
  apply Outcome.read
  cases hdone : d.buildDone with
  | some done =>
    apply Quiet.outcome (I := fun _ => True)
    · apply Quiet.bind quiet_sweepPartitionTransients
      intro _
      apply Quiet.pure
    · apply wp_trivial
  | none => apply outcome_buildFromLog hsort hplan dict bucketBytes hd.fits ⟨hd.log, hstats, hdone⟩

end

/-! ### Histograms -/

/-- There is a median when half of the values are in the buckets. -/
theorem exists_medianBucket {half cumulative : Nat} (b : Nat) (hist : List Nat) (hlt : cumulative < half)
    (hle : half ≤ cumulative + hist.sum) :
  ∃ median, medianBucket half cumulative b hist = some median
  := by
  induction hist generalizing cumulative b with
  | nil =>
    rw [List.sum_nil] at hle
    omega
  | cons c hist ih =>
    rw [List.sum_cons] at hle
    rw [medianBucket]
    split
    · exact ⟨b, rfl⟩
    · next hnot => apply ih (b + 1) (Nat.not_le.mp hnot) (by omega)

/-- Tuning gives a valid block size for every histogram. -/
theorem exists_autoTuneBlockSize (hist : List Nat) :
  ∃ bs, autoTuneBlockSize hist = .ok bs ∧ validateBlockSize bs = .ok ()
  := by
  obtain ⟨bs, hbs⟩ : ∃ bs, autoTuneBlockSize hist = .ok bs := by
    rw [autoTuneBlockSize]
    split
    · exact ⟨_, rfl⟩
    · have hlt : 0 < (hist.sum + 1) / 2 := by omega
      obtain ⟨median, hmedian⟩ := exists_medianBucket 0 hist hlt (by omega)
      rw [hmedian]
      exact ⟨_, rfl⟩
  exact ⟨bs, hbs, validate_autoTuneBlockSize hbs⟩

/-- A sample is not longer than the log. -/
theorem length_le_of_mem_samplesFuel {fuel : Nat} {buf v : Bytes} (h : v ∈ samplesFuel fuel buf) :
  v.length ≤ buf.length
  := by
  induction fuel generalizing buf with
  | zero => simp [samplesFuel] at h
  | succ fuel ih =>
    rw [samplesFuel] at h
    split at h
    · simp at h
    · dsimp only at h
      split at h
      · simp at h
      · have hrest : v ∈ samplesFuel fuel (buf.drop (frameHeader + headerLength buf)) →
            v.length ≤ buf.length := by
          intro hv
          have hle := ih hv
          rw [List.length_drop] at hle
          omega
        split at h
        · rcases List.mem_cons.mp h with rfl | h
          · rw [Bytes.slice, List.length_take, List.length_drop]
            omega
          · apply hrest h
        · apply hrest h

/-- The sample pool is small, so the samples are. -/
theorem length_le_of_mem_samples {arrival v : Bytes} {maxBytes : Nat}
    (h : v ∈ sampleArrivalPrefix arrival maxBytes) :
  v.length ≤ maxBytes
  := by
  apply Nat.le_trans (length_le_of_mem_samplesFuel h)
  rw [List.length_take]
  omega

/-- What is stored is not longer than the value. -/
theorem length_getD_compress_le {Z : Zstd} {c : Compressor} {v : Bytes} {frame : Option Bytes}
    (h : c.compress Z v = .ok frame) :
  (frame.getD v).length ≤ v.length
  := by
  rw [Compressor.compress] at h
  split at h
  · obtain rfl := Except.ok.inj h
    apply Nat.le_refl
  · split at h
    · simp at h
    · next frame' _ =>
      obtain rfl := Except.ok.inj h
      split
      · next hlt => apply Nat.le_of_lt hlt
      · apply Nat.le_refl

/-! ### Nothing that scatter accepted is too large -/

/-- Take a partition directory that holds the log and the statistics of an appender whose
calls all returned; whatever else is in it was left by earlier builds.  No build of it under
a plan with a valid block size ends with a size error, when its operations fail from outside
with I/O errors only.  Every class in which a record is counted, by the appenders and when
samples are measured, has its place in the histogram, and every histogram gives a valid block
size. -/
theorem build_within_limits {E : Env} (hsort : ∀ frames, (E.sortUnstable frames).Perm frames)
    {seed : UInt64} {calls : List AppendCall} {t₀ t₁ t : PartDir}
    (hscatter : Prog.Steps (.none PartDir) (appendAll E seed calls) t₀ (.done (.ok ())) t₁)
    (harrival : t.arrival = t₁.arrival) (hstats : t.arrivalStats = t₁.arrivalStats) :
  (∀ plan dict bucketBytes, PlanFits plan →
      ∀ r t', RunsTo IsIoError (buildPartition E plan dict bucketBytes) t r t' →
        ∀ e, r = .error e → ¬ IsSizeError e)
    ∧ (∀ (a : V5Appender) key fp value d a' d', Prog.Steps (.none PartDir)
        (a.append E seed key fp value) d (.done (.ok a')) d' →
        bitWidth (encodedLen value.length) < histBuckets)
    ∧ (∀ (arrival : Bytes) (c : Compressor), ∀ v ∈ sampleArrivalPrefix arrival samplePrefixBytes,
        ∀ frame, c.compress E.zstd v = .ok frame →
          bitWidth (encodedLen (frame.getD v).length) < histBuckets)
    ∧ ∀ hist, ∃ bs, autoTuneBlockSize hist = .ok bs ∧ validateBlockSize bs = .ok ()
  := by
  have hcounted : Counted (calls.map (·.frame E seed)) t := by
    obtain ⟨hlog, hfits, hhist⟩ := (wp_steps (wp_appendAll calls) hscatter).2
    rw [← hstats] at hhist
    exact ⟨harrival.trans hlog, hfits, hhist⟩
  refine ⟨?_, ?_, ?_, exists_autoTuneBlockSize⟩
  · intro plan dict bucketBytes hplan r t' hrun
    apply (outcome_buildPartition hsort hplan dict bucketBytes hcounted).runsTo notSize_of_isIoError hrun
  · intro a key fp value d a' d' hsteps
    have hfits : wp (.none _) (fun _ => True) (fun _ _ => value.length ≤ maxValueLen)
        (a.append E seed key fp value) d := by
      apply wp_appenderAppend trivial
      intro c flushed rest hlen _ _
      exact ⟨trivial, hlen⟩
    apply bitWidth_encodedLen_lt (wp_steps hfits hsteps).2
  · intro arrival c v hv frame hframe
    apply bitWidth_encodedLen_lt
    have hsample := length_le_of_mem_samples hv
    have hstored := length_getD_compress_le hframe
    simp only [samplePrefixBytes, maxValueLen] at hsample ⊢
    omega

/-- Two values at the inline threshold of blocks of 4 KiB. -/
theorem half_block_within_limits :
  ∃ t₀ t, Prog.Steps (.none PartDir) (appendAll plainEnv defaultVerifySeed [callOf 2048, callOf 2049]) t₀
      (.done (.ok ())) t
    ∧ ∀ r t', RunsTo IsIoError
        (buildPartition plainEnv (plainPlan plainEnv tuningBuilder 4096) none defaultBucketBytes) t r t' →
      ∀ e, r = .error e → ¬ IsSizeError e
  := by
  have hscatter := scatteredBy_scatteredDir [callOf 2048, callOf 2049] (by decide +kernel)
  obtain ⟨t₀, hsteps⟩ := hscatter 0 (by decide)
  have hplan : PlanFits (plainPlan plainEnv tuningBuilder 4096) := ⟨by decide, rfl⟩
  refine ⟨t₀, _, hsteps, ?_⟩
  exact (build_within_limits plainEnv_lawful.sort_perm hsteps rfl rfl).1 _ none defaultBucketBytes hplan

end V5
