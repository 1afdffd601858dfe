import Mcfreeze.V5.Tuning
import Mcfreeze.Lib.Lists

/-!
# Sorting an arrival log

The radix pass over the arrival log of a partition (`scatter_to_buckets` in
`v5/builder.rs`) and the sorts of its buckets are together a sort of the log: the number of
buckets is a power of two, the shift of the fingerprint gives a bucket, every bucket file
holds whole frames, and the sorted buckets one after the other hold every frame once, in
the order of the fingerprints.
-/

open Format Crash Files

namespace V5

/-! ### What is sorted -/

/-- Parse a bucket. -/
def parseBucket (d : PartDir) (bucket : PartFile) : Except Error (List Frame) :=
  match file d bucket with
  | none => .error (.io "No such file or directory")
  | some buf => parseFrames buf

/-- Parse and sort each bucket, one after the other. -/
def sortedFrames (E : Env) (d : PartDir) (buckets : List PartFile) : Except Error (List Frame) :=
  (buckets.mapM (parseBucket d)).map fun parsed => parsed.flatMap E.sortUnstable

/-- A number of buckets that the shift by the top bits fits: every fingerprint has a
bucket. -/
structure RadixCount (nBuckets : Nat) : Prop where
  isPowerOfTwo : nBuckets.isPowerOfTwo
  pos : 1 ≤ nBuckets
  le : nBuckets ≤ 64
  shift : 1 < nBuckets → 64 - nBuckets.log2 < 64
  bucket : 1 < nBuckets → ∀ fp : UInt64,
    bucketOf nBuckets fp = (fp >>> UInt64.ofNat (64 - nBuckets.log2)).toNat
  lt : ∀ fp, bucketOf nBuckets fp < nBuckets

section

variable {E : Env} {frames : List Frame} {d : PartDir} {nBuckets k : Nat}

theorem bucketOf_eq_shift (h : 1 ≤ k) (hk : k ≤ 6) (fp : UInt64) :
  bucketOf (2 ^ k) fp = (fp >>> UInt64.ofNat (64 - k)).toNat
  := by
  have hshift : (UInt64.ofNat (64 - k)).toNat = 64 - k := by
    rw [UInt64.toNat_ofNat']
    omega
  rw [bucketOf, Nat.log2_two_pow, UInt64.toNat_shiftRight, hshift, Nat.mod_eq_of_lt (by omega),
    Nat.shiftRight_eq_div_pow]

/-- The number of buckets is a power of two that the radix allows. -/
theorem radixCount_bucketCount (arrivalBytes bucketBytes : Nat) :
  RadixCount (bucketCount arrivalBytes bucketBytes)
  := by
  obtain ⟨k, hk, hn⟩ := bucketCount_eq arrivalBytes bucketBytes
  have hpos : 1 ≤ 2 ^ k := Nat.one_le_two_pow
  have hle : 2 ^ k ≤ 2 ^ 6 := Nat.pow_le_pow_right (by omega) hk
  have hk' : 1 < 2 ^ k → 1 ≤ k := by
    intro h
    apply Nat.one_le_iff_ne_zero.mpr
    rintro rfl
    simp at h
  rw [hn]
  constructor
  case isPowerOfTwo => exact ⟨k, rfl⟩
  case pos => apply hpos
  case le => omega
  case shift =>
    intro h
    rw [Nat.log2_two_pow]
    have hone := hk' h
    omega
  case bucket =>
    intro h fp
    rw [Nat.log2_two_pow]
    apply bucketOf_eq_shift (hk' h) hk
  case lt => apply bucketOf_lt hk rfl

/-! ### The radix pass ends -/

/-- Fewer frames take no more bytes. -/
theorem length_encodeFrames_le {l m : List Frame} (h : l.Sublist m) :
  (encodeFrames l).length ≤ (encodeFrames m).length
  := by
  induction h with
  | slnil => rfl
  | cons f _ ih =>
    simp only [encodeFrames, List.map_cons, List.flatten_cons, List.length_append] at ih ⊢
    omega
  | cons_cons f _ ih =>
    simp only [encodeFrames, List.map_cons, List.flatten_cons, List.length_append] at ih ⊢
    omega

theorem length_bucketFrames_le (nBuckets : Nat) (frames : List Frame) (b : Nat) :
  (encodeFrames (bucketFrames nBuckets frames b)).length ≤ (encodeFrames frames).length
  := by
  apply length_encodeFrames_le
  apply List.filter_sublist

/-- Distributing the frames over the buckets ends when the log fits into a file. -/
theorem ends_scatterFrames (hn : RadixCount nBuckets) (rest : List Frame)
    (hfits : ∀ f ∈ rest, f.Fits) :
  ∀ (fuel : Nat) (pre : List Frame) (pending : Nat → Bytes) (d : PartDir), rest.length < fuel →
    (encodeFrames (pre ++ rest)).length ≤ maxFileLen → Distributed nBuckets pre pending d →
    Crash.Ends (fun pending' d' => Distributed nBuckets (pre ++ rest) pending' d')
      (scatterFrames nBuckets fuel (encodeFrames rest) pending) d
  := by
  induction rest with
  | nil =>
    intro fuel pre pending d hfuel _ hdist
    obtain ⟨fuel, rfl⟩ : ∃ n, fuel = n + 1 := ⟨fuel - 1, by omega⟩
    apply Crash.Ends.bind
    apply Crash.Ends.ofExcept (a := none) rfl
    rw [List.append_nil]
    apply hdist
  | cons f rest ih =>
    intro fuel pre pending d hfuel hlen hdist
    obtain ⟨fuel, rfl⟩ : ∃ n, fuel = n + 1 := ⟨fuel - 1, by omega⟩
    have hread : readFrame (encodeFrames (f :: rest)) = .ok (some (f.encode, encodeFrames rest)) :=
      readFrame_encode (hfits f List.mem_cons_self)
    have hfp : headerFp f.encode = f.fp := by
      have h := headerFp_encode f []
      rwa [List.append_nil] at h
    have hpre : pre ++ f :: rest = pre ++ [f] ++ rest := List.append_cons ..
    rw [hpre] at hlen ⊢
    generalize encodeFrames (f :: rest) = input at hread ⊢
    apply Crash.Ends.bind
    apply Crash.Ends.ofExcept hread
    dsimp only
    rw [hfp]
    obtain ⟨c, hc, hlog⟩ := hdist (bucketOf nBuckets f.fp) (hn.lt f.fp)
    have hbound : c.length + (pending (bucketOf nBuckets f.fp) ++ f.encode).length ≤ maxFileLen := by
      have hadd := congrArg List.length
        (bucketFrames_append_singleton nBuckets pre f (bucketOf nBuckets f.fp))
      rw [if_pos rfl, ← hlog] at hadd
      have hle := length_bucketFrames_le nBuckets (pre ++ [f]) (bucketOf nBuckets f.fp)
      have hsub := length_encodeFrames_le (List.sublist_append_left (pre ++ [f]) rest)
      simp only [List.length_append] at hadd ⊢
      omega
    apply Crash.Ends.bind
    apply ends_bufWrite hc hbound
    intro flushed held hflush
    apply ih (fun g hg => hfits g (List.mem_cons_of_mem _ hg)) fuel (pre ++ [f]) _ _
      (by rw [List.length_cons] at hfuel; omega) hlen (hdist.write rfl hc hflush)

/-- Creating the bucket files. -/
theorem ends_createBuckets {log : Bytes} (nBuckets : Nat) (hlog : file d .arrival = some log) :
  Crash.Ends (fun _ d' => file d' .arrival = some log ∧ ∀ b < nBuckets, file d' (.bucket b) = some [])
    ((List.range nBuckets).forM fun b => (create (.bucket b) : Task Unit)) d
  := by
  have hloop := Crash.Ends.forM (f := fun b => (create (.bucket b) : Task Unit))
    (R := fun rest (d : PartDir) => file d .arrival = some log
      ∧ ∀ b < nBuckets, b ∉ rest → file d (.bucket b) = some [])
    (by
      rintro b rest d ⟨hlog, hfiles⟩
      apply ends_create
      refine ⟨by rw [file_setFile_ne _ (by simp), hlog], ?_⟩
      intro b' hb' hrest
      by_cases heq : b' = b
      · rw [heq, file_setFile]
      · rw [file_setFile_ne _ (by simpa using heq)]
        apply hfiles b' hb'
        simp [heq, hrest])
    (List.range nBuckets) d
    ⟨hlog, fun b hb hrest => absurd (List.mem_range.mpr hb) hrest⟩
  apply hloop.mono
  rintro _ d' ⟨hlog', hfiles⟩
  exact ⟨hlog', fun b hb => hfiles b hb List.not_mem_nil⟩

/-- Flushing the writers of the bucket files. -/
theorem ends_flushBuckets {pending : Nat → Bytes} (hlen : (encodeFrames frames).length ≤ maxFileLen)
    (hdist : Distributed nBuckets frames pending d) :
  Crash.Ends (fun _ d' => ∀ b < nBuckets,
      file d' (.bucket b) = some (encodeFrames (bucketFrames nBuckets frames b)))
    ((List.range nBuckets).forM fun b => (append (.bucket b) (pending b) : Task Unit)) d
  := by
  have hloop := Crash.Ends.forM (f := fun b => (append (.bucket b) (pending b) : Task Unit))
    (R := fun rest (d : PartDir) => rest.Nodup ∧ (∀ b ∈ rest, b < nBuckets)
      ∧ Distributed nBuckets frames (fun b => if b ∈ rest then pending b else []) d)
    (by
      rintro b rest d ⟨hnodup, hlt, hdist⟩
      obtain ⟨hb, hnodup'⟩ := List.nodup_cons.mp hnodup
      obtain ⟨c, hc, hlog⟩ := hdist b (hlt b List.mem_cons_self)
      dsimp only at hlog
      rw [if_pos List.mem_cons_self] at hlog
      have hbound : c.length + (pending b).length ≤ maxFileLen := by
        have hle := length_bucketFrames_le nBuckets frames b
        rw [← List.length_append, hlog]
        omega
      apply ends_append hc hbound
      exact ⟨hnodup', fun b' hb' => hlt b' (List.mem_cons_of_mem _ hb'), hdist.flush hb hc⟩)
    (List.range nBuckets) d
    (by
      refine ⟨List.nodup_range, fun b hb => List.mem_range.mp hb, ?_⟩
      apply hdist.congr
      intro b hb
      rw [if_pos (List.mem_range.mpr hb)])
  apply hloop.mono
  rintro _ d' ⟨-, -, hdist'⟩
  apply hdist'.files
  intro b _
  rw [if_neg List.not_mem_nil]

/-- The buckets of a log, when the bucket files are whole. -/
theorem sortedFrames_buckets (hfits : ∀ f ∈ frames, f.Fits)
    (hfiles : ∀ b < nBuckets,
      file d (.bucket b) = some (encodeFrames (bucketFrames nBuckets frames b))) :
  sortedFrames E d ((List.range nBuckets).map .bucket) = .ok (emitted E nBuckets frames)
  := by
  have hparse : ∀ b ∈ List.range nBuckets,
      (parseBucket d ∘ .bucket) b = .ok (bucketFrames nBuckets frames b) := by
    intro b hb
    rw [Function.comp_apply, parseBucket, hfiles b (List.mem_range.mp hb)]
    apply parseFrames_encodeFrames
    intro f hf
    apply hfits f (List.mem_of_mem_filter hf)
  rw [sortedFrames, List.mapM_map, List.mapM_eq_ok hparse]
  simp [emitted, Except.map, List.flatMap_map]

/-- The radix pass ends, and its sorted buckets are those of the log. -/
theorem ends_openBuckets (hn : RadixCount nBuckets) (hfits : ∀ f ∈ frames, f.Fits)
    (hlog : file d .arrival = some (encodeFrames frames))
    (hlen : (encodeFrames frames).length ≤ maxFileLen) :
  Crash.Ends (fun buckets d' => sortedFrames E d' buckets = .ok (emitted E nBuckets frames))
    (openBuckets nBuckets) d
  := by
  rw [openBuckets]
  split
  · next hone =>
    have hparse : parseBucket d .arrival = .ok frames := by
      rw [parseBucket, hlog]
      apply parseFrames_encodeFrames hfits
    have hsorted : sortedFrames E d [.arrival] = .ok (emitted E nBuckets frames) := by
      rw [sortedFrames, List.mapM_cons, hparse, hone, emitted_one]
      simp [Except.map, pure, Except.pure, bind, Except.bind]
    apply hsorted
  · apply Crash.Ends.bind
    apply (ends_createBuckets nBuckets hlog).mono
    rintro _ d ⟨hlog, hempty⟩
    have hdist : Distributed nBuckets [] (fun _ => []) d := by
      intro b hb
      exact ⟨[], hempty b hb, rfl⟩
    apply Crash.Ends.bind
    apply ends_readFile hlog
    apply Crash.Ends.bind
    apply (ends_scatterFrames hn frames hfits _ [] _ d
      (Nat.lt_succ_of_le (length_le_encodeFrames frames)) hlen hdist).mono
    intro pending d hdist
    rw [List.nil_append] at hdist
    apply Crash.Ends.bind
    apply (ends_flushBuckets hlen hdist).mono
    intro _ d hfiles
    apply sortedFrames_buckets hfits hfiles

end

/-! ### The log of an appender -/

section

variable {E : Env} {seed : UInt64} {d d' : PartDir} {calls : List AppendCall}

/-- The log of an appender fits into a file. -/
theorem wp_appendAll_length :
  wp (.none _) (fun _ => True)
    (fun _ d' => ∃ log, file d' .arrival = some log ∧ log.length ≤ maxFileLen)
    (appendAll E seed calls) d
  := by
  apply wp_bind
  apply wp_mono wp_trivial
  intro a d _ _
  apply wp_bind
  apply wp_mono wp_trivial
  intro a d _ _
  apply wp_bind
  apply wp_append trivial
  intro b _ hlen
  refine ⟨trivial, ?_⟩
  apply wp_modify trivial trivial
  refine ⟨_, rfl, ?_⟩
  rwa [List.length_append]

/-- Whatever was appended to a partition, and whatever the size of the buckets: the log
parses to the frames in arrival order, every fingerprint has one of the radix buckets, and the
radix pass ends with buckets that parse; sorted one after the other they hold the frames in
the order of the fingerprints. -/
theorem radix_sorts (hE : E.Lawful)
    (happend : Prog.Steps (.none _) (appendAll E seed calls) d (.done (.ok ())) d')
    (bucketBytes : Nat) :
  ∃ log, file d' .arrival = some log
    ∧ parseFrames log = .ok (calls.map (·.frame E seed))
    ∧ RadixCount (bucketCount log.length bucketBytes)
    ∧ Crash.Ends (fun buckets d'' => ∃ sorted, sortedFrames E d'' buckets = .ok sorted
          ∧ sorted.Perm (calls.map (·.frame E seed))
          ∧ sorted.Pairwise fun f g => f.fp.toNat ≤ g.fp.toNat)
        (openBuckets (bucketCount log.length bucketBytes)) d'
  := by
  have hcounted : Counted (calls.map (·.frame E seed)) d' :=
    (wp_steps (wp_appendAll calls) happend).2
  obtain ⟨log, hlog, hlen⟩ := (wp_steps wp_appendAll_length happend).2
  obtain rfl : encodeFrames (calls.map (·.frame E seed)) = log :=
    Option.some.inj (hcounted.log.symm.trans hlog)
  have hcount := radixCount_bucketCount
    (encodeFrames (calls.map (·.frame E seed))).length bucketBytes
  refine ⟨_, hlog, parseFrames_encodeFrames hcounted.fits, hcount, ?_⟩
  apply (ends_openBuckets (E := E) hcount hcounted.fits hlog hlen).mono
  intro buckets d'' hsorted
  obtain ⟨k, hk, hn⟩ := bucketCount_eq (encodeFrames (calls.map (·.frame E seed))).length bucketBytes
  refine ⟨_, hsorted, ?_, ?_⟩
  · apply emitted_perm hE hk hn
  · apply emitted_sorted hE

end

/-- Two records with the same fingerprint around one with a smaller one, the last of them
empty. -/
def tiedCalls : List AppendCall :=
  [⟨[1], 0x8000000000000000, [7]⟩, ⟨[2], 5, [8, 9]⟩, ⟨[3], 0x8000000000000000, []⟩]

/-- With a bucket size of zero there are 64 buckets. -/
theorem radix_sorts_tied :
  ∃ d' log, Prog.Steps (.none _) (appendAll plainEnv defaultVerifySeed tiedCalls) PartDir.empty
      (.done (.ok ())) d'
    ∧ file d' .arrival = some log
    ∧ bucketCount log.length 0 = 64
    ∧ Crash.Ends (fun buckets d'' => ∃ sorted, sortedFrames plainEnv d'' buckets = .ok sorted
          ∧ sorted.Perm (tiedCalls.map (·.frame plainEnv defaultVerifySeed))
          ∧ sorted.Pairwise fun f g => f.fp.toNat ≤ g.fp.toNat)
        (openBuckets 64) d'
  := by
  have hresult : ((appendAll plainEnv defaultVerifySeed tiedCalls).run 0 PartDir.empty).1 = .ok () := by
    decide +kernel
  have hlength : (file ((appendAll plainEnv defaultVerifySeed tiedCalls).run 0 PartDir.empty).2
      .arrival).map List.length = some 63 := by
    decide +kernel
  have hsteps := Prog.steps_run (.none PartDir) 0 (appendAll plainEnv defaultVerifySeed tiedCalls)
    PartDir.empty
  rw [hresult] at hsteps
  generalize ((appendAll plainEnv defaultVerifySeed tiedCalls).run 0 PartDir.empty).2 = d'
    at hsteps hlength
  obtain ⟨log, hlog, -, -, hends⟩ := radix_sorts plainEnv_lawful hsteps 0
  rw [hlog] at hlength
  have hcount : bucketCount log.length 0 = 64 := by
    rw [show log.length = 63 from Option.some.inj hlength]
    decide
  rw [hcount] at hends
  exact ⟨d', log, hsteps, hlog, hcount, hends⟩

end V5
