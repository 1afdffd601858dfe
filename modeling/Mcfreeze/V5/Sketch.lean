import Mcfreeze.V5.Codec

/-!
# The positions a sketch is queried at

`Sketch::parse` (`v5/sketch.rs`) checks the descriptor of a binary fuse filter, and the
filter reads three fingerprints at positions that it computes from the descriptor.  A
segment length that is a power of two keeps the second and the third position in their own
segments.  The first position lies below the segment count length, which is only possible
if that is not zero.
-/

open Format

namespace V5

open Bytes

/-! ### The descriptor -/

def seedOf (buf : Bytes) : UInt64 :=
  UInt64.ofNat (leNat (slice buf 0 8))

def segmentLength (buf : Bytes) : Nat :=
  leNat (slice buf 8 12)

def segmentLengthMask (buf : Bytes) : Nat :=
  leNat (slice buf 12 16)

def segmentCountLength (buf : Bytes) : Nat :=
  leNat (slice buf 16 20)

/-- The number of fingerprints after the descriptor. -/
def nFingerprints (buf : Bytes) : Nat :=
  buf.length - descriptorLen

/-- The three positions `h0`, `h1` and `h2` that the filter reads for a mix of the key and
the seed, in 32-bit arithmetic. -/
def positions (buf : Bytes) (h : UInt64) : List Nat :=
  let sl := segmentLength buf
  let mask := segmentLengthMask buf
  let h0 := h.toNat * segmentCountLength buf / 2 ^ 64 % 2 ^ 32
  let h1 := ((h0 + sl) % 2 ^ 32) ^^^ ((h.toNat >>> 18) % 2 ^ 32 &&& mask)
  let h2 := ((h0 + 2 * sl) % 2 ^ 32) ^^^ (h.toNat % 2 ^ 32 &&& mask)
  [h0, h1, h2]

/-- Every query of the filter reads inside the fingerprints. -/
def SafeToQuery (mix : UInt64 → UInt64 → UInt64) (buf : Bytes) : Prop :=
  ∀ fp, ∀ p ∈ positions buf (mix fp (seedOf buf)), p < nFingerprints buf

/-- A sketch that is parsed has the bytes, and its descriptor is consistent. -/
theorem Sketch.parse_eq_ok {buf : Bytes} {sketch : Sketch} (h : Sketch.parse buf = .ok sketch) :
  sketch.bytes = buf ∧ DescriptorConsistent buf
  := by
  simp only [Sketch.parse] at h
  split at h
  · simp at h
  · next hlen =>
    split at h
    · simp at h
    · next hsegment =>
      split at h
      · simp at h
      · next hcount =>
        push Not at hsegment hcount
        obtain rfl := Except.ok.inj h
        exact ⟨rfl, Nat.not_lt.mp hlen, hsegment.2.1, hsegment.2.2, hcount.1, hcount.2⟩

/-! ### Segments -/

section

variable {x m c k : Nat}

/-- The xor with a number below `2 ^ k` stays in its segment. -/
theorem xor_div_segment (h : m < 2 ^ k) :
  (x ^^^ m) / 2 ^ k = x / 2 ^ k
  := by
  rw [Nat.xor_div_two_pow, Nat.div_eq_of_lt h, Nat.xor_zero]

theorem xor_lt_segments (h : m < 2 ^ k) (hx : x < c * 2 ^ k) :
  x ^^^ m < c * 2 ^ k
  := by
  have hpos := Nat.two_pow_pos k
  rw [← Nat.div_lt_iff_lt_mul hpos] at hx ⊢
  rwa [xor_div_segment h]

theorem segments_le_xor (h : m < 2 ^ k) (hx : c * 2 ^ k ≤ x) :
  c * 2 ^ k ≤ x ^^^ m
  := by
  have hpos := Nat.two_pow_pos k
  rw [← Nat.le_div_iff_mul_le hpos] at hx ⊢
  rwa [xor_div_segment h]

end

section

variable {buf : Bytes}

/-- What the checks of a descriptor amount to: its segments are powers of two, and there
are two more of them than the segment count length says. -/
structure Segmented (buf : Bytes) (k c : Nat) : Prop where
  length_eq : segmentLength buf = 2 ^ k
  mask_eq : segmentLengthMask buf = 2 ^ k - 1
  count_eq : segmentCountLength buf = c * 2 ^ k
  total_eq : nFingerprints buf = (c + 2) * 2 ^ k
  lt : k < 32
  count_lt : c * 2 ^ k < 2 ^ 32

theorem leNat_slice_lt (buf : Bytes) (i : Nat) :
  leNat (slice buf i (i + 4)) < 2 ^ 32
  := by
  have hlt := leNat_lt (slice buf i (i + 4))
  have hlen : (slice buf i (i + 4)).length ≤ 4 := by
    rw [slice, List.length_take]
    omega
  have hpow := Nat.pow_le_pow_right (show 0 < 256 by decide) hlen
  omega

/-- A consistent descriptor tells where the segments are. -/
theorem DescriptorConsistent.segmented (h : DescriptorConsistent buf) :
  ∃ k c, Segmented buf k c
  := by
  obtain ⟨hlen, ⟨k, hk⟩, hmask, hmod, hsize⟩ := h
  obtain ⟨c, hc⟩ := Nat.dvd_of_mod_eq_zero hmod
  have hsl := leNat_slice_lt buf 8
  have hscl := leNat_slice_lt buf 16
  rw [hk] at hmask hc hsize hsl
  rw [hc] at hsize hscl
  refine ⟨k, c, hk, hmask, ?_, ?_, ?_, ?_⟩
  · rw [segmentCountLength, hc, Nat.mul_comm]
  · rw [nFingerprints, hsize, Nat.add_mul, Nat.mul_comm c]
  · apply (Nat.pow_lt_pow_iff_right (by decide)).mp hsl
  · rwa [Nat.mul_comm]

section

variable {k c : Nat}

theorem Segmented.and_mask_lt (h : Segmented buf k c) (x : Nat) :
  x &&& segmentLengthMask buf < 2 ^ k
  := by
  rw [h.mask_eq, Nat.and_two_pow_sub_one_eq_mod]
  apply Nat.mod_lt _ (Nat.two_pow_pos k)

/-- A filter with as many fingerprints as there are 32-bit numbers is read inside of them. -/
theorem Segmented.inside_of_wrapping (h : Segmented buf k c) (hlarge : 2 ^ 32 ≤ nFingerprints buf)
    (x : UInt64) :
  ∀ p ∈ positions buf x, p < nFingerprints buf
  := by
  have hmask : ∀ y, y &&& segmentLengthMask buf < 2 ^ 32 := by
    intro y
    apply lt_trans (h.and_mask_lt y)
    apply Nat.pow_lt_pow_right (by decide) h.lt
  intro p hp
  simp only [positions, List.mem_cons, List.not_mem_nil, or_false] at hp
  apply lt_of_lt_of_le _ hlarge
  rcases hp with rfl | rfl | rfl
  · apply Nat.mod_lt _ (by decide)
  · apply Nat.xor_lt_two_pow (Nat.mod_lt _ (by decide)) (hmask _)
  · apply Nat.xor_lt_two_pow (Nat.mod_lt _ (by decide)) (hmask _)

/-- The first position lies in the counted segments, and the others in the segments after
its own. -/
theorem Segmented.inside (h : Segmented buf k c) (hc : c ≠ 0) (hsmall : nFingerprints buf < 2 ^ 32)
    (x : UInt64) :
  ∀ p ∈ positions buf x, p < nFingerprints buf
  := by
  have hpos := Nat.two_pow_pos k
  have hcount : 0 < c * 2 ^ k := Nat.mul_pos (Nat.pos_of_ne_zero hc) hpos
  have hfirst : x.toNat * (c * 2 ^ k) / 2 ^ 64 < c * 2 ^ k := by
    rw [Nat.div_lt_iff_lt_mul (by decide), Nat.mul_comm (c * 2 ^ k)]
    apply Nat.mul_lt_mul_of_pos_right x.toNat_lt hcount
  have hlt := h.count_lt
  have hall := h.total_eq
  rw [Nat.add_mul] at hall
  intro p hp
  simp only [positions, h.length_eq, h.count_eq, List.mem_cons, List.not_mem_nil, or_false,
    Nat.mod_eq_of_lt (hfirst.trans hlt)] at hp
  rcases hp with rfl | rfl | rfl
  · omega
  · rw [Nat.mod_eq_of_lt (by omega), h.total_eq]
    apply xor_lt_segments (h.and_mask_lt _)
    rw [Nat.add_mul]
    omega
  · rw [Nat.mod_eq_of_lt (by omega), h.total_eq]
    apply xor_lt_segments (h.and_mask_lt _)
    rw [Nat.add_mul]
    omega

/-- Without a counted segment, the third position lies behind the last one. -/
theorem Segmented.outside (h : Segmented buf k 0) (hsmall : nFingerprints buf < 2 ^ 32) (x : UInt64) :
  ∃ p ∈ positions buf x, nFingerprints buf ≤ p
  := by
  have hall := h.total_eq
  refine ⟨_, List.mem_cons_of_mem _ (List.mem_cons_of_mem _ List.mem_cons_self), ?_⟩
  rw [h.count_eq, h.length_eq, Nat.zero_mul, Nat.mul_zero, Nat.zero_div, Nat.zero_mod,
    Nat.zero_add, Nat.mod_eq_of_lt (by omega), h.total_eq]
  apply segments_le_xor (h.and_mask_lt _)
  omega

end

/-- A sketch that parses can be queried for every fingerprint without leaving its
fingerprints exactly if its segment count length is not zero, or its segments are so long
that the third position wraps around. -/
theorem Sketch.parse_safe_iff {sketch : Sketch} (h : Sketch.parse buf = .ok sketch)
    (mix : UInt64 → UInt64 → UInt64) :
  SafeToQuery mix sketch.bytes ↔ segmentCountLength buf ≠ 0 ∨ segmentLength buf = 2 ^ 31
  := by
  obtain ⟨rfl, hconsistent⟩ := Sketch.parse_eq_ok h
  obtain ⟨k, c, hseg⟩ := hconsistent.segmented
  have hpos := Nat.two_pow_pos k
  rcases Nat.lt_or_ge (nFingerprints sketch.bytes) (2 ^ 32) with hsmall | hlarge
  · rcases Nat.eq_zero_or_pos c with rfl | hc
    · constructor
      · intro hsafe
        obtain ⟨p, hp, hle⟩ := hseg.outside hsmall (mix 0 (seedOf sketch.bytes))
        exact absurd (hsafe 0 p hp) (Nat.not_lt.mpr hle)
      · have hall := hseg.total_eq
        rw [hseg.count_eq, hseg.length_eq]
        omega
    · have hcount : segmentCountLength sketch.bytes ≠ 0 := by
        rw [hseg.count_eq]
        apply (Nat.mul_pos hc hpos).ne'
      simp only [hcount, ne_eq, not_false_eq_true, true_or, iff_true]
      intro fp
      apply hseg.inside hc.ne' hsmall
  · have hcond : segmentCountLength sketch.bytes ≠ 0 ∨ segmentLength sketch.bytes = 2 ^ 31 := by
      rcases Nat.eq_zero_or_pos c with rfl | hc
      · right
        have hall := hseg.total_eq
        have hk : 31 ≤ k := by
          by_contra hk
          have hpow : 2 ^ k < 2 ^ 31 := Nat.pow_lt_pow_right (by decide) (Nat.not_le.mp hk)
          omega
        rw [hseg.length_eq, Nat.le_antisymm (Nat.le_of_lt_succ hseg.lt) hk]
      · left
        rw [hseg.count_eq]
        apply (Nat.mul_pos hc hpos).ne'
    simp only [hcond, iff_true]
    intro fp
    apply hseg.inside_of_wrapping hlarge

/-- A descriptor of three segments of length one parses, and queries stay inside. -/
theorem three_segments_safe :
  ∃ sketch, Sketch.parse [0, 0, 0, 0, 0, 0, 0, 0, 1, 0, 0, 0, 0, 0, 0, 0, 1, 0, 0, 0, 5, 7, 9] = .ok sketch
    ∧ SafeToQuery (fun fp seed => fp + seed) sketch.bytes
  := by
  have hparse : Sketch.parse
      [0, 0, 0, 0, 0, 0, 0, 0, 1, 0, 0, 0, 0, 0, 0, 0, 1, 0, 0, 0, 5, 7, 9] = .ok ⟨_⟩ := rfl
  refine ⟨_, hparse, (Sketch.parse_safe_iff hparse _).mpr ?_⟩
  left
  decide

/-- Two fingerprints behind a descriptor with segments of length one and a segment count
length of zero parse, and every query reads the fingerprint after the last. -/
theorem zero_count_unsafe :
  ∃ sketch, Sketch.parse [0, 0, 0, 0, 0, 0, 0, 0, 1, 0, 0, 0, 0, 0, 0, 0, 0, 0, 0, 0, 5, 7] = .ok sketch
    ∧ nFingerprints sketch.bytes = 2
    ∧ (∀ h, positions sketch.bytes h = [0, 1, 2])
    ∧ ∀ mix, ¬ SafeToQuery mix sketch.bytes
  := by
  have hpositions : ∀ h, positions
      [0, 0, 0, 0, 0, 0, 0, 0, 1, 0, 0, 0, 0, 0, 0, 0, 0, 0, 0, 0, 5, 7] h = [0, 1, 2] := by
    intro h
    simp [positions, segmentLength, segmentLengthMask, segmentCountLength, slice, leNat]
  refine ⟨⟨_⟩, rfl, rfl, hpositions, ?_⟩
  intro mix hsafe
  have hlt := hsafe 0 2 (by rw [hpositions]; decide)
  exact absurd hlt (by decide)

end

end V5
