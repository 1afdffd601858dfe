import Mcfreeze.V4.Writer
import Mcfreeze.Lib.XxHash

/-!
# The records of `data.bin`

`AlignedWriter` (`data.rs`) writes values of any length, and `read_and_verify`
(`v4/reader.rs`) reads them back.  On both sides the length of a value with its header and
padding passes through 32 bits.

The values of a sequence of calls are read back exactly if each of them fits 32 bits with
its header and padding; then the records follow each other without gaps.  The first value
that does not fit is not read back.
-/

open Format

namespace V4

open Bytes

/-! ### The writer -/

/-- What the writer has handed to its file, and where it takes the next value to start. -/
structure AlignedWriter where
  inner : Bytes
  byteOffset : Nat
  verifySeed : UInt64
  deriving DecidableEq, Repr

namespace AlignedWriter

def new (verifySeed : UInt64) : Except Error AlignedWriter :=
  if verifySeed = 0 then .error (.panic "verify_seed must be non-zero") else .ok ⟨[], 0, verifySeed⟩

/-- Write a value whose bytes the file takes: its aligned offset and its size, and the writer
afterwards.  Sums in 32 bits wrap around. -/
def writeValue (H : Hash) (w : AlignedWriter) (key value : Bytes) : (Nat × Nat) × AlignedWriter :=
  let alignedOffset := w.byteOffset / valueAlignment
  let padded := alignedSize (onDiskSize value)
  ((alignedOffset, onDiskSize value),
    { w with
      inner := w.inner ++ encodeValue (verifyFingerprint H key w.verifySeed) value
      byteOffset := w.byteOffset + padded })

/-- Write values one after the other: what the calls return, and the writer afterwards. -/
def writeValues (H : Hash) : AlignedWriter → List Pair → List (Nat × Nat) × AlignedWriter
  | w, [] => ([], w)
  | w, kv :: kvs =>
    let first := w.writeValue H kv.1 kv.2
    let rest := writeValues H first.2 kvs
    (first.1 :: rest.1, rest.2)

end AlignedWriter

/-- Every value is read back at the offset that was returned for it. -/
def ReadsBack (H : Hash) (w : AlignedWriter) (kvs : List Pair) : Prop :=
  ∀ (i : Nat) (kv : Pair), kvs[i]? = some kv → ∃ offset size, (w.writeValues H kvs).1[i]? = some (offset, size)
    ∧ readAndVerify (w.writeValues H kvs).2.inner (offset * valueAlignment)
      (verifyFingerprint H kv.1 w.verifySeed) = .ok (some kv.2)

/-- No computation in 32 bits wraps around for the value: neither its length, nor its size
with the header, nor its size with the padding. -/
def NoWrap (value : Bytes) : Prop :=
  value.length % 2 ^ 32 = value.length
    ∧ onDiskSize value = valueHeaderSize + value.length
    ∧ alignedSize (valueHeaderSize + value.length) % 2 ^ 32
      = alignedSize (valueHeaderSize + value.length)

/-- Every record starts where it was said to, and ends, aligned, where the next one starts. -/
def Apart (H : Hash) (w : AlignedWriter) (kvs : List Pair) : Prop :=
  ∀ (i : Nat) (kv : Pair), kvs[i]? = some kv → ∃ offset size, (w.writeValues H kvs).1[i]? = some (offset, size)
    ∧ offset * valueAlignment = (w.writeValues H (kvs.take i)).2.inner.length
    ∧ (w.writeValues H (kvs.take (i + 1))).2.inner.length
      = offset * valueAlignment + alignedSize (valueHeaderSize + kv.2.length)

/-! ### Reading back -/

section

variable {H : Hash} {seed : UInt64} {w : AlignedWriter} {kvs : List Pair} {kv : Pair}

theorem noWrap_iff (value : Bytes) :
  NoWrap value ↔ Small value
  := by
  simp only [NoWrap, Small, onDiskSize, alignedSize, valueHeaderSize, valueAlignment]
  omega

/-- What a sequence of calls returns and leaves. -/
theorem writeValues_eq (w : AlignedWriter) (kvs : List Pair) :
  (w.writeValues H kvs).2
      = ⟨w.inner ++ encodeValues H w.verifySeed kvs, w.byteOffset + dataEnd kvs, w.verifySeed⟩
    ∧ ∀ (i : Nat) (kv : Pair), kvs[i]? = some kv → (w.writeValues H kvs).1[i]?
      = some ((w.byteOffset + dataEnd (kvs.take i)) / valueAlignment, onDiskSize kv.2)
  := by
  induction kvs generalizing w with
  | nil => simp [AlignedWriter.writeValues, encodeValues, dataEnd]
  | cons kv kvs ih =>
    obtain ⟨hlast, hreturned⟩ := ih (w.writeValue H kv.1 kv.2).2
    constructor
    · rw [AlignedWriter.writeValues, hlast]
      simp [AlignedWriter.writeValue, encodeValues, dataEnd, Nat.add_assoc]
    · intro i kv' hkv'
      rw [AlignedWriter.writeValues]
      cases i with
      | zero =>
        obtain rfl : kv = kv' := by simpa using hkv'
        simp [AlignedWriter.writeValue, dataEnd]
      | succ i =>
        rw [List.getElem?_cons_succ] at hkv' ⊢
        rw [hreturned i kv' hkv']
        simp [AlignedWriter.writeValue, dataEnd, Nat.add_assoc]

/-- A value that is read back has the length in its header. -/
theorem length_of_readAndVerify {file value : Bytes} {offset : Nat} {expected : UInt64}
    (h : readAndVerify file offset expected = .ok (some value)) :
  value.length = leNat (slice (preadUpTo file offset (pageSize - offset % pageSize)) 8 12)
  := by
  have hslice : ∀ (b : Bytes) (n : Nat), valueHeaderSize + n ≤ b.length →
      (slice b valueHeaderSize (valueHeaderSize + n)).length = n := by
    intro b n hle
    rw [slice, List.length_take, List.length_drop]
    omega
  simp only [readAndVerify] at h
  split at h
  · simp at h
  · split at h
    · simp at h
    · split at h
      · next hfits =>
        rw [← Option.some.inj (Except.ok.inj h), hslice _ _ hfits]
      · split at h
        · simp at h
        · split at h
          · simp at h
          · next raw _ =>
            split at h
            · simp at h
            · next hfits =>
              rw [← Option.some.inj (Except.ok.inj h), hslice _ _ (Nat.not_lt.mp hfits)]

/-- A value that does not fit is not read back. -/
theorem readAndVerify_large {vfp : UInt64} {value pre post : Bytes} (h : ¬ Small value)
    (hpre : pre.length % valueAlignment = 0) :
  readAndVerify (pre ++ (encodeValue vfp value ++ post)) pre.length vfp ≠ .ok (some value)
  := by
  intro hread
  have hlength := length_of_readAndVerify hread
  have hpage : 64 ≤ pageSize - pre.length % pageSize ∧ pageSize - pre.length % pageSize ≤ 4096 := by
    simp only [valueAlignment, pageSize] at hpre ⊢
    omega
  have hfirst : preadUpTo (pre ++ (encodeValue vfp value ++ post)) pre.length
      (pageSize - pre.length % pageSize)
        = (encodeValue vfp value ++ post).take (pageSize - pre.length % pageSize) := by
    rw [preadUpTo, slice, List.drop_left, Nat.add_sub_cancel_left]
  have hbyteLen : leNat (slice (encodeValue vfp value ++ post) 8 12) = value.length % 2 ^ 32 := by
    have hassoc : encodeValue vfp value ++ post = leBytes 8 vfp.toNat
        ++ (leBytes 4 (value.length % 2 ^ 32) ++ (value ++ (List.replicate
          (alignedSize (onDiskSize value) - onDiskSize value) 0 ++ post))) := by
      simp only [encodeValue, List.append_assoc]
    rw [hassoc, slice_mid]
    · rw [leNat_leBytes_of_lt]
      omega
    · simp
    · simp
  rw [hfirst, slice_take (by omega), hbyteLen] at hlength
  simp only [Small, valueHeaderSize, valueAlignment] at h
  simp only [readAndVerify, hfirst] at hread
  rw [slice_take (by omega), slice_take (by omega), hbyteLen] at hread
  split at hread
  · simp at hread
  · split at hread
    · simp at hread
    · rw [if_neg (by rw [List.length_take]; simp only [valueHeaderSize]; omega)] at hread
      split at hread
      · simp at hread
      · next hsum =>
        have hzero : alignedSize (valueHeaderSize + value.length % 2 ^ 32) % 2 ^ 32 = 0 := by
          simp only [alignedSize, valueHeaderSize, valueAlignment] at hsum ⊢
          omega
        rw [hzero] at hread
        simp [pread, slice, valueHeaderSize] at hread

/-- A writer before its first call. -/
theorem new_eq_ok (h : AlignedWriter.new seed = .ok w) :
  w = ⟨[], 0, seed⟩
  := by
  rw [AlignedWriter.new] at h
  split at h
  · simp at h
  · exact (Except.ok.inj h).symm

/-- Where a record is written and read when those before it fit. -/
theorem returned_offset (H : Hash) (seed : UInt64) {i : Nat} (hkv : kvs[i]? = some kv)
    (hsmall : ∀ kv ∈ kvs.take i, Small kv.2) :
  (AlignedWriter.writeValues H ⟨[], 0, seed⟩ kvs).1[i]?
      = some (dataEnd (kvs.take i) / valueAlignment, onDiskSize kv.2)
    ∧ dataEnd (kvs.take i) / valueAlignment * valueAlignment
      = (encodeValues H seed (kvs.take i)).length
    ∧ (encodeValues H seed (kvs.take i)).length % valueAlignment = 0
  := by
  obtain ⟨-, hreturned⟩ := writeValues_eq (H := H) ⟨[], 0, seed⟩ kvs
  have hend : (encodeValues H seed (kvs.take i)).length = dataEnd (kvs.take i)
      ∧ dataEnd (kvs.take i) % valueAlignment = 0 := length_encodeValues hsmall
  obtain ⟨hlen, hmod⟩ := hend
  refine ⟨?_, ?_, ?_⟩
  · rw [hreturned i kv hkv, Nat.zero_add]
  · rw [hlen]
    apply Nat.div_mul_cancel
    apply Nat.dvd_of_mod_eq_zero hmod
  · rw [hlen, hmod]

theorem inner_writeValues (kvs : List Pair) :
  (AlignedWriter.writeValues H ⟨[], 0, seed⟩ kvs).2.inner = encodeValues H seed kvs
  := by
  rw [(writeValues_eq _ _).1, List.nil_append]

/-- Values that fit are read back. -/
theorem readsBack_of_small (h : ∀ kv ∈ kvs, Small kv.2) :
  ReadsBack H ⟨[], 0, seed⟩ kvs
  := by
  intro i kv hkv
  obtain ⟨hreturned, hoffset, haligned⟩ := returned_offset H seed hkv
    fun kv' hkv' => h kv' (List.mem_of_mem_take hkv')
  refine ⟨_, _, hreturned, ?_⟩
  rw [hoffset, inner_writeValues, encodeValues_split hkv,
    readAndVerify_encodeValue (h kv (List.mem_of_getElem? hkv)) haligned, if_pos rfl]

/-- Values that are read back fit, one after the other. -/
theorem ReadsBack.small (h : ReadsBack H ⟨[], 0, seed⟩ kvs) :
  ∀ kv ∈ kvs, Small kv.2
  := by
  have htake : ∀ i, ∀ kv ∈ kvs.take i, Small kv.2 := by
    intro i
    induction i with
    | zero => simp
    | succ i ih =>
      intro kv hkv
      rw [List.take_add_one] at hkv
      rcases List.mem_append.mp hkv with hkv | hkv
      · apply ih kv hkv
      · have hget : kvs[i]? = some kv := by simpa using hkv
        by_contra hlarge
        obtain ⟨hreturned, hoffset, haligned⟩ := returned_offset H seed hget ih
        obtain ⟨offset, size, hreturned', hread⟩ := h i kv hget
        obtain ⟨rfl, -⟩ := Prod.mk.inj (Option.some.inj (hreturned'.symm.trans hreturned))
        rw [hoffset, inner_writeValues, encodeValues_split hget] at hread
        apply readAndVerify_large hlarge haligned hread
  intro kv hkv
  apply htake kvs.length
  rwa [List.take_length]

/-- Records of values that fit follow each other. -/
theorem apart_of_small (h : ∀ kv ∈ kvs, Small kv.2) :
  Apart H ⟨[], 0, seed⟩ kvs
  := by
  intro i kv hkv
  obtain ⟨hreturned, hoffset, -⟩ := returned_offset H seed hkv
    fun kv' hkv' => h kv' (List.mem_of_mem_take hkv')
  refine ⟨_, _, hreturned, ?_, ?_⟩
  · rw [hoffset, inner_writeValues]
  · rw [hoffset, inner_writeValues, List.take_add_one, hkv, Option.toList_some, encodeValues_append,
      List.length_append, length_encodeValue (h kv (List.mem_of_getElem? hkv))]

/-- The values are read back, without wrapping around and one record after the other, exactly
if all of them fit.  Reading back alone fails already when one does not. -/
theorem records_read_back_iff (hnew : AlignedWriter.new seed = .ok w) (kvs : List Pair) :
  (ReadsBack H w kvs ∧ (∀ kv ∈ kvs, NoWrap kv.2) ∧ Apart H w kvs ↔ ∀ kv ∈ kvs, Small kv.2)
    ∧ (ReadsBack H w kvs ↔ ∀ kv ∈ kvs, Small kv.2)
  := by
  obtain rfl := new_eq_ok hnew
  refine ⟨⟨fun h => h.1.small, fun h => ⟨readsBack_of_small h, ?_, apart_of_small h⟩⟩,
    ReadsBack.small, readsBack_of_small⟩
  intro kv hkv
  apply (noWrap_iff _).mpr (h kv hkv)

end

/-- An empty value and one of three bytes. -/
theorem records_read_back_two :
  AlignedWriter.new 7 = .ok ⟨[], 0, 7⟩
    ∧ ReadsBack ⟨XxHash.xxh64⟩ ⟨[], 0, 7⟩ [([1], []), ([2], [3, 4, 5])]
  := by
  have hnew : AlignedWriter.new 7 = .ok ⟨[], 0, 7⟩ := by decide
  refine ⟨hnew, ?_⟩
  apply (records_read_back_iff hnew _).2.mpr
  simp [Small, valueHeaderSize, valueAlignment]

/-- A value of 4 GiB. -/
def fourGiB : Bytes := List.replicate (2 ^ 32) 0

theorem length_fourGiB :
  fourGiB.length = 2 ^ 32
  := by
  rw [fourGiB, List.length_replicate]

/-- The call that writes a value of 4 GiB returns, and the value is not read back. -/
theorem large_value_lost :
  AlignedWriter.new 7 = .ok ⟨[], 0, 7⟩
    ∧ ¬ ReadsBack ⟨XxHash.xxh64⟩ ⟨[], 0, 7⟩ [([1], fourGiB)]
  := by
  refine ⟨by decide, ?_⟩
  intro hback
  have hsmall := hback.small ([1], fourGiB) List.mem_cons_self
  dsimp only at hsmall
  rw [Small, length_fourGiB, valueAlignment] at hsmall
  omega

end V4
