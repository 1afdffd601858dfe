import Mcfreeze.Format.Layout
import Mathlib.Data.Nat.Bitwise

/-!
# Blocks and records

The records of `blocks.bin` and the blocks they are packed into (`v5/block.rs`).  A record
is a verify fingerprint, a length with two flag bits, and a payload, padded to eight
bytes; a block is a sequence of records, padded with zeros and sealed with a checksum.

The scanner reads a record back from its encoding.
-/

open Format

namespace V5

open Bytes

def checksumLen : Nat := 4
def headerLen : Nat := 12
def recordAlign : Nat := 8
def stubPayloadLen : Nat := 12
def maxValueLen : Nat := 2 ^ 30 - 1
def flagOutOfLine : Nat := 2 ^ 31
def flagCompressed : Nat := 2 ^ 30

def align8 (n : Nat) : Nat :=
  (n + (recordAlign - 1)) / recordAlign * recordAlign

/-- The size of a record with this many bytes of payload. -/
def encodedLen (payloadLen : Nat) : Nat :=
  align8 (headerLen + payloadLen)

/-- The low half of the hash: the checksum of blocks and heap values. -/
def checksum32 (H : Hash) (b : Bytes) : UInt32 :=
  (H.xxh64 b 0).toUInt32

/-- The fence of a fingerprint: its high half. -/
def fenceOf (fp : UInt64) : UInt32 :=
  (fp >>> 32).toUInt32

/-- Where the value of an out-of-line record is. -/
structure Stub where
  heapOffset : Nat
  storedLen : Nat
  valueChecksum : UInt32
  deriving DecidableEq, Repr

inductive Record where
  | inline (vfp : UInt64) (value : Bytes) (compressed : Bool)
  | stub (vfp : UInt64) (stub : Stub) (compressed : Bool)
  deriving DecidableEq, Repr

def Record.vfp : Record → UInt64
  | .inline vfp _ _ => vfp
  | .stub vfp _ _ => vfp

/-! ### Sealing and verification -/

/-- `Vec::resize` with zeros. -/
def resize (b : Bytes) (n : Nat) : Bytes :=
  b.take n ++ List.replicate (n - b.length) 0

/-- Check the trailing checksum of a block. -/
def verify (H : Hash) (block : Bytes) : Except Error Unit :=
  if block.length < checksumLen then
    .error (.corruptBlock "block shorter than its checksum")
  else
    let body := block.length - checksumLen
    if (checksum32 H (block.take body)).toNat ≠ leNat (block.drop body) then
      .error .blockChecksumMismatch
    else .ok ()

/-! ### The assembler -/

/-- The block that is being filled, and the fences of the blocks so far. -/
structure BlockAssembler where
  blockSize : Nat
  buf : Bytes
  fences : List UInt32
  deriving DecidableEq, Repr

namespace BlockAssembler

def new (blockSize : Nat) : Except Error BlockAssembler :=
  if blockSize % recordAlign = 0 ∧ checksumLen + encodedLen stubPayloadLen ≤ blockSize then
    .ok ⟨blockSize, [], []⟩
  else .error (.panic "block_size too small or misaligned")

/-- The sealed block handed to the sink: the buffer, zero padding and the checksum. -/
def cut (H : Hash) (asm : BlockAssembler) : Bytes :=
  let body := resize asm.buf (asm.blockSize - checksumLen)
  body ++ leBytes 4 (checksum32 H body).toNat

/-- Start a record; the first component is a block that had to be sealed before it. -/
def pushHeader (H : Hash) (asm : BlockAssembler) (fp vfp : UInt64) (payloadLen lengthFlags : Nat) :
    Except Error (Option Bytes × BlockAssembler) :=
  if vfp = 0 then .error (.panic "vfp 0 is the padding sentinel; bias it to 1")
  else
    let enc := encodedLen payloadLen
    let capacity := asm.blockSize - checksumLen
    if capacity < enc then .error (.recordTooLarge enc capacity)
    else
      let sealed := if capacity < asm.buf.length + enc then some (cut H asm) else none
      let buf := if capacity < asm.buf.length + enc then [] else asm.buf
      let fences := if buf = [] then asm.fences ++ [fenceOf fp] else asm.fences
      .ok (sealed, { asm with
        buf := buf ++ leBytes 8 vfp.toNat ++ leBytes 4 lengthFlags
        fences := fences })

/-- Complete a record with its payload. -/
def pushPayload (asm : BlockAssembler) (payload : Bytes) : BlockAssembler :=
  let buf := asm.buf ++ payload
  { asm with buf := resize buf (align8 buf.length) }

def pushInline (H : Hash) (asm : BlockAssembler) (fp vfp : UInt64) (stored : Bytes)
    (compressed : Bool) : Except Error (Option Bytes × BlockAssembler) :=
  if maxValueLen < stored.length then .error (.valueTooLarge stored.length maxValueLen)
  else
    let lf := if compressed then stored.length ||| flagCompressed else stored.length
    match pushHeader H asm fp vfp stored.length lf with
    | .error e => .error e
    | .ok (sealed, asm) => .ok (sealed, asm.pushPayload stored)

def pushStub (H : Hash) (asm : BlockAssembler) (fp vfp : UInt64) (stub : Stub)
    (compressed : Bool) : Except Error (Option Bytes × BlockAssembler) :=
  if maxValueLen < stub.storedLen then .error (.valueTooLarge stub.storedLen maxValueLen)
  else
    let lf := stub.storedLen ||| flagOutOfLine
    let lf := if compressed then lf ||| flagCompressed else lf
    match pushHeader H asm fp vfp stubPayloadLen lf with
    | .error e => .error e
    | .ok (sealed, asm) =>
      .ok (sealed, asm.pushPayload (leBytes 8 stub.heapOffset ++ leBytes 4 stub.valueChecksum.toNat))

/-- Seal the last block; the fences of all blocks. -/
def finish (H : Hash) (asm : BlockAssembler) : Option Bytes × List UInt32 :=
  (if asm.buf = [] then none else some (cut H asm), asm.fences)

end BlockAssembler

/-! ### The scanner -/

/-- The record at a position of the block and the position after it; no record where the
padding starts, and an error where a record overruns the block. -/
def Records.next (block : Bytes) (pos : Nat) : Option (Except Error Record × Nat) :=
  let usable := block.length - checksumLen
  if usable < pos + headerLen then none
  else
    let vfp := UInt64.ofNat (leNat (slice block pos (pos + 8)))
    if vfp = 0 then none
    else
      let lf := leNat (slice block (pos + 8) (pos + headerLen))
      let length := lf &&& maxValueLen
      let outOfLine := lf &&& flagOutOfLine ≠ 0
      let compressed := decide (lf &&& flagCompressed ≠ 0)
      let payloadLen := if outOfLine then stubPayloadLen else length
      let start := pos + headerLen
      let stop := start + payloadLen
      if usable < stop then some (.error (.corruptBlock "record overruns block"), usable)
      else
        let payload := slice block start stop
        let record :=
          if outOfLine then
            Record.stub vfp
              ⟨leNat (payload.take 8), length, UInt32.ofNat (leNat (payload.drop 8))⟩ compressed
          else Record.inline vfp payload compressed
        some (.ok record, align8 stop)

/-- The records from a position on; the iteration ends after an error. -/
def recordsFrom (block : Bytes) : Nat → Nat → List (Except Error Record)
  | 0, _ => []
  | fuel + 1, pos =>
    match Records.next block pos with
    | none => []
    | some (.error e, _) => [.error e]
    | some (.ok record, pos') => .ok record :: recordsFrom block fuel pos'

/-- The records of a block; each takes at least sixteen bytes, so its length bounds the
iteration. -/
def records (block : Bytes) : List (Except Error Record) :=
  recordsFrom block (block.length + 1) 0

/-- The first record with the given verify fingerprint. -/
def findIn (vfp : UInt64) : List (Except Error Record) → Except Error (Option Record)
  | [] => .ok none
  | .error e :: _ => .error e
  | .ok record :: rest => if record.vfp = vfp then .ok (some record) else findIn vfp rest

def find (H : Hash) (block : Bytes) (vfp : UInt64) : Except Error (Option Record) :=
  match verify H block with
  | .error e => .error e
  | .ok () => findIn vfp (records block)

/-! ### The encoding of a record -/

namespace Record

def payload : Record → Bytes
  | .inline _ value _ => value
  | .stub _ st _ => leBytes 8 st.heapOffset ++ leBytes 4 st.valueChecksum.toNat

def lengthFlags : Record → Nat
  | .inline _ value compressed =>
    if compressed then value.length ||| flagCompressed else value.length
  | .stub _ st compressed =>
    let lf := st.storedLen ||| flagOutOfLine
    if compressed then lf ||| flagCompressed else lf

/-- A record that the fields of its encoding can hold. -/
def Fits : Record → Prop
  | .inline vfp value _ => vfp ≠ 0 ∧ value.length ≤ maxValueLen
  | .stub vfp st _ => vfp ≠ 0 ∧ st.storedLen ≤ maxValueLen ∧ st.heapOffset < 2 ^ 64

/-- The bytes of a record before its padding. -/
def unpadded (r : Record) : Bytes :=
  leBytes 8 r.vfp.toNat ++ (leBytes 4 r.lengthFlags ++ r.payload)

/-- The bytes of a record. -/
def encode (r : Record) : Bytes :=
  r.unpadded ++ List.replicate (encodedLen r.payload.length - r.unpadded.length) 0

end Record

theorem align8_mod (n : Nat) :
  align8 n % 8 = 0
  := by
  simp only [align8, recordAlign]
  omega

theorem le_align8 (n : Nat) :
  n ≤ align8 n
  := by
  simp only [align8, recordAlign]
  omega

theorem align8_add {m : Nat} (h : m % 8 = 0) (n : Nat) :
  align8 (m + n) = m + align8 n
  := by
  simp only [align8, recordAlign]
  omega

theorem headerLen_lt_encodedLen (n : Nat) :
  headerLen + n ≤ encodedLen n
  := by
  apply le_align8

theorem length_unpadded (r : Record) :
  r.unpadded.length = headerLen + r.payload.length
  := by
  simp only [Record.unpadded, List.length_append, length_leBytes, headerLen]
  omega

theorem length_encode (r : Record) :
  r.encode.length = encodedLen r.payload.length
  := by
  have hle := headerLen_lt_encodedLen r.payload.length
  rw [Record.encode, List.length_append, List.length_replicate, length_unpadded]
  omega

theorem length_encode_mod (r : Record) :
  r.encode.length % 8 = 0
  := by
  rw [length_encode]
  apply align8_mod

theorem encode_ne_nil (r : Record) :
  r.encode ≠ []
  := by
  have hle := headerLen_lt_encodedLen r.payload.length
  intro h
  have hlen := length_encode r
  simp only [h, List.length_nil, headerLen] at hlen hle
  omega

/-! ### The length field -/

namespace Record

/-- The number of bytes at the value's location. -/
def storedLen : Record → Nat
  | .inline _ value _ => value.length
  | .stub _ st _ => st.storedLen

def outOfLine : Record → Bool
  | .inline _ _ _ => false
  | .stub _ _ _ => true

def compressed : Record → Bool
  | .inline _ _ c => c
  | .stub _ _ c => c

theorem lengthFlags_eq (r : Record) :
  r.lengthFlags = r.storedLen ||| (if r.outOfLine then 2 ^ 31 else 0)
    ||| (if r.compressed then 2 ^ 30 else 0)
  := by
  cases r with
  | inline vfp value c => cases c <;> simp [lengthFlags, storedLen, outOfLine, compressed, flagCompressed]
  | stub vfp st c =>
    cases c <;> simp [lengthFlags, storedLen, outOfLine, compressed, flagCompressed, flagOutOfLine]

theorem Fits.storedLen_lt {r : Record} (h : r.Fits) :
  r.storedLen < 2 ^ 30
  := by
  have hle : r.storedLen ≤ maxValueLen := by
    cases r with
    | inline vfp value c => apply h.2
    | stub vfp st c => apply h.2.1
  simp only [maxValueLen] at hle
  omega

/-- The three parts of the length field do not overlap. -/
theorem testBit_lengthFlags (r : Record) (i : Nat) :
  r.lengthFlags.testBit i
    = (r.storedLen.testBit i || (r.outOfLine && i == 31) || (r.compressed && i == 30))
  := by
  rw [lengthFlags_eq, Nat.testBit_or, Nat.testBit_or]
  congr 1
  · congr 1
    cases r.outOfLine
    · simp
    · rw [if_pos rfl, Nat.testBit_two_pow, Bool.true_and, Bool.eq_iff_iff,
        decide_eq_true_eq, beq_iff_eq]
      apply eq_comm
  · cases r.compressed
    · simp
    · rw [if_pos rfl, Nat.testBit_two_pow, Bool.true_and, Bool.eq_iff_iff,
        decide_eq_true_eq, beq_iff_eq]
      apply eq_comm

theorem Fits.testBit_storedLen {r : Record} (h : r.Fits) {i : Nat} (hi : 30 ≤ i) :
  r.storedLen.testBit i = false
  := by
  apply Nat.testBit_lt_two_pow
  apply Nat.lt_of_lt_of_le h.storedLen_lt
  apply Nat.pow_le_pow_right (by omega) hi

/-- The length is read back from the field that it shares with the flags. -/
theorem Fits.lengthFlags_and_maxValueLen {r : Record} (h : r.Fits) :
  r.lengthFlags &&& maxValueLen = r.storedLen
  := by
  rw [maxValueLen, Nat.and_two_pow_sub_one_eq_mod]
  apply Nat.eq_of_testBit_eq
  intro i
  rw [Nat.testBit_mod_two_pow, testBit_lengthFlags]
  by_cases hi : i < 30
  · have h₁ : (i == 31) = false := by simp; omega
    have h₂ : (i == 30) = false := by simp; omega
    simp [hi, h₁, h₂]
  · simp [hi, h.testBit_storedLen (Nat.not_lt.mp hi)]

theorem and_two_pow_ne_zero_iff (n i : Nat) :
  n &&& 2 ^ i ≠ 0 ↔ n.testBit i = true
  := by
  rw [Nat.and_two_pow]
  cases n.testBit i
  · simp
  · simp

theorem Fits.lengthFlags_and_flagOutOfLine {r : Record} (h : r.Fits) :
  r.lengthFlags &&& flagOutOfLine ≠ 0 ↔ r.outOfLine = true
  := by
  rw [flagOutOfLine, and_two_pow_ne_zero_iff, testBit_lengthFlags,
    h.testBit_storedLen (by omega)]
  simp

theorem Fits.lengthFlags_and_flagCompressed {r : Record} (h : r.Fits) :
  r.lengthFlags &&& flagCompressed ≠ 0 ↔ r.compressed = true
  := by
  rw [flagCompressed, and_two_pow_ne_zero_iff, testBit_lengthFlags,
    h.testBit_storedLen (by omega)]
  simp

theorem Fits.lengthFlags_lt {r : Record} (h : r.Fits) :
  r.lengthFlags < 256 ^ 4
  := by
  apply Nat.lt_pow_two_of_testBit r.lengthFlags (n := 32)
  intro i hi
  rw [testBit_lengthFlags, h.testBit_storedLen (by omega)]
  have h₁ : (i == 31) = false := by simp; omega
  have h₂ : (i == 30) = false := by simp; omega
  simp [h₁, h₂]

theorem Fits.vfp_ne_zero {r : Record} (h : r.Fits) :
  r.vfp ≠ 0
  := by
  cases r with
  | inline vfp value c => apply h.1
  | stub vfp st c => apply h.1

end Record

/-! ### Reading a record back -/

/-- A slice of a record between others is one of its unpadded bytes. -/
theorem slice_encode {r : Record} (a b : Bytes) {i j : Nat}
    (hj : j ≤ headerLen + r.payload.length) :
  slice (a ++ (r.encode ++ b)) (a.length + i) (a.length + j) = slice r.unpadded i j
  := by
  rw [slice_append_right (by omega), slice_append_left, Record.encode, slice_append_left]
  · congr 1
    · omega
    · omega
  · rw [length_unpadded]
    omega
  · have hle := headerLen_lt_encodedLen r.payload.length
    rw [length_encode]
    omega

theorem slice_vfp (r : Record) :
  slice r.unpadded 0 8 = leBytes 8 r.vfp.toNat
  := by
  rw [Record.unpadded, slice_zero, List.take_left' (length_leBytes 8 _)]

theorem slice_lengthFlags (r : Record) :
  slice r.unpadded 8 headerLen = leBytes 4 r.lengthFlags
  := by
  apply slice_mid
  · simp
  · simp [headerLen]

theorem slice_payload (r : Record) :
  slice r.unpadded headerLen (headerLen + r.payload.length) = r.payload
  := by
  have h := slice_mid (leBytes 8 r.vfp.toNat ++ leBytes 4 r.lengthFlags) r.payload []
    (i := headerLen) (j := headerLen + r.payload.length) (by simp [headerLen])
    (by simp [headerLen])
  rwa [List.append_nil, List.append_assoc] at h

/-- The number of payload bytes follows from the length field. -/
theorem Record.length_payload (r : Record) :
  r.payload.length = if r.outOfLine then stubPayloadLen else r.storedLen
  := by
  cases r with
  | inline vfp value c => rfl
  | stub vfp st c => simp [payload, outOfLine, stubPayloadLen]

/-- A record that fits is read back from its encoding. -/
theorem next_encode {r : Record} (h : r.Fits) (a b : Bytes) (ha : a.length % 8 = 0)
    (hb : checksumLen ≤ b.length) :
  Records.next (a ++ (r.encode ++ b)) a.length = some (.ok r, a.length + r.encode.length)
  := by
  have hle := headerLen_lt_encodedLen r.payload.length
  have hlen := length_encode r
  have husable : (a ++ (r.encode ++ b)).length - checksumLen
      = a.length + r.encode.length + (b.length - checksumLen) := by
    simp only [List.length_append]
    omega
  have hvfp : slice (a ++ (r.encode ++ b)) a.length (a.length + 8)
      = leBytes 8 r.vfp.toNat := by
    have hj : 8 ≤ headerLen + r.payload.length := by
      simp only [headerLen]
      omega
    rw [← slice_vfp, ← slice_encode a b hj]
    rfl
  have hlf : slice (a ++ (r.encode ++ b)) (a.length + 8) (a.length + headerLen)
      = leBytes 4 r.lengthFlags := by
    rw [← slice_lengthFlags, ← slice_encode a b (by omega)]
  have hpayload : slice (a ++ (r.encode ++ b)) (a.length + headerLen)
      (a.length + headerLen + r.payload.length) = r.payload := by
    rw [Nat.add_assoc, slice_encode a b (Nat.le_refl _), slice_payload]
  have hstop : align8 (a.length + headerLen + r.payload.length)
      = a.length + r.encode.length := by
    rw [Nat.add_assoc, align8_add ha, hlen, encodedLen]
  have hvfp' : UInt64.ofNat (leNat (leBytes 8 r.vfp.toNat)) = r.vfp := by
    rw [leNat_leBytes_of_lt]
    · simp
    · apply r.vfp.toNat_lt
  have hlf' : leNat (leBytes 4 r.lengthFlags) = r.lengthFlags :=
    leNat_leBytes_of_lt h.lengthFlags_lt
  have hpl : (if r.lengthFlags &&& flagOutOfLine ≠ 0 then stubPayloadLen else r.storedLen)
      = r.payload.length := by
    rw [r.length_payload]
    simp only [h.lengthFlags_and_flagOutOfLine]
  simp only [Records.next, husable, hvfp, hlf, hvfp', hlf', h.lengthFlags_and_maxValueLen, hpl,
    hpayload, hstop]
  rw [if_neg (by omega), if_neg h.vfp_ne_zero, if_neg (by omega)]
  congr 2
  have hout := h.lengthFlags_and_flagOutOfLine
  have hcomp : decide (r.lengthFlags &&& flagCompressed ≠ 0) = r.compressed := by
    rw [Bool.eq_iff_iff, decide_eq_true_eq, h.lengthFlags_and_flagCompressed]
  rw [hcomp]
  cases r with
  | inline vfp value c =>
    rw [if_neg (by simpa [Record.outOfLine] using hout)]
    rfl
  | stub vfp st c =>
    rw [if_pos (hout.mpr rfl)]
    have hoffset : leNat (leBytes 8 st.heapOffset) = st.heapOffset :=
      leNat_leBytes_of_lt h.2.2
    have hsum : leNat (leBytes 4 st.valueChecksum.toNat) = st.valueChecksum.toNat :=
      leNat_leBytes_of_lt st.valueChecksum.toNat_lt
    simp only [Record.vfp, Record.payload, Record.storedLen, Record.compressed,
      List.take_left' (length_leBytes 8 _), List.drop_left' (length_leBytes 8 _), hoffset, hsum,
      UInt32.ofNat_toNat]

/-- Only padding follows the last record. -/
theorem next_padding (a b : Bytes) (k : Nat) (hb : b.length = checksumLen) :
  Records.next (a ++ (List.replicate k 0 ++ b)) a.length = none
  := by
  have husable : (a ++ (List.replicate k 0 ++ b)).length - checksumLen = a.length + k := by
    simp only [List.length_append, List.length_replicate]
    omega
  simp only [Records.next, husable]
  by_cases hk : a.length + k < a.length + headerLen
  · rw [if_pos hk]
  · have hvfp : slice (a ++ (List.replicate k (0 : UInt8) ++ b)) a.length (a.length + 8)
        = List.replicate 8 0 := by
      simp only [headerLen] at hk
      rw [slice_append_right (Nat.le_refl _), slice_append_left, slice]
      · simp only [Nat.sub_self, List.drop_zero, List.take_replicate]
        congr 1
        omega
      · simp only [List.length_replicate]
        omega
    have hzero : UInt64.ofNat 0 = 0 := rfl
    rw [if_neg hk, hvfp, leNat_replicate_zero, hzero, if_pos rfl]

/-- The records of an encoded sequence, from the end of a prefix on. -/
theorem recordsFrom_encode (rs : List Record) (hrs : ∀ r ∈ rs, r.Fits) (b : Bytes) (k : Nat)
    (hb : b.length = checksumLen) :
  ∀ (a : Bytes) (fuel : Nat), a.length % 8 = 0 → rs.length < fuel →
    recordsFrom (a ++ ((rs.map Record.encode).flatten ++ (List.replicate k 0 ++ b))) fuel a.length
      = rs.map .ok
  := by
  induction rs with
  | nil =>
    intro a fuel ha hfuel
    obtain ⟨fuel, rfl⟩ : ∃ n, fuel = n + 1 := ⟨fuel - 1, by omega⟩
    simp only [List.map_nil, List.flatten_nil, List.nil_append, recordsFrom]
    rw [next_padding a b k hb]
  | cons r rs ih =>
    intro a fuel ha hfuel
    obtain ⟨fuel, rfl⟩ : ∃ n, fuel = n + 1 := ⟨fuel - 1, by omega⟩
    have hnext := next_encode (hrs r List.mem_cons_self) a
      ((rs.map Record.encode).flatten ++ (List.replicate k 0 ++ b)) ha (by
        simp only [List.length_append, hb]
        omega)
    have hrest := ih (fun r' h => hrs r' (List.mem_cons_of_mem _ h)) (a ++ r.encode) fuel (by
        have hmod := length_encode_mod r
        rw [List.length_append]
        omega) (by
        simp only [List.length_cons] at hfuel
        omega)
    rw [List.append_assoc, List.length_append] at hrest
    simp only [List.map_cons, List.flatten_cons, List.append_assoc, recordsFrom, hnext, hrest]

end V5
