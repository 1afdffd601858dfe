import Mcfreeze.V5.Codec

/-!
# Frame headers

The header of a magicless zstd frame (RFC 8878, section 3.1.1.1) as a structure with its
encoding: a descriptor byte, a window descriptor unless the frame is a single segment, a
dictionary identifier of no, one, two or four bytes, and the content size in no, one, two,
four or eight bytes.  Without a field only the window bounds the content; the field of one
byte needs a single segment, and the field of two bytes starts at 256.

`frame_content_size` (`v5/compress.rs`) reads the size that a header pins, and every string
that does not start with a header is a corrupt frame.
-/

open Format

namespace V5

open Bytes

/-! ### Headers -/

/-- A single segment has no window descriptor. -/
inductive Segment where
  | single
  | windowed (descriptor : UInt8)
  deriving DecidableEq, Repr

inductive DictionaryId where
  | none
  | one (id : UInt8)
  | two (id : UInt16)
  | four (id : UInt32)
  deriving DecidableEq, Repr

/-- The content size field of a single segment, or of a frame with a window. -/
inductive ContentSize : Bool → Type where
  | unpinned : ContentSize false
  | one (field : UInt8) : ContentSize true
  | two {single : Bool} (field : UInt16) : ContentSize single
  | four {single : Bool} (field : UInt32) : ContentSize single
  | eight {single : Bool} (field : UInt64) : ContentSize single
  deriving DecidableEq, Repr

def Segment.isSingle : Segment → Bool
  | single => true
  | windowed _ => false

def Segment.encode : Segment → Bytes
  | single => []
  | windowed descriptor => [descriptor]

def DictionaryId.flag : DictionaryId → Fin 4
  | none => 0
  | one _ => 1
  | two _ => 2
  | four _ => 3

def DictionaryId.encode : DictionaryId → Bytes
  | none => []
  | one id => leBytes 1 id.toNat
  | two id => leBytes 2 id.toNat
  | four id => leBytes 4 id.toNat

section

variable {single : Bool}

def ContentSize.flag : ContentSize single → Fin 4
  | unpinned => 0
  | one _ => 0
  | two _ => 1
  | four _ => 2
  | eight _ => 3

def ContentSize.encode : ContentSize single → Bytes
  | unpinned => []
  | one field => leBytes 1 field.toNat
  | two field => leBytes 2 field.toNat
  | four field => leBytes 4 field.toNat
  | eight field => leBytes 8 field.toNat

/-- The content size that the field stands for. -/
def ContentSize.pinned : ContentSize single → Option Nat
  | unpinned => none
  | one field => some field.toNat
  | two field => some (field.toNat + 256)
  | four field => some field.toNat
  | eight field => some field.toNat

end

/-- The header of a frame. -/
structure FrameHeader where
  segment : Segment
  dictionaryId : DictionaryId
  contentSize : ContentSize segment.isSingle
  unused : Bool
  reserved : Bool
  checksum : Bool
  deriving DecidableEq, Repr

/-- The descriptor byte, from its most significant bits to its least significant ones. -/
def descriptorByte (sizeFlag : Fin 4) (single unused reserved checksum : Bool) (dictFlag : Fin 4) :
    UInt8 :=
  UInt8.ofNat
    (sizeFlag.val * 64 + single.toNat * 32 + unused.toNat * 16 + reserved.toNat * 8
      + checksum.toNat * 4 + dictFlag.val)

def FrameHeader.encode (h : FrameHeader) : Bytes :=
  descriptorByte h.contentSize.flag h.segment.isSingle h.unused h.reserved h.checksum
      h.dictionaryId.flag
    :: (h.segment.encode ++ (h.dictionaryId.encode ++ h.contentSize.encode))

/-- The code calls the frame corrupt. -/
def Corrupt (r : Except Error Nat) : Prop :=
  ∃ message, r = .error (.corruptFrame message)

/-! ### The fields of the descriptor -/

/-- The width of the content size field; there is none without a single segment when the flag
is zero. -/
def sizeWidth (single : Bool) (sizeFlag : Fin 4) : Option Nat :=
  match sizeFlag with
  | 0 => if single then some 1 else none
  | 1 => some 2
  | 2 => some 4
  | 3 => some 8

def dictWidth (dictFlag : Fin 4) : Nat :=
  match dictFlag with
  | 0 => 0
  | 1 => 1
  | 2 => 2
  | 3 => 4

def windowWidth (single : Bool) : Nat :=
  if single then 0 else 1

/-- Read the size field behind the window descriptor and the dictionary identifier. -/
def readSize (tail : Bytes) (start : Nat) : Option Nat → Except Error Nat
  | none => .error (.corruptFrame "frame content size not pinned")
  | some width =>
    if tail.length < start + width then .error (.corruptFrame "truncated frame header")
    else .ok (leNat (slice tail start (start + width)) + if width = 2 then 256 else 0)

section

variable {sizeFlag dictFlag : Fin 4} {single unused reserved checksum : Bool}

theorem descriptorByte_reserved :
  descriptorByte sizeFlag single unused reserved checksum dictFlag &&& 0x08 ≠ 0 ↔ reserved = true
  := by
  revert sizeFlag single unused reserved checksum dictFlag
  decide

theorem descriptorByte_single :
  descriptorByte sizeFlag single unused reserved checksum dictFlag &&& 0x20 ≠ 0 ↔ single = true
  := by
  revert sizeFlag single unused reserved checksum dictFlag
  decide

theorem descriptorByte_size :
  descriptorByte sizeFlag single unused reserved checksum dictFlag >>> 6 = UInt8.ofNat sizeFlag.val
  := by
  revert sizeFlag single unused reserved checksum dictFlag
  decide

theorem descriptorByte_dict :
  descriptorByte sizeFlag single unused reserved checksum dictFlag &&& 0x03 = UInt8.ofNat dictFlag.val
  := by
  revert sizeFlag single unused reserved checksum dictFlag
  decide

/-- Every byte is a descriptor. -/
theorem exists_descriptorByte (fhd : UInt8) :
  ∃ sizeFlag single unused reserved checksum dictFlag,
    fhd = descriptorByte sizeFlag single unused reserved checksum dictFlag
  := by
  have hall : ∀ n : Fin 256, UInt8.ofNat n.val
      = descriptorByte ⟨n.val / 64, by omega⟩ (n.val.testBit 5) (n.val.testBit 4) (n.val.testBit 3)
        (n.val.testBit 2) ⟨n.val % 4, by omega⟩ := by
    decide +kernel
  have hfhd := hall ⟨fhd.toNat, fhd.toNat_lt⟩
  rw [UInt8.ofNat_toNat] at hfhd
  exact ⟨_, _, _, _, _, _, hfhd⟩

theorem sizeWidth_eq :
  (if UInt8.ofNat sizeFlag.val = 0 then (if single = true then some 1 else none)
    else if UInt8.ofNat sizeFlag.val = 1 then some 2
    else if UInt8.ofNat sizeFlag.val = 2 then some 4
    else some 8) = sizeWidth single sizeFlag
  := by
  revert sizeFlag single
  decide

theorem dictWidth_eq :
  (if UInt8.ofNat dictFlag.val = 0 then 0
    else if UInt8.ofNat dictFlag.val = 1 then 1
    else if UInt8.ofNat dictFlag.val = 2 then 2
    else 4) = dictWidth dictFlag
  := by
  revert dictFlag
  decide

theorem slice_cons (x : UInt8) (tail : Bytes) (i j : Nat) :
  slice (x :: tail) (i + 1) (j + 1) = slice tail i j
  := by
  simp [slice]

/-- What the code does behind a descriptor. -/
theorem frameContentSize_descriptor (tail : Bytes) :
  frameContentSize (descriptorByte sizeFlag single unused reserved checksum dictFlag :: tail)
    = if reserved then .error (.corruptFrame "reserved frame header bit set")
      else readSize tail (windowWidth single + dictWidth dictFlag) (sizeWidth single sizeFlag)
  := by
  simp only [frameContentSize, descriptorByte_reserved, descriptorByte_single, descriptorByte_size,
    descriptorByte_dict, sizeWidth_eq, dictWidth_eq]
  split
  · rfl
  · cases sizeWidth single sizeFlag with
    | none => rfl
    | some width =>
      have hstart : 1 + (if single = true then 0 else 1) + dictWidth dictFlag
          = windowWidth single + dictWidth dictFlag + 1 := by
        rw [windowWidth]
        omega
      have hend : windowWidth single + dictWidth dictFlag + 1 + width
          = windowWidth single + dictWidth dictFlag + width + 1 := by
        omega
      simp only [readSize, hstart, hend, slice_cons, List.length_cons, Nat.add_lt_add_iff_right]
      split
      · rfl
      · split
        · rfl
        · rfl

end

/-! ### The encoded fields -/

section

variable {single : Bool}

theorem Segment.length_encode (s : Segment) :
  s.encode.length = windowWidth s.isSingle
  := by
  cases s with
  | single => rfl
  | windowed descriptor => rfl

theorem DictionaryId.length_encode (id : DictionaryId) :
  id.encode.length = dictWidth id.flag
  := by
  cases id with
  | none => rfl
  | one id => apply length_leBytes
  | two id => apply length_leBytes
  | four id => apply length_leBytes

/-- The width of the field is that of the flag, and its bytes stand for the pinned size. -/
theorem ContentSize.pinned_eq (size : ContentSize single) :
  size.pinned = (sizeWidth single size.flag).map fun width =>
    leNat size.encode + if width = 2 then 256 else 0
  := by
  cases size with
  | unpinned => rfl
  | one field =>
    have hfield : leNat (leBytes 1 field.toNat) = field.toNat := leNat_leBytes_of_lt field.toNat_lt
    simp [pinned, flag, encode, sizeWidth, hfield]
  | two field =>
    have hfield : leNat (leBytes 2 field.toNat) = field.toNat := leNat_leBytes_of_lt field.toNat_lt
    simp [pinned, flag, encode, sizeWidth, hfield]
  | four field =>
    have hfield : leNat (leBytes 4 field.toNat) = field.toNat := leNat_leBytes_of_lt field.toNat_lt
    simp [pinned, flag, encode, sizeWidth, hfield]
  | eight field =>
    have hfield : leNat (leBytes 8 field.toNat) = field.toNat := leNat_leBytes_of_lt field.toNat_lt
    simp [pinned, flag, encode, sizeWidth, hfield]

theorem ContentSize.length_encode (size : ContentSize single) :
  size.encode.length = (sizeWidth single size.flag).getD 0
  := by
  cases size with
  | unpinned => rfl
  | one field => simp [flag, encode, sizeWidth]
  | two field => simp [flag, encode, sizeWidth]
  | four field => simp [flag, encode, sizeWidth]
  | eight field => simp [flag, encode, sizeWidth]

/-- No pinned size wraps. -/
theorem ContentSize.pinned_lt (size : ContentSize single) {n : Nat} (h : size.pinned = some n) :
  n < 2 ^ 64
  := by
  cases size with
  | unpinned => simp [pinned] at h
  | one field =>
    have hlt := field.toNat_lt
    simp only [pinned, Option.some.injEq] at h
    omega
  | two field =>
    have hlt := field.toNat_lt
    simp only [pinned, Option.some.injEq] at h
    omega
  | four field =>
    have hlt := field.toNat_lt
    simp only [pinned, Option.some.injEq] at h
    omega
  | eight field =>
    have hlt := field.toNat_lt
    simp only [pinned, Option.some.injEq] at h
    omega

/-- Every window part is the encoding of a segment. -/
theorem exists_segment {b : Bytes} (h : b.length = windowWidth single) :
  ∃ s : Segment, s.isSingle = single ∧ s.encode = b
  := by
  cases single with
  | true =>
    obtain rfl := List.eq_nil_of_length_eq_zero h
    exact ⟨.single, rfl, rfl⟩
  | false =>
    obtain ⟨descriptor, rfl⟩ := List.length_eq_one_iff.mp h
    exact ⟨.windowed descriptor, rfl, rfl⟩

/-- Every field of the right width is the identifier of some dictionary. -/
theorem exists_dictionaryId {flag : Fin 4} {b : Bytes} (h : b.length = dictWidth flag) :
  ∃ id : DictionaryId, id.flag = flag ∧ id.encode = b
  := by
  have hlt := leNat_lt b
  have hb := leBytes_leNat b
  rw [h] at hlt hb
  match flag with
  | 0 =>
    obtain rfl := List.eq_nil_of_length_eq_zero h
    exact ⟨.none, rfl, rfl⟩
  | 1 =>
    refine ⟨.one (UInt8.ofNat (leNat b)), rfl, ?_⟩
    rw [DictionaryId.encode, UInt8.toNat_ofNat_of_lt' hlt]
    apply hb
  | 2 =>
    refine ⟨.two (UInt16.ofNat (leNat b)), rfl, ?_⟩
    rw [DictionaryId.encode, UInt16.toNat_ofNat_of_lt' hlt]
    apply hb
  | 3 =>
    refine ⟨.four (UInt32.ofNat (leNat b)), rfl, ?_⟩
    rw [DictionaryId.encode, UInt32.toNat_ofNat_of_lt' hlt]
    apply hb

/-- Every field of the right width is some content size. -/
theorem exists_contentSize {flag : Fin 4} {width : Nat} (hwidth : sizeWidth single flag = some width)
    {b : Bytes} (h : b.length = width) :
  ∃ size : ContentSize single, size.flag = flag ∧ size.encode = b
  := by
  have hlt := leNat_lt b
  have hb := leBytes_leNat b
  rw [h] at hlt hb
  match flag with
  | 0 =>
    cases single with
    | false => simp [sizeWidth] at hwidth
    | true =>
      obtain rfl : 1 = width := Option.some.inj hwidth
      refine ⟨.one (UInt8.ofNat (leNat b)), rfl, ?_⟩
      rw [ContentSize.encode, UInt8.toNat_ofNat_of_lt' hlt]
      apply hb
  | 1 =>
    obtain rfl : 2 = width := Option.some.inj hwidth
    refine ⟨.two (UInt16.ofNat (leNat b)), rfl, ?_⟩
    rw [ContentSize.encode, UInt16.toNat_ofNat_of_lt' hlt]
    apply hb
  | 2 =>
    obtain rfl : 4 = width := Option.some.inj hwidth
    refine ⟨.four (UInt32.ofNat (leNat b)), rfl, ?_⟩
    rw [ContentSize.encode, UInt32.toNat_ofNat_of_lt' hlt]
    apply hb
  | 3 =>
    obtain rfl : 8 = width := Option.some.inj hwidth
    refine ⟨.eight (UInt64.ofNat (leNat b)), rfl, ?_⟩
    rw [ContentSize.encode, UInt64.toNat_ofNat_of_lt' hlt]
    apply hb

end

/-! ### Reading a header -/

/-- Behind a header without the reserved bit, the pinned size is read. -/
theorem frameContentSize_encode (h : FrameHeader) (rest : Bytes) :
  frameContentSize (h.encode ++ rest)
    = if h.reserved then .error (.corruptFrame "reserved frame header bit set")
      else h.contentSize.pinned.elim (.error (.corruptFrame "frame content size not pinned")) .ok
  := by
  rw [FrameHeader.encode, List.cons_append, frameContentSize_descriptor]
  congr 1
  rw [h.contentSize.pinned_eq]
  have hlength := h.contentSize.length_encode
  cases hwidth : sizeWidth h.segment.isSingle h.contentSize.flag with
  | none => rfl
  | some width =>
    rw [hwidth, Option.getD_some] at hlength
    have hsegment := h.segment.length_encode
    have hdict := h.dictionaryId.length_encode
    have hassoc : h.segment.encode ++ (h.dictionaryId.encode ++ h.contentSize.encode) ++ rest
        = (h.segment.encode ++ h.dictionaryId.encode) ++ (h.contentSize.encode ++ rest) := by
      simp only [List.append_assoc]
    have hslice : slice ((h.segment.encode ++ h.dictionaryId.encode) ++ (h.contentSize.encode ++ rest))
        (windowWidth h.segment.isSingle + dictWidth h.dictionaryId.flag)
        (windowWidth h.segment.isSingle + dictWidth h.dictionaryId.flag + width)
          = h.contentSize.encode := by
      apply slice_mid
      · rw [List.length_append, hsegment, hdict]
      · rw [List.length_append, hsegment, hdict, hlength]
    rw [hassoc, readSize, if_neg, hslice]
    · rfl
    · simp only [List.length_append]
      omega

/-- The parts of a string that is long enough for three of them. -/
theorem exists_three_parts {tail : Bytes} {i j k : Nat} (h : i + j + k ≤ tail.length) :
  ∃ a b c rest : Bytes, a.length = i ∧ b.length = j ∧ c.length = k ∧ tail = a ++ (b ++ c) ++ rest
  := by
  refine ⟨tail.take i, (tail.drop i).take j, ((tail.drop i).drop j).take k,
    ((tail.drop i).drop j).drop k, ?_, ?_, ?_, ?_⟩
  · rw [List.length_take]
    omega
  · rw [List.length_take, List.length_drop]
    omega
  · rw [List.length_take, List.length_drop, List.length_drop]
    omega
  · simp only [List.append_assoc, List.take_append_drop]

/-- Behind a descriptor, where a size is read, there is a whole header. -/
theorem exists_header {sizeFlag dictFlag : Fin 4} {single : Bool} (unused reserved checksum : Bool)
    {width : Nat} (hwidth : sizeWidth single sizeFlag = some width) {tail : Bytes}
    (hlen : windowWidth single + dictWidth dictFlag + width ≤ tail.length) :
  ∃ (h : FrameHeader) (rest : Bytes),
    descriptorByte sizeFlag single unused reserved checksum dictFlag :: tail = h.encode ++ rest
  := by
  obtain ⟨window, id, field, rest, hwindow, hid, hfield, rfl⟩ := exists_three_parts hlen
  obtain ⟨segment, rfl, rfl⟩ := exists_segment hwindow
  obtain ⟨dictionaryId, rfl, rfl⟩ := exists_dictionaryId hid
  obtain ⟨contentSize, rfl, rfl⟩ := exists_contentSize hwidth hfield
  exact ⟨⟨segment, dictionaryId, contentSize, unused, reserved, checksum⟩, rest, rfl⟩

/-- Where a size is read, the string starts with a header that pins it. -/
theorem exists_header_of_ok {frame : Bytes} {n : Nat} (hok : frameContentSize frame = .ok n) :
  ∃ (h : FrameHeader) (rest : Bytes), frame = h.encode ++ rest ∧ h.reserved = false
    ∧ h.contentSize.pinned = some n
  := by
  have hheader : ∃ (h : FrameHeader) (rest : Bytes), frame = h.encode ++ rest := by
    cases frame with
    | nil => simp [frameContentSize] at hok
    | cons fhd tail =>
      obtain ⟨sizeFlag, single, unused, reserved, checksum, dictFlag, rfl⟩ := exists_descriptorByte fhd
      rw [frameContentSize_descriptor] at hok
      split at hok
      · simp at hok
      · cases hwidth : sizeWidth single sizeFlag with
        | none => simp [hwidth, readSize] at hok
        | some width =>
          rw [hwidth, readSize] at hok
          split at hok
          · simp at hok
          · next hlen => apply exists_header _ _ _ hwidth (Nat.not_lt.mp hlen)
  obtain ⟨h, rest, rfl⟩ := hheader
  refine ⟨h, rest, rfl, ?_⟩
  rw [frameContentSize_encode] at hok
  cases hreserved : h.reserved with
  | true => simp [hreserved] at hok
  | false =>
    cases hpinned : h.contentSize.pinned with
    | none => simp [hreserved, hpinned] at hok
    | some m =>
      simp only [hreserved, hpinned, Option.elim_some] at hok
      exact ⟨rfl, congrArg some (Except.ok.inj hok)⟩

/-- A size is read, or the frame is called corrupt. -/
theorem ok_or_corrupt (frame : Bytes) :
  (∃ n, frameContentSize frame = .ok n) ∨ Corrupt (frameContentSize frame)
  := by
  cases frame with
  | nil =>
    right
    exact ⟨_, rfl⟩
  | cons fhd tail =>
    obtain ⟨sizeFlag, single, unused, reserved, checksum, dictFlag, rfl⟩ := exists_descriptorByte fhd
    rw [frameContentSize_descriptor]
    split
    · right
      exact ⟨_, rfl⟩
    · cases sizeWidth single sizeFlag with
      | none =>
        right
        exact ⟨_, rfl⟩
      | some width =>
        rw [readSize]
        split
        · right
          exact ⟨_, rfl⟩
        · left
          exact ⟨_, rfl⟩

/-- For every header, followed by anything, exactly the pinned size is read, or the frame is
corrupt when the header pins none or sets the reserved bit; a string that does not start with
a header is corrupt; and a size that is read is that of a header inside the string and fits
into 64 bits. -/
theorem frameContentSize_exact :
  (∀ (h : FrameHeader) (rest : Bytes),
      (∀ n, h.reserved = false → h.contentSize.pinned = some n →
        frameContentSize (h.encode ++ rest) = .ok n)
      ∧ (h.reserved = true ∨ h.contentSize.pinned = none →
        Corrupt (frameContentSize (h.encode ++ rest))))
    ∧ (∀ frame : Bytes, (¬ ∃ (h : FrameHeader) (rest : Bytes), frame = h.encode ++ rest) →
        Corrupt (frameContentSize frame))
    ∧ ∀ (frame : Bytes) (n : Nat), frameContentSize frame = .ok n →
        n < 2 ^ 64 ∧ ∃ (h : FrameHeader) (rest : Bytes), frame = h.encode ++ rest
          ∧ h.reserved = false ∧ h.contentSize.pinned = some n
  := by
  refine ⟨fun h rest => ⟨?_, ?_⟩, ?_, ?_⟩
  · intro n hreserved hpinned
    rw [frameContentSize_encode, hreserved, hpinned]
    rfl
  · intro hbad
    rw [frameContentSize_encode]
    cases hreserved : h.reserved with
    | true => exact ⟨_, rfl⟩
    | false =>
      rw [hbad.resolve_left (by simp [hreserved])]
      exact ⟨_, rfl⟩
  · intro frame hno
    apply (ok_or_corrupt frame).resolve_left
    rintro ⟨n, hok⟩
    obtain ⟨h, rest, hframe, -⟩ := exists_header_of_ok hok
    exact hno ⟨h, rest, hframe⟩
  · intro frame n hok
    obtain ⟨h, rest, hframe, hreserved, hpinned⟩ := exists_header_of_ok hok
    exact ⟨h.contentSize.pinned_lt hpinned, h, rest, hframe, hreserved, hpinned⟩

end V5
