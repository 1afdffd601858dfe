import Mcfreeze.V5.Block

/-!
# Packing records into blocks

Scanning a sealed block gives back the records it was sealed with.  The assembler cuts the
sequence of records it is given into consecutive non-empty parts, seals each part into a
block, and keeps the fence of each part's first record.
-/

open Format

namespace V5

open Bytes

/-! ### Sealed blocks -/

/-- The bytes of a sequence of records. -/
def encodeAll (rs : List Record) : Bytes :=
  (rs.map Record.encode).flatten

/-- The sealed block that holds a sequence of records. -/
def sealedBlock (H : Hash) (blockSize : Nat) (rs : List Record) : Bytes :=
  BlockAssembler.cut H ⟨blockSize, encodeAll rs, []⟩

/-- The records fit their fields and, together, a block. -/
structure FitsBlock (blockSize : Nat) (rs : List Record) : Prop where
  fits : ∀ r ∈ rs, r.Fits
  size : (encodeAll rs).length + checksumLen ≤ blockSize

theorem length_encodeAll_mod (rs : List Record) :
  (encodeAll rs).length % 8 = 0
  := by
  induction rs with
  | nil => rfl
  | cons r rs ih =>
    have hr := length_encode_mod r
    simp only [encodeAll, List.map_cons, List.flatten_cons, List.length_append] at ih ⊢
    omega

theorem length_le_encodeAll (rs : List Record) :
  rs.length ≤ (encodeAll rs).length
  := by
  induction rs with
  | nil => apply Nat.zero_le
  | cons r rs ih =>
    have hr := List.length_pos_of_ne_nil (encode_ne_nil r)
    simp only [encodeAll, List.map_cons, List.flatten_cons, List.length_append,
      List.length_cons] at ih ⊢
    omega

theorem resize_of_le {b : Bytes} {n : Nat} (h : b.length ≤ n) :
  resize b n = b ++ List.replicate (n - b.length) 0
  := by
  rw [resize, List.take_of_length_le h]

variable {H : Hash} {blockSize : Nat} {rs : List Record}

theorem FitsBlock.resize_eq (h : FitsBlock blockSize rs) :
  resize (encodeAll rs) (blockSize - checksumLen)
    = encodeAll rs
      ++ List.replicate (blockSize - checksumLen - (encodeAll rs).length) 0
  := by
  have hsize := h.size
  apply resize_of_le
  omega

theorem FitsBlock.length_body (h : FitsBlock blockSize rs) :
  (resize (encodeAll rs) (blockSize - checksumLen)).length = blockSize - checksumLen
  := by
  have hsize := h.size
  rw [h.resize_eq, List.length_append, List.length_replicate]
  omega

theorem FitsBlock.length_sealedBlock (h : FitsBlock blockSize rs) :
  (sealedBlock H blockSize rs).length = blockSize
  := by
  have hsize := h.size
  have hbody := h.length_body
  rw [sealedBlock, BlockAssembler.cut, List.length_append, length_leBytes, hbody]
  simp only [checksumLen] at hsize ⊢
  omega

theorem FitsBlock.verify_sealedBlock (h : FitsBlock blockSize rs) :
  verify H (sealedBlock H blockSize rs) = .ok ()
  := by
  have hbody := h.length_body
  have hlen := h.length_sealedBlock (H := H)
  have hsize := h.size
  rw [verify, hlen, if_neg (by omega)]
  simp only [sealedBlock, BlockAssembler.cut, List.take_left' hbody, List.drop_left' hbody]
  rw [leNat_leBytes_of_lt (checksum32 H _).toNat_lt, if_neg (by simp)]

/-- Scanning a sealed block gives back its records. -/
theorem FitsBlock.records_sealedBlock (h : FitsBlock blockSize rs) :
  records (sealedBlock H blockSize rs) = rs.map .ok
  := by
  have hlen := h.length_sealedBlock (H := H)
  have hrs := length_le_encodeAll rs
  have hsize := h.size
  have hscan := recordsFrom_encode rs h.fits
    (leBytes 4 (checksum32 H (resize (encodeAll rs) (blockSize - checksumLen))).toNat)
    (blockSize - checksumLen - (encodeAll rs).length) (length_leBytes 4 _) []
    (blockSize + 1) rfl (by omega)
  rw [records, hlen, ← hscan]
  simp only [sealedBlock, BlockAssembler.cut, List.length_nil, List.nil_append]
  rw [h.resize_eq, List.append_assoc]
  rfl

theorem findIn_map_ok (vfp : UInt64) (rs : List Record) :
  findIn vfp (rs.map .ok) = .ok (rs.find? fun r => r.vfp = vfp)
  := by
  induction rs with
  | nil => rfl
  | cons r rs ih =>
    rw [List.map_cons, findIn, List.find?_cons]
    by_cases h : r.vfp = vfp
    · simp [h]
    · simp [h, ih]

theorem FitsBlock.find_sealedBlock (h : FitsBlock blockSize rs) (vfp : UInt64) :
  find H (sealedBlock H blockSize rs) vfp = .ok (rs.find? fun r => r.vfp = vfp)
  := by
  rw [find, h.verify_sealedBlock, h.records_sealedBlock, ← findIn_map_ok]

/-! ### Packing -/

/-- A record with the fingerprint it is sorted by. -/
abbrev Entry := UInt64 × Record

/-- The fence of a block: that of its first record. -/
def headFence : List Entry → UInt32
  | [] => 0
  | e :: _ => fenceOf e.1

/-- What the assembler has done so far: the blocks `parts` are sealed, and the records of
`cur` fill the current one. -/
structure Packed (H : Hash) (asm : BlockAssembler) (sealed : List Bytes)
    (parts : List (List Entry)) (cur : List Entry) : Prop where
  buf : asm.buf = encodeAll (cur.map Prod.snd)
  fences : asm.fences = parts.map headFence ++ (if cur = [] then [] else [headFence cur])
  sealed : sealed = parts.map fun p => sealedBlock H asm.blockSize (p.map Prod.snd)
  nonempty : ∀ p ∈ parts, p ≠ []
  fits : ∀ p ∈ parts, FitsBlock asm.blockSize (p.map Prod.snd)
  curFits : FitsBlock asm.blockSize (cur.map Prod.snd)

/-- A new assembler has no records. -/
theorem packed_new {asm : BlockAssembler} (h : BlockAssembler.new blockSize = .ok asm) :
  Packed H asm [] [] [] ∧ asm.blockSize = blockSize
  := by
  rw [BlockAssembler.new] at h
  split at h
  · next hsize =>
    obtain rfl := Except.ok.inj h
    refine ⟨⟨rfl, rfl, rfl, by simp, by simp, ⟨by simp, ?_⟩⟩, rfl⟩
    have hle := hsize.2
    simp only [encodeAll, List.map_nil, List.flatten_nil, List.length_nil]
    omega
  · simp at h

/-- Completing a header with its payload appends the encoding of the record. -/
theorem resize_header {buf : Bytes} (r : Record) (h : buf.length % 8 = 0) :
  resize (buf ++ leBytes 8 r.vfp.toNat ++ leBytes 4 r.lengthFlags ++ r.payload)
      (align8 (buf ++ leBytes 8 r.vfp.toNat ++ leBytes 4 r.lengthFlags ++ r.payload).length)
    = buf ++ r.encode
  := by
  have hsplit : buf ++ leBytes 8 r.vfp.toNat ++ leBytes 4 r.lengthFlags ++ r.payload
      = buf ++ r.unpadded := by
    simp only [Record.unpadded, List.append_assoc]
  rw [hsplit, List.length_append, align8_add h, resize_of_le]
  · rw [Record.encode, List.append_assoc, List.length_append, length_unpadded, ← encodedLen]
    congr 3
    omega
  · rw [List.length_append]
    apply Nat.add_le_add_left
    apply le_align8

/-- A record is appended to the current block if it fits there, and starts a new block
otherwise. -/
theorem pushHeader_spec {asm asm₁ : BlockAssembler} {fp : UInt64} {r : Record}
    {sealed : Option Bytes} (hmod : asm.buf.length % 8 = 0)
    (h : asm.pushHeader H fp r.vfp r.payload.length r.lengthFlags = .ok (sealed, asm₁)) :
  r.vfp ≠ 0 ∧ r.encode.length + checksumLen ≤ asm.blockSize ∧
    (asm.buf.length + r.encode.length + checksumLen ≤ asm.blockSize ∧ sealed = none ∧
        asm₁.pushPayload r.payload = { asm with
          buf := asm.buf ++ r.encode
          fences := if asm.buf = [] then asm.fences ++ [fenceOf fp] else asm.fences }
      ∨ asm.buf ≠ [] ∧ sealed = some (asm.cut H) ∧
        asm₁.pushPayload r.payload = { asm with
          buf := r.encode
          fences := asm.fences ++ [fenceOf fp] })
  := by
  simp only [BlockAssembler.pushHeader] at h
  split at h
  · simp at h
  · next hvfp =>
    split at h
    · simp at h
    · next hcap =>
      rw [← length_encode] at hcap
      have hpos := List.length_pos_of_ne_nil (encode_ne_nil r)
      obtain ⟨rfl, rfl⟩ := Prod.mk.inj (Except.ok.inj h)
      refine ⟨hvfp, by omega, ?_⟩
      rw [← length_encode]
      by_cases hfull : asm.blockSize - checksumLen < asm.buf.length + r.encode.length
      · right
        refine ⟨?_, ?_⟩
        · intro hnil
          simp only [hnil, List.length_nil] at hfull
          omega
        · have hnil := @resize_header [] r rfl
          simp only [if_pos hfull, BlockAssembler.pushPayload, hnil]
          simp
      · left
        refine ⟨by omega, ?_⟩
        simp only [if_neg hfull, BlockAssembler.pushPayload, resize_header r hmod]
        simp

theorem encodeAll_append (rs : List Record) (r : Record) :
  encodeAll (rs ++ [r]) = encodeAll rs ++ r.encode
  := by
  simp [encodeAll]

theorem encodeAll_eq_nil_iff (rs : List Record) :
  encodeAll rs = [] ↔ rs = []
  := by
  constructor
  · intro h
    have hle := length_le_encodeAll rs
    rw [h, List.length_nil, Nat.le_zero] at hle
    apply List.eq_nil_of_length_eq_zero hle
  · rintro rfl
    rfl

/-- One more record: the sealed blocks and the current one hold the records so far,
followed by the new one. -/
theorem Packed.push {asm asm₁ : BlockAssembler} {blocks : List Bytes}
    {parts : List (List Entry)} {cur : List Entry} {fp : UInt64} {r : Record}
    {sealed : Option Bytes} (hp : Packed H asm blocks parts cur) (hfits : r.vfp ≠ 0 → r.Fits)
    (h : asm.pushHeader H fp r.vfp r.payload.length r.lengthFlags = .ok (sealed, asm₁)) :
  ∃ parts' cur', Packed H (asm₁.pushPayload r.payload) (blocks ++ sealed.toList) parts' cur'
    ∧ parts'.flatten ++ cur' = (parts.flatten ++ cur) ++ [(fp, r)]
    ∧ (asm₁.pushPayload r.payload).blockSize = asm.blockSize
  := by
  have hmod : asm.buf.length % 8 = 0 := by
    rw [hp.buf]
    apply length_encodeAll_mod
  have hnil : asm.buf = [] ↔ cur = [] := by
    rw [hp.buf, encodeAll_eq_nil_iff, List.map_eq_nil_iff]
  obtain ⟨hvfp, hone, ⟨hsize, rfl, hasm⟩ | ⟨hfull, rfl, hasm⟩⟩ :=
    pushHeader_spec hmod h
  all_goals have hr := hfits hvfp
  · rw [hasm]
    refine ⟨parts, cur ++ [(fp, r)], ?_, by simp, rfl⟩
    constructor
    · simp only [List.map_append, List.map_cons, List.map_nil, encodeAll_append, hp.buf]
    · simp only [hnil, hp.fences]
      cases cur with
      | nil => simp [headFence]
      | cons e cur => simp [headFence]
    · simp only [Option.toList_none, List.append_nil, hp.sealed]
    · apply hp.nonempty
    · apply hp.fits
    · constructor
      · intro r' hr'
        simp only [List.map_append, List.map_cons, List.map_nil, List.mem_append,
          List.mem_singleton] at hr'
        rcases hr' with hr' | rfl
        · apply hp.curFits.fits r' hr'
        · apply hr
      · simp only [List.map_append, List.map_cons, List.map_nil, encodeAll_append,
          List.length_append, ← hp.buf]
        apply hsize
  · rw [hasm]
    have hcur : cur ≠ [] := by
      intro hcur
      apply hfull (hnil.mpr hcur)
    refine ⟨parts ++ [cur], [(fp, r)], ?_, by simp, rfl⟩
    constructor
    · simp [encodeAll]
    · simp [hp.fences, hcur, headFence]
    · simp only [hp.sealed, List.map_append, List.map_cons, List.map_nil, Option.toList_some,
        sealedBlock, BlockAssembler.cut, hp.buf]
    · intro p hmem
      rcases List.mem_append.mp hmem with hmem | hmem
      · apply hp.nonempty p hmem
      · rw [List.mem_singleton.mp hmem]
        apply hcur
    · intro p hmem
      rcases List.mem_append.mp hmem with hmem | hmem
      · apply hp.fits p hmem
      · rw [List.mem_singleton.mp hmem]
        apply hp.curFits
    · constructor
      · simpa using hr
      · simpa [encodeAll] using hone

/-- A value is added to the records, behind those that are there. -/
theorem Packed.pushInline {asm asm' : BlockAssembler} {blocks : List Bytes}
    {parts : List (List Entry)} {cur : List Entry} {fp vfp : UInt64} {stored : Bytes}
    {compressed : Bool} {sealed : Option Bytes} (hp : Packed H asm blocks parts cur)
    (h : asm.pushInline H fp vfp stored compressed = .ok (sealed, asm')) :
  ∃ parts' cur', Packed H asm' (blocks ++ sealed.toList) parts' cur'
    ∧ parts'.flatten ++ cur' = (parts.flatten ++ cur) ++ [(fp, .inline vfp stored compressed)]
    ∧ asm'.blockSize = asm.blockSize
  := by
  rw [BlockAssembler.pushInline] at h
  split at h
  · simp at h
  · next hmax =>
    dsimp only at h
    split at h
    · simp at h
    · next sealed₁ asm₁ hpush =>
      obtain ⟨rfl, rfl⟩ := Prod.mk.inj (Except.ok.inj h)
      have hfits : (Record.inline vfp stored compressed).vfp ≠ 0 →
          (Record.inline vfp stored compressed).Fits :=
        fun hvfp => ⟨hvfp, Nat.not_lt.mp hmax⟩
      apply hp.push hfits hpush

/-- A stub is added to the records, behind those that are there. -/
theorem Packed.pushStub {asm asm' : BlockAssembler} {blocks : List Bytes}
    {parts : List (List Entry)} {cur : List Entry} {fp vfp : UInt64} {st : Stub}
    {compressed : Bool} {sealed : Option Bytes} (hp : Packed H asm blocks parts cur)
    (hoffset : st.heapOffset < 2 ^ 64)
    (h : asm.pushStub H fp vfp st compressed = .ok (sealed, asm')) :
  ∃ parts' cur', Packed H asm' (blocks ++ sealed.toList) parts' cur'
    ∧ parts'.flatten ++ cur' = (parts.flatten ++ cur) ++ [(fp, .stub vfp st compressed)]
    ∧ asm'.blockSize = asm.blockSize
  := by
  rw [BlockAssembler.pushStub] at h
  split at h
  · simp at h
  · next hmax =>
    dsimp only at h
    split at h
    · simp at h
    · next sealed₁ asm₁ hpush =>
      obtain ⟨rfl, rfl⟩ := Prod.mk.inj (Except.ok.inj h)
      have hfits : (Record.stub vfp st compressed).vfp ≠ 0 →
          (Record.stub vfp st compressed).Fits :=
        fun hvfp => ⟨hvfp, Nat.not_lt.mp hmax, hoffset⟩
      have hlen : (Record.stub vfp st compressed).payload.length = stubPayloadLen := by
        simp [Record.payload, stubPayloadLen]
      rw [← hlen] at hpush
      apply hp.push hfits hpush

/-- The blocks and fences of a sequence of entries: the entries are cut into consecutive
non-empty parts, and each part is sealed into a block. -/
def Blocks (H : Hash) (blockSize : Nat) (entries : List Entry) (blocks : List Bytes)
    (fences : List UInt32) : Prop :=
  ∃ parts : List (List Entry), parts.flatten = entries ∧ (∀ p ∈ parts, p ≠ [])
    ∧ (∀ p ∈ parts, FitsBlock blockSize (p.map Prod.snd))
    ∧ blocks = parts.map (fun p => sealedBlock H blockSize (p.map Prod.snd))
    ∧ fences = parts.map headFence

/-- The end seals the last block. -/
theorem Packed.finish {asm : BlockAssembler} {blocks : List Bytes} {parts : List (List Entry)}
    {cur : List Entry} (hp : Packed H asm blocks parts cur) :
  Blocks H asm.blockSize (parts.flatten ++ cur) (blocks ++ (asm.finish H).1.toList)
    (asm.finish H).2
  := by
  have hnil : asm.buf = [] ↔ cur = [] := by
    rw [hp.buf, encodeAll_eq_nil_iff, List.map_eq_nil_iff]
  by_cases hcur : cur = []
  · refine ⟨parts, by simp [hcur], hp.nonempty, hp.fits, ?_, ?_⟩
    · simp [BlockAssembler.finish, hnil, hcur, hp.sealed]
    · simp [BlockAssembler.finish, hp.fences, hcur]
  · refine ⟨parts ++ [cur], by simp, ?_, ?_, ?_, ?_⟩
    · intro p hmem
      rcases List.mem_append.mp hmem with hmem | hmem
      · apply hp.nonempty p hmem
      · rw [List.mem_singleton.mp hmem]
        apply hcur
    · intro p hmem
      rcases List.mem_append.mp hmem with hmem | hmem
      · apply hp.fits p hmem
      · rw [List.mem_singleton.mp hmem]
        apply hp.curFits
    · simp only [BlockAssembler.finish, if_neg (mt hnil.mp hcur)]
      simp [hp.sealed, sealedBlock, BlockAssembler.cut, hp.buf]
    · simp [BlockAssembler.finish, hp.fences, hcur]

end V5
