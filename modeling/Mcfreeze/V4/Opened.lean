import Mcfreeze.V4.Builder

/-!
# Lookups in a V4 snapshot that opens

`write_unified_index` (`v4/index.rs`) and `SnapshotReader` (`v4/reader.rs`) agree: every
partition of a snapshot that was written gets its own table back.

`SnapshotReader::open` itself checks only that the files are there.  So a lookup in a
directory that opens, whatever it holds, panics exactly if the range of the partition is not
in the index file or not aligned, or the lookup comes to a record of the key whose length
with the padding does not fit 32 bits.
-/

open Format Crash Files

namespace V4

open Bytes V4Builder

/-! ### The tables in the index file -/

section

variable {tables : List (List Bucket)} {file : Bytes} {i j : Nat}

/-- Tables are appended behind what is there. -/
theorem appendTables_start {offset : Nat} (hoffset : (appendTables tables file).2.1[i]? = some offset) :
  file.length ≤ offset
  := by
  induction tables generalizing file i with
  | nil => simp [appendTables] at hoffset
  | cons t tables ih =>
    rw [appendTables] at hoffset
    cases i with
    | zero =>
      obtain rfl : file.length = offset := by simpa using hoffset
      apply Nat.le_refl
    | succ i =>
      rw [List.getElem?_cons_succ] at hoffset
      have hnext := ih hoffset
      have hpad := length_le_padIndex (file ++ encodeBuckets t) tables.isEmpty
      rw [List.length_append] at hpad
      omega

/-- A table ends before the next ones start. -/
theorem appendTables_disjoint {offset n offset' : Nat}
    (hoffset : (appendTables tables file).2.1[i]? = some offset)
    (hn : (appendTables tables file).2.2[i]? = some n)
    (hoffset' : (appendTables tables file).2.1[j]? = some offset') (hij : i < j) :
  offset + n * 8 ≤ offset'
  := by
  induction tables generalizing file i j with
  | nil => simp [appendTables] at hoffset
  | cons t tables ih =>
    rw [appendTables] at hoffset hn hoffset'
    obtain ⟨j, rfl⟩ : ∃ j', j = j' + 1 := ⟨j - 1, by omega⟩
    rw [List.getElem?_cons_succ] at hoffset'
    cases i with
    | zero =>
      obtain rfl : file.length = offset := by simpa using hoffset
      obtain rfl : t.length = n := by simpa using hn
      have hstart := appendTables_start hoffset'
      have hpad := length_le_padIndex (file ++ encodeBuckets t) tables.isEmpty
      rw [List.length_append, length_encodeBuckets] at hpad
      omega
    | succ i =>
      rw [List.getElem?_cons_succ] at hoffset hn
      apply ih hoffset hn hoffset'
      omega

/-- The entry of a table in the metadata. -/
theorem infoOf_entry {t : List Bucket} (ht : tables[i]? = some t) :
  ∃ offset, (infoOf tables).offsets[i]? = some offset ∧ (infoOf tables).nBuckets[i]? = some t.length
    ∧ offset % indexAlignment = 0 ∧ offset + t.length * 8 ≤ (appendTables tables []).1.length
    ∧ castBuckets (slice (appendTables tables []).1 offset (offset + t.length * 8)) t.length = t
  := by
  obtain ⟨hoffsets, hcounts⟩ := length_appendTables tables []
  have hi : i < tables.length := (List.getElem?_eq_some_iff.mp ht).1
  obtain ⟨offset, hoffset⟩ : ∃ offset, (infoOf tables).offsets[i]? = some offset :=
    ⟨_, List.getElem?_eq_getElem (by simp only [infoOf]; omega)⟩
  obtain ⟨n, hn⟩ : ∃ n, (infoOf tables).nBuckets[i]? = some n :=
    ⟨_, List.getElem?_eq_getElem (by simp only [infoOf]; omega)⟩
  obtain ⟨t', ht', hle, hcast⟩ := appendTables_table hoffset hn
  obtain rfl := Option.some.inj (ht.symm.trans ht')
  have hlength : t.length = n := by
    rw [← hcast, castBuckets, List.length_map, List.length_range]
  rw [← hlength] at hn hle hcast
  exact ⟨offset, hoffset, hn, appendTables_aligned rfl hoffset, hle, hcast⟩

end

/-! ### What opening checks -/

section

variable {d : Dir} {m : Meta} {r : SnapshotReader} {key : Bytes} {H : Hash}

/-- The data files and ranges that are opened. -/
theorem openDataFiles_spec {n k : Nat} {pms : List PartitionMeta} {files : List Bytes}
    {ranges : List (Nat × Nat)} (h : openDataFiles n d k pms = .ok (files, ranges)) :
  ∀ (i : Nat) (pm : PartitionMeta), pms[i]? = some pm →
    ranges[i]? = some (pm.indexOffset, pm.indexNBuckets)
      ∧ ∃ data, files[i]? = some data ∧ (d.part (partitionDir n (k + i))).data = some data
  := by
  induction pms generalizing k files ranges with
  | nil => simp
  | cons pm pms ih =>
    rw [openDataFiles] at h
    split at h
    · simp at h
    · next data hdata =>
      split at h
      · simp at h
      · next files' ranges' hrest =>
        obtain ⟨rfl, rfl⟩ := Prod.mk.inj (Except.ok.inj h)
        intro i pm' hpm'
        cases i with
        | zero =>
          obtain rfl : pm = pm' := by simpa using hpm'
          exact ⟨rfl, data, rfl, hdata⟩
        | succ i =>
          rw [List.getElem?_cons_succ] at hpm'
          obtain ⟨hrange, data', hfile, hdata'⟩ := ih hrest i pm' hpm'
          refine ⟨by simpa using hrange, data', by simpa using hfile, ?_⟩
          rw [← hdata']
          congr 3
          omega

/-- What is known of a snapshot that opens. -/
structure Opened (d : Dir) (m : Meta) (r : SnapshotReader) : Prop where
  layout : m.layout = .ok r.layout
  verifySeed : r.verifySeed = m.verifySeed
  indexAll : d.indexAll = some r.indexMmap
  indexLen : r.indexMmap.length ≤ maxFileLen
  partitions : ∀ (i : Nat) (pm : PartitionMeta), m.partitions[i]? = some pm →
    r.ranges[i]? = some (pm.indexOffset, pm.indexNBuckets)
      ∧ ∃ data, r.dataFiles[i]? = some data
        ∧ (d.part (partitionDir r.layout.nPartitions i)).data = some data

/-- What the checks of `open` ensure. -/
theorem opened_of_open (h : SnapshotReader.open d m = .ok r) :
  Opened d m r
  := by
  rw [SnapshotReader.open] at h
  split at h
  · simp at h
  · next layout hlayout =>
    split at h
    · simp at h
    · next index hindex =>
      split at h
      · simp at h
      · next hlen =>
        split at h
        · simp at h
        · next files ranges hopen =>
          obtain rfl := Except.ok.inj h
          refine ⟨hlayout, rfl, hindex, Nat.not_lt.mp hlen, ?_⟩
          intro i pm hpm
          obtain ⟨hrange, data, hfile, hdata⟩ := openDataFiles_spec hopen i pm hpm
          rw [Nat.zero_add] at hdata
          exact ⟨hrange, data, hfile, hdata⟩

/-- The partition of every key is in the metadata. -/
theorem Opened.partition_of_key (h : Opened d m r) (fp : UInt64) :
  ∃ pm, m.partitions[r.layout.partitionOf fp]? = some pm
  := by
  have hlayout := h.layout
  rw [Meta.layout] at hlayout
  split at hlayout
  · simp at hlayout
  · have hcount := Layout.new_eq_ok hlayout
    have hlt := r.layout.partitionOf_lt fp
    have hle := Nat.mod_le m.partitions.length (2 ^ 32)
    exact ⟨_, List.getElem?_eq_getElem (by omega)⟩

end

/-! ### The index file gives every table back -/

/-- After the index file is written, every table is at its offset: aligned, in the file, apart
from the others, and it is what the partition of an opened snapshot gets. -/
theorem written_index_gives_back {S : Type} {R : Phases S Dir} {tables : List (List Bucket)}
    {d d' : Dir} {info : UnifiedIndexInfo}
    (hrun : Prog.Steps (phases R) (writeUnifiedIndex tables) d (.done (.ok info)) d') :
  ∃ file, d'.indexAll = some file
    ∧ info.offsets.length = tables.length ∧ info.nBuckets.length = tables.length
    ∧ (∀ (i : Nat) (t : List Bucket), tables[i]? = some t →
      ∃ offset, info.offsets[i]? = some offset ∧ info.nBuckets[i]? = some t.length
        ∧ offset % indexAlignment = 0 ∧ offset + t.length * 8 ≤ file.length
        ∧ castBuckets (slice file offset (offset + t.length * 8)) t.length = t)
    ∧ (∀ (i j offset n offset' : Nat), i < j → info.offsets[i]? = some offset →
      info.nBuckets[i]? = some n → info.offsets[j]? = some offset' → offset + n * 8 ≤ offset')
    ∧ ∀ (seed : UInt64) (d'' : Dir) (r : SnapshotReader), d''.indexAll = some file →
      SnapshotReader.open d'' (metaOf seed info) = .ok r →
      ∀ (i : Nat) (t : List Bucket), tables[i]? = some t →
        ∃ data, (d''.part (partitionDir r.layout.nPartitions i)).data = some data
          ∧ r.partition i = .ok (t, data)
  := by
  have hwritten := wp_steps (wp_writeUnifiedIndex (I := fun _ => True) trivial fun _ => trivial) hrun
  obtain ⟨-, rfl, rfl, -⟩ := hwritten
  obtain ⟨hoffsets, hcounts⟩ := length_appendTables tables []
  refine ⟨(appendTables tables []).1, rfl, hoffsets, hcounts, ?_, ?_, ?_⟩
  · intro i t ht
    apply infoOf_entry ht
  · intro i j offset n offset' hij hoffset hn hoffset'
    apply appendTables_disjoint hoffset hn hoffset' hij
  · intro seed d'' r hindex hopen i t ht
    obtain ⟨offset, hoffset, hn, halign, hle, hcast⟩ := infoOf_entry ht
    have hopened := opened_of_open hopen
    have hmmap : r.indexMmap = (appendTables tables []).1 :=
      Option.some.inj (hopened.indexAll.symm.trans hindex)
    have hpm : (metaOf seed (infoOf tables)).partitions[i]? = some ⟨offset, t.length⟩ := by
      rw [metaOf, List.getElem?_zipWith_eq_some]
      exact ⟨offset, t.length, hoffset, hn, rfl⟩
    obtain ⟨hrange, data, hfile, hdata⟩ := hopened.partitions i _ hpm
    refine ⟨data, hdata, ?_⟩
    have halign' : offset % bucketAlign = 0 := by
      simp only [indexAlignment, bucketAlign] at halign ⊢
      omega
    rw [SnapshotReader.partition_eq hopened.indexLen hrange hfile (by rwa [hmmap]) halign', hmmap,
      hcast]

/-- An empty table and one with a bucket. -/
def twoTables : List (List Bucket) := [[], [⟨1, 2⟩]]

/-- The index file of the two tables. -/
def twoIndexed : Option (Except Error UnifiedIndexInfo × Dir) :=
  (writeUnifiedIndex twoTables).exec partDirs Prog.noPhases 1 Dir.empty

theorem written_index_gives_back_two :
  ∃ info d file, twoIndexed = some (.ok info, d) ∧ d.indexAll = some file
    ∧ info = ⟨[0, 0], [0, 1]⟩ ∧ castBuckets (slice file 0 8) 1 = [⟨1, 2⟩]
  := by
  have hok : twoIndexed.map Prod.fst = some (.ok ⟨[0, 0], [0, 1]⟩) := by decide +kernel
  obtain ⟨⟨_, d⟩, hrun, rfl⟩ := Option.map_eq_some_iff.mp hok
  obtain ⟨file, hfile, -, -, htables, -, -⟩ :=
    written_index_gives_back (Prog.steps_of_exec (Prog.noPhases_schedules (.none Dir)) hrun)
  refine ⟨_, d, file, hrun, hfile, rfl, ?_⟩
  obtain ⟨offset, hoffset, -, -, -, hcast⟩ := htables 1 [⟨1, 2⟩] rfl
  obtain rfl := Option.some.inj hoffset
  apply hcast

/-! ### Records that are not read -/

/-- What the first read of a lookup gets: the bytes up to the end of the page. -/
def firstRead (file : Bytes) (offset : Nat) : Bytes :=
  preadUpTo file offset (pageSize - offset % pageSize)

/-- The verify fingerprint in the header. -/
def storedVfp (file : Bytes) (offset : Nat) : UInt64 :=
  UInt64.ofNat (leNat (slice (firstRead file offset) 0 8))

/-- The length in the header. -/
def storedLen (file : Bytes) (offset : Nat) : Nat :=
  leNat (slice (firstRead file offset) 8 12)

/-- The record is skipped: it has another fingerprint, or its size does not fit 32 bits. -/
structure Skipped (file : Bytes) (offset : Nat) (expected : UInt64) : Prop where
  header : valueHeaderSize ≤ (firstRead file offset).length
  other : storedVfp file offset ≠ expected ∨ 2 ^ 32 ≤ valueHeaderSize + storedLen file offset

/-- The record has the fingerprint, and its size fits 32 bits, but not with the padding. -/
structure Oversized (file : Bytes) (offset : Nat) (expected : UInt64) : Prop where
  header : valueHeaderSize ≤ (firstRead file offset).length
  vfp : storedVfp file offset = expected
  fits : valueHeaderSize + storedLen file offset < 2 ^ 32
  padded : 2 ^ 32 < valueHeaderSize + storedLen file offset + valueAlignment

section

variable {file data : Bytes} {offset : Nat} {expected : UInt64} {offsets : List UInt32}

theorem length_firstRead (file : Bytes) (offset : Nat) :
  (firstRead file offset).length ≤ pageSize
  := by
  rw [firstRead, preadUpTo, slice, List.length_take]
  omega

/-- A read by cases: the header, the fingerprint, and whether the first read has all of the
value. -/
theorem readAndVerify_eq (file : Bytes) (offset : Nat) (expected : UInt64) :
  readAndVerify file offset expected
    = if (firstRead file offset).length < valueHeaderSize then
        .error (.io "short read: value header truncated")
      else if storedVfp file offset ≠ expected then .ok none
      else if valueHeaderSize + storedLen file offset ≤ (firstRead file offset).length then
        .ok (some (slice (firstRead file offset) valueHeaderSize
          (valueHeaderSize + storedLen file offset)))
      else if 2 ^ 32 ≤ valueHeaderSize + storedLen file offset then .ok none
      else
        match pread file offset (alignedSize (valueHeaderSize + storedLen file offset) % 2 ^ 32) with
        | .error e => .error e
        | .ok raw =>
          if raw.length < valueHeaderSize + storedLen file offset then
            .error (.panic "range end index out of range")
          else .ok (some (slice raw valueHeaderSize (valueHeaderSize + storedLen file offset)))
  :=
  rfl

theorem readAndVerify_skipped (h : Skipped file offset expected) :
  readAndVerify file offset expected = .ok none
  := by
  have hpage := length_firstRead file offset
  simp only [pageSize] at hpage
  rw [readAndVerify_eq, if_neg (Nat.not_lt.mpr h.header)]
  rcases h.other with hvfp | hlarge
  · rw [if_pos hvfp]
  · rw [if_neg (by omega : ¬ valueHeaderSize + storedLen file offset ≤ _), if_pos hlarge, ite_self]

/-- A value whose size fits 32 bits only without its padding makes the reader panic. -/
theorem readAndVerify_oversized (h : Oversized file offset expected) :
  readAndVerify file offset expected = .error (.panic "range end index out of range")
  := by
  have hpage := length_firstRead file offset
  have hheader := h.header
  have hfits := h.fits
  have hpadded := h.padded
  have hin : offset ≤ file.length := by
    by_contra hout
    rw [firstRead, preadUpTo, slice, List.drop_eq_nil_of_le (by omega)] at hheader
    simp [valueHeaderSize] at hheader
  simp only [pageSize, valueHeaderSize, valueAlignment] at hpage hfits hpadded
  have hzero : alignedSize (valueHeaderSize + storedLen file offset) % 2 ^ 32 = 0 := by
    simp only [alignedSize, valueHeaderSize, valueAlignment]
    omega
  have hread : pread file offset 0 = .ok [] := by
    rw [pread, if_neg (by omega)]
    simp [slice]
  rw [readAndVerify_eq, if_neg (Nat.not_lt.mpr h.header), if_neg (by simpa using h.vfp),
    if_neg (by simp only [valueHeaderSize]; omega), if_neg (by simp only [valueHeaderSize]; omega),
    hzero, hread]
  dsimp only
  rw [if_pos (by simp [valueHeaderSize])]

/-- A read that panics came to an oversized record, and one that finds nothing to a record
that is skipped. -/
theorem readAndVerify_inv (r : Except Error (Option Bytes))
    (h : readAndVerify file offset expected = r) :
  (∀ msg, r = .error (.panic msg) → Oversized file offset expected)
    ∧ (r = .ok none → Skipped file offset expected)
  := by
  rw [readAndVerify_eq] at h
  split at h
  · subst h
    simp
  · next hheader =>
    have hheader := Nat.not_lt.mp hheader
    split at h
    · next hvfp =>
      subst h
      exact ⟨by simp, fun _ => ⟨hheader, .inl hvfp⟩⟩
    · next hvfp =>
      split at h
      · subst h
        simp
      · split at h
        · next hlarge =>
          subst h
          exact ⟨by simp, fun _ => ⟨hheader, .inr hlarge⟩⟩
        · next hsmall =>
          have hsmall := Nat.not_le.mp hsmall
          rw [pread] at h
          split at h
          · next e he =>
            split at he
            · obtain rfl := Except.error.inj he
              subst h
              simp
            · simp at he
          · next raw hraw =>
            split at hraw
            · simp at hraw
            · next hlen =>
              obtain rfl := Except.ok.inj hraw
              split at h
              · next hshort =>
                subst h
                refine ⟨fun _ _ => ⟨hheader, by simpa using hvfp, hsmall, ?_⟩, by simp⟩
                rw [slice, List.length_take, List.length_drop] at hshort
                simp only [alignedSize, valueHeaderSize, valueAlignment] at hshort hlen hsmall ⊢
                omega
              · subst h
                simp

/-- Reading offsets panics exactly if an oversized record comes before a record that ends the
search. -/
theorem tryOffsets_panics_iff (hoffsets : ∀ off ∈ offsets, off ≠ noMatch) :
  (∃ msg, tryOffsets data expected offsets = .error (.panic msg))
    ↔ ∃ before off after, offsets = before ++ off :: after
      ∧ (∀ o ∈ before, Skipped data (o.toNat * valueAlignment) expected)
      ∧ Oversized data (off.toNat * valueAlignment) expected
  := by
  induction offsets with
  | nil => simp [tryOffsets]
  | cons off offsets ih =>
    have ih := ih fun o ho => hoffsets o (List.mem_cons_of_mem _ ho)
    rw [tryOffsets, if_neg (hoffsets off List.mem_cons_self)]
    obtain ⟨hpanic, hnone⟩ := readAndVerify_inv _
      (rfl : readAndVerify data (off.toNat * valueAlignment) expected = _)
    constructor
    · rintro ⟨msg, h⟩
      split at h
      · next e he =>
        obtain rfl := Except.error.inj h
        exact ⟨[], off, offsets, rfl, by simp, hpanic msg he⟩
      · simp at h
      · next hskip =>
        obtain ⟨before, o, after, rfl, hbefore, ho⟩ := ih.mp ⟨msg, h⟩
        refine ⟨off :: before, o, after, rfl, ?_, ho⟩
        intro o' ho'
        rcases List.mem_cons.mp ho' with rfl | ho'
        · apply hnone hskip
        · apply hbefore o' ho'
    · rintro ⟨before, o, after, heq, hbefore, ho⟩
      cases before with
      | nil =>
        obtain ⟨rfl, rfl⟩ := List.cons.inj heq
        rw [readAndVerify_oversized ho]
        exact ⟨_, rfl⟩
      | cons o' before =>
        obtain ⟨rfl, rfl⟩ := List.cons.inj heq
        rw [readAndVerify_skipped (hbefore off List.mem_cons_self)]
        apply ih.mpr
        exact ⟨before, o, after, rfl, fun o' ho' => hbefore o' (List.mem_cons_of_mem _ ho'), ho⟩

end

/-! ### Lookups -/

/-- The buckets that the metadata gives for a partition; the size of the range is computed in
64 bits. -/
def tableAt (index : Bytes) (pm : PartitionMeta) : List Bucket :=
  castBuckets (slice index pm.indexOffset (pm.indexOffset + pm.indexNBuckets * 8 % 2 ^ 64))
    (pm.indexNBuckets * 8 % 2 ^ 64 / 8)

/-- What a lookup of the key relies on: the range of its partition is in the index file and
aligned, and among the records that it visits an oversized one comes only after one that is
not skipped. -/
structure Answerable (H : Hash) (seed : UInt64) (index data : Bytes) (pm : PartitionMeta)
    (key : Bytes) : Prop where
  range : pm.indexOffset + pm.indexNBuckets * 8 % 2 ^ 64 ≤ index.length
  aligned : pm.indexOffset % bucketAlign = 0
  records : ∀ before off after,
    visited (tableAt index pm) (compactFingerprint (fingerprint H key)) = before ++ off :: after →
    (∀ o ∈ before, Skipped data (o.toNat * valueAlignment) (verifyFingerprint H key seed)) →
    ¬ Oversized data (off.toNat * valueAlignment) (verifyFingerprint H key seed)

section

variable {d : Dir} {m : Meta} {r : SnapshotReader} {H : Hash} {key data : Bytes}
  {table : List Bucket} {cfp : UInt32} {expected : UInt64}

/-- No offset that is visited is that of an empty bucket. -/
theorem ne_noMatch_of_mem_visitedFrom {fuel pos steps : Nat} {off : UInt32}
    (h : off ∈ visitedFrom table cfp fuel pos steps) :
  off ≠ noMatch
  := by
  induction fuel generalizing pos steps with
  | zero => simp [visitedFrom] at h
  | succ fuel ih =>
    rw [visitedFrom] at h
    have hgroup : off ∈ (probeGroup table cfp pos).1.filter (· ≠ noMatch) → off ≠ noMatch := by
      intro hmem
      simpa using (List.mem_filter.mp hmem).2
    split at h
    · dsimp only at h
      split at h
      · apply hgroup h
      · rcases List.mem_append.mp h with h | h
        · apply hgroup h
        · apply ih h
    · simp at h

/-- A lookup in a table panics exactly if it comes to an oversized record. -/
theorem PartitionReader.get_panics_iff {seed fp : UInt64} :
  (∃ msg, PartitionReader.get H table data seed key fp = .error (.panic msg))
    ↔ ∃ before off after, visited table (compactFingerprint fp) = before ++ off :: after
      ∧ (∀ o ∈ before, Skipped data (o.toNat * valueAlignment) (verifyFingerprint H key seed))
      ∧ Oversized data (off.toNat * valueAlignment) (verifyFingerprint H key seed)
  := by
  have hne : ∀ off ∈ visited table (compactFingerprint fp), off ≠ noMatch :=
    fun off hoff => ne_noMatch_of_mem_visitedFrom hoff
  rw [← tryOffsets_panics_iff hne, PartitionReader.get_eq, answer]
  constructor
  · rintro ⟨msg, h⟩
    split at h
    · next e he => exact ⟨msg, by rw [he, Except.error.inj h]⟩
    · simp at h
    · simp at h
  · rintro ⟨msg, h⟩
    rw [h]
    exact ⟨msg, rfl⟩

/-- The loop is over after one round: more steps change nothing, whatever the table holds. -/
theorem getLoop_ends {fuel pos steps : Nat} {had : Bool} (k : Nat)
    (h : table.length ≤ steps + fuel * groupSize) :
  getLoop table data cfp expected (fuel + k) pos steps had
    = getLoop table data cfp expected fuel pos steps had
  := by
  induction fuel generalizing pos steps had with
  | zero =>
    rw [Nat.zero_mul, Nat.add_zero] at h
    cases k with
    | zero => rfl
    | succ k =>
      rw [Nat.zero_add]
      simp only [getLoop, Nat.not_lt.mpr h, if_false]
  | succ fuel ih =>
    rw [Nat.succ_mul] at h
    have hnext : ∀ had', getLoop table data cfp expected (fuel + k)
        ((pos + groupSize) % table.length) (steps + groupSize) had'
          = getLoop table data cfp expected fuel ((pos + groupSize) % table.length)
            (steps + groupSize) had' := by
      intro had'
      apply ih
      omega
    rw [Nat.succ_add, getLoop, getLoop]
    simp only [hnext]

/-- What the partition of an opened snapshot gets. -/
theorem partition_of_range {idx : Nat} {pm : PartitionMeta} (hlen : r.indexMmap.length ≤ maxFileLen)
    (hrange : r.ranges[idx]? = some (pm.indexOffset, pm.indexNBuckets))
    (hdata : r.dataFiles[idx]? = some data) :
  (pm.indexOffset + pm.indexNBuckets * 8 % 2 ^ 64 ≤ r.indexMmap.length →
      pm.indexOffset % bucketAlign = 0 → r.partition idx = .ok (tableAt r.indexMmap pm, data))
    ∧ (¬ (pm.indexOffset + pm.indexNBuckets * 8 % 2 ^ 64 ≤ r.indexMmap.length
      ∧ pm.indexOffset % bucketAlign = 0) → ∃ msg, r.partition idx = .error (.panic msg))
  := by
  simp only [maxFileLen] at hlen
  simp only [SnapshotReader.partition, hrange, hdata, tableAt]
  have hsize : pm.indexNBuckets * 8 % 2 ^ 64 < 2 ^ 64 := Nat.mod_lt _ (by decide)
  generalize pm.indexNBuckets * 8 % 2 ^ 64 = size at hsize ⊢
  constructor
  · intro hle halign
    have hstop : (pm.indexOffset + size) % 2 ^ 64 = pm.indexOffset + size := by omega
    rw [hstop, Nat.add_sub_cancel_left, if_neg (by omega), if_neg (by omega),
      if_neg (by simpa using halign)]
  · intro hnot
    split
    · exact ⟨_, rfl⟩
    · split
      · exact ⟨_, rfl⟩
      · next hstart hstop =>
        have hin : pm.indexOffset + size ≤ r.indexMmap.length := by omega
        rw [if_pos fun halign => hnot ⟨hin, halign⟩]
        exact ⟨_, rfl⟩

/-- A lookup in a snapshot that opens ends, and it panics exactly if the key is not
answerable. -/
theorem opened_lookup_answers_iff (hopen : SnapshotReader.open d m = .ok r) (H : Hash) (key : Bytes) :
  (∀ (table : List Bucket) (data : Bytes) (cfp : UInt32) (expected : UInt64) (pos k : Nat),
      getLoop table data cfp expected (table.length + k) pos 0 false
        = getLoop table data cfp expected table.length pos 0 false)
    ∧ ∃ pm index data, m.partitions[r.layout.partitionOf (fingerprint H key)]? = some pm
      ∧ d.indexAll = some index
      ∧ (d.part (partitionDir r.layout.nPartitions
        (r.layout.partitionOf (fingerprint H key)))).data = some data
      ∧ ((∀ msg, r.get H key ≠ .error (.panic msg)) ↔ Answerable H m.verifySeed index data pm key)
  := by
  constructor
  · intro table data cfp expected pos k
    apply getLoop_ends
    simp only [groupSize]
    omega
  · have h := opened_of_open hopen
    obtain ⟨pm, hpm⟩ := h.partition_of_key (fingerprint H key)
    obtain ⟨hrange, data, hfile, hdata⟩ := h.partitions _ pm hpm
    refine ⟨pm, r.indexMmap, data, hpm, h.indexAll, hdata, ?_⟩
    obtain ⟨hin, hout⟩ := partition_of_range h.indexLen hrange hfile
    simp only [SnapshotReader.get]
    constructor
    · intro hno
      by_cases hfits : pm.indexOffset + pm.indexNBuckets * 8 % 2 ^ 64 ≤ r.indexMmap.length
          ∧ pm.indexOffset % bucketAlign = 0
      · refine ⟨hfits.1, hfits.2, ?_⟩
        intro before off after hvisited hbefore hover
        rw [hin hfits.1 hfits.2, h.verifySeed] at hno
        obtain ⟨msg, hpanic⟩ := PartitionReader.get_panics_iff.mpr
          ⟨before, off, after, hvisited, hbefore, hover⟩
        apply hno msg hpanic
      · obtain ⟨msg, hpanic⟩ := hout hfits
        rw [hpanic] at hno
        exact absurd rfl (hno msg)
    · intro hans msg hpanic
      rw [hin hans.range hans.aligned, h.verifySeed] at hpanic
      obtain ⟨before, off, after, hvisited, hbefore, hover⟩ :=
        PartitionReader.get_panics_iff.mp ⟨msg, hpanic⟩
      apply hans.records before off after hvisited hbefore hover

end

/-- Metadata of one partition with the given number of buckets. -/
def bareMeta (nBuckets : Nat) : Meta :=
  ⟨V4.formatVersion, Format.hashAlgorithm, defaultVerifySeed, [⟨0, nBuckets⟩]⟩

/-- Two buckets with the compact fingerprint of one key. -/
def twinBuckets : List Bucket :=
  [⟨compactFingerprint (fingerprint xxHash [0x6b, 0x65, 0x79]), 0⟩,
    ⟨compactFingerprint (fingerprint xxHash [0x6b, 0x65, 0x79]), 1⟩]

/-- The buckets with their records: the first is of another key, the second is the key's. -/
def twinDir : Dir :=
  { Dir.empty with
    indexAll := some (encodeBuckets twinBuckets)
    part := fun _ => ⟨some (encodeValues xxHash defaultVerifySeed (([0x6b], [1]) :: onePair)), none⟩ }

/-- The lookup comes to both records, and is answered. -/
theorem opened_lookup_answers_twin :
  ∃ r, SnapshotReader.open twinDir (bareMeta 2) = .ok r
    ∧ (visited (tableAt r.indexMmap ⟨0, 2⟩)
      (compactFingerprint (fingerprint xxHash [0x6b, 0x65, 0x79]))).take 2 = [0, 1]
    ∧ ∀ msg, r.get xxHash [0x6b, 0x65, 0x79] ≠ .error (.panic msg)
  := by
  have hopen : SnapshotReader.open twinDir (bareMeta 2)
      = .ok ⟨.one, defaultVerifySeed, encodeBuckets twinBuckets,
        [encodeValues xxHash defaultVerifySeed (([0x6b], [1]) :: onePair)], [(0, 2)]⟩ := by
    rfl
  refine ⟨_, hopen, by decide +kernel, ?_⟩
  obtain ⟨-, pm, index, data, hpm, hindex, hdata, hiff⟩ :=
    opened_lookup_answers_iff hopen xxHash [0x6b, 0x65, 0x79]
  apply hiff.mpr
  obtain rfl := Option.some.inj hindex
  obtain rfl := Option.some.inj hdata
  obtain rfl : pm = ⟨0, 2⟩ := List.mem_singleton.mp (List.mem_of_getElem? hpm)
  refine ⟨by decide +kernel, rfl, ?_⟩
  intro before off after hvisited _ hover
  have hsmall : (visited (tableAt (encodeBuckets twinBuckets) ⟨0, 2⟩)
      (compactFingerprint (fingerprint xxHash [0x6b, 0x65, 0x79]))).all (fun off =>
        storedLen (encodeValues xxHash defaultVerifySeed (([0x6b], [1]) :: onePair))
          (off.toNat * valueAlignment) ≤ 5) = true := by
    decide +kernel
  have hlen := of_decide_eq_true (List.all_eq_true.mp hsmall off (by rw [hvisited]; simp))
  have hpadded := hover.padded
  simp only [valueHeaderSize, valueAlignment] at hpadded hlen
  omega

/-- A directory with one empty data file and an empty index file. -/
def bareDir : Dir :=
  { Dir.empty with indexAll := some [], part := fun _ => ⟨some [], none⟩ }

/-- An index file that was cut off to nothing opens, and a lookup panics. -/
theorem cut_index_panics :
  ∃ r, SnapshotReader.open bareDir (bareMeta 1) = .ok r
    ∧ r.get xxHash [0x6b] = .error (.panic "range end index out of range")
  := by
  have hopen : SnapshotReader.open bareDir (bareMeta 1)
      = .ok ⟨.one, defaultVerifySeed, [], [[]], [(0, 1)]⟩ := by
    rfl
  exact ⟨_, hopen, by decide +kernel⟩

end V4
