import Mcfreeze.V4.Data
import Mcfreeze.Lib.Files
import Mcfreeze.Lib.Lists

/-!
# Reading a V4 snapshot

The directory of a V4 snapshot, the unified index file with the tables of all partitions
(`write_unified_index`), and looking up a key (`v4/reader.rs`).

A table that holds the entries of some pairs answers a lookup with the value of the key;
it reads the data file for another key exactly if a pair has the compact fingerprint of
the key.
-/

open Format

namespace V4

open Bytes Probing

/-! ### Directories -/

structure PartitionMeta where
  indexOffset : Nat
  indexNBuckets : Nat
  deriving DecidableEq, Repr

def formatVersion : Nat := 4

/-- The fields of `meta.json` that a reader uses. -/
structure Meta where
  formatVersion : Nat
  hashAlgorithm : String
  verifySeed : UInt64
  partitions : List PartitionMeta
  deriving DecidableEq, Repr

def Meta.layout (m : Meta) : Except Error Layout :=
  if m.hashAlgorithm ≠ Format.hashAlgorithm then
    .error (.unsupportedHashAlgorithm m.hashAlgorithm)
  else Layout.new (m.partitions.length % 2 ^ 32)

/-- Where the tables are in the unified index, and how many buckets they have. -/
structure UnifiedIndexInfo where
  offsets : List Nat
  nBuckets : List Nat
  deriving DecidableEq, Repr

structure PartitionIndexDone where
  nKeys : Nat
  nBuckets : Nat
  retries : Nat
  deriving DecidableEq, Repr

/-- `index.done`: all tables are built. -/
structure IndexDone where
  nKeys : Nat
  nBuckets : Nat
  nOverflowPartitions : Nat
  totalRetries : Nat
  indexBytes : Nat
  partitions : List PartitionIndexDone
  indexOffsets : List Nat
  indexNBuckets : List Nat
  deriving DecidableEq, Repr

/-- A document that is written in place: while it is written, it does not parse. -/
inductive Doc (α : Type) where
  | torn
  | whole (contents : α)
  deriving DecidableEq, Repr

/-- The directory of a partition. -/
structure PartDir where
  data : Option Bytes
  spill : Option Bytes
  deriving DecidableEq, Repr

/-- The root directory of a snapshot. -/
structure Dir where
  scatterDone : Option ScatterDone
  indexAll : Option Bytes
  indexDone : Option (Doc IndexDone)
  metaJson : Option (Doc Meta)
  part : DirName → PartDir

def PartDir.empty : PartDir := ⟨none, none⟩

def Dir.empty : Dir := ⟨none, none, none, none, fun _ => .empty⟩

/-! ### The unified index -/

def indexAlignment : Nat := 2 * 1024 * 1024

def alignIndex (offset : Nat) : Nat :=
  (offset + (indexAlignment - 1)) / indexAlignment * indexAlignment

/-- The padding after a table, unless it is the last one. -/
def padIndex (file : Bytes) (last : Bool) : Bytes :=
  if ¬ last ∧ file.length % indexAlignment ≠ 0 then
    file ++ List.replicate (alignIndex file.length - file.length) 0
  else file

/-- Append tables to the index file: the resulting file, and where the tables are. -/
def appendTables : List (List Bucket) → Bytes → Bytes × List Nat × List Nat
  | [], file => (file, [], [])
  | t :: tables, file =>
    let rest := appendTables tables (padIndex (file ++ encodeBuckets t) tables.isEmpty)
    (rest.1, file.length :: rest.2.1, t.length :: rest.2.2)

/-! ### Lookup -/

/-- The buckets in a byte string. -/
def castBuckets (b : Bytes) (n : Nat) : List Bucket :=
  (List.range n).map fun i => decodeBucket (slice b (i * 8) (i * 8 + 8))

/-- Read the values at the offsets that match, up to one with the expected fingerprint. -/
def tryOffsets (data : Bytes) (expected : UInt64) : List UInt32 → Except Error (Option Bytes)
  | [] => .ok none
  | off :: offsets =>
    if off = noMatch then tryOffsets data expected offsets
    else
      match readAndVerify data (off.toNat * valueAlignment) expected with
      | .error e => .error e
      | .ok (some value) => .ok (some value)
      | .ok none => tryOffsets data expected offsets

/-- Probe group after group. -/
def getLoop (buckets : List Bucket) (data : Bytes) (cfp : UInt32) (expected : UInt64) :
    Nat → Nat → Nat → Bool → Except Error GetOutcome
  | 0, _, _, hadCandidate => .ok (.miss hadCandidate)
  | fuel + 1, pos, steps, hadCandidate =>
    if steps < buckets.length then
      let result := probeGroup buckets cfp pos
      match tryOffsets data expected result.1 with
      | .error e => .error e
      | .ok (some value) => .ok (.hit value)
      | .ok none =>
        let hadCandidate := hadCandidate || result.1.any (· ≠ noMatch)
        if result.2 then .ok (.miss hadCandidate)
        else
          getLoop buckets data cfp expected fuel ((pos + groupSize) % buckets.length)
            (steps + groupSize) hadCandidate
    else .ok (.miss hadCandidate)

/-- A lookup in one partition. -/
def PartitionReader.get (H : Hash) (buckets : List Bucket) (data : Bytes) (verifySeed : UInt64)
    (key : Bytes) (fp : UInt64) : Except Error GetOutcome :=
  let n := buckets.length
  if n = 0 then .ok (.miss false)
  else
    let cfp := compactFingerprint fp
    getLoop buckets data cfp (verifyFingerprint H key verifySeed) n (cfp.toNat % n) 0 false

/-- The offsets that the probe loop reads as long as none of them holds the key. -/
def visitedFrom (buckets : List Bucket) (cfp : UInt32) : Nat → Nat → Nat → List UInt32
  | 0, _, _ => []
  | fuel + 1, pos, steps =>
    if steps < buckets.length then
      let result := probeGroup buckets cfp pos
      let visited := result.1.filter (· ≠ noMatch)
      if result.2 then visited
      else
        visited ++ visitedFrom buckets cfp fuel ((pos + groupSize) % buckets.length)
          (steps + groupSize)
    else []

/-- The offsets that a lookup of a compact fingerprint visits. -/
def visited (buckets : List Bucket) (cfp : UInt32) : List UInt32 :=
  visitedFrom buckets cfp buckets.length (cfp.toNat % buckets.length) 0

structure SnapshotReader where
  layout : Layout
  verifySeed : UInt64
  indexMmap : Bytes
  dataFiles : List Bytes
  ranges : List (Nat × Nat)

/-- Open the data files from partition `i` on. -/
def openDataFiles (n : Nat) (d : Dir) : Nat → List PartitionMeta →
    Except Error (List Bytes × List (Nat × Nat))
  | _, [] => .ok ([], [])
  | i, pm :: pms =>
    match (d.part (partitionDir n i)).data with
    | none => .error (.io "data.bin")
    | some data =>
      match openDataFiles n d (i + 1) pms with
      | .error e => .error e
      | .ok (files, ranges) => .ok (data :: files, (pm.indexOffset, pm.indexNBuckets) :: ranges)

def SnapshotReader.open (d : Dir) (m : Meta) : Except Error SnapshotReader :=
  match m.layout with
  | .error e => .error e
  | .ok layout =>
    match d.indexAll with
    | none => .error (.io "index.all")
    | some index =>
      if Files.maxFileLen < index.length then .error (.io "memory map length overflows isize")
      else
        match openDataFiles layout.nPartitions d 0 m.partitions with
        | .error e => .error e
        | .ok (files, ranges) => .ok ⟨layout, m.verifySeed, index, files, ranges⟩

/-- Open a snapshot directory. -/
def Snapshot.openPath (d : Dir) : Except Error SnapshotReader :=
  match d.metaJson with
  | none => .error (.io "meta.json")
  | some .torn => .error (.json "meta.json")
  | some (.whole m) =>
    if m.formatVersion ≠ formatVersion then .error (.unsupportedFormatVersion m.formatVersion)
    else
      match m.layout with
      | .error e => .error e
      | .ok _ => SnapshotReader.open d m

/-- How a bucket is aligned in memory. -/
def bucketAlign : Nat := 4

/-- The table and the data file of a partition.  The end of the range is computed in 64 bits,
and the cast checks the alignment of its start. -/
def SnapshotReader.partition (r : SnapshotReader) (idx : Nat) : Except Error (List Bucket × Bytes) :=
  match r.ranges[idx]?, r.dataFiles[idx]? with
  | some (offset, nBuckets), some data =>
    let stop := (offset + nBuckets * 8 % 2 ^ 64) % 2 ^ 64
    if stop < offset then .error (.panic "slice index starts after its end")
    else if r.indexMmap.length < stop then .error (.panic "range end index out of range")
    else if offset % bucketAlign ≠ 0 then
      .error (.panic "TargetAlignmentGreaterAndInputNotAligned")
    else .ok (castBuckets (slice r.indexMmap offset stop) ((stop - offset) / 8), data)
  | _, _ => .error (.panic "index out of bounds")

def SnapshotReader.get (H : Hash) (r : SnapshotReader) (key : Bytes) : Except Error GetOutcome :=
  let fp := fingerprint H key
  match r.partition (r.layout.partitionOf fp) with
  | .error e => .error e
  | .ok (buckets, data) => PartitionReader.get H buckets data r.verifySeed key fp

/-! ### Lookups in a table -/

/-- A bucket stands for a pair: it has the pair's fingerprint, and its offset leads to the
pair's value. -/
structure StandsFor (H : Hash) (seed : UInt64) (data : Bytes) (kv : Pair) (b : Bucket) : Prop where
  fingerprint : b.fingerprint = compactFingerprint (fingerprint H kv.1)
  offset : b.offset ≠ noMatch
  read : ∀ expected, readAndVerify data (b.offset.toNat * valueAlignment) expected
    = .ok (if verifyFingerprint H kv.1 seed = expected then some kv.2 else none)

/-- The table holds the entries of the pairs. -/
def BuiltTable (H : Hash) (seed : UInt64) (kvs : List Pair) (data : Bytes) (table : List Bucket) :
    Prop :=
  Findable table ∧ ∃ entries, (bucketsIn table).Perm entries
    ∧ List.Forall₂ (StandsFor H seed data) kvs entries

section

variable {H : Hash} {seed : UInt64} {kvs : List Pair} {data : Bytes} {table : List Bucket}
  {cfp : UInt32} {expected : UInt64}

/-- Reading buckets that stand for pairs, none of which has the fingerprint. -/
theorem tryOffsets_none {offsets : List UInt32}
    (h : ∀ off ∈ offsets, off ≠ noMatch →
      readAndVerify data (off.toNat * valueAlignment) expected = .ok none) :
  tryOffsets data expected offsets = .ok none
  := by
  induction offsets with
  | nil => rfl
  | cons off offsets ih =>
    have hrest := ih fun o ho => h o (List.mem_cons_of_mem _ ho)
    rw [tryOffsets]
    split
    · apply hrest
    · next hne => rw [h off List.mem_cons_self hne, hrest]

/-- Reading buckets of which one has the fingerprint. -/
theorem tryOffsets_some {offsets : List UInt32} {value : Bytes}
    (h : ∀ off ∈ offsets, off ≠ noMatch →
      readAndVerify data (off.toNat * valueAlignment) expected = .ok none
        ∨ readAndVerify data (off.toNat * valueAlignment) expected = .ok (some value))
    (hex : ∃ off ∈ offsets, off ≠ noMatch
      ∧ readAndVerify data (off.toNat * valueAlignment) expected = .ok (some value)) :
  tryOffsets data expected offsets = .ok (some value)
  := by
  induction offsets with
  | nil =>
    obtain ⟨off, hoff, -⟩ := hex
    simp at hoff
  | cons off offsets ih =>
    have hrest : ∀ o ∈ offsets, o ≠ noMatch →
        readAndVerify data (o.toNat * valueAlignment) expected = .ok none
          ∨ readAndVerify data (o.toNat * valueAlignment) expected = .ok (some value) :=
      fun o ho => h o (List.mem_cons_of_mem _ ho)
    obtain ⟨o, ho, hne, hread⟩ := hex
    rw [tryOffsets]
    split
    · next hno =>
      apply ih hrest
      rcases List.mem_cons.mp ho with rfl | ho
      · exact absurd hno hne
      · exact ⟨o, ho, hne, hread⟩
    · next hyes =>
      rcases h off List.mem_cons_self hyes with hnone | hsome
      · rw [hnone]
        apply ih hrest
        rcases List.mem_cons.mp ho with rfl | ho
        · rw [hnone] at hread
          simp at hread
        · exact ⟨o, ho, hne, hread⟩
      · rw [hsome]

/-- A bucket of the table that has the fingerprint. -/
def Candidate (table : List Bucket) (cfp : UInt32) (b : Bucket) : Prop :=
  b ∈ table ∧ b.isEmpty = false ∧ b.fingerprint = cfp

/-- The buckets that a group reports. -/
theorem mem_probeGroup (hoffsets : ∀ b ∈ table, b.isEmpty = false → b.offset ≠ noMatch) {pos : Nat}
    {off : UInt32} :
  off ∈ (probeGroup table cfp pos).1 ∧ off ≠ noMatch
    ↔ ∃ b ∈ scan Bucket.isEmpty table pos groupSize, b.fingerprint = cfp ∧ b.offset = off
  := by
  have hspec : (probeFrom table cfp pos groupSize).1.filter (· ≠ noMatch)
      = ((scan Bucket.isEmpty table pos groupSize).filter (·.fingerprint = cfp)).map Bucket.offset :=
    (probeFrom_spec hoffsets pos groupSize).1
  have hmem : off ∈ (probeFrom table cfp pos groupSize).1.filter (· ≠ noMatch)
      ↔ off ∈ ((scan Bucket.isEmpty table pos groupSize).filter (·.fingerprint = cfp)).map
        Bucket.offset := by
    rw [hspec]
  simp only [List.mem_filter, List.mem_map, ne_eq, decide_not, decide_eq_true_eq,
    Bool.not_eq_true', decide_eq_false_iff_not, and_assoc] at hmem
  apply hmem

theorem candidate_of_mem_scan {b : Bucket} {pos m : Nat}
    (hb : b ∈ scan Bucket.isEmpty table pos m) (hfp : b.fingerprint = cfp) :
  Candidate table cfp b
  :=
  ⟨(mem_of_mem_scan hb).1, (mem_of_mem_scan hb).2, hfp⟩

/-- The bucket is met by a search that starts at `pos`, after `k` others. -/
structure MetAfter (table : List Bucket) (pos k : Nat) (b : Bucket) : Prop where
  path : Path Bucket.isEmpty table pos k
  slot : table[(pos + k) % table.length]? = some b
  nonempty : b.isEmpty = false

theorem MetAfter.mem_group {pos k : Nat} {b : Bucket} (h : MetAfter table pos k b)
    (hk : k < groupSize) :
  b ∈ scan Bucket.isEmpty table pos groupSize
  := by
  apply mem_scan h.path hk h.slot h.nonempty

/-- A bucket beyond the group is met from the next group on. -/
theorem MetAfter.next_group (hoffsets : ∀ b ∈ table, b.isEmpty = false → b.offset ≠ noMatch)
    {pos k : Nat} {b : Bucket} (h : MetAfter table pos k b) (hk : groupSize ≤ k) :
  (probeGroup table cfp pos).2 = false
    ∧ MetAfter table ((pos + groupSize) % table.length) (k - groupSize) b
  := by
  have hshift : ∀ j, ((pos + groupSize) % table.length + j) % table.length
      = (pos + (groupSize + j)) % table.length := by
    intro j
    rw [Nat.mod_add_mod, Nat.add_assoc]
  constructor
  · apply (probeFrom_spec hoffsets pos groupSize).2.mpr
    apply scan_length_of_path (h.path.mono hk)
  · refine ⟨?_, ?_, h.nonempty⟩
    · intro j hj
      rw [hshift]
      apply h.path (groupSize + j) (by omega)
    · rw [hshift, Nat.add_sub_cancel' hk]
      apply h.slot

/-- The slots that do not match are skipped. -/
theorem tryOffsets_filter (offsets : List UInt32) :
  tryOffsets data expected (offsets.filter (· ≠ noMatch)) = tryOffsets data expected offsets
  := by
  induction offsets with
  | nil => rfl
  | cons off offsets ih =>
    by_cases hno : off = noMatch
    · rw [List.filter_cons_of_neg (by simpa using hno), ih]
      simp only [tryOffsets, hno, if_true]
    · rw [List.filter_cons_of_pos (by simpa using hno)]
      simp only [tryOffsets, hno, if_false, ih]

/-- Offsets are tried one list after the other. -/
theorem tryOffsets_append (offsets offsets' : List UInt32) :
  tryOffsets data expected (offsets ++ offsets')
    = match tryOffsets data expected offsets with
      | .ok none => tryOffsets data expected offsets'
      | r => r
  := by
  induction offsets with
  | nil => rfl
  | cons off offsets ih =>
    rw [List.cons_append, tryOffsets, tryOffsets]
    split
    · apply ih
    · cases readAndVerify data (off.toNat * valueAlignment) expected with
      | error e => rfl
      | ok r =>
        cases r with
        | none => apply ih
        | some value => rfl

/-- What a lookup answers after reading the offsets it visits. -/
def answer (data : Bytes) (expected : UInt64) (had : Bool) (offsets : List UInt32) :
    Except Error GetOutcome :=
  match tryOffsets data expected offsets with
  | .error e => .error e
  | .ok (some value) => .ok (.hit value)
  | .ok none => .ok (.miss (had || !offsets.isEmpty))

/-- Some offset matches exactly when the filter leaves one. -/
theorem any_eq_filter (offsets : List UInt32) :
  offsets.any (· ≠ noMatch) = !(offsets.filter (· ≠ noMatch)).isEmpty
  := by
  induction offsets with
  | nil => rfl
  | cons off offsets ih =>
    by_cases hno : off = noMatch
    · rw [List.filter_cons_of_neg (by simpa using hno), List.any_cons, ih]
      simp [hno]
    · rw [List.filter_cons_of_pos (by simpa using hno), List.any_cons]
      simp [hno]

/-- The probe loop reads the offsets it visits up to the first one that holds the key. -/
theorem getLoop_eq (fuel pos steps : Nat) (had : Bool) :
  getLoop table data cfp expected fuel pos steps had
    = answer data expected had (visitedFrom table cfp fuel pos steps)
  := by
  induction fuel generalizing pos steps had with
  | zero => simp [getLoop, visitedFrom, answer, tryOffsets]
  | succ fuel ih =>
    rw [getLoop, visitedFrom]
    split
    · dsimp only
      rw [← tryOffsets_filter, any_eq_filter]
      generalize (probeGroup table cfp pos).1.filter (· ≠ noMatch) = offsets
      by_cases hdone : (probeGroup table cfp pos).2 = true
      · simp only [hdone, if_true, answer]
      · rw [Bool.not_eq_true] at hdone
        simp only [hdone, Bool.false_eq_true, if_false, ih, answer, tryOffsets_append]
        cases tryOffsets data expected offsets with
        | error e => rfl
        | ok r =>
          cases r with
          | some value => rfl
          | none =>
            have hboth : ∀ later : List UInt32,
                (!(offsets ++ later).isEmpty) = (!offsets.isEmpty || !later.isEmpty) := by
              cases offsets <;> simp
            simp only [hboth, Bool.or_assoc]
    · simp [answer, tryOffsets]

/-- A lookup reads the offsets it visits up to the first one that holds the key. -/
theorem PartitionReader.get_eq (H : Hash) (key : Bytes) (fp : UInt64) :
  PartitionReader.get H table data seed key fp
    = answer data (verifyFingerprint H key seed) false (visited table (compactFingerprint fp))
  := by
  rw [PartitionReader.get]
  dsimp only
  split
  · next hempty =>
    rw [visited, hempty]
    rfl
  · rw [getLoop_eq, visited]

/-- Only candidates are visited. -/
theorem candidate_of_mem_visitedFrom
    (hoffsets : ∀ b ∈ table, b.isEmpty = false → b.offset ≠ noMatch) {fuel pos steps : Nat}
    {off : UInt32} (h : off ∈ visitedFrom table cfp fuel pos steps) :
  ∃ b, Candidate table cfp b ∧ b.offset = off
  := by
  induction fuel generalizing pos steps with
  | zero => simp [visitedFrom] at h
  | succ fuel ih =>
    rw [visitedFrom] at h
    have hgroup : off ∈ (probeGroup table cfp pos).1.filter (· ≠ noMatch) →
        ∃ b, Candidate table cfp b ∧ b.offset = off := by
      intro hmem
      obtain ⟨hoff, hne⟩ := List.mem_filter.mp hmem
      obtain ⟨b, hb, hfp, hoff⟩ := (mem_probeGroup hoffsets).mp ⟨hoff, by simpa using hne⟩
      exact ⟨b, candidate_of_mem_scan hb hfp, hoff⟩
    split at h
    · dsimp only at h
      split at h
      · apply hgroup h
      · rcases List.mem_append.mp h with h | h
        · apply hgroup h
        · apply ih h
    · simp at h

/-- A candidate that the search meets within one round is visited. -/
theorem MetAfter.mem_visitedFrom (hoffsets : ∀ b ∈ table, b.isEmpty = false → b.offset ≠ noMatch)
    {fuel pos steps k : Nat} {b : Bucket} (hb : MetAfter table pos k b) (hfp : b.fingerprint = cfp)
    (hsteps : steps + k < table.length) (hk : k < fuel * groupSize) :
  b.offset ∈ visitedFrom table cfp fuel pos steps
  := by
  induction fuel generalizing pos steps k with
  | zero => omega
  | succ fuel ih =>
    rw [visitedFrom, if_pos (by omega)]
    dsimp only
    by_cases hkg : k < groupSize
    · have hmem : b.offset ∈ (probeGroup table cfp pos).1.filter (· ≠ noMatch) := by
        obtain ⟨hoff, hne⟩ := (mem_probeGroup hoffsets).mpr ⟨b, hb.mem_group hkg, hfp, rfl⟩
        rw [List.mem_filter]
        exact ⟨hoff, by simpa using hne⟩
      split
      · apply hmem
      · apply List.mem_append_left _ hmem
    · obtain ⟨hdone, hnext⟩ := @MetAfter.next_group _ cfp hoffsets _ _ _ hb (Nat.not_lt.mp hkg)
      rw [hdone, if_neg (by simp)]
      apply List.mem_append_right
      apply ih hnext
      · omega
      · rw [Nat.succ_mul] at hk
        omega

/-- A lookup in a table whose buckets can be found visits exactly the candidates. -/
theorem mem_visited (hoffsets : ∀ b ∈ table, b.isEmpty = false → b.offset ≠ noMatch)
    (hfind : Findable table) (off : UInt32) :
  off ∈ visited table cfp ↔ ∃ b, Candidate table cfp b ∧ b.offset = off
  := by
  constructor
  · apply candidate_of_mem_visitedFrom hoffsets
  · rintro ⟨b, ⟨hb, hfull, rfl⟩, rfl⟩
    obtain ⟨p, hp⟩ := List.getElem?_of_mem hb
    have hpos : 0 < table.length := List.length_pos_of_mem hb
    obtain ⟨k, hk, rfl, hpath⟩ := Reaches.shorten (hfind p b hp hfull) hpos
    have hmet : MetAfter table (b.fingerprint.toNat % table.length) k b := ⟨hpath, hp, hfull⟩
    apply hmet.mem_visitedFrom hoffsets rfl
    · omega
    · simp only [groupSize]
      omega

theorem BuiltTable.mem_standsFor (h : BuiltTable H seed kvs data table) {b : Bucket} (hb : b ∈ table)
    (hfull : b.isEmpty = false) :
  ∃ kv ∈ kvs, StandsFor H seed data kv b
  := by
  obtain ⟨-, entries, hperm, hall⟩ := h
  have hmem : b ∈ bucketsIn table := List.mem_filter.mpr ⟨hb, by simp [hfull]⟩
  rw [hperm.mem_iff] at hmem
  apply hall.exists_left hmem

theorem BuiltTable.offset_ne (h : BuiltTable H seed kvs data table) :
  ∀ b ∈ table, b.isEmpty = false → b.offset ≠ noMatch
  := by
  intro b hb hfull
  obtain ⟨kv, -, hstands⟩ := h.mem_standsFor hb hfull
  apply hstands.offset

/-- A lookup visits the offsets of the pairs with the compact fingerprint. -/
theorem BuiltTable.mem_visited (h : BuiltTable H seed kvs data table) {off : UInt32} :
  off ∈ visited table cfp
    ↔ ∃ kv ∈ kvs, ∃ b, StandsFor H seed data kv b ∧ Candidate table cfp b ∧ b.offset = off
  := by
  rw [V4.mem_visited h.offset_ne h.1]
  constructor
  · rintro ⟨b, hb, rfl⟩
    obtain ⟨kv, hkv, hstands⟩ := h.mem_standsFor hb.1 hb.2.1
    exact ⟨kv, hkv, b, hstands, hb, rfl⟩
  · rintro ⟨kv, -, b, -, hb, rfl⟩
    exact ⟨b, hb, rfl⟩

/-- The bucket of a pair is a candidate for its fingerprint. -/
theorem BuiltTable.candidate (h : BuiltTable H seed kvs data table) {kv : Pair} (hkv : kv ∈ kvs) :
  ∃ b, StandsFor H seed data kv b
    ∧ Candidate table (compactFingerprint (fingerprint H kv.1)) b
  := by
  obtain ⟨-, entries, hperm, hall⟩ := h
  obtain ⟨b, hb, hstands⟩ := hall.exists_right hkv
  rw [← hperm.mem_iff] at hb
  obtain ⟨hmem, hfull⟩ := List.mem_filter.mp hb
  rw [Bool.not_eq_true'] at hfull
  exact ⟨b, hstands, hmem, hfull, hstands.fingerprint⟩

/-- The key of a pair is found, if the pairs with its verify fingerprint have its value. -/
theorem BuiltTable.get_hit (h : BuiltTable H seed kvs data table) {kv : Pair} (hkv : kv ∈ kvs)
    (hvalue : ∀ kv' ∈ kvs, verifyFingerprint H kv'.1 seed = verifyFingerprint H kv.1 seed →
      kv'.2 = kv.2) :
  PartitionReader.get H table data seed kv.1 (fingerprint H kv.1) = .ok (.hit kv.2)
  := by
  obtain ⟨b, hstands, hb⟩ := h.candidate hkv
  have htry : tryOffsets data (verifyFingerprint H kv.1 seed)
      (visited table (compactFingerprint (fingerprint H kv.1))) = .ok (some kv.2) := by
    apply tryOffsets_some
    · intro off hoff _
      obtain ⟨kv', hkv', b', hstands', -, rfl⟩ := h.mem_visited.mp hoff
      rw [hstands'.read]
      split
      · next heq =>
        right
        rw [hvalue kv' hkv' heq]
      · left
        rfl
    · refine ⟨b.offset, h.mem_visited.mpr ⟨kv, hkv, b, hstands, hb, rfl⟩, hstands.offset, ?_⟩
      rw [hstands.read, if_pos rfl]
  rw [PartitionReader.get_eq, answer, htry]

/-- A key that shares its verify fingerprint with no pair is missed.  The data file is read
exactly if a pair shares its compact fingerprint. -/
theorem BuiltTable.get_miss (h : BuiltTable H seed kvs data table) {key : Bytes}
    (hkey : ∀ kv ∈ kvs, verifyFingerprint H kv.1 seed ≠ verifyFingerprint H key seed) :
  ∃ io, PartitionReader.get H table data seed key (fingerprint H key) = .ok (.miss io)
    ∧ (io = false ↔ ∀ kv ∈ kvs, compactFingerprint (fingerprint H kv.1)
        ≠ compactFingerprint (fingerprint H key))
  := by
  have htry : tryOffsets data (verifyFingerprint H key seed)
      (visited table (compactFingerprint (fingerprint H key))) = .ok none := by
    apply tryOffsets_none
    intro off hoff _
    obtain ⟨kv, hkv, b, hstands, -, rfl⟩ := h.mem_visited.mp hoff
    rw [hstands.read, if_neg (hkey kv hkv)]
  refine ⟨!(visited table (compactFingerprint (fingerprint H key))).isEmpty, ?_, ?_⟩
  · rw [PartitionReader.get_eq, answer, htry, Bool.false_or]
  · rw [Bool.not_eq_false', List.isEmpty_iff, List.eq_nil_iff_forall_not_mem]
    constructor
    · intro hnone kv hkv heq
      obtain ⟨b, hstands, hb⟩ := h.candidate hkv
      rw [heq] at hb
      apply hnone b.offset (h.mem_visited.mpr ⟨kv, hkv, b, hstands, hb, rfl⟩)
    · intro hnone off hoff
      obtain ⟨kv, hkv, b, hstands, hb, -⟩ := h.mem_visited.mp hoff
      apply hnone kv hkv
      rw [← hstands.fingerprint, hb.2.2]

end

end V4
