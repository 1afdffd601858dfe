import Mcfreeze.V4.Snapshot
import Mcfreeze.Lib.Exec

/-!
# Writing a V4 partition

The writer of a partition (`v4/writer.rs`, `AlignedWriter` and `SpillWriter`): values go
to `data.bin` and index entries to `spill.bin`, both through buffers.  The number of
entries is filled in when the partition is finished; until then the header says `0`.

A finished partition holds the entries of the pairs that were written, and the table that
is built from them answers for the pairs.
-/

open Format Crash Files

namespace V4

open Bytes

/-- A program over a partition directory. -/
abbrev Task := Prog PartDir Error Empty

inductive PartFile where
  | data
  | spill
  deriving DecidableEq, Repr

instance : FileStore PartDir PartFile where
  file d
    | .data => d.data
    | .spill => d.spill
  setFile d f contents :=
    match f with
    | .data => { d with data := contents }
    | .spill => { d with spill := contents }
  file_setFile d f contents := by
    cases f <;> rfl
  file_setFile_ne d f g h contents := by
    cases f <;> cases g <;> first | rfl | exact absurd rfl h
  setFile_setFile d f c c' := by
    cases f <;> rfl

/-! ### The writer -/

/-- The writer of a partition: what the buffers of its two files hold back, the offset of
the next value, and the number of entries. -/
structure PartitionWriter where
  dataPending : Bytes
  byteOffset : Nat
  spillPending : Bytes
  count : Nat
  deriving DecidableEq, Repr

namespace PartitionWriter

/-- Create the files of a partition; the header of the spill file is a placeholder. -/
def new (verifySeed : UInt64) : Task PartitionWriter := do
  create .data
  create .spill
  let pending ← bufWrite .spill [] (spillHeader 0)
  if verifySeed = 0 then .throw (.panic "verify_seed must be non-zero")
  else return ⟨[], 0, pending, 0⟩

/-- Write a value and its index entry. -/
def write (H : Hash) (verifySeed : UInt64) (w : PartitionWriter) (key : Bytes) (fp : UInt64)
    (value : Bytes) : Task PartitionWriter := do
  let alignedOffset := w.byteOffset / valueAlignment
  let dataPending ← bufWrite .data w.dataPending
    (encodeValue (verifyFingerprint H key verifySeed) value)
  let bucket ← Prog.ofExcept (Bucket.new (compactFingerprint fp) alignedOffset)
  let spillPending ← bufWrite .spill w.spillPending bucket.encode
  return ⟨dataPending, w.byteOffset + alignedSize (onDiskSize value), spillPending, w.count + 1⟩

/-- Overwrite the count in the header of the spill file. -/
def fillCount (count : Nat) : Task Unit :=
  .atomic fun d =>
    match d.spill with
    | none => .error (.io "spill.bin")
    | some b => .ok ((), { d with spill := some (overwriteCount b count) })

/-- Flush both files, and fill in the number of entries. -/
def finishData (w : PartitionWriter) : Task Unit := do
  append .data w.dataPending
  append .spill w.spillPending
  fillCount w.count

end PartitionWriter

/-- Fail when the loop of `build` has not ended. -/
def builtTable (r : Option (Except Error (List Bucket × Nat))) :
    Except Error (List Bucket × Nat) :=
  r.getD (.error (.panic "the loop was interrupted"))

/-- Read the spill file and build the table; a partition without a spill file has no
entries.  The number of retries that the loop gets to make is picked by the environment. -/
def buildIndex : Task (List Bucket × PartitionIndexDone) := do
  let d ← Prog.read
  match d.spill with
  | none => return ([], ⟨0, 0, 0⟩)
  | some spill =>
    let entries ← Prog.ofExcept (SpillReader.records spill)
    Prog.ofExcept (checkNoPathologicalDuplicates entries)
    let fuel ← Prog.pick
    let (table, retries) ← Prog.ofExcept (builtTable (build fuel entries))
    return (table, ⟨entries.length, table.length, retries⟩)

/-- Delete the spill file. -/
def removeSpill : Task Unit :=
  remove .spill

/-! ### What a partition holds -/

/-- The contents of `data.bin` for some pairs. -/
def encodeValues (H : Hash) (seed : UInt64) (kvs : List Pair) : Bytes :=
  (kvs.map fun kv => encodeValue (verifyFingerprint H kv.1 seed) kv.2).flatten

/-- Where the value after some pairs starts. -/
def dataEnd (kvs : List Pair) : Nat :=
  (kvs.map fun kv => alignedSize (onDiskSize kv.2)).sum

/-- The index entries of some pairs, written in this order. -/
structure Entered (H : Hash) (kvs : List Pair) (entries : List Bucket) : Prop where
  length : entries.length = kvs.length
  entry : ∀ i kv b, kvs[i]? = some kv → entries[i]? = some b →
    Bucket.new (compactFingerprint (fingerprint H kv.1)) (dataEnd (kvs.take i) / valueAlignment)
      = .ok b

/-- The partition is being written. -/
structure Writing (H : Hash) (seed : UInt64) (kvs : List Pair) (w : PartitionWriter) (d : PartDir) :
    Prop where
  data : ∃ c, d.data = some c ∧ c ++ w.dataPending = encodeValues H seed kvs
  spill : ∃ c entries, d.spill = some c ∧ Entered H kvs entries
    ∧ c ++ w.spillPending = spillHeader 0 ++ encodeBuckets entries
  byteOffset : w.byteOffset = dataEnd kvs
  count : w.count = kvs.length

/-- The partition is not finished, and no more than the given pairs was written to it: the
header of its spill file, as far as it is written, says that there are no entries. -/
structure Unfinished (H : Hash) (seed : UInt64) (kvs : List Pair) (d : PartDir) : Prop where
  data : ∀ c, d.data = some c → c <+: encodeValues H seed kvs
  spill : ∀ c, d.spill = some c → ∃ l entries, l <+: kvs ∧ Entered H l entries
    ∧ c <+: spillHeader 0 ++ encodeBuckets entries

/-- The partition is finished: it has the values and the entries of the pairs. -/
structure Spilled (H : Hash) (seed : UInt64) (kvs : List Pair) (d : PartDir) : Prop where
  data : d.data = some (encodeValues H seed kvs)
  spill : ∃ entries, Entered H kvs entries ∧ entries.length < 2 ^ 64
    ∧ d.spill = some (spillHeader entries.length ++ encodeBuckets entries)

section

variable {H : Hash} {seed : UInt64} {kvs : List Pair} {entries : List Bucket}

theorem encodeValues_append (kvs : List Pair) (kv : Pair) :
  encodeValues H seed (kvs ++ [kv])
    = encodeValues H seed kvs ++ encodeValue (verifyFingerprint H kv.1 seed) kv.2
  := by
  simp [encodeValues]

theorem dataEnd_append (kvs : List Pair) (kv : Pair) :
  dataEnd (kvs ++ [kv]) = dataEnd kvs + alignedSize (onDiskSize kv.2)
  := by
  simp [dataEnd]

theorem encodeValues_isPrefix {kvs kvs' : List Pair} (h : kvs <+: kvs') :
  encodeValues H seed kvs <+: encodeValues H seed kvs'
  := by
  obtain ⟨rest, rfl⟩ := h
  refine ⟨encodeValues H seed rest, ?_⟩
  simp only [encodeValues, List.map_append, List.flatten_append]

theorem Unfinished.mono {kvs kvs' : List Pair} {d : PartDir} (h : Unfinished H seed kvs d)
    (hle : kvs <+: kvs') :
  Unfinished H seed kvs' d
  := by
  constructor
  · intro c hc
    apply (h.data c hc).trans (encodeValues_isPrefix hle)
  · intro c hc
    obtain ⟨l, entries, hl, hentered, hc⟩ := h.spill c hc
    exact ⟨l, entries, hl.trans hle, hentered, hc⟩

/-- Values that fit end where the offsets say. -/
theorem length_encodeValues (h : ∀ kv ∈ kvs, Small kv.2) :
  (encodeValues H seed kvs).length = dataEnd kvs ∧ dataEnd kvs % valueAlignment = 0
  := by
  induction kvs with
  | nil => exact ⟨rfl, rfl⟩
  | cons kv kvs ih =>
    have hsmall := h kv List.mem_cons_self
    obtain ⟨hlen, hmod⟩ := ih fun kv' hkv' => h kv' (List.mem_cons_of_mem _ hkv')
    have hvalues : encodeValues H seed (kv :: kvs)
        = encodeValue (verifyFingerprint H kv.1 seed) kv.2 ++ encodeValues H seed kvs := by
      simp [encodeValues]
    have hend : dataEnd (kv :: kvs) = alignedSize (onDiskSize kv.2) + dataEnd kvs := by
      simp [dataEnd]
    constructor
    · rw [hvalues, hend, List.length_append, hlen, length_encodeValue hsmall, onDiskSize_eq hsmall]
    · rw [hend, Nat.add_mod, hmod, alignedSize, Nat.mul_mod_left, Nat.zero_mod]

/-- The file around one of the values. -/
theorem encodeValues_split {i : Nat} {kv : Pair} (h : kvs[i]? = some kv) :
  encodeValues H seed kvs = encodeValues H seed (kvs.take i)
    ++ (encodeValue (verifyFingerprint H kv.1 seed) kv.2 ++ encodeValues H seed (kvs.drop (i + 1)))
  := by
  obtain ⟨hi, rfl⟩ := List.getElem?_eq_some_iff.mp h
  have hsplit : kvs = kvs.take i ++ kvs[i] :: kvs.drop (i + 1) := by
    rw [← List.drop_eq_getElem_cons hi, List.take_append_drop]
  conv => lhs; rw [hsplit]
  simp only [encodeValues, List.map_append, List.map_cons, List.flatten_append, List.flatten_cons]

theorem entered_nil :
  Entered H [] []
  := by
  refine ⟨rfl, ?_⟩
  intro i kv b hkv _
  simp at hkv

/-- The next entry. -/
theorem Entered.snoc {kv : Pair} {b : Bucket} (h : Entered H kvs entries)
    (hb : Bucket.new (compactFingerprint (fingerprint H kv.1)) (dataEnd kvs / valueAlignment)
      = .ok b) :
  Entered H (kvs ++ [kv]) (entries ++ [b])
  := by
  refine ⟨by simp [h.length], ?_⟩
  intro i kv' b' hkv' hb'
  by_cases hi : i < kvs.length
  · rw [List.getElem?_append_left hi] at hkv'
    rw [List.getElem?_append_left (by rwa [h.length])] at hb'
    rw [List.take_append_of_le_length (Nat.le_of_lt hi)]
    apply h.entry i kv' b' hkv' hb'
  · have hlt : i < kvs.length + 1 := by
      have hlt := (List.getElem?_eq_some_iff.mp hkv').1
      rwa [List.length_append] at hlt
    obtain rfl : i = kvs.length := by omega
    obtain rfl : kv = kv' := by simpa using hkv'
    rw [← h.length] at hb'
    obtain rfl := Option.some.inj (List.getElem?_concat_length.symm.trans hb')
    rw [List.take_left' rfl, hb]

/-- What a bucket that was created looks like. -/
theorem Bucket.new_eq_ok {fp : UInt32} {offset : Nat} {b : Bucket} (h : Bucket.new fp offset = .ok b) :
  b.fingerprint = fp ∧ b.offset ≠ noMatch ∧ b.offset.toNat = offset
  := by
  rw [Bucket.new] at h
  split at h
  · simp at h
  · next hmax =>
    obtain rfl := Except.ok.inj h
    simp only [maxOffset] at hmax
    have hoff : (UInt32.ofNat offset).toNat = offset := by
      apply UInt32.toNat_ofNat_of_lt'
      simp only [UInt32.size]
      omega
    refine ⟨rfl, ?_, hoff⟩
    intro heq
    have hval : (UInt32.ofNat offset).toNat = 2 ^ 32 - 1 := congrArg UInt32.toNat heq
    omega

/-- The entries of values that fit lead to the values. -/
theorem Entered.standsFor (h : Entered H kvs entries) (hsmall : ∀ kv ∈ kvs, Small kv.2) :
  List.Forall₂ (StandsFor H seed (encodeValues H seed kvs)) kvs entries
  := by
  rw [List.forall₂_iff_get]
  refine ⟨h.length.symm, ?_⟩
  intro i hi hi'
  obtain ⟨hfp, hne, hoff⟩ := Bucket.new_eq_ok
    (h.entry i _ _ (List.getElem?_eq_getElem hi) (List.getElem?_eq_getElem hi'))
  refine ⟨hfp, hne, ?_⟩
  intro expected
  have htake : ∀ kv ∈ kvs.take i, Small kv.2 := fun kv hkv => hsmall kv (List.mem_of_mem_take hkv)
  have hend : (encodeValues H seed (kvs.take i)).length = dataEnd (kvs.take i)
      ∧ dataEnd (kvs.take i) % valueAlignment = 0 := length_encodeValues htake
  obtain ⟨hlen, hmod⟩ := hend
  have hpos : entries[i].offset.toNat * valueAlignment = (encodeValues H seed (kvs.take i)).length := by
    rw [hoff, hlen]
    simp only [valueAlignment] at hmod ⊢
    omega
  simp only [List.get_eq_getElem]
  rw [hpos, encodeValues_split (List.getElem?_eq_getElem hi)]
  apply readAndVerify_encodeValue (hsmall _ (List.getElem_mem hi))
  rw [hlen, hmod]

/-- The table that is built from entries. -/
theorem Entered.builtTable {fuel retries : Nat} {table : List Bucket}
    (h : Entered H kvs entries)
    (htable : V4.builtTable (build fuel entries) = .ok (table, retries)) :
  Findable table ∧ (bucketsIn table).Perm entries
  := by
  have hfull : ∀ e ∈ entries, e.isEmpty = false := by
    intro e he
    obtain ⟨i, hi, rfl⟩ := List.mem_iff_getElem.mp he
    have hlt : i < kvs.length := by rwa [← h.length]
    obtain ⟨hfp, -, -⟩ := Bucket.new_eq_ok
      (h.entry i _ _ (List.getElem?_eq_getElem hlt) (List.getElem?_eq_getElem hi))
    rw [Bucket.isEmpty, hfp]
    simpa using compactFingerprint_ne_zero _
  have hbuild : build fuel entries = some (.ok (table, retries)) := by
    cases hr : build fuel entries with
    | none =>
      rw [hr] at htable
      simp [V4.builtTable] at htable
    | some r =>
      rw [hr] at htable
      rw [← htable]
      rfl
  apply build_spec hfull hbuild

end

/-! ### What the operations do -/

section

variable {H : Hash} {seed : UInt64} {kvs : List Pair} {I : PartDir → Prop} {d : PartDir}
  {w : PartitionWriter}

/-- A partition that is being written is unfinished. -/
theorem Writing.unfinished (h : Writing H seed kvs w d) :
  Unfinished H seed kvs d
  := by
  obtain ⟨⟨c, hdata, hc⟩, ⟨c', entries, hspill, hentered, hc'⟩, -, -⟩ := h
  constructor
  · intro b hb
    obtain rfl : c = b := Option.some.inj (hdata.symm.trans hb)
    exact ⟨_, hc⟩
  · intro b hb
    obtain rfl : c' = b := Option.some.inj (hspill.symm.trans hb)
    exact ⟨kvs, entries, List.prefix_rfl, hentered, _, hc'⟩

/-- Creating the files: the old spill file is there until it is truncated. -/
theorem wp_newWriter (hI : I d) (hI₁ : I { d with data := some [] })
    (hI₂ : ∀ d', Unfinished H seed [] d' → I d') :
  wp (.none _) I (fun w d' => Writing H seed [] w d') (PartitionWriter.new seed) d
  := by
  have h₂ : Unfinished H seed [] { d with data := some [], spill := some [] } := by
    constructor
    · rintro _ ⟨⟩
      apply List.nil_prefix
    · rintro _ ⟨⟩
      exact ⟨[], [], List.prefix_rfl, entered_nil, List.nil_prefix⟩
  apply wp_bind
  apply wp_create hI hI₁
  apply wp_bind
  apply wp_create hI₁ (hI₂ _ h₂)
  apply wp_bind
  apply wp_bufWrite (hI₂ _ h₂)
  intro b flushed rest hb hflush
  obtain rfl : [] = b := Option.some.inj hb
  rw [List.nil_append] at hflush ⊢
  have hw : Writing H seed [] ⟨[], 0, rest, 0⟩ { d with data := some [], spill := some flushed } := by
    refine ⟨⟨[], rfl, rfl⟩, ⟨flushed, [], rfl, entered_nil, ?_⟩, rfl, rfl⟩
    rw [hflush]
    simp [encodeBuckets]
  refine ⟨hI₂ _ hw.unfinished, ?_⟩
  split
  · apply wp_throw (hI₂ _ hw.unfinished)
  · exact ⟨hI₂ _ hw.unfinished, hw⟩

/-- The write of a pair adds it, and until then there is nothing but a prefix on the disk. -/
theorem wp_write (kv : Pair) (hI : ∀ d', Unfinished H seed (kvs ++ [kv]) d' → I d')
    (h : Writing H seed kvs w d) :
  wp (.none _) I (fun w' d' => Writing H seed (kvs ++ [kv]) w' d')
    (w.write H seed kv.1 (fingerprint H kv.1) kv.2) d
  := by
  have hunf := h.unfinished.mono (List.prefix_append kvs [kv])
  obtain ⟨⟨c, hdata, hc⟩, ⟨c', entries, hspill, hentered, hc'⟩, hoff, hcount⟩ := h
  apply wp_bind
  apply wp_bufWrite (hI d hunf)
  intro b flushed rest hb hflush
  obtain rfl : c = b := Option.some.inj (hdata.symm.trans hb)
  have hdata' : (c ++ flushed) ++ rest = encodeValues H seed (kvs ++ [kv]) := by
    rw [List.append_assoc, hflush, ← List.append_assoc, hc, encodeValues_append]
  have hunf' : Unfinished H seed (kvs ++ [kv]) (setFile d .data (some (c ++ flushed))) := by
    refine ⟨?_, hunf.spill⟩
    rintro _ ⟨⟩
    exact ⟨rest, hdata'⟩
  refine ⟨hI _ hunf', ?_⟩
  apply wp_bind
  apply wp_ofExcept (hI _ hunf')
  intro bucket hbucket
  rw [hoff] at hbucket
  apply wp_bind
  apply wp_bufWrite (hI _ hunf')
  intro b flushed' rest' hb hflush'
  obtain rfl : c' = b := Option.some.inj (hspill.symm.trans hb)
  have hw : Writing H seed (kvs ++ [kv])
      ⟨rest, w.byteOffset + alignedSize (onDiskSize kv.2), rest', w.count + 1⟩
      { d with data := some (c ++ flushed), spill := some (c' ++ flushed') } := by
    refine ⟨⟨c ++ flushed, rfl, hdata'⟩, ⟨c' ++ flushed', entries ++ [bucket], rfl,
      hentered.snoc hbucket, ?_⟩, ?_, ?_⟩
    · rw [List.append_assoc, hflush', ← List.append_assoc, hc', encodeBuckets_append,
        List.append_assoc]
    · rw [dataEnd_append, hoff]
    · rw [List.length_append, List.length_singleton, hcount]
  exact ⟨hI _ hw.unfinished, hI _ hw.unfinished, hw⟩

/-- When the writer is finished, both files have all pairs. -/
theorem wp_finishData (hI : ∀ d', Unfinished H seed kvs d' → I d')
    (hI' : ∀ d', Spilled H seed kvs d' → I d') (h : Writing H seed kvs w d) :
  wp (.none _) I (fun _ d' => Spilled H seed kvs d') w.finishData d
  := by
  have hunf := h.unfinished
  obtain ⟨⟨c, hdata, hc⟩, ⟨c', entries, hspill, hentered, hc'⟩, -, hcount⟩ := h
  apply wp_bind
  apply wp_append (hI d hunf)
  intro b hb _
  obtain rfl : c = b := Option.some.inj (hdata.symm.trans hb)
  have hunf' : Unfinished H seed kvs (setFile d .data (some (c ++ w.dataPending))) := by
    refine ⟨?_, hunf.spill⟩
    rintro _ ⟨⟩
    simp only [hc, List.prefix_rfl]
  refine ⟨hI _ hunf', ?_⟩
  apply wp_bind
  apply wp_append (hI _ hunf')
  intro b hb hlen
  obtain rfl : c' = b := Option.some.inj (hspill.symm.trans hb)
  have hbound : entries.length < 2 ^ 64 := by
    rw [← List.length_append, hc', List.length_append, length_encodeBuckets] at hlen
    simp only [maxFileLen] at hlen
    omega
  have hunf'' : Unfinished H seed kvs { d with
      data := some (c ++ w.dataPending), spill := some (c' ++ w.spillPending) } := by
    refine ⟨hunf'.data, ?_⟩
    rintro _ ⟨⟩
    refine ⟨kvs, entries, List.prefix_rfl, hentered, ?_⟩
    simp only [hc', List.prefix_rfl]
  refine ⟨hI _ hunf'', ?_⟩
  apply wp_atomic (hI _ hunf'')
  intro _ d' hd'
  obtain ⟨-, rfl⟩ := Prod.mk.inj (Except.ok.inj hd')
  have hs : Spilled H seed kvs { d with
      data := some (c ++ w.dataPending)
      spill := some (overwriteCount (c' ++ w.spillPending) w.count) } := by
    refine ⟨?_, entries, hentered, hbound, ?_⟩
    · dsimp only
      rw [hc]
    · dsimp only
      rw [hc', overwriteCount_spillHeader, hcount, hentered.length]
  exact ⟨hI' _ hs, hs⟩

/-- Building the table of a finished partition. -/
theorem wp_buildIndex {Q : List Bucket × PartitionIndexDone → PartDir → Prop}
    (hsmall : ∀ kv ∈ kvs, Small kv.2) (hI : I d) (h : Spilled H seed kvs d)
    (hQ : ∀ table done, BuiltTable H seed kvs (encodeValues H seed kvs) table → Q (table, done) d) :
  wp (.none _) I Q buildIndex d
  := by
  obtain ⟨-, entries, hentered, hbound, hspill⟩ := h
  apply wp_bind
  apply wp_read hI
  split
  · next hnone =>
    rw [hspill] at hnone
    simp at hnone
  · next spill hsome =>
    have hrecords : SpillReader.records spill = .ok entries := by
      rw [← Option.some.inj (hspill.symm.trans hsome)]
      apply records_spillFile hbound
    apply wp_bind
    apply wp_ofExcept hI
    intro entries' hentries
    rw [hrecords] at hentries
    obtain rfl := Except.ok.inj hentries
    apply wp_bind
    apply wp_ofExcept hI
    intro _ _
    apply wp_bind
    apply wp_pick hI
    intro fuel
    apply wp_bind
    apply wp_ofExcept hI
    rintro ⟨table, retries⟩ htable
    obtain ⟨hfind, hperm⟩ := hentered.builtTable htable
    refine ⟨hI, hQ table _ ?_⟩
    exact ⟨hfind, entries, hperm, hentered.standsFor hsmall⟩

end

end V4
