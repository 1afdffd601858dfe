import Mcfreeze.V4.Writer
import Mcfreeze.Format.Builder
import Mcfreeze.Lib.XxHash

/-!
# The V4 builder

`V4Builder` (`v4/builder.rs`) and `SnapshotFinalizer` (`v4/writer.rs`): the tables of all
partitions are built at the same time from the spill files and written to `index.all`;
`index.done` is written, the spill files are deleted, and `meta.json` is written.  Unlike
the markers of V5, the two documents are written in place.
-/

open Format Crash Files

namespace V4

open Bytes

/-- The partition directories of a root directory. -/
def partDirs : Parts DirName Dir PartDir where
  get name d := d.part name
  put name t d := { d with part := fun name' => if name' = name then t else d.part name' }
  get_put _ _ _ := if_pos rfl
  put_get name d := by
    have hpart : (fun name' => if name' = name then d.part name else d.part name') = d.part := by
      funext name'
      split
      · next h => rw [h]
      · rfl
    rw [hpart]
  get_put_ne _ _ _ _ h := if_neg h

/-- The builds of the tables, which run at the same time. -/
abbrev BuildTasks := Tasks DirName PartDir Error (List Bucket × PartitionIndexDone)

/-- A program over the root directory, which may contain further phases in `S`. -/
abbrev Root (S : Type) := Prog Dir Error (BuildTasks ⊕ S)

/-- The data file of the root directory. -/
inductive RootFile where
  | indexAll
  deriving DecidableEq, Repr

instance : FileStore Dir RootFile where
  file d _ := d.indexAll
  setFile d _ contents := { d with indexAll := contents }
  file_setFile _ _ _ := rfl
  file_setFile_ne _ _ _ h _ := absurd rfl h
  setFile_setFile _ _ _ _ := rfl

section

variable {S : Type}

/-! ### The unified index -/

/-- Extend the index file with zeros. -/
def setLen (len : Nat) : Root S Unit :=
  .atomic fun d =>
    match d.indexAll with
    | none => .error (.io "index.all")
    | some b =>
      if maxFileLen < len then .error (.io "File too large")
      else .ok ((), { d with indexAll := some (b ++ List.replicate (len - b.length) 0) })

/-- Pad the file after a table, unless it is the last one. -/
def padTo (last : Bool) (fileOffset : Nat) : Root S Nat :=
  if ¬ last ∧ fileOffset % indexAlignment ≠ 0 then do
    setLen (alignIndex fileOffset)
    return alignIndex fileOffset
  else return fileOffset

/-- Write the tables one after the other. -/
def writeTables : List (List Bucket) → Nat → Root S UnifiedIndexInfo
  | [], _ => return ⟨[], []⟩
  | t :: tables, fileOffset => do
    let pending ← bufWrite .indexAll [] (encodeBuckets t)
    append .indexAll pending
    let next ← padTo tables.isEmpty (fileOffset + (encodeBuckets t).length)
    let info ← writeTables tables next
    return ⟨fileOffset :: info.offsets, t.length :: info.nBuckets⟩

/-- Write `index.all`. -/
def writeUnifiedIndex (tables : List (List Bucket)) : Root S UnifiedIndexInfo := do
  create .indexAll
  writeTables tables 0

/-! ### The metadata -/

/-- The contents of `meta.json`. -/
def metaOf (verifySeed : UInt64) (info : UnifiedIndexInfo) : Meta :=
  { formatVersion := V4.formatVersion, hashAlgorithm := Format.hashAlgorithm
    verifySeed := verifySeed
    partitions := List.zipWith PartitionMeta.mk info.offsets info.nBuckets }

/-- Write `meta.json` in place. -/
def writeMeta (verifySeed : UInt64) (info : UnifiedIndexInfo) : Root S Unit := do
  .modify fun d => { d with metaJson := some .torn }
  .modify fun d => { d with metaJson := some (.whole (metaOf verifySeed info)) }

/-! ### The builder -/

structure V4Builder where
  layout : Layout
  verifySeed : UInt64

def V4Builder.new (nPartitions : Nat) (verifySeed : UInt64) : Except Error V4Builder :=
  match Layout.new nPartitions with
  | .error e => .error e
  | .ok layout => .ok ⟨layout, verifySeed⟩

namespace V4Builder

variable (b : V4Builder)

/-- The directory of a partition. -/
def dirOf (p : Nat) : DirName :=
  partitionDir b.layout.nPartitions p

/-- The contents of `index.done`; `indexBytes` is the length of `index.all`. -/
def indexDoneOf (partitions : List PartitionIndexDone) (info : UnifiedIndexInfo) (indexBytes : Nat) :
    IndexDone :=
  { nKeys := (partitions.map (·.nKeys)).sum
    nBuckets := (partitions.map (·.nBuckets)).sum
    nOverflowPartitions := (partitions.filter fun p => 0 < p.retries).length
    totalRetries := (partitions.map (·.retries)).sum
    indexBytes := indexBytes
    partitions := partitions
    indexOffsets := info.offsets
    indexNBuckets := info.nBuckets }

/-- Build the tables of all partitions at the same time. -/
def buildTables : Root S (List (List Bucket × PartitionIndexDone)) := do
  let ended ← Prog.await (.inl ((partitionDirs b.layout.nPartitions).map fun name =>
    (name, buildIndex)))
  match ended with
  | .inl tasks => Prog.ofExcept tasks.results
  | .inr _ => Prog.throw (.panic "not a build")

/-- Delete the spill files. -/
def removeSpills : Root S Unit :=
  (partitionDirs b.layout.nPartitions).forM fun name => removeSpill.lift partDirs name

/-- Write `index.done` in place. -/
def writeIndexDone (done : IndexDone) : Root S Unit := do
  .modify fun d => { d with indexDone := some .torn }
  .modify fun d => { d with indexDone := some (.whole done) }

/-- Build the index, or take over the one that is built; the result is what `finalize`
needs, and the number of keys. -/
def build : Root S (UnifiedIndexInfo × Nat) := do
  let d ← Prog.read
  match d.indexDone with
  | some .torn => .throw (.json "index.done")
  | some (.whole done) =>
    b.removeSpills
    return (⟨done.indexOffsets, done.indexNBuckets⟩, done.nKeys)
  | none =>
    let results ← b.buildTables
    let info ← writeUnifiedIndex (results.map Prod.fst)
    let d ← Prog.read
    let done := indexDoneOf (results.map Prod.snd) info ((d.indexAll.getD []).length)
    writeIndexDone done
    b.removeSpills
    return (info, done.nKeys)

/-- Write the metadata. -/
def finalize (info : UnifiedIndexInfo) : Root S Unit :=
  writeMeta b.verifySeed info

/-- What a load does after scatter: build, write the metadata, and remove the sentinels
(`SnapshotLoader::finalize`). -/
def finalizeLoad : Root S Nat := do
  let (info, nKeys) ← b.build
  b.finalize info
  .modify fun d => { d with scatterDone := none }
  .modify fun d => { d with indexDone := none }
  return nKeys

end V4Builder

end

/-! ### What the index holds -/

/-- The pairs that were scattered to each partition, with the layout and the seed that all
runs share. -/
structure Load where
  layout : Layout
  seed : UInt64
  pairs : Nat → List Pair

/-- The values fit the length fields of the format. -/
def Load.Fits (L : Load) : Prop :=
  ∀ p < L.layout.nPartitions, ∀ kv ∈ L.pairs p, Small kv.2

/-- The directory of a partition of the load. -/
def Load.dir (L : Load) (p : Nat) (d : Dir) : PartDir :=
  d.part (partitionDir L.layout.nPartitions p)

/-- Every partition has its values and its entries. -/
def Scattered (H : Hash) (L : Load) (d : Dir) : Prop :=
  ∀ p < L.layout.nPartitions, Spilled H L.seed (L.pairs p) (L.dir p d)

/-- Every partition has its values. -/
def HasData (H : Hash) (L : Load) (d : Dir) : Prop :=
  ∀ p < L.layout.nPartitions, (L.dir p d).data = some (encodeValues H L.seed (L.pairs p))

/-- The tables of all partitions. -/
structure TablesOf (H : Hash) (L : Load) (tables : List (List Bucket)) : Prop where
  length : tables.length = L.layout.nPartitions
  built : ∀ p t, tables[p]? = some t →
    BuiltTable H L.seed (L.pairs p) (encodeValues H L.seed (L.pairs p)) t

/-- Where the tables are, when they are written to an empty file. -/
def infoOf (tables : List (List Bucket)) : UnifiedIndexInfo :=
  ⟨(appendTables tables []).2.1, (appendTables tables []).2.2⟩

section

variable {S : Type} {R : Phases S Dir} {H : Hash} {L : Load} {I : Dir → Prop} {d : Dir}
  {tables : List (List Bucket)}

/-- The phases of a run: the builds of the tables, and whatever else there is. -/
abbrev phases (R : Phases S Dir) : Phases (BuildTasks ⊕ S) Dir :=
  (partDirs.tasks Error (List Bucket × PartitionIndexDone)).sum R

/-- The metadata of the tables describes them. -/
theorem TablesOf.describes (h : TablesOf H L tables) (hcount : L.layout.nPartitions < 2 ^ 32)
    (hdata : HasData H L d) (hindex : d.indexAll = some (appendTables tables []).1)
    (hlen : (appendTables tables []).1.length ≤ maxFileLen) :
  Describes H L.layout L.seed L.pairs d (metaOf L.seed (infoOf tables)) (appendTables tables []).1
  := by
  obtain ⟨hoffsets, hcounts⟩ := length_appendTables tables []
  have hlength : (metaOf L.seed (infoOf tables)).partitions.length = L.layout.nPartitions := by
    simp only [metaOf, infoOf, List.length_zipWith, hoffsets, hcounts, Nat.min_self, h.length]
  refine ⟨rfl, rfl, rfl, hlength, hcount, hindex, hlen, ?_⟩
  intro i pm hpm
  have hi : i < L.layout.nPartitions := by
    rw [← hlength]
    apply (List.getElem?_eq_some_iff.mp hpm).1
  simp only [metaOf, infoOf, List.getElem?_zipWith_eq_some] at hpm
  obtain ⟨offset, n, hoffset, hn, rfl⟩ := hpm
  obtain ⟨t, ht, hle, hcast⟩ := appendTables_table hoffset hn
  have halign : offset % bucketAlign = 0 := by
    have hmultiple : offset % indexAlignment = 0 := appendTables_aligned rfl hoffset
    simp only [indexAlignment, bucketAlign] at hmultiple ⊢
    omega
  refine ⟨_, hdata i hi, hle, halign, ?_⟩
  dsimp only
  rw [hcast]
  apply h.built i t ht

/-- Padding after a table. -/
theorem wp_padTo {file : Bytes} (last : Bool) (hI : ∀ c, I { d with indexAll := some c })
    (hd : d.indexAll = some file) (hlen : file.length ≤ maxFileLen) :
  wp (phases R) I
    (fun next d' => d' = { d with indexAll := some (padIndex file last) }
      ∧ next = (padIndex file last).length ∧ (padIndex file last).length ≤ maxFileLen)
    (padTo last file.length) d
  := by
  have heta : { d with indexAll := some file } = d := by rw [← hd]
  have hId : I d := by
    rw [← heta]
    apply hI
  rw [padTo, padIndex]
  split
  · apply wp_bind
    apply wp_atomic hId
    intro _ d' h
    rw [hd] at h
    dsimp only at h
    split at h
    · simp at h
    · next hmax =>
      obtain ⟨-, rfl⟩ := Prod.mk.inj (Except.ok.inj h)
      have hle : file.length ≤ alignIndex file.length := by
        simp only [alignIndex, indexAlignment]
        omega
      refine ⟨hI _, hI _, rfl, ?_, ?_⟩
      · rw [List.length_append, List.length_replicate]
        omega
      · rw [List.length_append, List.length_replicate]
        omega
  · exact ⟨hId, heta.symm, rfl, hlen⟩

/-- Writing the tables behind each other. -/
theorem wp_writeTables {file : Bytes} (hI : ∀ c, I { d with indexAll := some c })
    (hd : d.indexAll = some file) (hlen : file.length ≤ maxFileLen) :
  wp (phases R) I
    (fun info d' => d' = { d with indexAll := some (appendTables tables file).1 }
      ∧ info = ⟨(appendTables tables file).2.1, (appendTables tables file).2.2⟩
      ∧ (appendTables tables file).1.length ≤ maxFileLen)
    (writeTables tables file.length) d
  := by
  induction tables generalizing d file with
  | nil =>
    have heta : { d with indexAll := some file } = d := by rw [← hd]
    refine ⟨?_, heta.symm, rfl, hlen⟩
    rw [← heta]
    apply hI
  | cons t tables ih =>
    have hId : I d := by
      have heta : { d with indexAll := some file } = d := by rw [← hd]
      rw [← heta]
      apply hI
    apply wp_bind
    apply wp_bufWrite hId
    intro b flushed rest hb hflush
    obtain rfl : file = b := Option.some.inj (hd.symm.trans hb)
    rw [List.nil_append] at hflush
    refine ⟨hI _, ?_⟩
    apply wp_bind
    apply wp_append (hI _)
    intro b hb hmax
    obtain rfl : file ++ flushed = b := Option.some.inj hb
    refine ⟨hI _, ?_⟩
    have hfile : file ++ flushed ++ rest = file ++ encodeBuckets t := by
      rw [List.append_assoc, hflush]
    rw [← List.length_append, hfile] at hmax
    rw [hfile, ← List.length_append]
    apply wp_bind
    apply wp_mono (wp_padTo (d := { d with indexAll := some (file ++ encodeBuckets t) })
      tables.isEmpty (fun c => hI c) rfl hmax)
    rintro _ d₁ - ⟨rfl, rfl, hpadded⟩
    apply wp_bind
    apply wp_mono (ih (d := { d with indexAll := some (padIndex (file ++ encodeBuckets t) _) })
      (fun c => hI c) rfl hpadded)
    rintro info d₂ hd₂ ⟨rfl, rfl, hwritten⟩
    exact ⟨hd₂, rfl, rfl, hwritten⟩

/-- Writing the index file anew. -/
theorem wp_writeUnifiedIndex (hI : I d) (hI' : ∀ c, I { d with indexAll := some c }) :
  wp (phases R) I
    (fun info d' => d' = { d with indexAll := some (appendTables tables []).1 }
      ∧ info = infoOf tables ∧ (appendTables tables []).1.length ≤ maxFileLen)
    (writeUnifiedIndex tables) d
  := by
  apply wp_bind
  apply wp_create hI (hI' _)
  have hwrite : wp (phases R) I _ (writeTables tables ([] : Bytes).length)
      { d with indexAll := some [] } := wp_writeTables (fun c => hI' c) rfl (Nat.zero_le _)
  apply wp_mono hwrite
  rintro info d' - ⟨rfl, rfl, hlen⟩
  exact ⟨rfl, rfl, hlen⟩

/-! ### Runs without failures -/

/-- The padding ends when the padded file is not too long. -/
theorem ends_padTo {Q : Nat → Dir → Prop} {file : Bytes} {last : Bool} (hd : d.indexAll = some file)
    (hfit : (padIndex file last).length ≤ maxFileLen)
    (hQ : Q (padIndex file last).length { d with indexAll := some (padIndex file last) }) :
  Crash.Ends Q (padTo last file.length : Root S Nat) d
  := by
  rw [padIndex] at hfit hQ
  rw [padTo]
  split
  · next hpad =>
    rw [if_pos hpad] at hfit hQ
    have hle : file.length ≤ alignIndex file.length := by
      simp only [alignIndex, indexAlignment]
      omega
    rw [List.length_append, List.length_replicate, Nat.add_sub_cancel' hle] at hfit hQ
    apply Ends.bind
    apply Ends.atomic
    · rw [hd]
      dsimp only
      rw [if_neg (Nat.not_lt.mpr hfit)]
    · apply hQ
  · next hpad =>
    rw [if_neg hpad, ← hd] at hQ
    apply hQ

/-- The tables are written if they fit into a file. -/
theorem ends_writeTables {file : Bytes} (hd : d.indexAll = some file)
    (hfit : (appendTables tables file).1.length ≤ maxFileLen) :
  Crash.Ends (fun _ _ => True) (writeTables tables file.length : Root S UnifiedIndexInfo) d
  := by
  induction tables generalizing d file with
  | nil => trivial
  | cons t tables ih =>
    rw [appendTables] at hfit
    obtain ⟨rest, hrest⟩ := appendTables_append tables (padIndex (file ++ encodeBuckets t) tables.isEmpty)
    have hpadded : (padIndex (file ++ encodeBuckets t) tables.isEmpty).length ≤ maxFileLen := by
      dsimp only at hfit
      rw [hrest, List.length_append] at hfit
      omega
    have hwritten : (file ++ encodeBuckets t).length ≤ maxFileLen :=
      (length_le_padIndex _ _).trans hpadded
    apply Ends.bind
    apply ends_bufWrite (f := RootFile.indexAll) hd
    · rwa [List.nil_append, ← List.length_append]
    intro flushed pending hflush
    rw [List.nil_append] at hflush
    have hfile : file ++ flushed ++ pending = file ++ encodeBuckets t := by
      rw [List.append_assoc, hflush]
    apply Ends.bind
    apply ends_append (b := file ++ flushed) (file_setFile _ _ _)
    · rwa [← List.length_append, hfile]
    rw [setFile_setFile, hfile, ← List.length_append]
    apply Ends.bind
    apply ends_padTo rfl hpadded
    apply Ends.bind
    apply (ih rfl hfit).mono
    intro _ _ _
    trivial

end

/-! ### The builder as the loader sees it -/

/-- Whether scatter completed for a partition; `indexed` says whether there is an index
file. -/
def scatterProbe (indexed : Bool) (d : PartDir) : Except Error (Option ScatterProbe) :=
  match d.data with
  | none => .ok none
  | some data =>
    match d.spill with
    | some spill =>
      match SpillReader.open spill with
      | .error e => .error e
      | .ok nKeys => .ok (some ⟨nKeys, data.length⟩)
    | none => if indexed then .ok (some ⟨0, data.length⟩) else .ok none

def rootDir : RootDir Dir PartDir where
  parts := partDirs
  scatterDone := Dir.scatterDone
  setScatterDone done d := { d with scatterDone := some done }
  scatterDone_set _ _ := rfl
  scatterDone_put _ _ _ := rfl
  get_set _ _ _ := rfl

/-- `V4Builder` behind the seam. -/
def V4Builder.formatBuilder (H : Hash) (b : V4Builder) :
    FormatBuilder Dir PartDir PartitionWriter where
  format := .v4
  layout := b.layout
  hash := H
  root := rootDir
  appender := PartitionWriter.new b.verifySeed
  append w key fp value := w.write H b.verifySeed key fp value
  finish := PartitionWriter.finishData
  scatterProbe p d := scatterProbe d.indexAll.isSome (d.part (b.dirOf p))

/-- A partition gets a value and an entry for each record, and is finished when the number
of entries is filled in. -/
def appenderSpec (H : Hash) (b : V4Builder) : AppenderSpec (b.formatBuilder H) where
  opened := Writing H b.verifySeed
  torn := Unfinished H b.verifySeed
  closed := Spilled H b.verifySeed
  torn_of_opened h := h.unfinished
  append kv h := wp_write kv (fun _ h => h) h
  finish h := wp_finishData (fun _ => Or.inl) (fun _ => Or.inr) h

/-! ### A whole snapshot -/

/-- Build the tables of some partitions one after the other. -/
def buildIndexes {S : Type} : List DirName → Root S (List (List Bucket))
  | [] => return []
  | name :: names => do
    let (table, _) ← buildIndex.lift partDirs name
    let tables ← buildIndexes names
    return table :: tables

/-- `SnapshotFinalizer::finish`. -/
def V4Builder.finish {S : Type} (b : V4Builder) : Root S Unit := do
  let tables ← buildIndexes (partitionDirs b.layout.nPartitions)
  let info ← writeUnifiedIndex tables
  writeMeta b.verifySeed info
  b.removeSpills

/-- Write a snapshot of the pairs (`SnapshotWriter`). -/
def writeSnapshot (H : Hash) (b : V4Builder) (kvs : List Pair) : Root Empty Unit := do
  (b.formatBuilder H).writePairs kvs
  b.finish

section

variable {S : Type} {R : Phases S Dir} {H : Hash} {L : Load} {b : V4Builder} {I : Dir → Prop}
  {d : Dir} {kvs : List Pair} {tables : List (List Bucket)}

theorem part_put (n p q : Nat) (t : PartDir) (d : Dir) :
  (partDirs.put (partitionDir n p) t d).part (partitionDir n q)
    = if q = p then t else d.part (partitionDir n q)
  := by
  apply get_put_partitionDir partDirs

/-- What the build of a table gives. -/
def BuiltFor (H : Hash) (L : Load) (name : DirName) (table : List Bucket) : Prop :=
  ∀ p < L.layout.nPartitions, partitionDir L.layout.nPartitions p = name →
    BuiltTable H L.seed (L.pairs p) (encodeValues H L.seed (L.pairs p)) table

/-- The build of a table changes nothing. -/
theorem wp_buildIndex_of_scattered (hL : L.Fits) (h : Scattered H L d) {name : DirName}
    (hname : name ∈ partitionDirs L.layout.nPartitions) :
  wp (.none _) (fun t => t = d.part name)
    (fun r t => t = d.part name ∧ BuiltFor H L name r.1) buildIndex (d.part name)
  := by
  obtain ⟨p, hp, rfl⟩ := exists_of_mem_partitionDirs hname
  have hspilled : Spilled H L.seed (L.pairs p) (d.part (partitionDir L.layout.nPartitions p)) := h p hp
  apply wp_buildIndex (I := fun t => t = d.part (partitionDir L.layout.nPartitions p)) (hL p hp) rfl
    hspilled
  intro table done htable
  refine ⟨rfl, ?_⟩
  intro q hq heq
  rw [partitionDir_injective heq]
  apply htable

/-- The tables in the order of the directories are those of the partitions. -/
theorem tablesOf_of_builtFor (h : List.Forall₂ (BuiltFor H L) (partitionDirs L.layout.nPartitions) tables) :
  TablesOf H L tables
  := by
  have hlength : tables.length = L.layout.nPartitions := by
    rw [← h.length_eq, partitionDirs, List.length_map, List.length_range]
  refine ⟨hlength, ?_⟩
  intro p t ht
  have hp : p < L.layout.nPartitions := by
    rw [← hlength]
    apply (List.getElem?_eq_some_iff.mp ht).1
  have hname : (partitionDirs L.layout.nPartitions)[p]?
      = some (partitionDir L.layout.nPartitions p) := by
    simp [partitionDirs, hp]
  apply h.of_getElem? hname ht p hp rfl

/-- Each partition that is scattered gives its table. -/
theorem wp_buildIndexes (hL : L.Fits) (hI : I d) (h : Scattered H L d) (names : List DirName)
    (hnames : ∀ name ∈ names, name ∈ partitionDirs L.layout.nPartitions) :
  wp (phases R) I (fun tables d' => d = d' ∧ List.Forall₂ (BuiltFor H L) names tables)
    (buildIndexes names) d
  := by
  induction names with
  | nil => exact ⟨hI, rfl, .nil⟩
  | cons name names ih =>
    apply wp_bind
    apply wp_lift (J := fun t => t = d.part name) (G := fun d' => d = d')
      (R := fun r t => t = d.part name ∧ BuiltFor H L name r.1)
    · rintro _ rfl _
      apply hI
    · rintro t _ rfl _ rfl
      exact (partDirs.put_get name d).symm
    · rintro ⟨table, done⟩ _ rfl _ ⟨-, htable⟩
      apply wp_bind
      apply wp_mono (ih fun name' h => hnames name' (List.mem_cons_of_mem _ h))
      rintro tables _ - ⟨rfl, htables⟩
      exact ⟨hI, rfl, .cons htable htables⟩
    · rfl
    · apply wp_buildIndex_of_scattered hL h (hnames name List.mem_cons_self)

/-- Deleting spill files leaves the values. -/
theorem wp_removeSpills (hb : b.layout = L.layout) {G : Dir → Prop}
    (hG : ∀ k t d, G d → G (partDirs.put k t d)) (hI : ∀ d, G d → HasData H L d → I d) (h : G d)
    (hdata : HasData H L d) :
  wp (phases R) I (fun _ d' => G d' ∧ HasData H L d') b.removeSpills d
  := by
  rw [V4Builder.removeSpills, hb]
  have hloop := wp_forM (P := phases R) (I := I) (f := fun name => removeSpill.lift partDirs name)
    (R := fun rest d => (∀ name ∈ rest, name ∈ partitionDirs L.layout.nPartitions)
      ∧ G d ∧ HasData H L d)
    (fun _ d hd => hI d hd.2.1 hd.2.2)
    (by
      rintro name rest d ⟨hnames, hG', hdata⟩
      obtain ⟨p, hp, rfl⟩ := exists_of_mem_partitionDirs (hnames name List.mem_cons_self)
      apply wp_lift (J := fun t => t.data = some (encodeValues H L.seed (L.pairs p)))
        (R := fun _ _ => True) (G := fun d => G d ∧ HasData H L d)
      · intro d hd _
        apply hI d hd.1 hd.2
      · rintro t d ⟨hG', hdata⟩ _ ht
        refine ⟨hG _ t d hG', ?_⟩
        intro q hq
        rw [Load.dir, part_put]
        split
        · next heq =>
          rw [heq]
          apply ht
        · apply hdata q hq
      · intro _ d hd _ _
        exact ⟨fun name h => hnames name (List.mem_cons_of_mem _ h), hd⟩
      · exact ⟨hG', hdata⟩
      · have hp' : (d.part (partitionDir L.layout.nPartitions p)).data
            = some (encodeValues H L.seed (L.pairs p)) := hdata p hp
        apply wp_remove (d := d.part (partitionDir L.layout.nPartitions p)) hp' hp' trivial)
    _ _ ⟨fun name h => h, h, hdata⟩
  apply wp_mono hloop
  rintro _ d' - ⟨-, hd'⟩
  apply hd'

theorem Scattered.hasData (h : Scattered H L d) :
  HasData H L d
  := by
  intro p hp
  apply (h p hp).data

/-- Writing a snapshot to the end leaves it complete. -/
theorem wp_writeSnapshot (hcount : b.layout.nPartitions < 2 ^ 32) (hsmall : ∀ kv ∈ kvs, Small kv.2) :
  wp (phases (.none Dir)) (fun _ => True)
    (fun _ d' => Complete H b.layout b.verifySeed (pairsOf H b.layout kvs) d')
    (writeSnapshot H b kvs) d
  := by
  let L : Load := ⟨b.layout, b.verifySeed, pairsOf H b.layout kvs⟩
  have hL : L.Fits := fun p _ kv hkv => hsmall kv (mem_pairsOf.mp hkv).1
  have hwrite : wp (phases (.none Dir)) (fun _ => True) _ ((b.formatBuilder H).writePairs kvs) d :=
    wp_writePairs (G := fun _ => True) (C := fun _ _ => True) (appenderSpec H b) kvs
      (fun _ _ _ _ => trivial)
      (fun _ _ _ _ => wp_newWriter (H := H) trivial trivial (fun _ _ => trivial))
      trivial (fun _ _ => trivial)
  apply wp_bind
  apply wp_mono hwrite
  rintro _ d - ⟨-, hscattered⟩
  have hs : Scattered H L d := hscattered
  apply wp_bind
  apply wp_mono (wp_buildIndexes hL trivial hs _ fun _ h => h)
  rintro tables _ - ⟨rfl, htables⟩
  have ht : TablesOf H L tables := tablesOf_of_builtFor htables
  apply wp_bind
  apply wp_mono (wp_writeUnifiedIndex trivial (fun _ => trivial))
  rintro _ _ - ⟨rfl, rfl, hlen⟩
  apply wp_bind
  apply wp_bind
  apply wp_modify trivial trivial
  apply wp_modify trivial trivial
  have hdata : HasData H L { d with
      indexAll := some (appendTables tables []).1
      metaJson := some (.whole (metaOf L.seed (infoOf tables))) } := hs.hasData
  apply wp_mono (wp_removeSpills (H := H) (L := L) rfl
    (G := fun d => d.indexAll = some (appendTables tables []).1
      ∧ d.metaJson = some (.whole (metaOf L.seed (infoOf tables))))
    (fun _ _ _ h => h) (fun _ _ _ => trivial) ⟨rfl, rfl⟩ hdata)
  rintro _ d' - ⟨⟨hindex, hmeta⟩, hdata⟩
  exact ⟨_, _, hmeta, ht.describes hcount hdata hindex hlen⟩

theorem ends_removeSpills :
  Crash.Ends (fun _ _ => True) (b.removeSpills : Root S Unit) d
  := by
  have hloop := Ends.forM (S := BuildTasks ⊕ S) (f := fun name => removeSpill.lift partDirs name)
    (R := fun (_ : List DirName) (_ : Dir) => True)
    (fun name _ d _ => Ends.lift (L := partDirs) (k := name) (Q := fun _ _ => True) trivial)
  apply hloop _ d trivial

/-- When the tables are built and fit into a file, the snapshot can be finished. -/
theorem steps_finish {d' : Dir} (hfit : (appendTables tables []).1.length ≤ maxFileLen)
    (hbuilt : Prog.Steps (phases R) (buildIndexes (partitionDirs b.layout.nPartitions)) d
      (.done (.ok tables)) d') :
  ∃ d'', Prog.Steps (phases R) b.finish d (.done (.ok ())) d''
  := by
  have hends : Crash.Ends (fun _ _ => True)
      (do
        let info ← writeUnifiedIndex tables
        writeMeta b.verifySeed info
        b.removeSpills : Root S Unit) d' := by
    apply Ends.bind
    apply Ends.bind
    apply ends_create
    apply (ends_writeTables rfl hfit).mono
    intro info d₁ _
    apply Ends.bind
    apply ends_removeSpills
  obtain ⟨_, d'', hsteps, -⟩ := hends.steps
  exact ⟨d'', hbuilt.bind_ok hsteps⟩

end

/-- Write a snapshot of the pairs and read it back: if every operation returns, the
snapshot opens, finds the value of every pair, and misses every other key, without reading
a data file exactly if no stored key of the partition has the compact fingerprint. -/
theorem written_serves {H : Hash} {nPartitions : Nat} (hcount : nPartitions < 2 ^ 32)
    {seed : UInt64} {b : V4Builder} (hnew : V4Builder.new nPartitions seed = .ok b)
    {kvs : List Pair} (hkeys : (kvs.map Prod.fst).Nodup)
    (hvalues : ∀ kv ∈ kvs, kv.2.length ≤ defaultMaxValueBytes)
    (hcoll : NoCollisions H b.layout seed kvs) {d₀ d : Dir}
    (hrun : Prog.Steps (phases (.none Dir)) (writeSnapshot H b kvs) d₀ (.done (.ok ())) d) :
  Serves H b.layout seed kvs d
  := by
  rw [V4Builder.new] at hnew
  split at hnew
  · simp at hnew
  · next layout hlayout =>
    obtain rfl := Except.ok.inj hnew
    obtain rfl := Layout.new_eq_ok hlayout
    have hcomplete := wp_steps
      (wp_writeSnapshot hcount (fun kv hkv => small_of_le (hvalues kv hkv))) hrun
    apply hcomplete.2.serves (fun p _ => List.Perm.refl _) hkeys hcoll

/-- The real hash function. -/
def xxHash : Hash := ⟨XxHash.xxh64⟩

/-- A builder for one partition. -/
def oneBuilder : V4Builder := ⟨.one, defaultVerifySeed⟩

/-- A key and its value. -/
def onePair : List Pair := [([0x6b, 0x65, 0x79], [0x76, 0x61, 0x6c, 0x75, 0x65])]

/-- A builder for two partitions. -/
def twoBuilder : V4Builder := ⟨.two, defaultVerifySeed⟩

/-- The values and entries of four pairs are written. -/
def fourScattered : Option (Except Error Unit × Dir) :=
  let write : Root Empty Unit := (twoBuilder.formatBuilder xxHash).writePairs fourPairs
  write.exec partDirs Prog.noPhases 1 Dir.empty

/-- The tables of the two partitions. -/
def twoBuilt (d : Dir) : Option (Except Error (List (List Bucket)) × Dir) :=
  let build : Root Empty (List (List Bucket)) := buildIndexes (partitionDirs 2)
  build.exec partDirs Prog.noPhases 1 d

/-- Four pairs, two for each partition. -/
theorem written_serves_two :
  (∀ p < 2, (pairsOf xxHash .two fourPairs p).length = 2)
    ∧ ∃ d, Prog.Steps (phases (.none Dir)) (writeSnapshot xxHash twoBuilder fourPairs) Dir.empty
        (.done (.ok ())) d
      ∧ Serves xxHash .two defaultVerifySeed fourPairs d
  := by
  refine ⟨by decide +kernel, ?_⟩
  have hruns : (fourScattered.bind fun x => (twoBuilt x.2).map fun y =>
      (x.1, y.1.map (List.map List.length))) = some (.ok (), .ok [3, 3]) := by
    decide +kernel
  obtain ⟨⟨r₁, d₁⟩, hscatter, hrest⟩ := Option.bind_eq_some_iff.mp hruns
  obtain ⟨⟨r₂, d₂⟩, hbuild, hresults⟩ := Option.map_eq_some_iff.mp hrest
  obtain ⟨rfl, hbuckets⟩ := Prod.mk.inj hresults
  obtain ⟨tables, rfl, hlengths⟩ : ∃ tables, r₂ = .ok tables ∧ tables.map List.length = [3, 3] := by
    cases r₂ with
    | ok tables => exact ⟨tables, rfl, Except.ok.inj hbuckets⟩
    | error e => simp [Except.map] at hbuckets
  have hfit : (appendTables tables []).1.length ≤ maxFileLen := by
    have hle := length_appendTables_le tables []
    have hsizes : (tables.map fun t => t.length * 8 + indexAlignment)
        = [3 * 8 + indexAlignment, 3 * 8 + indexAlignment] := by
      have h := congrArg (List.map fun n => n * 8 + indexAlignment) hlengths
      rwa [List.map_map] at h
    rw [hsizes] at hle
    apply hle.trans
    decide
  have hwritten : Prog.Steps (phases (.none Dir)) _ _ _ _ :=
    Prog.steps_of_exec (Prog.noPhases_schedules _) hscatter
  obtain ⟨d, hfinish⟩ := steps_finish (R := .none Dir) (b := twoBuilder) hfit
    (Prog.steps_of_exec (Prog.noPhases_schedules _) hbuild)
  have hrun : Prog.Steps (phases (.none Dir)) (writeSnapshot xxHash twoBuilder fourPairs) Dir.empty
      (.done (.ok ())) d := hwritten.bind_ok hfinish
  refine ⟨d, hrun, ?_⟩
  have hnew : V4Builder.new 2 defaultVerifySeed = .ok twoBuilder := rfl
  have hcoll : NoCollisions xxHash .two defaultVerifySeed fourPairs := by
    unfold NoCollisions Format.NoCollisions Format.Distinguished
    decide +kernel
  exact written_serves (by decide) hnew (by decide) (by decide) hcoll hrun

end V4
