import Mcfreeze.Lib.Serde
import Mcfreeze.V4.Document
import Mcfreeze.V5.Meta

/-!
# Snapshot descriptions

`meta.json` as text: the builders print it (`write_meta` in `v4/writer.rs`, `finalize` in
`v5/builder.rs`), the command line reads it, puts the protobuf descriptor in and prints it
again (`patch_meta_descriptor` in `mcfreeze-cli/src/load.rs`), and opening a snapshot loads
it (`SnapshotDesc::load` in `desc.rs`) in two stages, first the version and then the payload
of that version.

Whatever was printed and however often it was patched, it loads with all its fields.  Only
the doubles of the statistics may have changed, as often as they were printed and parsed.
-/

open Format

namespace Format.Desc

open Json (field required orNone orDefault decodeStr decodeBool decodeUInt decodeOption decodeVec
  decodeValue)

/-! ### Payloads -/

/-- The metadata of a version with what is in `meta.json` beside it. -/
structure Payload (M : Type) where
  metadata : M
  stats : Option V4.Stats
  encoding : Option Json

/-- Parsed per-version metadata. -/
inductive VersionedMeta where
  | v4 (p : Payload V4.Meta)
  | v5 (p : Payload V5.Meta)

/-! ### Printing -/

def sketchJson (kind : String) : Json := .obj [("kind", .str kind)]

def compressionMembers (c : V5.CompressionMeta) : List (String × Json) :=
  [("codec", .str c.codec), ("dict", .bool c.dict)]
    ++ V4.optionalMember "dict_checksum" (c.dictChecksum.map fun n => .num n.toNat)
    ++ [("min_compress_len", .num c.minCompressLen)]
    ++ V4.optionalMember "zstd_version" (c.zstdVersion.map .str)

def compressionJson (c : V5.CompressionMeta) : Json := .obj (compressionMembers c)

def partitionMembers (p : V5.PartitionMeta) : List (String × Json) :=
  [("n_blocks", .num p.nBlocks)]
    ++ V4.optionalMember "sketch_checksum" (p.sketchChecksum.map fun n => .num n.toNat)

def partitionJson (p : V5.PartitionMeta) : Json := .obj (partitionMembers p)

/-- The members of the metadata of a V4 snapshot. -/
def v4Members (m : V4.Meta) : List (String × Json) :=
  [("format_version", .num m.formatVersion), ("hash_algorithm", .str m.hashAlgorithm),
    ("verify_seed", .num m.verifySeed.toNat),
    ("partitions", .arr (m.partitions.map V4.PartitionMeta.toJson))]

/-- The members of the metadata of a V5 snapshot. -/
def v5Members (m : V5.Meta) : List (String × Json) :=
  [("format_version", .num m.formatVersion), ("hash_algorithm", .str m.hashAlgorithm),
    ("verify_seed", .num m.verifySeed.toNat), ("block_size", .num m.blockSize),
    ("inline_threshold", .num m.inlineThreshold)]
    ++ V4.optionalMember "sketch" (m.sketch.map sketchJson)
    ++ V4.optionalMember "compression" (m.compression.map compressionJson)
    ++ [("partitions", .arr (m.partitions.map partitionJson))]

/-- The document of a payload. -/
def Payload.toJson {M : Type} (members : M → List (String × Json)) (p : Payload M) : Json :=
  .obj
    (members p.metadata ++ V4.optionalMember "stats" (p.stats.map V4.Stats.toJson)
      ++ V4.optionalMember "encoding" p.encoding)

def VersionedMeta.toJson : VersionedMeta → Json
  | .v4 p => p.toJson v4Members
  | .v5 p => p.toJson v5Members

/-- `serde_json::to_string_pretty`. -/
def toStringPretty (doubles : Json.Doubles) (v : Json) : Bytes :=
  Json.toBytes (Json.write (Json.pretty (fun _ => false) doubles) 0 v)

/-! ### Decoding -/

def statsFields : List String := ["n_keys", "created_at", "scatter", "index"]

def decodeStats (j : Json) : Option V4.Stats :=
  (field statsFields required (decodeUInt 64) "n_keys" j).bind fun nKeys =>
  (field statsFields required decodeStr "created_at" j).bind fun createdAt =>
  (field statsFields orNone (decodeOption decodeValue) "scatter" j).bind fun scatter =>
  (field statsFields orNone (decodeOption decodeValue) "index" j).map fun index =>
  ⟨nKeys, createdAt, scatter, index⟩

def v4PartitionFields : List String := ["index_offset", "index_n_buckets"]

def decodeV4Partition (j : Json) : Option V4.PartitionMeta :=
  (field v4PartitionFields required (decodeUInt 64) "index_offset" j).bind fun indexOffset =>
  (field v4PartitionFields required (decodeUInt 64) "index_n_buckets" j).map fun indexNBuckets =>
  ⟨indexOffset, indexNBuckets⟩

def v4Fields : List String :=
  ["format_version", "hash_algorithm", "verify_seed", "partitions", "stats", "encoding"]

def decodeV4Meta (j : Json) : Option V4.Meta :=
  (field v4Fields required (decodeUInt 32) "format_version" j).bind fun formatVersion =>
  (field v4Fields required decodeStr "hash_algorithm" j).bind fun hashAlgorithm =>
  (field v4Fields required (decodeUInt 64) "verify_seed" j).bind fun verifySeed =>
  (field v4Fields required (decodeVec decodeV4Partition) "partitions" j).map fun partitions =>
  ⟨formatVersion, hashAlgorithm, .ofNat verifySeed, partitions⟩

def decodeSketch (j : Json) : Option String :=
  field ["kind"] required decodeStr "kind" j

def compressionFields : List String :=
  ["codec", "dict", "dict_checksum", "min_compress_len", "zstd_version"]

def decodeCompression (j : Json) : Option V5.CompressionMeta :=
  (field compressionFields required decodeStr "codec" j).bind fun codec =>
  (field compressionFields (orDefault false) decodeBool "dict" j).bind fun dict =>
  (field compressionFields (orDefault none) (decodeOption (decodeUInt 32)) "dict_checksum" j).bind
    fun dictChecksum =>
  (field compressionFields (orDefault 0) (decodeUInt 32) "min_compress_len" j).bind
    fun minCompressLen =>
  (field compressionFields (orDefault none) (decodeOption decodeStr) "zstd_version" j).map
    fun zstdVersion =>
  ⟨codec, dict, dictChecksum.map .ofNat, minCompressLen, zstdVersion⟩

def v5PartitionFields : List String := ["n_blocks", "sketch_checksum"]

def decodeV5Partition (j : Json) : Option V5.PartitionMeta :=
  (field v5PartitionFields required (decodeUInt 64) "n_blocks" j).bind fun nBlocks =>
  (field v5PartitionFields (orDefault none) (decodeOption (decodeUInt 32)) "sketch_checksum" j).map
    fun sketchChecksum =>
  ⟨nBlocks, sketchChecksum.map .ofNat⟩

def v5Fields : List String :=
  ["format_version", "hash_algorithm", "verify_seed", "block_size", "inline_threshold", "sketch",
    "compression", "partitions", "stats", "encoding"]

def decodeV5Meta (j : Json) : Option V5.Meta :=
  (field v5Fields required (decodeUInt 32) "format_version" j).bind fun formatVersion =>
  (field v5Fields required decodeStr "hash_algorithm" j).bind fun hashAlgorithm =>
  (field v5Fields required (decodeUInt 64) "verify_seed" j).bind fun verifySeed =>
  (field v5Fields required (decodeUInt 32) "block_size" j).bind fun blockSize =>
  (field v5Fields required (decodeUInt 32) "inline_threshold" j).bind fun inlineThreshold =>
  (field v5Fields (orDefault none) (decodeOption decodeSketch) "sketch" j).bind fun sketch =>
  (field v5Fields (orDefault none) (decodeOption decodeCompression) "compression" j).bind
    fun compression =>
  (field v5Fields required (decodeVec decodeV5Partition) "partitions" j).map fun partitions =>
  ⟨formatVersion, hashAlgorithm, .ofNat verifySeed, blockSize, inlineThreshold, sketch, compression,
    partitions⟩

/-- Decode a payload whose metadata is decoded by `dec`. -/
def decodePayload {M : Type} (fields : List String) (dec : Json → Option M) (j : Json) :
    Option (Payload M) :=
  (dec j).bind fun metadata =>
  (field fields orNone (decodeOption decodeStats) "stats" j).bind fun stats =>
  (field fields orNone (decodeOption decodeValue) "encoding" j).map fun encoding =>
  ⟨metadata, stats, encoding⟩

/-- The first stage: only the version. -/
def versionProbe (j : Json) : Option Nat :=
  field ["format_version"] required (decodeUInt 32) "format_version" j

/-! ### Loading -/

inductive LoadError where
  | io
  | json
  | unsupportedFormatVersion (version : Nat)
  | invalid (e : Format.Error)

/-- How deep the values of a text may be nested. -/
def recursionLimit : Nat := 128

/-- The payload, if its layout is valid. -/
def checkLayout {M : Type} (layout : M → Except Format.Error Layout) (p : Option (Payload M))
    (version : Payload M → VersionedMeta) : Except LoadError VersionedMeta :=
  match p with
  | none => .error .json
  | some p =>
    match layout p.metadata with
    | .error e => .error (.invalid e)
    | .ok _ => .ok (version p)

/-- Load the payload of a document. -/
def loadDocument (doc : Json) : Except LoadError VersionedMeta :=
  match versionProbe doc with
  | none => .error .json
  | some version =>
    if version = V4.formatVersion then
      checkLayout V4.Meta.layout (decodePayload v4Fields decodeV4Meta doc) .v4
    else if version = V5.formatVersion then
      checkLayout V5.Meta.layout (decodePayload v5Fields decodeV5Meta doc) .v5
    else .error (.unsupportedFormatVersion version)

/-- `SnapshotDesc::load`; `file` is what `meta.json` contains, if it is there. -/
def load (doubles : Json.Doubles) (file : Option Bytes) : Except LoadError VersionedMeta :=
  match file with
  | none => .error .io
  | some bytes =>
    match Json.ofBytes bytes with
    | none => .error .io
    | some text =>
      match Json.readText doubles.parse recursionLimit text with
      | none => .error .json
      | some doc => loadDocument doc

/-! ### Patching -/

/-- What `patch_meta_descriptor` puts in; `standardEncode` is the base64 engine. -/
def descriptorJson (standardEncode : Bytes → String) (descriptorBytes : Bytes) (messageFqn : String) :
    Json :=
  .obj [("protobuf", .obj
    [("descriptor", .str (standardEncode descriptorBytes)), ("message_name", .str messageFqn)])]

/-- `patch_meta_descriptor`: read the file untyped, assign the encoding, and print it. -/
def patchMetaDescriptor (doubles : Json.Doubles) (encoding : Json) (file : Bytes) : Option Bytes :=
  ((Json.readBytes doubles.parse recursionLimit file).bind fun doc =>
    doc.normalize.put "encoding" encoding).map (toStringPretty doubles)

/-! ### What can be printed -/

/-- An untyped value in its form, which is printed and parsed in a place that leaves it so
much depth. -/
structure IsValue (depth : Nat) (v : Json) : Prop where
  canonical : v.Canonical
  writable : v.Writable
  depth_le : v.depth ≤ depth
  ne_null : v ≠ .null

structure StatsOk (s : V4.Stats) : Prop where
  nKeys : s.nKeys < 2 ^ 64
  scatter : ∀ v ∈ s.scatter, IsValue 126 v
  index : ∀ v ∈ s.index, IsValue 126 v

/-- The numbers of the metadata fit their types, and the layout is valid. -/
structure V4Ok (m : V4.Meta) : Prop where
  formatVersion : m.formatVersion = V4.formatVersion
  partitions : ∀ p ∈ m.partitions, p.indexOffset < 2 ^ 64 ∧ p.indexNBuckets < 2 ^ 64
  layout : ∃ l, m.layout = .ok l

structure V5Ok (m : V5.Meta) : Prop where
  formatVersion : m.formatVersion = V5.formatVersion
  blockSize : m.blockSize < 2 ^ 32
  inlineThreshold : m.inlineThreshold < 2 ^ 32
  compression : ∀ c ∈ m.compression, c.minCompressLen < 2 ^ 32
  partitions : ∀ p ∈ m.partitions, p.nBlocks < 2 ^ 64
  layout : ∃ l, m.layout = .ok l

structure PayloadOk {M : Type} (ok : M → Prop) (p : Payload M) : Prop where
  metadata : ok p.metadata
  stats : ∀ s ∈ p.stats, StatsOk s
  encoding : ∀ v ∈ p.encoding, IsValue 127 v

def VersionedMeta.Ok : VersionedMeta → Prop
  | .v4 p => PayloadOk V4Ok p
  | .v5 p => PayloadOk V5Ok p

/-! ### Decoding what was printed -/

theorem decodeUInt_num {bits n : Nat} (h : n < 2 ^ bits) :
  decodeUInt bits (.num n) = some n
  := by
  have hcast : (n : Int) < 2 ^ bits := by exact_mod_cast h
  simp [decodeUInt, hcast]

theorem decodeValue_of_isValue {n : Nat} {v : Json} (h : IsValue n v) :
  decodeOption decodeValue v = some (some v)
  := by
  rw [Json.decodeOption_of_ne_null h.ne_null, decodeValue, Json.normalize_of_canonical h.canonical]
  rfl

theorem sublist_optionalMember (name : String) (v : Option Json) :
  ((V4.optionalMember name v).map Prod.fst).Sublist [name]
  := by
  cases v with
  | none => exact List.nil_sublist _
  | some v => exact List.Sublist.refl _

/-- An optional member is decoded if it is there. -/
theorem field_optional {α : Type} (names : List String) (missing dec : Json → Option α)
    (before : List (String × Json)) (name : String) (v : Option Json) (after : List (String × Json))
    {ms : List (String × Json)} (hms : ms = before ++ (V4.optionalMember name v ++ after))
    (hbefore : name ∉ before.map Prod.fst) (hafter : name ∉ after.map Prod.fst) :
  field names missing dec name (.obj ms) = v.elim (missing (.obj ms)) dec
  := by
  cases v with
  | none =>
    refine Json.field_of_not_mem fun hmem => ?_
    rw [hms, V4.optionalMember, Option.toList_none, List.map_nil, List.nil_append,
      List.map_append, List.mem_append] at hmem
    exact hmem.elim hbefore hafter
  | some v =>
    have hfilter : ms.filter (fun m => m.1 = name) = [(name, v)] := by
      rw [hms, List.filter_append, List.filter_append, Json.filter_name_of_not_mem hbefore,
        Json.filter_name_of_not_mem hafter]
      simp [V4.optionalMember]
    simp only [field, Json.find, hfilter]
    rfl

theorem not_mem_optionalMember {name name' : String} (h : name ≠ name') (v : Option Json) :
  name ∉ (V4.optionalMember name' v).map Prod.fst
  := by
  intro hmem
  exact h (List.mem_singleton.1 ((sublist_optionalMember name' v).subset hmem))

theorem decode_optional_value {n : Nat} {v : Option Json} (h : ∀ w ∈ v, IsValue n w) :
  v.elim (some none) (decodeOption decodeValue) = some v
  := by
  cases v with
  | none => rfl
  | some v => exact decodeValue_of_isValue (h v rfl)

def statsMembers (s : V4.Stats) : List (String × Json) :=
  [("n_keys", .num s.nKeys), ("created_at", .str s.createdAt)]
    ++ V4.optionalMember "scatter" s.scatter ++ V4.optionalMember "index" s.index

theorem nodup_statsMembers (s : V4.Stats) :
  ((statsMembers s).map Prod.fst).Nodup
  := by
  have hnames : ((statsMembers s).map Prod.fst).Sublist statsFields := by
    rw [statsMembers, List.map_append, List.map_append]
    exact ((List.Sublist.refl ["n_keys", "created_at"]).append
      (sublist_optionalMember "scatter" s.scatter)).append (sublist_optionalMember "index" s.index)
  exact hnames.nodup (by decide)

/-- Statistics are decoded as they were encoded. -/
theorem decodeStats_toJson {s : V4.Stats} (h : StatsOk s) :
  decodeStats s.toJson = some s
  := by
  have hnodup := nodup_statsMembers s
  have hscatter := field_optional statsFields orNone (decodeOption decodeValue)
    [("n_keys", .num s.nKeys), ("created_at", .str s.createdAt)] "scatter" s.scatter
    (V4.optionalMember "index" s.index) (List.append_assoc ..) (by simp)
    (not_mem_optionalMember (by decide) _)
  have hindex := field_optional statsFields orNone (decodeOption decodeValue)
    ([("n_keys", .num s.nKeys), ("created_at", .str s.createdAt)]
      ++ V4.optionalMember "scatter" s.scatter) "index" s.index []
    (by rw [List.append_nil]) (by simp [not_mem_optionalMember]) (by simp)
  simp only [statsMembers] at hnodup
  simp only [decodeStats, V4.Stats.toJson]
  rw [Json.field_of_mem hnodup (v := .num s.nKeys) (by simp), decodeUInt_num h.nKeys,
    Option.bind_some, Json.field_of_mem hnodup (v := .str s.createdAt) (by simp), decodeStr,
    Option.bind_some, hscatter, Json.orNone_obj, decode_optional_value h.scatter, Option.bind_some, hindex,
    Json.orNone_obj, decode_optional_value h.index]
  rfl

/-! ### Decoding what was patched -/

theorem steady_required {α : Type} {dec : Json → Option α} (h : Json.Steady dec)
    (names : List String) (name : String) :
  Json.Steady (field names required dec name)
  :=
  h.field (fun _ _ => rfl) names name

theorem steady_orDefault {α : Type} {dec : Json → Option α} (h : Json.Steady dec) (default : α)
    (names : List String) (name : String) :
  Json.Steady (field names (orDefault default) dec name)
  :=
  h.field (fun _ _ => rfl) names name

theorem steady_decodeV4Partition :
  Json.Steady decodeV4Partition
  := by
  refine Json.Steady.bind (steady_required (Json.steady_decodeUInt 64) _ _) fun indexOffset => ?_
  exact (steady_required (Json.steady_decodeUInt 64) _ _).map _

theorem steady_decodeV4Meta :
  Json.Steady decodeV4Meta
  := by
  refine Json.Steady.bind (steady_required (Json.steady_decodeUInt 32) _ _) fun formatVersion => ?_
  refine Json.Steady.bind (steady_required Json.steady_decodeStr _ _) fun hashAlgorithm => ?_
  refine Json.Steady.bind (steady_required (Json.steady_decodeUInt 64) _ _) fun verifySeed => ?_
  exact (steady_required steady_decodeV4Partition.vec _ _).map _

theorem steady_decodeCompression :
  Json.Steady decodeCompression
  := by
  refine Json.Steady.bind (steady_required Json.steady_decodeStr _ _) fun codec => ?_
  refine Json.Steady.bind (steady_orDefault Json.steady_decodeBool _ _ _) fun dict => ?_
  refine Json.Steady.bind (steady_orDefault (Json.steady_decodeUInt 32).option _ _ _)
    fun dictChecksum => ?_
  refine Json.Steady.bind (steady_orDefault (Json.steady_decodeUInt 32) _ _ _)
    fun minCompressLen => ?_
  exact (steady_orDefault Json.steady_decodeStr.option _ _ _).map _

theorem steady_decodeV5Partition :
  Json.Steady decodeV5Partition
  := by
  refine Json.Steady.bind (steady_required (Json.steady_decodeUInt 64) _ _) fun nBlocks => ?_
  exact (steady_orDefault (Json.steady_decodeUInt 32).option _ _ _).map _

/-- V5 metadata is decoded to the same where it was written and read untyped. -/
theorem steady_decodeV5Meta :
  Json.Steady decodeV5Meta
  := by
  refine Json.Steady.bind (steady_required (Json.steady_decodeUInt 32) _ _) fun formatVersion => ?_
  refine Json.Steady.bind (steady_required Json.steady_decodeStr _ _) fun hashAlgorithm => ?_
  refine Json.Steady.bind (steady_required (Json.steady_decodeUInt 64) _ _) fun verifySeed => ?_
  refine Json.Steady.bind (steady_required (Json.steady_decodeUInt 32) _ _) fun blockSize => ?_
  refine Json.Steady.bind (steady_required (Json.steady_decodeUInt 32) _ _) fun inlineThreshold => ?_
  refine Json.Steady.bind
    (steady_orDefault (steady_required Json.steady_decodeStr _ _).option _ _ _) fun sketch => ?_
  refine Json.Steady.bind (steady_orDefault steady_decodeCompression.option _ _ _)
    fun compression => ?_
  exact (steady_required steady_decodeV5Partition.vec _ _).map _

/-- Statistics whose doubles were printed and parsed. -/
def rereadStats (g : UInt64 → UInt64) (s : V4.Stats) : V4.Stats :=
  ⟨s.nKeys, s.createdAt, s.scatter.map (Json.mapDoubles g), s.index.map (Json.mapDoubles g)⟩

/-- A payload whose doubles were printed and parsed. -/
def Payload.reread {M : Type} (g : UInt64 → UInt64) (p : Payload M) : Payload M :=
  ⟨p.metadata, p.stats.map (rereadStats g), p.encoding.map (Json.mapDoubles g)⟩

def VersionedMeta.reread (g : UInt64 → UInt64) : VersionedMeta → VersionedMeta
  | .v4 p => .v4 (p.reread g)
  | .v5 p => .v5 (p.reread g)

theorem rereads_value (g : UInt64 → UInt64) (names : List String) (name : String) :
  Json.Rereads g (field names orNone (decodeOption decodeValue) name)
    (Option.map (Json.mapDoubles g))
  :=
  Json.rereads_decodeValue.decodeOption.field Json.orNone_reread names name

/-- Printing and parsing changes statistics only in their doubles. -/
theorem rereads_decodeStats (g : UInt64 → UInt64) :
  Json.Rereads g decodeStats (rereadStats g)
  := by
  intro v hv
  have hnKeys := steady_required (Json.steady_decodeUInt 64) statsFields "n_keys" g v hv
  have hcreatedAt := steady_required Json.steady_decodeStr statsFields "created_at" g v hv
  simp only [decodeStats, hnKeys, hcreatedAt, rereads_value g _ _ v hv]
  cases field statsFields required (decodeUInt 64) "n_keys" v with
  | none => rfl
  | some nKeys =>
    cases field statsFields required decodeStr "created_at" v with
    | none => rfl
    | some createdAt =>
      cases field statsFields orNone (decodeOption decodeValue) "scatter" v with
      | none => rfl
      | some scatter =>
        cases field statsFields orNone (decodeOption decodeValue) "index" v <;> rfl

/-- Printing and parsing changes a payload only in its doubles. -/
theorem rereads_decodePayload {M : Type} {dec : Json → Option M} (hdec : Json.Steady dec)
    (fields : List String) (g : UInt64 → UInt64) :
  Json.Rereads g (decodePayload fields dec) (Payload.reread g)
  := by
  intro v hv
  have hstats := (rereads_decodeStats g).decodeOption.field Json.orNone_reread fields "stats" v hv
  simp only [decodePayload, hdec g v hv, hstats, rereads_value g _ _ v hv]
  cases dec v with
  | none => rfl
  | some metadata =>
    cases field fields orNone (decodeOption decodeStats) "stats" v with
    | none => rfl
    | some stats => cases field fields orNone (decodeOption decodeValue) "encoding" v <;> rfl

/-! ### A version of the format -/

/-- The members and the decoder of the metadata of a version belong together; `stats` and
`encoding` are not theirs. -/
structure Prints {M : Type} (version : Nat) (members : M → List (String × Json))
    (dec : Json → Option M) (ok : M → Prop) : Prop where
  names : ∀ m, ((members m).map Prod.fst ++ ["stats", "encoding"]).Nodup
  tagged : ∀ m, ok m → ("format_version", .num version) ∈ members m
  version_lt : version < 2 ^ 32
  decode : ∀ m, ok m → ∀ rest, (rest.map Prod.fst).Sublist ["stats", "encoding"] →
    dec (.obj (members m ++ rest)) = some m
  distinct : ∀ m, ∀ v ∈ members m, v.2.Distinct
  writable : ∀ m, ok m → ∀ v ∈ members m, v.2.Writable
  depth : ∀ m, ∀ v ∈ members m, v.2.depth ≤ 127
  steady : Json.Steady dec
  insert : ∀ ms, Json.Sorted ms → ∀ v,
    dec (.obj (Json.insertMember ("encoding", v) ms)) = dec (.obj ms)

theorem mem_optionalMember {name : String} {v : Option Json} {m : String × Json}
    (h : m ∈ V4.optionalMember name v) :
  ∃ w ∈ v, m = (name, w)
  := by
  cases v with
  | none => cases h
  | some w => exact ⟨w, rfl, List.mem_singleton.1 h⟩

/-- What holds of the parts of statistics holds of their members. -/
theorem forall_statsMembers {s : V4.Stats} {P : Json → Prop} (hnKeys : P (.num s.nKeys))
    (hcreatedAt : P (.str s.createdAt)) (hscatter : ∀ v ∈ s.scatter, P v)
    (hindex : ∀ v ∈ s.index, P v) :
  ∀ m ∈ statsMembers s, P m.2
  := by
  intro m hm
  rw [statsMembers, List.mem_append, List.mem_append] at hm
  obtain (hm | hm) | hm := hm
  · simp only [List.mem_cons, List.not_mem_nil, or_false] at hm
    obtain rfl | rfl := hm
    · exact hnKeys
    · exact hcreatedAt
  · obtain ⟨v, hv, rfl⟩ := mem_optionalMember hm
    exact hscatter v hv
  · obtain ⟨v, hv, rfl⟩ := mem_optionalMember hm
    exact hindex v hv

/-- Statistics that are as they should be can be printed and read back. -/
theorem statsJson_ok {s : V4.Stats} (h : StatsOk s) :
  s.toJson.Distinct ∧ s.toJson.Writable ∧ s.toJson.depth ≤ 127
  := by
  have hnKeys := h.nKeys
  have hdepth : Json.depthMembers (statsMembers s) ≤ 126 :=
    Json.depthMembers_le (by decide) (forall_statsMembers (by simp [Json.depth])
      (by simp [Json.depth]) (fun v hv => (h.scatter v hv).depth_le)
      fun v hv => (h.index v hv).depth_le)
  refine ⟨.obj _ (nodup_statsMembers s) ?_, .obj _ ?_, ?_⟩
  · exact forall_statsMembers (.num _) (.str _) (fun v hv => (h.scatter v hv).canonical.distinct)
      fun v hv => (h.index v hv).canonical.distinct
  · exact forall_statsMembers (.num _ (by omega) (by omega)) (.str _)
      (fun v hv => (h.scatter v hv).writable) fun v hv => (h.index v hv).writable
  · exact Nat.succ_le_succ hdepth

/-- The members of a payload. -/
def Payload.allMembers {M : Type} (members : M → List (String × Json)) (p : Payload M) :
    List (String × Json) :=
  members p.metadata
    ++ (V4.optionalMember "stats" (p.stats.map V4.Stats.toJson)
      ++ V4.optionalMember "encoding" p.encoding)

section

variable {M : Type} {version : Nat} {members : M → List (String × Json)} {fields : List String}
  {dec : Json → Option M} {ok : M → Prop}

theorem Payload.toJson_eq (p : Payload M) :
  p.toJson members = .obj (p.allMembers members)
  := by
  rw [Payload.toJson, Payload.allMembers, List.append_assoc]

theorem Payload.sublist_rest (p : Payload M) :
  ((V4.optionalMember "stats" (p.stats.map V4.Stats.toJson)
    ++ V4.optionalMember "encoding" p.encoding).map Prod.fst).Sublist ["stats", "encoding"]
  := by
  rw [List.map_append]
  exact (sublist_optionalMember "stats" _).append (sublist_optionalMember "encoding" _)

theorem Prints.nodup (h : Prints version members dec ok) (p : Payload M) :
  ((p.allMembers members).map Prod.fst).Nodup
  := by
  rw [Payload.allMembers, List.map_append]
  exact ((List.Sublist.refl _).append p.sublist_rest).nodup (h.names p.metadata)

/-- What holds of the parts of a payload holds of its members. -/
theorem forall_payloadMembers {p : Payload M} {P : Json → Prop}
    (hmembers : ∀ m ∈ members p.metadata, P m.2) (hstats : ∀ s ∈ p.stats, P s.toJson)
    (hencoding : ∀ v ∈ p.encoding, P v) :
  ∀ m ∈ p.allMembers members, P m.2
  := by
  intro m hm
  rw [Payload.allMembers, List.mem_append, List.mem_append] at hm
  obtain hm | hm | hm := hm
  · exact hmembers m hm
  · obtain ⟨v, hv, rfl⟩ := mem_optionalMember hm
    obtain ⟨s, hs, rfl⟩ := Option.mem_map.1 hv
    exact hstats s hs
  · obtain ⟨v, hv, rfl⟩ := mem_optionalMember hm
    exact hencoding v hv

/-- The metadata of a version is decoded as it was encoded. -/
theorem Prints.decodePayload_toJson (h : Prints version members dec ok) {p : Payload M}
    (hp : PayloadOk ok p) :
  decodePayload fields dec (p.toJson members) = some p
  := by
  have hnames := h.names p.metadata
  have hstats : "stats" ∉ (members p.metadata).map Prod.fst := fun hmem =>
    (List.nodup_append.1 hnames).2.2 _ hmem "stats" (by simp) rfl
  have hencoding : "encoding" ∉ (members p.metadata).map Prod.fst := fun hmem =>
    (List.nodup_append.1 hnames).2.2 _ hmem "encoding" (by simp) rfl
  have hfieldStats := field_optional fields orNone (decodeOption decodeStats) (members p.metadata)
    "stats" (p.stats.map V4.Stats.toJson) (V4.optionalMember "encoding" p.encoding)
    (show p.allMembers members = _ from rfl) hstats (not_mem_optionalMember (by decide) _)
  have hfieldEncoding := field_optional fields orNone (decodeOption decodeValue)
    (members p.metadata ++ V4.optionalMember "stats" (p.stats.map V4.Stats.toJson)) "encoding"
    p.encoding [] (show p.allMembers members = _ by rw [List.append_nil, Payload.allMembers, List.append_assoc])
    (by
      rw [List.map_append, List.mem_append, not_or]
      exact ⟨hencoding, not_mem_optionalMember (by decide) _⟩)
    (by simp)
  have hdecStats : (p.stats.map V4.Stats.toJson).elim (some none) (decodeOption decodeStats)
      = some p.stats := by
    cases hs : p.stats with
    | none => rfl
    | some s =>
      have hdec : decodeOption decodeStats s.toJson = (decodeStats s.toJson).map some := rfl
      rw [Option.map_some, Option.elim_some, hdec, decodeStats_toJson (hp.stats s hs)]
      rfl
  rw [Payload.toJson_eq, decodePayload, Payload.allMembers, h.decode _ hp.metadata _ p.sublist_rest,
    Option.bind_some, ← Payload.allMembers, hfieldStats, Json.orNone_obj, hdecStats, Option.bind_some,
    hfieldEncoding, Json.orNone_obj, decode_optional_value hp.encoding]
  rfl

/-- A document that decodes to a payload, and can be printed and patched. -/
structure Holds (version : Nat) (fields : List String) (dec : Json → Option M) (doc : Json)
    (p : Payload M) : Prop where
  isObj : ∃ ms, doc = .obj ms
  distinct : doc.Distinct
  writable : doc.Writable
  depth_le : doc.depth ≤ recursionLimit
  probe : versionProbe doc = some version
  decode : decodePayload fields dec doc = some p

/-- The document of a version holds its metadata. -/
theorem Prints.holds (h : Prints version members dec ok) {p : Payload M} (hp : PayloadOk ok p) :
  Holds version fields dec (p.toJson members) p
  := by
  have hdepth : Json.depthMembers (p.allMembers members) ≤ 127 :=
    Json.depthMembers_le (by decide) (forall_payloadMembers (P := fun v => v.depth ≤ 127) (h.depth p.metadata)
      (fun s hs => (statsJson_ok (hp.stats s hs)).2.2) fun v hv => (hp.encoding v hv).depth_le)
  exact
    { isObj := ⟨p.allMembers members, p.toJson_eq⟩
      distinct := by
        rw [p.toJson_eq]
        exact .obj _ (h.nodup p) (forall_payloadMembers (h.distinct p.metadata)
          (fun s hs => (statsJson_ok (hp.stats s hs)).1)
          fun v hv => (hp.encoding v hv).canonical.distinct)
      writable := by
        rw [p.toJson_eq]
        exact .obj _ (forall_payloadMembers (h.writable p.metadata hp.metadata)
          (fun s hs => (statsJson_ok (hp.stats s hs)).2.1) fun v hv => (hp.encoding v hv).writable)
      depth_le := by
        rw [p.toJson_eq]
        exact Nat.succ_le_succ hdepth
      probe := by
        have htag : ("format_version", Json.num version) ∈ p.allMembers members :=
          List.mem_append_left _ (h.tagged p.metadata hp.metadata)
        rw [p.toJson_eq, versionProbe, Json.field_of_mem (h.nodup p) htag,
          decodeUInt_num h.version_lt]
      decode := h.decodePayload_toJson hp }

/-- A file with the document. -/
theorem Holds.read {doc : Json} {p : Payload M} (h : Holds version fields dec doc p)
    (doubles : Json.Doubles) :
  Json.readBytes doubles.parse recursionLimit (toStringPretty doubles doc)
    = some (doc.mapDoubles doubles.reread)
  :=
  Json.readBytes_write (Json.pretty_lawful (fun _ h => by cases h) doubles) h.writable h.depth_le

theorem payload_reread_id :
  (Payload.reread id : Payload M → Payload M) = id
  := by
  have hdoubles : Json.mapDoubles id = id := funext Json.mapDoubles_id
  have hstats : rereadStats id = id := by
    funext s
    simp [rereadStats, hdoubles]
  funext p
  simp [Payload.reread, hdoubles, hstats]

/-- The version and the metadata of a document are read from its text. -/
theorem Holds.load {doc : Json} {p : Payload M} (h : Holds version fields dec doc p)
    (hdec : Json.Steady dec) (doubles : Json.Doubles) :
  versionProbe (doc.mapDoubles doubles.reread) = some version
    ∧ decodePayload fields dec (doc.mapDoubles doubles.reread) = some (p.reread doubles.reread)
  := by
  have hprobe := (steady_required (Json.steady_decodeUInt 32) ["format_version"] "format_version")
  have hversion := Json.Rereads.mapDoubles (f := fun _ => id) (Json.steady_iff.1 hprobe) rfl
    h.distinct doubles.reread
  have hpayload := Json.Rereads.mapDoubles (rereads_decodePayload hdec fields) payload_reread_id
    h.distinct doubles.reread
  refine ⟨?_, ?_⟩
  · rw [versionProbe, hversion, ← versionProbe, h.probe]
    rfl
  · rw [hpayload, h.decode]
    rfl

/-- A payload after the encoding was assigned. -/
def Payload.setEncoding (p : Payload M) (encoding : Json) : Payload M :=
  { p with encoding := some encoding }

/-- One patch. -/
theorem Holds.patch {doc : Json} {p : Payload M} (h : Holds version fields dec doc p)
    (hprints : Prints version members dec ok) (doubles : Json.Doubles) {encoding : Json}
    (hencoding : IsValue 127 encoding) :
  ∃ doc', patchMetaDescriptor doubles encoding (toStringPretty doubles doc)
      = some (toStringPretty doubles doc')
    ∧ Holds version fields dec doc' ((p.reread doubles.reread).setEncoding encoding)
  := by
  obtain ⟨ms, hms⟩ := h.isObj
  have hreread : Json.reread doubles.reread doc
      = .obj (Json.insertMembers [] (ms.map fun m => (m.1, Json.reread doubles.reread m.2))) := by
    rw [hms, Json.reread_obj]
  generalize Json.insertMembers [] (ms.map fun m => (m.1, Json.reread doubles.reread m.2)) = ms'
    at hreread
  have hcanonical : Json.Canonical (.obj ms') := hreread ▸ Json.canonical_normalize _
  have hsorted : Json.Sorted ms' := by
    cases hcanonical with
    | obj _ sorted _ => exact sorted
  have hcanonical' := Json.canonical_insertMember hcanonical (m := ("encoding", encoding))
    hencoding.canonical
  have hwritable : Json.Writable (.obj ms') :=
    hreread ▸ Json.writable_reread h.writable doubles.finite_reread
  have hdepth : (Json.obj ms').depth ≤ recursionLimit :=
    hreread ▸ (Json.depth_reread doc).trans h.depth_le
  refine ⟨.obj (Json.insertMember ("encoding", encoding) ms'), ?_, ?_⟩
  · rw [patchMetaDescriptor, h.read, Option.bind_some, ← Json.reread, hreread]
    rfl
  · exact
      { isObj := ⟨_, rfl⟩
        distinct := hcanonical'.distinct
        writable := Json.writable_insertMember hwritable hencoding.writable
        depth_le := (Json.depth_insertMember _ ms').trans
          (max_le hdepth (Nat.succ_le_succ hencoding.depth_le))
        probe := by
          have hsteady := steady_required (Json.steady_decodeUInt 32) ["format_version"]
            "format_version" doubles.reread doc h.distinct
          rw [versionProbe, Json.field_insertMember_ne (fun _ _ => rfl) hsorted (by simp), ← hreread,
            hsteady]
          exact h.probe
        decode := by
          have hpayload := rereads_decodePayload hprints.steady fields doubles.reread doc h.distinct
          rw [h.decode, hreread, Option.map_some, decodePayload] at hpayload
          obtain ⟨metadata, hmetadata, hpayload⟩ := Option.bind_eq_some_iff.1 hpayload
          obtain ⟨stats, hstats, hpayload⟩ := Option.bind_eq_some_iff.1 hpayload
          obtain ⟨_, -, hpayload⟩ := Option.map_eq_some_iff.1 hpayload
          rw [decodePayload, hprints.insert ms' hsorted, hmetadata, Option.bind_some,
            Json.field_insertMember_ne (fun _ _ => rfl) hsorted (by simp), hstats, Option.bind_some,
            Json.field_insertMember_self hsorted ("encoding", encoding),
            decodeValue_of_isValue hencoding, ← hpayload]
          rfl }

end

/-! ### The two versions -/

theorem toNat_cast_lt (n : UInt64) :
  -2 ^ 63 ≤ (n.toNat : Int) ∧ (n.toNat : Int) < 2 ^ 64
  := by
  have := n.toNat_lt
  omega

theorem uint64_ofNat_toNat (n : UInt64) :
  UInt64.ofNat n.toNat = n
  := by
  simp

/-- Members of different names stay so when the statistics and the encoding follow. -/
theorem nodup_append {ms rest : List (String × Json)}
    (hms : (ms.map Prod.fst ++ ["stats", "encoding"]).Nodup)
    (hrest : (rest.map Prod.fst).Sublist ["stats", "encoding"]) :
  ((ms ++ rest).map Prod.fst).Nodup
  := by
  rw [List.map_append]
  exact ((List.Sublist.refl _).append hrest).nodup hms

/-- A partition is decoded as it was encoded. -/
theorem decodeV4Partition_toJson {p : V4.PartitionMeta}
    (h : p.indexOffset < 2 ^ 64 ∧ p.indexNBuckets < 2 ^ 64) :
  decodeV4Partition p.toJson = some p
  := by
  have hnodup : (([("index_offset", .num p.indexOffset), ("index_n_buckets", .num p.indexNBuckets)] :
      List (String × Json)).map Prod.fst).Nodup := by
    simp
  rw [decodeV4Partition, V4.PartitionMeta.toJson,
    Json.field_of_mem hnodup (v := .num p.indexOffset) (by simp), decodeUInt_num h.1,
    Option.bind_some, Json.field_of_mem hnodup (v := .num p.indexNBuckets) (by simp),
    decodeUInt_num h.2, Option.map_some]

theorem v4_names (m : V4.Meta) :
  ((v4Members m).map Prod.fst ++ ["stats", "encoding"]).Nodup
  := by
  simp only [v4Members, List.map_cons, List.map_nil]
  decide

/-- What holds of the values of the parts holds of all members of V4 metadata. -/
theorem forall_v4Members {m : V4.Meta} {P : Json → Prop} (hversion : P (.num m.formatVersion))
    (halgorithm : P (.str m.hashAlgorithm)) (hseed : P (.num m.verifySeed.toNat))
    (hpartitions : P (.arr (m.partitions.map V4.PartitionMeta.toJson))) :
  ∀ v ∈ v4Members m, P v.2
  := by
  intro v hv
  simp only [v4Members, List.mem_cons, List.not_mem_nil, or_false] at hv
  obtain rfl | rfl | rfl | rfl := hv
  · exact hversion
  · exact halgorithm
  · exact hseed
  · exact hpartitions

/-- What holds of every element holds of the list that is printed. -/
theorem distinct_arr_map {α : Type} {enc : α → Json} {l : List α} (h : ∀ a ∈ l, (enc a).Distinct) :
  (Json.arr (l.map enc)).Distinct
  := by
  refine .arr _ fun v hv => ?_
  obtain ⟨a, ha, rfl⟩ := List.mem_map.1 hv
  exact h a ha

theorem writable_arr_map {α : Type} {enc : α → Json} {l : List α} (h : ∀ a ∈ l, (enc a).Writable) :
  (Json.arr (l.map enc)).Writable
  := by
  refine .arr _ fun v hv => ?_
  obtain ⟨a, ha, rfl⟩ := List.mem_map.1 hv
  exact h a ha

theorem depth_arr_map {α : Type} {enc : α → Json} {l : List α} {n : Nat} (hn : 1 ≤ n)
    (h : ∀ a ∈ l, (enc a).depth ≤ n) :
  (Json.arr (l.map enc)).depth ≤ n + 1
  := by
  refine Nat.succ_le_succ (Json.depthElems_le hn fun v hv => ?_)
  obtain ⟨a, ha, rfl⟩ := List.mem_map.1 hv
  exact h a ha

/-- The metadata of a V4 snapshot is written as `decodeV4Meta` reads it, and no member of it is
among those that a patch touches. -/
theorem prints_v4 :
  Prints V4.formatVersion v4Members decodeV4Meta V4Ok
  where
  names := v4_names
  tagged := fun m hm => by simp [v4Members, hm.formatVersion]
  version_lt := by decide
  decode := fun m hm rest hrest => by
    have hnodup := nodup_append (v4_names m) hrest
    have hmem {v : String × Json} (hv : v ∈ v4Members m) : v ∈ v4Members m ++ rest :=
      List.mem_append_left rest hv
    have hversion : m.formatVersion < 2 ^ 32 := by
      rw [hm.formatVersion]
      decide
    rw [decodeV4Meta, Json.field_of_mem hnodup (hmem (v := (_, .num m.formatVersion)) (by simp [v4Members])),
      decodeUInt_num hversion, Option.bind_some,
      Json.field_of_mem hnodup (hmem (v := (_, .str m.hashAlgorithm)) (by simp [v4Members])),
      decodeStr, Option.bind_some,
      Json.field_of_mem hnodup (hmem (v := (_, .num m.verifySeed.toNat)) (by simp [v4Members])),
      decodeUInt_num m.verifySeed.toNat_lt, Option.bind_some,
      Json.field_of_mem hnodup
        (hmem (v := (_, .arr (m.partitions.map V4.PartitionMeta.toJson))) (by simp [v4Members])),
      Json.decodeVec_map fun p hp => decodeV4Partition_toJson (hm.partitions p hp),
      Option.map_some, uint64_ofNat_toNat, List.map_id']
  distinct := fun m => by
    refine forall_v4Members (.num _) (.str _) (.num _) (distinct_arr_map fun p _ => ?_)
    refine .obj _ (by simp) fun v hv => ?_
    simp only [List.mem_cons, List.not_mem_nil, or_false] at hv
    obtain rfl | rfl := hv
    all_goals exact .num _
  writable := fun m hm => by
    have hversion : m.formatVersion = 4 := hm.formatVersion
    obtain ⟨hmin, hmax⟩ := toNat_cast_lt m.verifySeed
    refine forall_v4Members (.num _ (by omega) (by omega)) (.str _) (.num _ hmin hmax)
      (writable_arr_map fun p hp => ?_)
    obtain ⟨hoffset, hbuckets⟩ := hm.partitions p hp
    refine .obj _ fun v hv => ?_
    simp only [List.mem_cons, List.not_mem_nil, or_false] at hv
    obtain rfl | rfl := hv
    all_goals exact .num _ (by omega) (by omega)
  depth := fun m => by
    have hpartitions : (Json.arr (m.partitions.map V4.PartitionMeta.toJson)).depth ≤ 3 :=
      depth_arr_map (by decide) fun p _ => by
        simp [V4.PartitionMeta.toJson, Json.depth, Json.depthMembers]
    exact forall_v4Members (P := fun v => v.depth ≤ 127) (by simp [Json.depth])
      (by simp [Json.depth]) (by simp [Json.depth]) (hpartitions.trans (by decide))
  steady := steady_decodeV4Meta
  insert := fun ms hms v => by
    have hne {name : String} (h : "encoding" ≠ name) {α : Type} {dec : Json → Option α} :
        field v4Fields required dec name (.obj (Json.insertMember ("encoding", v) ms))
          = field v4Fields required dec name (.obj ms) :=
      Json.field_insertMember_ne (fun _ _ => rfl) hms h v4Fields
    simp only [decodeV4Meta, hne (show "encoding" ≠ "format_version" by decide),
      hne (show "encoding" ≠ "hash_algorithm" by decide),
      hne (show "encoding" ≠ "verify_seed" by decide), hne (show "encoding" ≠ "partitions" by decide)]

theorem nodup_compressionMembers (c : V5.CompressionMeta) :
  ((compressionMembers c).map Prod.fst).Nodup
  := by
  have hnames : ((compressionMembers c).map Prod.fst).Sublist compressionFields := by
    simp only [compressionMembers, List.map_append]
    exact (((List.Sublist.refl ["codec", "dict"]).append (sublist_optionalMember "dict_checksum" _)).append
      (List.Sublist.refl ["min_compress_len"])).append (sublist_optionalMember "zstd_version" _)
  exact hnames.nodup (by decide)

theorem decodeOption_checksum (n : Option UInt32) :
  ((n.map fun n => Json.num n.toNat).elim (some none) (decodeOption (decodeUInt 32))).map
    (Option.map UInt32.ofNat) = some n
  := by
  cases n with
  | none => rfl
  | some n =>
    rw [Option.map_some, Option.elim_some, Json.decodeOption_of_ne_null (by simp),
      decodeUInt_num n.toNat_lt]
    simp

/-- The compression is decoded as it was encoded. -/
theorem decodeCompression_json {c : V5.CompressionMeta} (h : c.minCompressLen < 2 ^ 32) :
  decodeCompression (compressionJson c) = some c
  := by
  have hnodup := nodup_compressionMembers c
  have hchecksum := field_optional compressionFields (orDefault none) (decodeOption (decodeUInt 32))
    [("codec", .str c.codec), ("dict", .bool c.dict)] "dict_checksum"
    (c.dictChecksum.map fun n => .num n.toNat) ([("min_compress_len", .num c.minCompressLen)]
      ++ V4.optionalMember "zstd_version" (c.zstdVersion.map .str))
    (show compressionMembers c = _ by simp only [compressionMembers, List.append_assoc]) (by simp)
    (by simp [not_mem_optionalMember])
  have hzstd := field_optional compressionFields (orDefault none) (decodeOption decodeStr)
    ([("codec", .str c.codec), ("dict", .bool c.dict)]
      ++ V4.optionalMember "dict_checksum" (c.dictChecksum.map fun n => .num n.toNat)
      ++ [("min_compress_len", .num c.minCompressLen)])
    "zstd_version" (c.zstdVersion.map .str) []
    (show compressionMembers c = _ by rw [compressionMembers, List.append_nil])
    (by simp [not_mem_optionalMember]) (by simp)
  have hzstdVersion : (c.zstdVersion.map Json.str).elim (some none) (decodeOption decodeStr)
      = some c.zstdVersion := by
    cases c.zstdVersion <;> rfl
  obtain ⟨checksum, hchecksum', heq⟩ := Option.map_eq_some_iff.1 (decodeOption_checksum c.dictChecksum)
  rw [compressionJson, decodeCompression,
    Json.field_of_mem hnodup (v := .str c.codec) (by simp [compressionMembers]), decodeStr,
    Option.bind_some, Json.field_of_mem hnodup (v := .bool c.dict) (by simp [compressionMembers]),
    decodeBool, Option.bind_some, hchecksum, orDefault, hchecksum', Option.bind_some,
    Json.field_of_mem hnodup (v := .num c.minCompressLen) (by simp [compressionMembers]),
    decodeUInt_num h, Option.bind_some, hzstd, orDefault, hzstdVersion, Option.map_some, heq]

theorem nodup_partitionMembers (p : V5.PartitionMeta) :
  ((partitionMembers p).map Prod.fst).Nodup
  := by
  rw [partitionMembers, List.map_append]
  exact ((List.Sublist.refl ["n_blocks"]).append (sublist_optionalMember "sketch_checksum" _)).nodup
    (show (["n_blocks"] ++ ["sketch_checksum"]).Nodup by decide)

/-- A partition is decoded as it was encoded. -/
theorem decodeV5Partition_json {p : V5.PartitionMeta} (h : p.nBlocks < 2 ^ 64) :
  decodeV5Partition (partitionJson p) = some p
  := by
  have hchecksum := field_optional v5PartitionFields (orDefault none) (decodeOption (decodeUInt 32))
    [("n_blocks", .num p.nBlocks)] "sketch_checksum"
    (p.sketchChecksum.map fun n => .num n.toNat) []
    (show partitionMembers p = _ by rw [partitionMembers, List.append_nil]) (by simp) (by simp)
  obtain ⟨checksum, hchecksum', heq⟩ := Option.map_eq_some_iff.1 (decodeOption_checksum p.sketchChecksum)
  rw [partitionJson, decodeV5Partition,
    Json.field_of_mem (nodup_partitionMembers p) (v := .num p.nBlocks) (by simp [partitionMembers]),
    decodeUInt_num h, Option.bind_some, hchecksum, orDefault, hchecksum', Option.map_some, heq]

/-- What holds of a member that may be missing. -/
theorem forall_optionalMember {name : String} {v : Option Json} {P : Json → Prop}
    (h : ∀ w ∈ v, P w) :
  ∀ m ∈ V4.optionalMember name v, P m.2
  := by
  intro m hm
  obtain ⟨w, hw, rfl⟩ := mem_optionalMember hm
  exact h w hw

/-- What holds of the values of the parts holds of all members of the compression. -/
theorem forall_compressionMembers {c : V5.CompressionMeta} {P : Json → Prop}
    (hcodec : P (.str c.codec)) (hdict : P (.bool c.dict)) (hmin : P (.num c.minCompressLen))
    (hchecksum : ∀ n ∈ c.dictChecksum, P (.num n.toNat)) (hzstd : ∀ v ∈ c.zstdVersion, P (.str v)) :
  ∀ m ∈ compressionMembers c, P m.2
  := by
  intro m hm
  simp only [compressionMembers, List.mem_append, List.mem_cons, List.not_mem_nil, or_false] at hm
  obtain (((rfl | rfl) | hm) | rfl) | hm := hm
  · exact hcodec
  · exact hdict
  · refine forall_optionalMember (fun w hw => ?_) m hm
    obtain ⟨n, hn, rfl⟩ := Option.mem_map.1 hw
    exact hchecksum n hn
  · exact hmin
  · refine forall_optionalMember (fun w hw => ?_) m hm
    obtain ⟨v, hv, rfl⟩ := Option.mem_map.1 hw
    exact hzstd v hv

/-- What holds of the values of the parts holds of all members of a partition. -/
theorem forall_partitionMembers {p : V5.PartitionMeta} {P : Json → Prop} (hblocks : P (.num p.nBlocks))
    (hchecksum : ∀ n ∈ p.sketchChecksum, P (.num n.toNat)) :
  ∀ m ∈ partitionMembers p, P m.2
  := by
  intro m hm
  simp only [partitionMembers, List.mem_append, List.mem_singleton] at hm
  obtain rfl | hm := hm
  · exact hblocks
  · refine forall_optionalMember (fun w hw => ?_) m hm
    obtain ⟨n, hn, rfl⟩ := Option.mem_map.1 hw
    exact hchecksum n hn

/-- What holds of the values of the parts holds of all members of V5 metadata. -/
theorem forall_v5Members {m : V5.Meta} {P : Json → Prop} (hversion : P (.num m.formatVersion))
    (halgorithm : P (.str m.hashAlgorithm)) (hseed : P (.num m.verifySeed.toNat))
    (hsize : P (.num m.blockSize)) (hthreshold : P (.num m.inlineThreshold))
    (hsketch : ∀ kind, P (sketchJson kind)) (hcompression : ∀ c ∈ m.compression, P (compressionJson c))
    (hpartitions : P (.arr (m.partitions.map partitionJson))) :
  ∀ v ∈ v5Members m, P v.2
  := by
  intro v hv
  simp only [v5Members, List.mem_append, List.mem_cons, List.not_mem_nil, or_false] at hv
  obtain (((rfl | rfl | rfl | rfl | rfl) | hv) | hv) | rfl := hv
  · exact hversion
  · exact halgorithm
  · exact hseed
  · exact hsize
  · exact hthreshold
  · refine forall_optionalMember (fun w hw => ?_) v hv
    obtain ⟨kind, -, rfl⟩ := Option.mem_map.1 hw
    exact hsketch kind
  · refine forall_optionalMember (fun w hw => ?_) v hv
    obtain ⟨c, hc, rfl⟩ := Option.mem_map.1 hw
    exact hcompression c hc
  · exact hpartitions

theorem v5_names (m : V5.Meta) :
  ((v5Members m).map Prod.fst ++ ["stats", "encoding"]).Nodup
  := by
  have hnames : ((v5Members m).map Prod.fst).Sublist (v5Fields.take 8) := by
    simp only [v5Members, List.map_append]
    exact (((List.Sublist.refl ["format_version", "hash_algorithm", "verify_seed", "block_size",
      "inline_threshold"]).append (sublist_optionalMember "sketch" _)).append
        (sublist_optionalMember "compression" _)).append (List.Sublist.refl ["partitions"])
  exact (hnames.append (List.Sublist.refl _)).nodup (by decide)

/-- The members of V5 metadata are decoded to it, whatever statistics and encoding stand
behind them. -/
theorem decodeV5Meta_members {m : V5.Meta} (hm : V5Ok m) {rest : List (String × Json)}
    (hrest : (rest.map Prod.fst).Sublist ["stats", "encoding"]) :
  decodeV5Meta (.obj (v5Members m ++ rest)) = some m
  := by
  have hnodup := nodup_append (v5_names m) hrest
  have hmem {v : String × Json} (hv : v ∈ v5Members m) : v ∈ v5Members m ++ rest :=
    List.mem_append_left rest hv
  have hversion : m.formatVersion < 2 ^ 32 := by
    rw [hm.formatVersion]
    decide
  have hnot {name : String} (h : name ≠ "stats" ∧ name ≠ "encoding") : name ∉ rest.map Prod.fst := by
    intro hname
    have := hrest.subset hname
    simp [h] at this
  have hsketch := field_optional v5Fields (orDefault none) (decodeOption decodeSketch)
    [("format_version", .num m.formatVersion), ("hash_algorithm", .str m.hashAlgorithm),
      ("verify_seed", .num m.verifySeed.toNat), ("block_size", .num m.blockSize),
      ("inline_threshold", .num m.inlineThreshold)]
    "sketch" (m.sketch.map sketchJson)
    (V4.optionalMember "compression" (m.compression.map compressionJson)
      ++ ([("partitions", .arr (m.partitions.map partitionJson))] ++ rest))
    (show v5Members m ++ rest = _ by simp only [v5Members, List.append_assoc]) (by simp)
    (by
      simp only [List.map_append, List.mem_append, not_or]
      exact ⟨not_mem_optionalMember (by decide) _, by simp, hnot (by decide)⟩)
  have hcompression := field_optional v5Fields (orDefault none) (decodeOption decodeCompression)
    ([("format_version", .num m.formatVersion), ("hash_algorithm", .str m.hashAlgorithm),
      ("verify_seed", .num m.verifySeed.toNat), ("block_size", .num m.blockSize),
      ("inline_threshold", .num m.inlineThreshold)]
      ++ V4.optionalMember "sketch" (m.sketch.map sketchJson))
    "compression" (m.compression.map compressionJson)
    ([("partitions", .arr (m.partitions.map partitionJson))] ++ rest)
    (show v5Members m ++ rest = _ by simp only [v5Members, List.append_assoc])
    (by
      simp only [List.map_append, List.mem_append, not_or]
      exact ⟨by simp, not_mem_optionalMember (by decide) _⟩)
    (by
      simp only [List.map_append, List.mem_append, not_or]
      exact ⟨by simp, hnot (by decide)⟩)
  have hsketch' : (m.sketch.map sketchJson).elim (some none) (decodeOption decodeSketch)
      = some m.sketch := by
    cases m.sketch with
    | none => rfl
    | some kind => simp [sketchJson, decodeOption, decodeSketch, field, Json.find, decodeStr]
  have hcompression' : (m.compression.map compressionJson).elim (some none)
      (decodeOption decodeCompression) = some m.compression := by
    cases hc : m.compression with
    | none => rfl
    | some c =>
      rw [Option.map_some, Option.elim_some, Json.decodeOption_of_ne_null (by simp [compressionJson]),
        decodeCompression_json (hm.compression c hc)]
      rfl
  rw [decodeV5Meta,
    Json.field_of_mem hnodup (hmem (v := (_, .num m.formatVersion)) (by simp [v5Members])),
    decodeUInt_num hversion, Option.bind_some,
    Json.field_of_mem hnodup (hmem (v := (_, .str m.hashAlgorithm)) (by simp [v5Members])),
    decodeStr, Option.bind_some,
    Json.field_of_mem hnodup (hmem (v := (_, .num m.verifySeed.toNat)) (by simp [v5Members])),
    decodeUInt_num m.verifySeed.toNat_lt, Option.bind_some,
    Json.field_of_mem hnodup (hmem (v := (_, .num m.blockSize)) (by simp [v5Members])),
    decodeUInt_num hm.blockSize, Option.bind_some,
    Json.field_of_mem hnodup (hmem (v := (_, .num m.inlineThreshold)) (by simp [v5Members])),
    decodeUInt_num hm.inlineThreshold, Option.bind_some, hsketch, orDefault, hsketch',
    Option.bind_some, hcompression, orDefault, hcompression', Option.bind_some,
    Json.field_of_mem hnodup (hmem (v := (_, .arr (m.partitions.map partitionJson))) (by simp [v5Members])),
    Json.decodeVec_map fun p hp => decodeV5Partition_json (hm.partitions p hp), Option.map_some,
    uint64_ofNat_toNat, List.map_id']

/-- The metadata of a V5 snapshot is written as `decodeV5Meta` reads it, and no member of it is
among those that a patch touches. -/
theorem prints_v5 :
  Prints V5.formatVersion v5Members decodeV5Meta V5Ok
  where
  names := v5_names
  tagged := fun m hm => by simp [v5Members, hm.formatVersion]
  version_lt := by decide
  decode := fun m hm rest hrest => decodeV5Meta_members hm hrest
  distinct := fun m => by
    refine forall_v5Members (.num _) (.str _) (.num _) (.num _) (.num _) (fun kind => ?_)
      (fun c _ => ?_) (distinct_arr_map fun p _ => ?_)
    · refine .obj _ (by simp) fun v hv => ?_
      rw [List.mem_singleton.1 hv]
      exact .str kind
    · exact .obj _ (nodup_compressionMembers c) (forall_compressionMembers (.str _) (.bool _) (.num _)
        (fun n _ => .num _) fun v _ => .str v)
    · exact .obj _ (nodup_partitionMembers p) (forall_partitionMembers (.num _) fun n _ => .num _)
  writable := fun m hm => by
    have hversion : m.formatVersion = 5 := hm.formatVersion
    have hsize := hm.blockSize
    have hthreshold := hm.inlineThreshold
    obtain ⟨hmin, hmax⟩ := toNat_cast_lt m.verifySeed
    refine forall_v5Members (.num _ (by omega) (by omega)) (.str _) (.num _ hmin hmax)
      (.num _ (by omega) (by omega)) (.num _ (by omega) (by omega)) (fun kind => ?_)
      (fun c hc => ?_) (writable_arr_map fun p hp => ?_)
    · refine .obj _ fun v hv => ?_
      rw [List.mem_singleton.1 hv]
      exact .str kind
    · have hmin := hm.compression c hc
      refine .obj _ (forall_compressionMembers (.str _) (.bool _) (.num _ (by omega) (by omega))
        (fun n _ => ?_) fun v _ => .str v)
      have hn := n.toNat_lt
      exact .num _ (by omega) (by omega)
    · have hblocks := hm.partitions p hp
      refine .obj _ (forall_partitionMembers (.num _ (by omega) (by omega)) fun n _ => ?_)
      have hn := n.toNat_lt
      exact .num _ (by omega) (by omega)
  depth := fun m => by
    have hscalar {ms : List (String × Json)} (h : ∀ v ∈ ms, v.2.depth ≤ 1) : (Json.obj ms).depth ≤ 2 :=
      Nat.succ_le_succ (Json.depthMembers_le le_rfl h)
    have hpartitions : (Json.arr (m.partitions.map partitionJson)).depth ≤ 3 :=
      depth_arr_map (by decide) fun p _ => hscalar (forall_partitionMembers (P := fun v => v.depth ≤ 1)
        (by simp [Json.depth]) (by simp [Json.depth]))
    refine forall_v5Members (P := fun v => v.depth ≤ 127) (by simp [Json.depth]) (by simp [Json.depth])
      (by simp [Json.depth]) (by simp [Json.depth]) (by simp [Json.depth])
      (fun kind => by simp [sketchJson, Json.depth, Json.depthMembers]) (fun c _ => ?_)
      (hpartitions.trans (by decide))
    exact (hscalar (forall_compressionMembers (P := fun v => v.depth ≤ 1) (by simp [Json.depth])
      (by simp [Json.depth]) (by simp [Json.depth]) (by simp [Json.depth])
      (by simp [Json.depth]))).trans (by decide)
  steady := steady_decodeV5Meta
  insert := fun ms hms v => by
    have hrequired {name : String} (h : "encoding" ≠ name) {α : Type} {dec : Json → Option α} :
        field v5Fields required dec name (.obj (Json.insertMember ("encoding", v) ms))
          = field v5Fields required dec name (.obj ms) :=
      Json.field_insertMember_ne (fun _ _ => rfl) hms h v5Fields
    have hdefault {name : String} (h : "encoding" ≠ name) {α : Type} {dec : Json → Option (Option α)} :
        field v5Fields (orDefault none) dec name (.obj (Json.insertMember ("encoding", v) ms))
          = field v5Fields (orDefault none) dec name (.obj ms) :=
      Json.field_insertMember_ne (fun _ _ => rfl) hms h v5Fields
    simp only [decodeV5Meta, hrequired (show "encoding" ≠ "format_version" by decide),
      hrequired (show "encoding" ≠ "hash_algorithm" by decide),
      hrequired (show "encoding" ≠ "verify_seed" by decide),
      hrequired (show "encoding" ≠ "block_size" by decide),
      hrequired (show "encoding" ≠ "inline_threshold" by decide),
      hdefault (show "encoding" ≠ "sketch" by decide),
      hdefault (show "encoding" ≠ "compression" by decide),
      hrequired (show "encoding" ≠ "partitions" by decide)]

/-! ### What is loaded -/

/-- A file with a document is loaded through the version and its payload. -/
theorem Holds.load_eq {M : Type} {version : Nat} {fields : List String} {dec : Json → Option M}
    {doc : Json} {p : Payload M} (h : Holds version fields dec doc p) (doubles : Json.Doubles) :
  Desc.load doubles (some (toStringPretty doubles doc))
    = loadDocument (doc.mapDoubles doubles.reread)
  := by
  have hread := h.read doubles
  rw [Json.readBytes, toStringPretty, Json.ofBytes_toBytes, Option.bind_some] at hread
  simp only [Desc.load, toStringPretty, Json.ofBytes_toBytes, hread]

/-- The document describes the metadata, and can be printed and patched. -/
def VersionedMeta.HeldBy (doc : Json) : VersionedMeta → Prop
  | .v4 p => Holds V4.formatVersion v4Fields decodeV4Meta doc p ∧ ∃ l, p.metadata.layout = .ok l
  | .v5 p => Holds V5.formatVersion v5Fields decodeV5Meta doc p ∧ ∃ l, p.metadata.layout = .ok l

theorem VersionedMeta.Ok.heldBy {d : VersionedMeta} (h : d.Ok) :
  d.HeldBy d.toJson
  := by
  cases d with
  | v4 p => exact ⟨prints_v4.holds h, (PayloadOk.metadata h).layout⟩
  | v5 p => exact ⟨prints_v5.holds h, (PayloadOk.metadata h).layout⟩

/-- The text of a document is loaded as the metadata that it holds. -/
theorem VersionedMeta.HeldBy.load {doc : Json} {d : VersionedMeta} (h : d.HeldBy doc)
    (doubles : Json.Doubles) :
  Desc.load doubles (some (toStringPretty doubles doc)) = .ok (d.reread doubles.reread)
  := by
  cases d with
  | v4 p =>
    obtain ⟨hdoc, l, hl⟩ := h
    obtain ⟨hversion, hpayload⟩ := hdoc.load steady_decodeV4Meta doubles
    rw [hdoc.load_eq, loadDocument, hversion]
    simp only [if_true, hpayload, checkLayout]
    rw [show (p.reread doubles.reread).metadata = p.metadata from rfl, hl]
    rfl
  | v5 p =>
    obtain ⟨hdoc, l, hl⟩ := h
    obtain ⟨hversion, hpayload⟩ := hdoc.load steady_decodeV5Meta doubles
    have hne : V5.formatVersion ≠ V4.formatVersion := by decide
    rw [hdoc.load_eq, loadDocument, hversion]
    simp only [if_neg hne, if_true, hpayload, checkLayout]
    rw [show (p.reread doubles.reread).metadata = p.metadata from rfl, hl]
    rfl

/-- The metadata after its encoding was assigned. -/
def VersionedMeta.setEncoding (encoding : Json) : VersionedMeta → VersionedMeta
  | .v4 p => .v4 (p.setEncoding encoding)
  | .v5 p => .v5 (p.setEncoding encoding)

/-- A patch of the text of a document gives that of one that holds the same metadata with the
encoding. -/
theorem VersionedMeta.HeldBy.patch {doc : Json} {d : VersionedMeta} (h : d.HeldBy doc)
    (doubles : Json.Doubles) {encoding : Json} (hencoding : IsValue 127 encoding) :
  ∃ doc', patchMetaDescriptor doubles encoding (toStringPretty doubles doc)
      = some (toStringPretty doubles doc')
    ∧ ((d.reread doubles.reread).setEncoding encoding).HeldBy doc'
  := by
  cases d with
  | v4 p =>
    obtain ⟨hdoc, hlayout⟩ := h
    obtain ⟨doc', hpatch, hdoc'⟩ := hdoc.patch prints_v4 doubles hencoding
    exact ⟨doc', hpatch, hdoc', hlayout⟩
  | v5 p =>
    obtain ⟨hdoc, hlayout⟩ := h
    obtain ⟨doc', hpatch, hdoc'⟩ := hdoc.patch prints_v5 doubles hencoding
    exact ⟨doc', hpatch, hdoc', hlayout⟩

/-- The metadata with its encoding assigned by patches, one after another. -/
def VersionedMeta.patched (g : UInt64 → UInt64) (d : VersionedMeta) (encodings : List Json) :
    VersionedMeta :=
  encodings.foldl (fun d e => (d.reread g).setEncoding e) d

/-- Patches one after the other leave the text of a document that holds the metadata with the
last encoding. -/
theorem VersionedMeta.HeldBy.patches {doc : Json} {d : VersionedMeta} (h : d.HeldBy doc)
    (doubles : Json.Doubles) {encodings : List Json} (hencodings : ∀ e ∈ encodings, IsValue 127 e) :
  ∃ doc', encodings.foldlM (fun file e => patchMetaDescriptor doubles e file)
      (toStringPretty doubles doc) = some (toStringPretty doubles doc')
    ∧ (d.patched doubles.reread encodings).HeldBy doc'
  := by
  induction encodings generalizing doc d with
  | nil => exact ⟨doc, rfl, h⟩
  | cons e es ih =>
    obtain ⟨doc₁, hpatch, h₁⟩ := h.patch doubles (hencodings e List.mem_cons_self)
    obtain ⟨doc₂, hpatches, h₂⟩ := ih h₁ fun e' he' => hencodings e' (List.mem_cons_of_mem e he')
    refine ⟨doc₂, ?_, h₂⟩
    rw [List.foldlM_cons, hpatch]
    exact hpatches

/-- The encoding that the loader patches in is a value that can be printed. -/
theorem isValue_descriptorJson (standardEncode : Bytes → String) (descriptorBytes : Bytes)
    (messageFqn : String) :
  IsValue 127 (descriptorJson standardEncode descriptorBytes messageFqn)
  where
  canonical := by
    refine .obj _ (List.pairwise_singleton _ _) fun m hm => ?_
    rw [List.mem_singleton.1 hm]
    refine .obj _ ?_ fun m hm => ?_
    · exact List.pairwise_pair.2 (show "descriptor" < "message_name" by decide)
    · simp only [List.mem_cons, List.not_mem_nil, or_false] at hm
      obtain rfl | rfl := hm
      all_goals exact .str _
  writable := by
    refine .obj _ fun m hm => ?_
    rw [List.mem_singleton.1 hm]
    refine .obj _ fun m hm => ?_
    simp only [List.mem_cons, List.not_mem_nil, or_false] at hm
    obtain rfl | rfl := hm
    all_goals exact .str _
  depth_le := by simp [descriptorJson, Json.depth, Json.depthMembers]
  ne_null := by simp [descriptorJson]

/-- The metadata that a builder prints, and that is patched any number of times with
descriptors, loads with every field as it was, but for the doubles, and with the last
descriptor. -/
theorem load_patched (doubles : Json.Doubles) (standardEncode : Bytes → String) {d : VersionedMeta}
    (hd : d.Ok) (patches : List (Bytes × String)) :
  ∃ file, (patches.map fun p => descriptorJson standardEncode p.1 p.2).foldlM
      (fun file e => patchMetaDescriptor doubles e file) (toStringPretty doubles d.toJson) = some file
    ∧ load doubles (some file)
      = .ok ((d.patched doubles.reread
        (patches.map fun p => descriptorJson standardEncode p.1 p.2)).reread doubles.reread)
  := by
  have hencodings : ∀ e ∈ patches.map fun p => descriptorJson standardEncode p.1 p.2,
      IsValue 127 e := by
    intro e he
    obtain ⟨p, -, rfl⟩ := List.mem_map.1 he
    exact isValue_descriptorJson standardEncode p.1 p.2
  obtain ⟨doc, hpatches, hdoc⟩ := hd.heldBy.patches doubles hencodings
  exact ⟨_, hpatches, hdoc.load doubles⟩

/-- A snapshot of one partition with a sketch and a dictionary. -/
def sampleMeta : VersionedMeta :=
  .v5
    { metadata :=
        { formatVersion := V5.formatVersion, hashAlgorithm := Format.hashAlgorithm,
          verifySeed := 7, blockSize := 4096, inlineThreshold := 2048, sketch := some V5.sketchKind,
          compression := some ⟨V5.codecZstd, true, some 9, 64, some "1.5.6"⟩,
          partitions := [⟨3, some 5⟩] }
      stats := some ⟨2, "2024-05-01T00:00:00Z",
        some (.obj [("bytes", .num 12), ("seconds", .double 0x3fe0000000000000)]), none⟩
      encoding := none }

theorem sampleMeta_ok :
  sampleMeta.Ok
  where
  metadata :=
    { formatVersion := rfl
      blockSize := by decide
      inlineThreshold := by decide
      compression := by
        rintro c ⟨⟩
        decide
      partitions := by
        intro p hp
        rw [List.mem_singleton.1 hp]
        decide
      layout := ⟨_, rfl⟩ }
  stats := by
    rintro s ⟨⟩
    exact
      { nKeys := by decide
        scatter := by
          rintro v ⟨⟩
          exact
            { canonical := by
                refine .obj _ (List.pairwise_pair.2 (show "bytes" < "seconds" by decide)) fun m hm => ?_
                simp only [List.mem_cons, List.not_mem_nil, or_false] at hm
                obtain rfl | rfl := hm
                · exact .num _
                · exact .double _
              writable := by
                refine .obj _ fun m hm => ?_
                simp only [List.mem_cons, List.not_mem_nil, or_false] at hm
                obtain rfl | rfl := hm
                · exact .num _ (by decide) (by decide)
                · exact .double _ (by decide)
              depth_le := by decide
              ne_null := by simp }
        index := by simp }
  encoding := by simp

theorem load_patched_v5 :
  ∃ file, ([(([1, 2] : Bytes), "kv.User")].map fun p => descriptorJson (fun _ => "AQI=") p.1 p.2).foldlM
      (fun file e => patchMetaDescriptor Json.halfDoubles e file)
      (toStringPretty Json.halfDoubles sampleMeta.toJson) = some file
    ∧ load Json.halfDoubles (some file)
      = .ok ((sampleMeta.patched Json.halfDoubles.reread
        ([(([1, 2] : Bytes), "kv.User")].map fun p => descriptorJson (fun _ => "AQI=") p.1 p.2)).reread
          Json.halfDoubles.reread)
  :=
  load_patched Json.halfDoubles (fun _ => "AQI=") sampleMeta_ok [([1, 2], "kv.User")]

end Format.Desc
