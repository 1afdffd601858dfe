import Mcfreeze.NodeAgent.CatalogFile

/-!
# The worker file

`worker.json` as the control plane prints it (`json.Marshal` of a `workerConfig` in
`controlplane/builder/job.go`, from the source of a `Dataset`) and as `mcf load config` parses
it (`WorkerConfig` in `mcfreeze-encode/src/config.rs`) and opens the source
(`build_pipeline` in `mcfreeze-cli/src/load.rs`).

What the control plane leaves out because it is empty the worker takes for absent, so it opens
what the dataset asks for.
-/

namespace ControlPlane

/-! ### What the control plane prints -/

structure ProtobufEncoding where
  descriptor : String
  descriptorURI : String
  package : String
  messageName : String
  deriving DecidableEq, Repr

structure EncodingSpec where
  protobuf : Option ProtobufEncoding
  deriving DecidableEq, Repr

structure BigQuerySource where
  project : String
  table : String
  selectedFields : Slice String
  rowRestriction : String
  deriving DecidableEq, Repr

structure CsvSource where
  data : String
  path : String
  deriving DecidableEq, Repr

/-- The source of a dataset; the object and the wire type have the same fields. -/
structure SourceSpec where
  keyColumn : String
  valueColumn : String
  includeKeyInValue : Bool
  encoding : Option EncodingSpec
  bigQuery : Option BigQuerySource
  csv : Option CsvSource
  deriving DecidableEq, Repr

/-- A copy of a slice; that of an empty one is `nil`. -/
def Slice.copy {α : Type} (s : Slice α) : Slice α :=
  if s.elems = [] then none else some s.elems

def toAPISourceSpec (s : SourceSpec) : SourceSpec where
  keyColumn := s.keyColumn
  valueColumn := s.valueColumn
  includeKeyInValue := s.includeKeyInValue
  encoding := (s.encoding.bind (·.protobuf)).map fun p => ⟨some p⟩
  bigQuery := s.bigQuery.map fun b => { b with selectedFields := b.selectedFields.copy }
  csv := s.csv

structure WorkerConfig where
  source : SourceSpec
  output : String
  partitions : Int64

/-- A string with `omitempty`. -/
def omitEmpty (s : String) : Option Json :=
  if s = "" then none else some (.str s)

def ProtobufEncoding.parts (p : ProtobufEncoding) : List (String × Option Json) :=
  [("descriptor", omitEmpty p.descriptor), ("descriptor_uri", omitEmpty p.descriptorURI),
    ("package", omitEmpty p.package), ("message_name", some (.str p.messageName))]

def EncodingSpec.parts (e : EncodingSpec) : List (String × Option Json) :=
  [("protobuf", e.protobuf.map fun p => .obj (Json.members p.parts))]

def BigQuerySource.parts (b : BigQuerySource) : List (String × Option Json) :=
  [("project", some (.str b.project)), ("table", some (.str b.table)),
    ("selected_fields",
      if b.selectedFields.elems = [] then none else some (.arr (b.selectedFields.elems.map .str))),
    ("row_restriction", omitEmpty b.rowRestriction)]

def CsvSource.parts (c : CsvSource) : List (String × Option Json) :=
  [("data", omitEmpty c.data), ("path", omitEmpty c.path)]

def SourceSpec.parts (s : SourceSpec) : List (String × Option Json) :=
  [("key_column", some (.str s.keyColumn)), ("value_column", omitEmpty s.valueColumn),
    ("include_key_in_value", if s.includeKeyInValue then some (.bool true) else none),
    ("encoding", s.encoding.map fun e => .obj (Json.members e.parts)),
    ("bigquery", s.bigQuery.map fun b => .obj (Json.members b.parts)),
    ("csv", s.csv.map fun c => .obj (Json.members c.parts))]

def WorkerConfig.parts (wc : WorkerConfig) : List (String × Option Json) :=
  [("source", some (.obj (Json.members wc.source.parts))), ("output", some (.str wc.output)),
    ("partitions", some (.num wc.partitions.toInt))]

/-- `json.Marshal` of a worker configuration. -/
def marshalWorker (doubles : Json.Doubles) (wc : WorkerConfig) : Bytes :=
  Json.toBytes (Json.write (Json.compact NodeAgent.htmlEscaped doubles) 0
    (.obj (Json.members wc.parts)))

/-- `worker.json` of a build of a dataset. -/
def workerJson (doubles : Json.Doubles) (source : SourceSpec) (shardCount : Int64) : Bytes :=
  marshalWorker doubles ⟨toAPISourceSpec source, "/output", shardCount⟩

end ControlPlane

namespace Encode

open Json (field required orNone orDefault decodeStr decodeBool decodeUInt decodeOption decodeVec)

/-! ### What the worker parses -/

structure ProtobufEncoding where
  descriptor : Option String
  descriptorUri : Option String
  package : Option String
  messageName : String
  deriving DecidableEq, Repr

structure EncodingSpec where
  protobuf : Option ProtobufEncoding
  deriving DecidableEq, Repr

structure BigQuerySource where
  project : String
  table : String
  selectedFields : List String
  rowRestriction : Option String
  streams : Int
  noCompression : Bool
  deriving DecidableEq, Repr

structure CsvSource where
  data : Option String
  path : Option String
  deriving DecidableEq, Repr

structure SourceSpec where
  keyColumn : String
  valueColumn : Option String
  includeKeyInValue : Bool
  encoding : Option EncodingSpec
  bigquery : Option BigQuerySource
  csv : Option CsvSource
  deriving DecidableEq, Repr

structure WorkerConfig where
  source : SourceSpec
  output : String
  partitions : Nat
  indexParallelism : Nat
  deriving DecidableEq, Repr

def defaultPartitions : Nat := 64
def defaultIndexParallelism : Nat := 2
def defaultStreams : Int := 8

/-- A signed integer of 32 bits. -/
def decodeInt32 : Json → Option Int
  | .num n => if -2 ^ 31 ≤ n ∧ n < 2 ^ 31 then some n else none
  | _ => none

/-- Decode an optional string, where an empty one is none. -/
def emptyStringAsNone (j : Json) : Option (Option String) :=
  (decodeOption decodeStr j).map (Option.filter (· ≠ ""))

def protobufFields : List String := ["descriptor", "descriptor_uri", "package", "message_name"]

def decodeProtobuf (j : Json) : Option ProtobufEncoding :=
  (field protobufFields orNone (decodeOption decodeStr) "descriptor" j).bind fun descriptor =>
  (field protobufFields orNone (decodeOption decodeStr) "descriptor_uri" j).bind
    fun descriptorUri =>
  (field protobufFields orNone (decodeOption decodeStr) "package" j).bind fun package =>
  (field protobufFields required decodeStr "message_name" j).map fun messageName =>
  ⟨descriptor, descriptorUri, package, messageName⟩

def decodeEncoding (j : Json) : Option EncodingSpec :=
  (field ["protobuf"] orNone (decodeOption decodeProtobuf) "protobuf" j).map fun protobuf =>
  ⟨protobuf⟩

def bigQueryFields : List String :=
  ["project", "table", "selected_fields", "row_restriction", "streams", "no_compression"]

def decodeBigQuery (j : Json) : Option BigQuerySource :=
  (field bigQueryFields required decodeStr "project" j).bind fun project =>
  (field bigQueryFields required decodeStr "table" j).bind fun table =>
  (field bigQueryFields (orDefault []) (decodeVec decodeStr) "selected_fields" j).bind
    fun selectedFields =>
  (field bigQueryFields orNone (decodeOption decodeStr) "row_restriction" j).bind
    fun rowRestriction =>
  (field bigQueryFields (orDefault defaultStreams) decodeInt32 "streams" j).bind fun streams =>
  (field bigQueryFields (orDefault false) decodeBool "no_compression" j).map fun noCompression =>
  ⟨project, table, selectedFields, rowRestriction, streams, noCompression⟩

def decodeCsv (j : Json) : Option CsvSource :=
  (field ["data", "path"] orNone (decodeOption decodeStr) "data" j).bind fun data =>
  (field ["data", "path"] orNone (decodeOption decodeStr) "path" j).map fun path =>
  ⟨data, path⟩

def sourceFields : List String :=
  ["key_column", "value_column", "include_key_in_value", "encoding", "bigquery", "csv"]

def decodeSource (j : Json) : Option SourceSpec :=
  (field sourceFields required decodeStr "key_column" j).bind fun keyColumn =>
  (field sourceFields (orDefault none) emptyStringAsNone "value_column" j).bind fun valueColumn =>
  (field sourceFields (orDefault false) decodeBool "include_key_in_value" j).bind
    fun includeKeyInValue =>
  (field sourceFields (orDefault none) (decodeOption decodeEncoding) "encoding" j).bind
    fun encoding =>
  (field sourceFields orNone (decodeOption decodeBigQuery) "bigquery" j).bind fun bigquery =>
  (field sourceFields orNone (decodeOption decodeCsv) "csv" j).map fun csv =>
  ⟨keyColumn, valueColumn, includeKeyInValue, encoding, bigquery, csv⟩

def workerFields : List String := ["source", "output", "partitions", "index_parallelism"]

def decodeWorker (j : Json) : Option WorkerConfig :=
  (field workerFields required decodeSource "source" j).bind fun source =>
  (field workerFields required decodeStr "output" j).bind fun output =>
  (field workerFields (orDefault defaultPartitions) (decodeUInt 32) "partitions" j).bind
    fun partitions =>
  (field workerFields (orDefault defaultIndexParallelism) (decodeUInt 64) "index_parallelism" j).map
    fun indexParallelism =>
  ⟨source, output, partitions, indexParallelism⟩

/-- `serde_json::from_slice`. -/
def fromSlice (parse : List Char → Option UInt64) (data : Bytes) : Option WorkerConfig :=
  (Json.readBytes parse 128 data).bind decodeWorker

end Encode

namespace Cli

/-! ### What the worker opens -/

/-- The configuration of a read session. -/
structure BqSourceConfig where
  project : String
  table : String
  selectedFields : List String
  nStreams : Int
  rowRestriction : Option String
  disableCompression : Bool
  deriving DecidableEq, Repr

inductive Opened where
  | csvData (data : String)
  | csvFile (path : String)
  | bigQuery (config : BqSourceConfig)
  deriving DecidableEq, Repr

/-- What is loaded, and how. -/
structure Pipeline where
  sources : Opened
  keyColumn : String
  valueColumn : String
  includeKeyInValue : Bool
  encoding : Option Encode.ProtobufEncoding
  deriving DecidableEq, Repr

/-- The project and the resource name of a table, which is given by that name or with dots. -/
def parseTable (table : String) (projectOverride : Option String) :
    Except String (String × String) :=
  let parsed : Except String (String × String) :=
    if table.startsWith "projects/" then
      match (table.splitOn "/")[1]? with
      | none => .error "malformed resource name, expected projects/P/datasets/D/tables/T"
      | some project => .ok (project, table)
    else
      match table.splitOn "." with
      | project :: dataset :: part :: parts =>
        .ok (project, "projects/" ++ project ++ "/datasets/" ++ dataset ++ "/tables/"
          ++ ".".intercalate (part :: parts))
      | _ =>
        .error ("--table must be in dotted notation project.dataset.table or full resource name "
          ++ "projects/P/datasets/D/tables/T")
  parsed.map fun p => (projectOverride.getD p.1, p.2)

/-- `build_pipeline` for a configuration file. -/
def buildPipeline (wc : Encode.WorkerConfig) : Except String Pipeline :=
  let pipeline (sources : Opened) : Pipeline :=
    ⟨sources, wc.source.keyColumn, wc.source.valueColumn.getD "value", wc.source.includeKeyInValue,
      wc.source.encoding.bind (·.protobuf)⟩
  match wc.source.csv with
  | some csv =>
    match csv.data, csv.path with
    | some data, _ => .ok (pipeline (.csvData data))
    | none, some path => .ok (pipeline (.csvFile path))
    | none, none => .error "csv source requires either 'data' or 'path'"
  | none =>
    match wc.source.bigquery with
    | none => .error "source must specify either 'csv' or 'bigquery'"
    | some bq =>
      (parseTable bq.table (some bq.project)).map fun t =>
        pipeline (.bigQuery
          ⟨t.1, t.2, bq.selectedFields, bq.streams, bq.rowRestriction, bq.noCompression⟩)

end Cli

namespace ControlPlane

open Json (members Plain plain_str plain_num plain_bool plain_arr plain_obj forall_members)

/-! ### What a dataset asks for -/

/-- A string, where an empty one stands for none. -/
def nonempty (s : String) : Option String :=
  if s = "" then none else some s

def ProtobufEncoding.worker (p : ProtobufEncoding) : Encode.ProtobufEncoding :=
  ⟨nonempty p.descriptor, nonempty p.descriptorURI, nonempty p.package, p.messageName⟩

/-- What to open for a source: the inline data, else the file, else the table. -/
def SourceSpec.opened (s : SourceSpec) : Except String Cli.Opened :=
  match s.csv, s.bigQuery with
  | some csv, _ =>
    if csv.data ≠ "" then .ok (.csvData csv.data)
    else if csv.path ≠ "" then .ok (.csvFile csv.path)
    else .error "csv source requires either 'data' or 'path'"
  | none, none => .error "source must specify either 'csv' or 'bigquery'"
  | none, some b =>
    (Cli.parseTable b.table (some b.project)).map fun t =>
      .bigQuery ⟨t.1, t.2, b.selectedFields.elems, 8, nonempty b.rowRestriction, false⟩

/-- What to load from a source, and how. -/
def SourceSpec.pipeline (s : SourceSpec) : Except String Cli.Pipeline :=
  s.opened.map fun sources =>
    ⟨sources, s.keyColumn, (nonempty s.valueColumn).getD "value", s.includeKeyInValue,
      (s.encoding.bind (·.protobuf)).map (·.worker)⟩

/-! ### Printing -/

theorem forall_omitEmpty {P : Json → Prop} {s : String} (h : P (.str s)) :
  ∀ v ∈ omitEmpty s, P v
  := by
  intro v hv
  unfold omitEmpty at hv
  split_ifs at hv
  · cases hv
  · obtain rfl := Option.mem_some_iff.1 hv
    exact h

/-- The members of a protobuf encoding can be printed and read back. -/
theorem plain_protobuf (p : ProtobufEncoding) :
  Plain 2 (.obj (members p.parts))
  := by
  refine plain_obj le_rfl (forall_members fun q hq => ?_)
  simp only [ProtobufEncoding.parts, List.mem_cons, List.not_mem_nil, or_false] at hq
  obtain rfl | rfl | rfl | rfl := hq
  · exact forall_omitEmpty (plain_str _)
  · exact forall_omitEmpty (plain_str _)
  · exact forall_omitEmpty (plain_str _)
  · rintro v ⟨⟩
    exact plain_str _

theorem plain_encoding (e : EncodingSpec) :
  Plain 3 (.obj (members e.parts))
  := by
  refine plain_obj (by decide) (forall_members fun q hq => ?_)
  obtain rfl := List.mem_singleton.1 hq
  intro v hv
  obtain ⟨p, -, rfl⟩ := Option.map_eq_some_iff.1 hv
  exact plain_protobuf p

/-- The members of a BigQuery source can be printed and read back. -/
theorem plain_bigQuery (b : BigQuerySource) :
  Plain 3 (.obj (members b.parts))
  := by
  refine plain_obj (by decide) (forall_members fun q hq => ?_)
  have hstr : ∀ s : String, Plain 2 (.str s) := fun s => (plain_str s).mono (by decide)
  simp only [BigQuerySource.parts, List.mem_cons, List.not_mem_nil, or_false] at hq
  obtain rfl | rfl | rfl | rfl := hq
  · rintro v ⟨⟩
    exact hstr _
  · rintro v ⟨⟩
    exact hstr _
  · intro v hv
    dsimp only at hv
    split_ifs at hv
    · cases hv
    · obtain rfl := Option.mem_some_iff.1 hv
      refine plain_arr le_rfl fun w hw => ?_
      obtain ⟨s, -, rfl⟩ := List.mem_map.1 hw
      exact plain_str s
  · exact forall_omitEmpty (hstr _)

theorem plain_csv (c : CsvSource) :
  Plain 2 (.obj (members c.parts))
  := by
  refine plain_obj le_rfl (forall_members fun q hq => ?_)
  simp only [CsvSource.parts, List.mem_cons, List.not_mem_nil, or_false] at hq
  obtain rfl | rfl := hq
  all_goals exact forall_omitEmpty (plain_str _)

/-- The members of a source can be printed and read back. -/
theorem plain_source (s : SourceSpec) :
  Plain 4 (.obj (members s.parts))
  := by
  refine plain_obj (by decide) (forall_members fun q hq => ?_)
  have hstr : ∀ t : String, Plain 3 (.str t) := fun t => (plain_str t).mono (by decide)
  simp only [SourceSpec.parts, List.mem_cons, List.not_mem_nil, or_false] at hq
  obtain rfl | rfl | rfl | rfl | rfl | rfl := hq
  · rintro v ⟨⟩
    exact hstr _
  · exact forall_omitEmpty (hstr _)
  · intro v hv
    dsimp only at hv
    split_ifs at hv
    · obtain rfl := Option.mem_some_iff.1 hv
      exact (plain_bool true).mono (by decide)
    · cases hv
  · intro v hv
    obtain ⟨e, -, rfl⟩ := Option.map_eq_some_iff.1 hv
    exact plain_encoding e
  · intro v hv
    obtain ⟨b, -, rfl⟩ := Option.map_eq_some_iff.1 hv
    exact plain_bigQuery b
  · intro v hv
    obtain ⟨c, -, rfl⟩ := Option.map_eq_some_iff.1 hv
    exact (plain_csv c).mono (by decide)

/-- The members of the worker file can be printed and read back. -/
theorem plain_worker (wc : WorkerConfig) :
  Plain 128 (.obj (members wc.parts))
  := by
  refine (plain_obj (by decide) (forall_members fun q hq => ?_) : Plain 5 _).mono (by decide)
  simp only [WorkerConfig.parts, List.mem_cons, List.not_mem_nil, or_false] at hq
  obtain rfl | rfl | rfl := hq
  · rintro v ⟨⟩
    exact plain_source wc.source
  · rintro v ⟨⟩
    exact (plain_str _).mono (by decide)
  · rintro v ⟨⟩
    have hmin := wc.partitions.le_toInt
    have hmax := wc.partitions.toInt_lt
    exact (plain_num hmin (by omega)).mono (by decide)

/-- The worker reads the value that the control plane prints. -/
theorem fromSlice_marshalWorker (doubles : Json.Doubles) (wc : WorkerConfig) :
  Encode.fromSlice doubles.parse (marshalWorker doubles wc)
    = Encode.decodeWorker (.obj (members wc.parts))
  := by
  have hread := (plain_worker wc).readBytes (NodeAgent.lawful_htmlEscaped doubles)
  have hparse : Json.readBytes doubles.parse 128 (marshalWorker doubles wc)
      = some (.obj (members wc.parts)) := hread
  rw [Encode.fromSlice, hparse, Option.bind_some]


/-! ### Decoding -/

theorem elim_omitEmpty (s : String) :
  (omitEmpty s).elim (some none) (Json.decodeOption Json.decodeStr) = some (nonempty s)
  := by
  unfold omitEmpty nonempty
  split_ifs
  all_goals rfl

/-- A record that may be left out. -/
theorem elim_obj {α β : Type} {dec : Json → Option α} {parts : β → List (String × Option Json)}
    {k : β → α} (h : ∀ b, dec (.obj (members (parts b))) = some (k b)) (o : Option β) :
  (o.map fun b => Json.obj (members (parts b))).elim (some none) (Json.decodeOption dec)
    = some (o.map k)
  := by
  cases o with
  | none => rfl
  | some b =>
    have hb : Json.decodeOption dec (.obj (members (parts b))) = some (some (k b)) := by
      rw [Json.decodeOption_of_ne_null (by simp), h, Option.map_some]
    exact hb

/-- The worker decodes the encoding that the control plane has encoded. -/
theorem decodeProtobuf_members (p : ProtobufEncoding) :
  Encode.decodeProtobuf (.obj (members p.parts)) = some p.worker
  := by
  have hparts : (p.parts.map Prod.fst).Nodup := by simp [ProtobufEncoding.parts]
  have hstr : ∀ name s, (name, omitEmpty s) ∈ p.parts →
      Json.field Encode.protobufFields Json.orNone (Json.decodeOption Json.decodeStr) name
        (.obj (members p.parts)) = some (nonempty s) := fun name s h =>
    (Json.field_members _ _ _ hparts h).trans (elim_omitEmpty s)
  have hname : Json.field Encode.protobufFields Json.required Json.decodeStr "message_name"
      (.obj (members p.parts)) = some p.messageName :=
    Json.field_members _ _ _ hparts (v := some (.str p.messageName))
      (by simp [ProtobufEncoding.parts])
  rw [Encode.decodeProtobuf, hstr "descriptor" p.descriptor (by simp [ProtobufEncoding.parts]),
    hstr "descriptor_uri" p.descriptorURI (by simp [ProtobufEncoding.parts]),
    hstr "package" p.package (by simp [ProtobufEncoding.parts]), hname]
  rfl

theorem decodeEncoding_members (e : EncodingSpec) :
  Encode.decodeEncoding (.obj (members e.parts)) = some ⟨e.protobuf.map (·.worker)⟩
  := by
  have hparts : (e.parts.map Prod.fst).Nodup := List.nodup_singleton _
  rw [Encode.decodeEncoding, Json.field_members _ _ _ hparts (List.mem_singleton_self _)]
  exact congrArg (Option.map _) (elim_obj decodeProtobuf_members e.protobuf)

/-- What the worker gets of a table. -/
def BigQuerySource.worker (b : BigQuerySource) : Encode.BigQuerySource :=
  ⟨b.project, b.table, b.selectedFields.elems, nonempty b.rowRestriction, 8, false⟩

/-- The worker decodes the BigQuery source that the control plane has encoded. -/
theorem decodeBigQuery_members (b : BigQuerySource) :
  Encode.decodeBigQuery (.obj (members b.parts)) = some b.worker
  := by
  have hparts : (b.parts.map Prod.fst).Nodup := by simp [BigQuerySource.parts]
  have hstr : ∀ name s, (name, some (.str s)) ∈ b.parts →
      Json.field Encode.bigQueryFields Json.required Json.decodeStr name
        (.obj (members b.parts)) = some s := fun name s h =>
    Json.field_members _ _ _ hparts h
  have hrestriction : Json.field Encode.bigQueryFields Json.orNone
      (Json.decodeOption Json.decodeStr) "row_restriction" (.obj (members b.parts))
        = some (nonempty b.rowRestriction) :=
    (Json.field_members _ _ _ hparts (by simp [BigQuerySource.parts])).trans
      (elim_omitEmpty b.rowRestriction)
  have hfields : Json.field Encode.bigQueryFields (Json.orDefault [])
      (Json.decodeVec Json.decodeStr) "selected_fields" (.obj (members b.parts))
        = some b.selectedFields.elems := by
    rw [Json.field_members (v := if b.selectedFields.elems = [] then none
      else some (.arr (b.selectedFields.elems.map .str))) _ _ _ hparts
      (by simp [BigQuerySource.parts])]
    split_ifs with hnil
    · rw [hnil]
      rfl
    · have hstr : ∀ s ∈ b.selectedFields.elems, Json.decodeStr (.str s) = some (id s) :=
        fun _ _ => rfl
      have hmap := Json.decodeVec_map hstr
      rwa [List.map_id] at hmap
  have hdefault : ∀ {α : Type} (a : α) dec name, name ∉ b.parts.map Prod.fst →
      Json.field Encode.bigQueryFields (Json.orDefault a) dec name (.obj (members b.parts))
        = some a := fun a dec name h =>
    Json.field_of_not_mem fun hmem => h ((Json.sublist_members _).subset hmem)
  rw [Encode.decodeBigQuery, hstr "project" b.project (by simp [BigQuerySource.parts]),
    hstr "table" b.table (by simp [BigQuerySource.parts]), hfields, hrestriction,
    hdefault _ _ "streams" (by simp [BigQuerySource.parts]),
    hdefault _ _ "no_compression" (by simp [BigQuerySource.parts])]
  rfl

def CsvSource.worker (c : CsvSource) : Encode.CsvSource :=
  ⟨nonempty c.data, nonempty c.path⟩

/-- The worker decodes the CSV source that the control plane has encoded. -/
theorem decodeCsv_members (c : CsvSource) :
  Encode.decodeCsv (.obj (members c.parts)) = some c.worker
  := by
  have hparts : (c.parts.map Prod.fst).Nodup := by simp [CsvSource.parts]
  have hstr : ∀ name s, (name, omitEmpty s) ∈ c.parts →
      Json.field ["data", "path"] Json.orNone (Json.decodeOption Json.decodeStr) name
        (.obj (members c.parts)) = some (nonempty s) := fun name s h =>
    (Json.field_members _ _ _ hparts h).trans (elim_omitEmpty s)
  rw [Encode.decodeCsv, hstr "data" c.data (by simp [CsvSource.parts]),
    hstr "path" c.path (by simp [CsvSource.parts])]
  rfl

def SourceSpec.worker (s : SourceSpec) : Encode.SourceSpec :=
  ⟨s.keyColumn, nonempty s.valueColumn, s.includeKeyInValue,
    s.encoding.map fun e => ⟨e.protobuf.map (·.worker)⟩, s.bigQuery.map (·.worker),
    s.csv.map (·.worker)⟩

/-- The worker decodes the source that the control plane has encoded. -/
theorem decodeSource_members (s : SourceSpec) :
  Encode.decodeSource (.obj (members s.parts)) = some s.worker
  := by
  have hparts : (s.parts.map Prod.fst).Nodup := by simp [SourceSpec.parts]
  have hkey : Json.field Encode.sourceFields Json.required Json.decodeStr "key_column"
      (.obj (members s.parts)) = some s.keyColumn :=
    Json.field_members _ _ _ hparts (v := some (.str s.keyColumn)) (by simp [SourceSpec.parts])
  have hvalue : Json.field Encode.sourceFields (Json.orDefault none) Encode.emptyStringAsNone
      "value_column" (.obj (members s.parts)) = some (nonempty s.valueColumn) := by
    rw [Json.field_members (v := omitEmpty s.valueColumn) _ _ _ hparts (by simp [SourceSpec.parts])]
    unfold omitEmpty nonempty
    split_ifs with hs
    · rfl
    · simp [Encode.emptyStringAsNone, Json.decodeOption, Json.decodeStr, hs]
  have hinclude : Json.field Encode.sourceFields (Json.orDefault false) Json.decodeBool
      "include_key_in_value" (.obj (members s.parts)) = some s.includeKeyInValue := by
    rw [Json.field_members (v := if s.includeKeyInValue then some (.bool true) else none) _ _ _
      hparts (by simp [SourceSpec.parts])]
    cases s.includeKeyInValue
    all_goals rfl
  have hencoding : Json.field Encode.sourceFields (Json.orDefault none)
      (Json.decodeOption Encode.decodeEncoding) "encoding" (.obj (members s.parts))
        = some (s.encoding.map fun e => ⟨e.protobuf.map (·.worker)⟩) :=
    (Json.field_members _ _ _ hparts (by simp [SourceSpec.parts])).trans
      (elim_obj decodeEncoding_members s.encoding)
  have hbigquery : Json.field Encode.sourceFields Json.orNone
      (Json.decodeOption Encode.decodeBigQuery) "bigquery" (.obj (members s.parts))
        = some (s.bigQuery.map (·.worker)) :=
    (Json.field_members _ _ _ hparts (by simp [SourceSpec.parts])).trans
      (elim_obj decodeBigQuery_members s.bigQuery)
  have hcsv : Json.field Encode.sourceFields Json.orNone
      (Json.decodeOption Encode.decodeCsv) "csv" (.obj (members s.parts))
        = some (s.csv.map (·.worker)) :=
    (Json.field_members _ _ _ hparts (by simp [SourceSpec.parts])).trans
      (elim_obj decodeCsv_members s.csv)
  rw [Encode.decodeSource, hkey, hvalue, hinclude, hencoding, hbigquery, hcsv]
  rfl

/-- The number of partitions must fit 32 bits; the rest is as it was printed. -/
theorem decodeWorker_members (wc : WorkerConfig) :
  Encode.decodeWorker (.obj (members wc.parts))
    = if 0 ≤ wc.partitions.toInt ∧ wc.partitions.toInt < 2 ^ 32
      then some ⟨wc.source.worker, wc.output, wc.partitions.toInt.toNat, 2⟩ else none
  := by
  have hparts : (wc.parts.map Prod.fst).Nodup := by simp [WorkerConfig.parts]
  have hsource : Json.field Encode.workerFields Json.required Encode.decodeSource "source"
      (.obj (members wc.parts)) = some wc.source.worker :=
    (Json.field_members _ _ _ hparts (v := some (.obj (members wc.source.parts)))
      (by simp [WorkerConfig.parts])).trans (decodeSource_members wc.source)
  have houtput : Json.field Encode.workerFields Json.required Json.decodeStr "output"
      (.obj (members wc.parts)) = some wc.output :=
    Json.field_members _ _ _ hparts (v := some (.str wc.output)) (by simp [WorkerConfig.parts])
  have hpartitions : Json.field Encode.workerFields (Json.orDefault Encode.defaultPartitions)
      (Json.decodeUInt 32) "partitions" (.obj (members wc.parts))
        = Json.decodeUInt 32 (.num wc.partitions.toInt) :=
    Json.field_members _ _ _ hparts (v := some (.num wc.partitions.toInt))
      (by simp [WorkerConfig.parts])
  have hparallelism : Json.field Encode.workerFields
      (Json.orDefault Encode.defaultIndexParallelism) (Json.decodeUInt 64) "index_parallelism"
        (.obj (members wc.parts)) = some 2 :=
    Json.field_of_not_mem fun hmem =>
      absurd ((Json.sublist_members _).subset hmem) (by simp [WorkerConfig.parts])
  rw [Encode.decodeWorker, hsource, houtput, hpartitions, hparallelism]
  simp only [Option.bind_some, Option.map_some, Json.decodeUInt]
  split_ifs
  all_goals rfl

/-! ### Opening -/

/-- The source that the control plane encodes differs from that of the object only in its
encoding. -/
theorem worker_toAPISourceSpec (s : SourceSpec) :
  (toAPISourceSpec s).worker
    = { s.worker with encoding := (s.encoding.bind (·.protobuf)).map fun p => ⟨some p.worker⟩ }
  := by
  have hcopy : ∀ l : Slice String, (Slice.copy l).elems = l.elems := by
    intro l
    unfold Slice.copy
    split_ifs with hnil
    · rw [hnil]
      rfl
    · rfl
  have hbigquery : (s.bigQuery.map fun b => { b with selectedFields := b.selectedFields.copy }).map
      (·.worker) = s.bigQuery.map (·.worker) := by
    rw [Option.map_map]
    congr 1
    funext b
    simp only [Function.comp_apply, BigQuerySource.worker, hcopy]
  simp only [toAPISourceSpec, SourceSpec.worker, hbigquery, Option.map_map]
  rfl

/-- The worker opens what the dataset asks for. -/
theorem buildPipeline_worker (s : SourceSpec) (output : String)
    (partitions indexParallelism : Nat) :
  Cli.buildPipeline ⟨(toAPISourceSpec s).worker, output, partitions, indexParallelism⟩ = s.pipeline
  := by
  have hencoding : ((toAPISourceSpec s).worker.encoding.bind (·.protobuf))
      = (s.encoding.bind (·.protobuf)).map (·.worker) := by
    rw [worker_toAPISourceSpec]
    cases s.encoding.bind (·.protobuf)
    all_goals rfl
  rw [worker_toAPISourceSpec] at hencoding ⊢
  simp only [Cli.buildPipeline, hencoding, SourceSpec.pipeline, SourceSpec.opened, SourceSpec.worker]
  cases s.csv with
  | some csv =>
    simp only [Option.map_some, CsvSource.worker, nonempty]
    split_ifs
    all_goals simp_all [Except.map]
  | none =>
    cases s.bigQuery with
    | none => rfl
    | some b =>
      simp only [Option.map_none, Option.map_some, BigQuerySource.worker]
      cases Cli.parseTable b.table (some b.project)
      all_goals rfl

/-- The worker parses what the control plane prints for a dataset if its number of partitions
fits 32 bits, and then it opens the source that the dataset asks for. -/
theorem worker_opens_source (doubles : Json.Doubles) (source : SourceSpec) (shardCount : Int64) :
  (Encode.fromSlice doubles.parse (workerJson doubles source shardCount)).map
      (fun wc => (Cli.buildPipeline wc, wc.output, wc.partitions, wc.indexParallelism))
    = if 0 ≤ shardCount.toInt ∧ shardCount.toInt < 2 ^ 32
      then some (source.pipeline, "/output", shardCount.toInt.toNat, 2) else none
  := by
  rw [workerJson, fromSlice_marshalWorker, decodeWorker_members]
  split_ifs
  · rw [Option.map_some, buildPipeline_worker]
  · rfl

end ControlPlane
