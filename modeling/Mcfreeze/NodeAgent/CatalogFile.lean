import Mcfreeze.ControlPlane.Api
import Mcfreeze.Lib.Serde
import Mcfreeze.Server.Catalog

/-!
# The catalog file

`catalog.json` as the node agent prints it (`json.Marshal` in `nodeagent/agent.go`) and as
the server parses it (`serde_json::from_slice` in `mcfreeze-server/src/catalog.rs`).  The two
escape differently and the records are declared twice, but whatever entries the agent writes
are those that the server loads, in their order.
-/

namespace NodeAgent

open ControlPlane

/-! ### What the agent prints -/

/-- The characters that `json.Marshal` escapes beside those that must be. -/
def htmlEscaped (c : Char) : Bool :=
  c == '<' || c == '>' || c == '&' || c == '\u2028' || c == '\u2029'

def entryJson (e : CatalogEntry) : Json :=
  .obj [("dataset", .str e.dataset), ("key_prefix", .str e.keyPrefix),
    ("version_id", .str e.versionID), ("mount_path", .str e.mountPath)]

def catalogJson (entries : List CatalogEntry) : Json :=
  .obj [("entries", .arr (entries.map entryJson))]

/-- `json.Marshal` of a catalog. -/
def marshalCatalog (doubles : Json.Doubles) (entries : List CatalogEntry) : Bytes :=
  Json.toBytes (Json.write (Json.compact htmlEscaped doubles) 0 (catalogJson entries))

end NodeAgent

namespace Server.Catalog

/-! ### What the server parses -/

def entryFields : List String := ["dataset", "key_prefix", "version_id", "mount_path"]

/-- A field of an entry. -/
def entryField (name : String) (j : Json) : Option String :=
  Json.field entryFields Json.required Json.decodeStr name j

def decodeEntry (j : Json) : Option CatalogEntry :=
  (entryField "dataset" j).bind fun dataset =>
  (entryField "key_prefix" j).bind fun keyPrefix =>
  (entryField "version_id" j).bind fun versionId =>
  (entryField "mount_path" j).map fun mountPath =>
  ⟨dataset, keyPrefix, versionId, mountPath⟩

def decodeCatalogFile (j : Json) : Option CatalogFile :=
  (Json.field ["entries"] Json.required (Json.decodeVec decodeEntry) "entries" j).map fun entries =>
  ⟨entries⟩

/-- How deep the values of a text may be nested. -/
def recursionLimit : Nat := 128

/-- `serde_json::from_slice`; `message` is the text of the error. -/
def fromSlice (parse : List Char → Option UInt64) (message : Bytes → String) (data : Bytes) :
    Except String CatalogFile :=
  match (Json.readBytes parse recursionLimit data).bind decodeCatalogFile with
  | some file => .ok file
  | none => .error (message data)

end Server.Catalog

namespace NodeAgent

open ControlPlane

/-! ### What the server reads of what the agent prints -/

/-- The entry that the server loads. -/
def serverEntry (e : CatalogEntry) : Server.Catalog.CatalogEntry :=
  ⟨e.dataset, e.keyPrefix, e.versionID, e.mountPath⟩

theorem lawful_htmlEscaped (doubles : Json.Doubles) :
  (Json.compact htmlEscaped doubles).Lawful
  := by
  refine Json.compact_lawful (fun c hc => ?_) doubles
  simp only [htmlEscaped, Bool.or_eq_true, beq_iff_eq] at hc
  obtain (((rfl | rfl) | rfl) | rfl) | rfl := hc
  all_goals decide

/-- A catalog can be printed. -/
theorem writable_catalogJson (entries : List CatalogEntry) :
  Json.Writable (catalogJson entries)
  := by
  refine .obj _ fun m hm => ?_
  rw [List.mem_singleton.1 hm]
  refine .arr _ fun v hv => ?_
  obtain ⟨e, -, rfl⟩ := List.mem_map.1 hv
  refine .obj _ fun m hm => ?_
  simp only [List.mem_cons, List.not_mem_nil, or_false] at hm
  obtain rfl | rfl | rfl | rfl := hm
  all_goals exact .str _

theorem depth_catalogJson (entries : List CatalogEntry) :
  (catalogJson entries).depth ≤ Server.Catalog.recursionLimit
  := by
  have hentries : Json.depthElems (entries.map entryJson) ≤ 2 := by
    refine Json.depthElems_le (by decide) fun v hv => ?_
    obtain ⟨e, -, rfl⟩ := List.mem_map.1 hv
    simp [entryJson, Json.depth, Json.depthMembers]
  simp only [catalogJson, Json.depth, Json.depthMembers, Server.Catalog.recursionLimit]
  omega

theorem mapDoubles_catalogJson (g : UInt64 → UInt64) (entries : List CatalogEntry) :
  (catalogJson entries).mapDoubles g = catalogJson entries
  := by
  simp only [catalogJson, Json.mapDoubles, Json.mapMembers, Json.mapElems_eq, List.map_map]
  congr 4

theorem decodeEntry_entryJson (e : CatalogEntry) :
  Server.Catalog.decodeEntry (entryJson e) = some (serverEntry e)
  := by
  simp [Server.Catalog.decodeEntry, Server.Catalog.entryField, Json.field, Json.find, entryJson,
    serverEntry, Json.decodeStr]

theorem decodeCatalogFile_catalogJson (entries : List CatalogEntry) :
  Server.Catalog.decodeCatalogFile (catalogJson entries) = some ⟨entries.map serverEntry⟩
  := by
  have hentries := Json.decodeVec_map fun e (_ : e ∈ entries) => decodeEntry_entryJson e
  simp [Server.Catalog.decodeCatalogFile, Json.field, Json.find, catalogJson, hentries]

/-- The server parses what the agent prints. -/
theorem fromSlice_marshalCatalog (doubles : Json.Doubles) (message : Bytes → String)
    (entries : List CatalogEntry) :
  Server.Catalog.fromSlice doubles.parse message (marshalCatalog doubles entries)
    = .ok ⟨entries.map serverEntry⟩
  := by
  have hread := Json.readBytes_write (lawful_htmlEscaped doubles)
    (writable_catalogJson entries) (depth_catalogJson entries)
  rw [mapDoubles_catalogJson] at hread
  have hparse : Json.readBytes doubles.parse Server.Catalog.recursionLimit
      (marshalCatalog doubles entries) = some (catalogJson entries) := hread
  simp only [Server.Catalog.fromSlice, hparse, Option.bind_some, decodeCatalogFile_catalogJson]

variable {Snapshot : Type}

/-- A server whose snapshots open like this. -/
def jsonEnv (doubles : Json.Doubles) (message : Bytes → String)
    (openPath : String → Except String Snapshot) : Server.Catalog.Env Snapshot where
  fromSlice := Server.Catalog.fromSlice doubles.parse message
  openPath := openPath

/-- The datasets of a catalog open if their prefixes are new and different, and every path
opens. -/
theorem openDatasets_ok_iff (env : Server.Catalog.Env Snapshot)
    (entries : List Server.Catalog.CatalogEntry)
    (datasets : List (String × Server.Catalog.DatasetHandle Snapshot)) :
  (∃ opened, Server.Catalog.openDatasets env entries datasets = .ok opened)
    ↔ (∀ e ∈ entries, e.keyPrefix ∉ datasets.map Prod.fst)
      ∧ (entries.map (·.keyPrefix)).Nodup
      ∧ ∀ e ∈ entries, ∃ reader, env.openPath e.mountPath = .ok reader
  := by
  induction entries generalizing datasets with
  | nil => simp [Server.Catalog.openDatasets]
  | cons e entries ih =>
    have hany : datasets.any (fun d => d.1 == e.keyPrefix) = true
        ↔ e.keyPrefix ∈ datasets.map Prod.fst := by
      simp [List.any_eq_true]
    simp only [Server.Catalog.openDatasets, Server.Catalog.DatasetHandle.open]
    split_ifs with hdup
    · have hmem := hany.1 hdup
      simp only [exists_false, List.mem_cons, forall_eq_or_imp, hmem,
        not_true_eq_false, false_and]
    · have hnew : e.keyPrefix ∉ datasets.map Prod.fst := fun h => hdup (hany.2 h)
      cases hopen : env.openPath e.mountPath with
      | error err => simp [hopen]
      | ok reader =>
        simp only [ih, List.mem_cons, forall_eq_or_imp, List.map_cons, List.nodup_cons,
          List.map_append, List.map_nil, List.mem_append, List.not_mem_nil, or_false]
        constructor
        · rintro ⟨hprefixes, hnodup, hopens⟩
          refine ⟨⟨hnew, fun e' he' h => hprefixes e' he' (.inl h)⟩, ⟨?_, hnodup⟩, ⟨reader, hopen⟩,
            hopens⟩
          intro hmem
          obtain ⟨e', he', heq⟩ := List.mem_map.1 hmem
          exact hprefixes e' he' (.inr heq)
        · rintro ⟨⟨-, hprefixes⟩, ⟨hne, hnodup⟩, -, hopens⟩
          refine ⟨fun e' he' h => ?_, hnodup, hopens⟩
          obtain h | h := h
          · exact hprefixes e' he' h
          · exact hne (h ▸ List.mem_map_of_mem he')

theorem written_catalog_file (doubles : Json.Doubles) (message : Bytes → String)
    (openPath : String → Except String Snapshot) (entries : List CatalogEntry) :
  Server.Catalog.CatalogFile.load (jsonEnv doubles message openPath)
    (some (marshalCatalog doubles entries)) = .ok ⟨entries.map serverEntry⟩
  := by
  simp only [Server.Catalog.CatalogFile.load, jsonEnv, fromSlice_marshalCatalog]

/-- The server loads the entries that the agent prints, and accepts them if their prefixes are
different and every path opens. -/
theorem written_catalog_loads (doubles : Json.Doubles) (message : Bytes → String)
    (openPath : String → Except String Snapshot) (entries : List CatalogEntry) :
  Server.Catalog.CatalogFile.load (jsonEnv doubles message openPath)
      (some (marshalCatalog doubles entries)) = .ok ⟨entries.map serverEntry⟩
    ∧ (Server.Catalog.Loadable (jsonEnv doubles message openPath)
        (some (marshalCatalog doubles entries))
      ↔ (entries.map (·.keyPrefix)).Nodup
        ∧ ∀ e ∈ entries, ∃ snapshot, openPath e.mountPath = .ok snapshot)
  := by
  have hload := written_catalog_file doubles message openPath entries
  refine ⟨hload, ?_⟩
  simp only [Server.Catalog.Loadable, Server.Catalog.buildDatasets, hload, openDatasets_ok_iff]
  simp [serverEntry, jsonEnv, Function.comp_def]

end NodeAgent
