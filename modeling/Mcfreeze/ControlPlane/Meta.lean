import Mcfreeze.V4.Document
import Mcfreeze.Loader.Markers

/-!
# Reading the metadata of a snapshot

The control plane reads three values of `meta.json` (`parseMetaFields` of
`controller/datasetversion.go`): the descriptor and the message name below `encoding`, and
the size of the index below a member `index` of the document.

The first two are what the command line wrote.  The loader puts the size of the index
elsewhere, below the statistics, and the control plane always reads zero.
-/

open Format Crash V4

namespace ControlPlane

/-! ### The fields that are read -/

structure Protobuf where
  descriptor : String := ""
  messageName : String := ""
  deriving DecidableEq, Repr

structure Encoding where
  protobuf : Option Protobuf := none
  deriving DecidableEq, Repr

structure IndexFields where
  indexBytes : Int := 0
  deriving DecidableEq, Repr

/-- What is decoded of the document. -/
structure MetaFields where
  encoding : Option Encoding := none
  index : Option IndexFields := none
  deriving DecidableEq, Repr

def protobufFields : Json.Fields Protobuf :=
  [("descriptor", fun p j => (Json.decodeString p.descriptor j).map fun s => { p with descriptor := s }),
    ("message_name", fun p j =>
      (Json.decodeString p.messageName j).map fun s => { p with messageName := s })]

def encodingFields : Json.Fields Encoding :=
  [("protobuf", fun e j =>
    (Json.decodePointer protobufFields {} e.protobuf j).map fun p => { e with protobuf := p })]

def indexFields : Json.Fields IndexFields :=
  [("index_bytes", fun i j =>
    (Json.decodeInt64 i.indexBytes j).map fun n => { i with indexBytes := n })]

def metaFields : Json.Fields MetaFields :=
  [("encoding", fun m j =>
      (Json.decodePointer encodingFields {} m.encoding j).map fun e => { m with encoding := e }),
    ("index", fun m j =>
      (Json.decodePointer indexFields {} m.index j).map fun i => { m with index := i })]

/-- The descriptor, the message name and the size of the index; `none` is a document that is
empty or does not parse. -/
def parseMetaFields (data : Option Json) : String × String × Int :=
  match data.bind (Json.decodeStruct metaFields {}) with
  | none => ("", "", 0)
  | some m =>
    let (descriptor, messageName) :=
      match m.encoding.bind (·.protobuf) with
      | some p => (p.descriptor, p.messageName)
      | none => ("", "")
    (descriptor, messageName, (m.index.map (·.indexBytes)).getD 0)

/-! ### What the loader wrote -/

/-- A protobuf descriptor and its message name. -/
structure Patch where
  descriptorBytes : Bytes
  messageFqn : String

/-- The document after an optional patch. -/
def patched (standardEncode : Bytes → String) (patch : Option Patch) (doc : Json) : Option Json :=
  match patch with
  | none => some doc
  | some p => patchMetaDescriptor standardEncode p.descriptorBytes p.messageFqn doc

/-- The descriptor that should be read. -/
def descriptorOf (standardEncode : Bytes → String) (patch : Option Patch) : String :=
  (patch.map fun p => standardEncode p.descriptorBytes).getD ""

/-- The message name that should be read. -/
def messageNameOf (patch : Option Patch) : String :=
  (patch.map fun p => p.messageFqn).getD ""

section

variable (b : V4Builder) (m : Measured) (createdAt : String) (scatter : Option Json)
  (info : UnifiedIndexInfo) (nKeys : Nat) (d : Dir)

/-- The document of a snapshot has no member that the control plane reads. -/
theorem finalizeDocument_unknown :
  ∃ members, b.finalizeDocument m createdAt scatter info nKeys d = .obj members
    ∧ Json.Unknown metaFields members
  := by
  refine ⟨_, rfl, ?_⟩
  have hnames : ∀ name ∈ ["format_version", "hash_algorithm", "verify_seed", "partitions", "stats"],
      (Json.fieldOf metaFields name).isNone = true := by decide
  apply hnames

/-- Below `encoding`, the two strings are read as they are. -/
theorem decodeStruct_encoding (descriptor messageName : String) :
  Json.decodeStruct encodingFields {}
      (.obj [("protobuf", .obj [("descriptor", .str descriptor), ("message_name", .str messageName)])])
    = some ⟨some ⟨descriptor, messageName⟩⟩
  := by
  have hne : Json.foldName "descriptor" ≠ Json.foldName "message_name" := by decide
  have hprotobuf : Json.decodeStruct protobufFields {}
      (.obj [("descriptor", .str descriptor), ("message_name", .str messageName)])
        = some ⟨descriptor, messageName⟩ := by
    rw [protobufFields, Json.decodeStruct_obj_cons, Json.takeMember_cons_self, Json.decodeString,
      Option.map_some, Option.bind_some, Json.decodeStruct_obj_cons, Json.takeMember_cons_ne _ _ _ hne,
      Json.takeMember_cons_self]
    rfl
  rw [encodingFields, Json.decodeStruct_obj_cons, Json.takeMember_cons_self, Json.decodePointer_obj,
    Option.getD_none, hprotobuf]
  rfl

/-- From a published snapshot the descriptor and the message name are read as they were
patched, and the size of the index as zero. -/
theorem parseMetaFields_patched (standardEncode : Bytes → String) (patch : Option Patch) :
  parseMetaFields
      (patched standardEncode patch (b.finalizeDocument m createdAt scatter info nKeys d))
    = (descriptorOf standardEncode patch, messageNameOf patch, 0)
  := by
  obtain ⟨members, hdoc, hunknown⟩ :=
    finalizeDocument_unknown b m createdAt scatter info nKeys d
  rw [hdoc, parseMetaFields]
  cases patch with
  | none =>
    rw [patched, Option.bind_some, Json.decodeStruct_unknown hunknown]
    rfl
  | some p =>
    rw [patched, patchMetaDescriptor, Json.decodeStruct_set hunknown, metaFields,
      Json.takeMember_cons_self, Json.decodePointer_obj, Option.getD_none, decodeStruct_encoding]
    rfl

end

/-- After a build from any directory, the control plane reads from the published document,
patched or not, the descriptor, the message name and the size of the index that the build
recorded exactly when that size is zero. -/
theorem parseMetaFields_iff {S : Type} {P : Phases (BuildTasks ⊕ S) Dir} {b : V4Builder} {d d' : Dir}
    {info : UnifiedIndexInfo} {nKeys : Nat}
    (hbuild : Prog.Steps P (b.build : Root S _) d (.done (.ok (info, nKeys))) d')
    (m : Measured) (createdAt : String) (scatter : Option Json) (standardEncode : Bytes → String)
    (patch : Option Patch) :
  ∃ done, d'.indexDone = some (.whole done)
    ∧ (parseMetaFields
          (patched standardEncode patch (b.finalizeDocument m createdAt scatter info nKeys d'))
        = (descriptorOf standardEncode patch, messageNameOf patch, (done.indexBytes : Int))
      ↔ done.indexBytes = 0)
  := by
  obtain ⟨done, hdone, -⟩ := indexDone_of_build hbuild
  refine ⟨done, hdone, ?_⟩
  rw [parseMetaFields_patched]
  simp only [Prod.mk.injEq, true_and]
  omega

/-- Whatever a build recorded, the control plane reads it from the published document. -/
def MetaIsRead : Prop :=
  ∀ (b : V4Builder) (d d' : Dir) (info : UnifiedIndexInfo) (nKeys : Nat),
    Prog.Steps (V4.phases (Loader.Scatter.phases Dir PartDir PartitionWriter)) b.build d
        (.done (.ok (info, nKeys))) d' →
      ∀ (m : Measured) (createdAt : String) (scatter : Option Json) (standardEncode : Bytes → String)
        (patch : Option Patch) (done : IndexDone), d'.indexDone = some (.whole done) →
        parseMetaFields
            (patched standardEncode patch (b.finalizeDocument m createdAt scatter info nKeys d'))
          = (descriptorOf standardEncode patch, messageNameOf patch, (done.indexBytes : Int))

/-- Scatter and build with one pair. -/
def builtOne : Option (Except Error (UnifiedIndexInfo × Nat) × Dir) :=
  (Loader.scatteredV4 [.ok onePair]).bind fun x =>
    let build : Root (Loader.Scatter Dir PartDir PartitionWriter) _ := oneBuilder.build
    build.exec partDirs (Loader.Scatter.run 16 100) 16 x.2

/-- The size of the index that a build recorded. -/
def recordedBytes (d : Dir) : Option Nat :=
  match d.indexDone with
  | some (.whole done) => some done.indexBytes
  | _ => none

/-- The build of one pair records an index of sixteen bytes. -/
theorem builtOne_steps :
  ∃ d d' info done, Prog.Steps (V4.phases (Loader.Scatter.phases Dir PartDir PartitionWriter))
      oneBuilder.build d (.done (.ok (info, 1))) d'
    ∧ d'.indexDone = some (.whole done) ∧ done.indexBytes = 16
  := by
  have hrun : builtOne.map (fun x => (x.1, recordedBytes x.2))
      = some (.ok (⟨[0], [2]⟩, 1), some 16) := by
    decide +kernel
  obtain ⟨⟨r, d'⟩, hbuilt, hresult⟩ := Option.map_eq_some_iff.mp hrun
  obtain ⟨hr, hbytes⟩ := Prod.mk.inj hresult
  dsimp only at hr hbytes
  obtain ⟨x, -, hexec⟩ := Option.bind_eq_some_iff.mp hbuilt
  rw [hr] at hexec
  have hsteps := Prog.steps_of_exec (Loader.Scatter.run_schedules 16 100) hexec
  obtain ⟨done, hdone, -⟩ := indexDone_of_build hsteps
  rw [recordedBytes, hdone] at hbytes
  exact ⟨x.2, d', _, done, hsteps, hdone, Option.some.inj hbytes⟩

/-- The numbers of the build of one pair. -/
def measuredOne : Measured :=
  ⟨0x3fe0000000000000, 0x3fe0000000000000, 0x3fe0000000000000, some 0x3f50624dd2f1a9fc, none,
    [0x3fe0000000000000]⟩

/-- Sixteen bytes are recorded, and zero is read. -/
theorem not_metaIsRead :
  ¬ MetaIsRead
  := by
  intro h
  obtain ⟨d, d', info, done, hsteps, hdone, hbytes⟩ := builtOne_steps
  have hread := h oneBuilder d d' info 1 hsteps measuredOne "2026-01-01T00:00:00Z" none (fun _ => "")
    none done hdone
  rw [parseMetaFields_patched, hbytes] at hread
  revert hread
  decide

/-- The build of one pair and a patched document. -/
theorem parseMetaFields_iff_one :
  ∃ d d' info done, Prog.Steps (V4.phases (Loader.Scatter.phases Dir PartDir PartitionWriter))
      oneBuilder.build d (.done (.ok (info, 1))) d'
    ∧ d'.indexDone = some (.whole done)
    ∧ (parseMetaFields (patched (fun _ => "Cg==") (some ⟨[0x0a], "acme.User"⟩)
          (oneBuilder.finalizeDocument measuredOne "2026-01-01T00:00:00Z" none info 1 d'))
        = ("Cg==", "acme.User", (done.indexBytes : Int))
      ↔ done.indexBytes = 0)
  := by
  obtain ⟨d, d', info, done, hsteps, -, -⟩ := builtOne_steps
  obtain ⟨done', hdone, hiff⟩ := parseMetaFields_iff hsteps measuredOne "2026-01-01T00:00:00Z" none
    (fun _ => "Cg==") (some ⟨[0x0a], "acme.User"⟩)
  exact ⟨d, d', info, done', hsteps, hdone, hiff⟩

end ControlPlane
