import Mathlib.Logic.Function.Basic

/-!
# Wire contracts

The types that the control plane and the node agent exchange (`api/types.go`), and the Go
values they are made of.
-/

namespace ControlPlane

/-- A Go slice; `none` is `nil`, which `reflect.DeepEqual` tells from an empty slice. -/
abbrev Slice (α : Type) := Option (List α)

/-- The elements of a slice. -/
def Slice.elems {α : Type} (s : Slice α) : List α :=
  s.getD []

inductive VersionState where
  | building
  | ready
  | active
  | retired
  | failed
  deriving DecidableEq, Repr

/-- A snapshot version. -/
structure VersionRecord where
  id : String
  dataset : String
  diskURL : String
  pvName : String
  state : VersionState
  shardCount : Int
  createdAt : Int
  descriptor : String
  messageName : String
  indexBytes : Int
  deriving DecidableEq, Repr

/-- The active version of a dataset, as a node gets it. -/
structure NodeAssignment where
  dataset : String
  keyPrefix : String
  version : VersionRecord
  deriving DecidableEq, Repr

structure AssignmentsResponse where
  generation : Int
  assignments : Slice NodeAssignment
  deriving DecidableEq, Repr

/-- One entry of `catalog.json`. -/
structure CatalogEntry where
  dataset : String
  keyPrefix : String
  versionID : String
  mountPath : String
  deriving DecidableEq, Repr

inductive DatasetPhase where
  | none
  | attaching
  | mounting
  | active
  | unmounting
  | error
  deriving DecidableEq, Repr

/-- The state of a dataset on a node; the zero value stands for a dataset that is not
there. -/
structure DatasetState where
  dataset : String := ""
  keyPrefix : String := ""
  versionID : String := ""
  phase : DatasetPhase := .none
  pvName : String := ""
  mountPath : String := ""
  error : String := ""
  deriving DecidableEq, Repr

/-- A version record with the given identifier, dataset and volume. -/
def VersionRecord.of (id dataset pvName : String) : VersionRecord :=
  ⟨id, dataset, "", pvName, .active, 1, 0, "", "", 0⟩

/-- The assignment of a version, whose key prefix is the name of the dataset. -/
def NodeAssignment.of (dataset id pvName : String) : NodeAssignment :=
  ⟨dataset, dataset, VersionRecord.of id dataset pvName⟩

end ControlPlane
