import Mcfreeze.ControlPlane.Api

/-!
# Custom resources

The objects of the Kubernetes API that the controllers read and write
(`api/v1alpha1/types.go`), with the fields they look at.
-/

namespace ControlPlane

/-- The labels of an object. -/
abbrev Labels := List (String × String)

/-- A dataset. -/
structure Dataset where
  keyPrefix : String
  labels : Labels
  deriving DecidableEq, Repr

/-- A version of a dataset.  The name and the value of the dataset label are its metadata;
a version that was just created has no state. -/
structure DatasetVersion where
  name : String
  datasetLabel : String
  creationTimestamp : Int
  dataset : String
  versionID : String
  shardCount : Int
  state : Option VersionState
  pvName : String
  snapshotPath : String
  buildJob : String
  diskURL : String
  snapshotMeta : String
  error : String
  deriving DecidableEq, Repr

/-- A version as its creation paths make it. -/
def DatasetVersion.new (name dataset versionID : String) (shardCount creationTimestamp : Int) :
    DatasetVersion :=
  ⟨name, dataset, creationTimestamp, dataset, versionID, shardCount, none, "", "", "", "", "", ""⟩

/-- A binding of datasets to nodes, with selectors in `Selector`. -/
structure DatasetBinding (Selector : Type) where
  nodeSelector : Option Selector
  datasetSelector : Option Selector

end ControlPlane
