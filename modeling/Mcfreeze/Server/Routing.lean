import Mcfreeze.Server.HotSwap

/-!
# Routing by prefix

A catalog names a key prefix for each of its datasets (`catalog.rs`), and a get is answered
by the dataset whose prefix stands before the first colon of the requested key
(`lookup.rs`).  Any string is accepted as a prefix, so a prefix with a colon in it is
accepted, and never found.
-/

namespace Server.HotSwap

open Catalog

/-- The bytes of a prefix. -/
def prefixBytes (p : String) : Bytes :=
  p.toUTF8.data.toList

/-- The key under which the entry `k` of the dataset with the given prefix is requested. -/
def requestKey (p : String) (k : Bytes) : Bytes :=
  prefixBytes p ++ 0x3a :: k

/-- What a get is routed to: the prefix and the handle of the dataset that answers it, and
the key that is looked up there. -/
structure Route (Snapshot : Type) where
  keyPrefix : String
  handle : DatasetHandle Snapshot
  key : Bytes

section

variable {Snapshot : Type}

/-- Where a catalog routes a get; `none` if no dataset answers it. -/
def routeOf (catalog : ActiveCatalog Snapshot) (key : Bytes) : Option (Route Snapshot) :=
  match splitPrefix key with
  | .error _ => none
  | .ok (datasetBytes, actualKey) =>
    match String.fromUTF8? ⟨datasetBytes.toArray⟩ with
    | none => none
    | some dataset =>
      (catalog.datasets.lookup dataset).map fun handle => ⟨dataset, handle, actualKey⟩

/-- A routed get is answered with what its snapshot has under the key, and a get that is
not routed finds nothing. -/
theorem answerFrom_of_routeOf (read : Snapshot → Bytes → Except String LookupOutcome)
    (catalog : ActiveCatalog Snapshot) (key : Bytes) :
  (∀ route, routeOf catalog key = some route →
      answerFrom read catalog key = (read route.handle.reader route.key).mapError .format)
    ∧ (routeOf catalog key = none → ∀ value, answerFrom read catalog key ≠ .ok (.hit value))
  := by
  rw [routeOf, answerFrom]
  cases splitPrefix key with
  | error e => simp
  | ok split =>
    obtain ⟨datasetBytes, actualKey⟩ := split
    cases hutf8 : String.fromUTF8? ⟨datasetBytes.toArray⟩ with
    | none => simp [hutf8]
    | some dataset =>
      simp only [hutf8, catalogGet]
      cases catalog.datasets.lookup dataset with
      | none => simp
      | some handle =>
        simp only [Option.map_some, Option.some.injEq, forall_eq', reduceCtorEq, false_implies, and_true]
        cases read handle.reader actualKey with
        | error e => rfl
        | ok outcome => rfl

/-! ### Splitting -/

theorem splitPrefix_append {dataset : Bytes} (h : 0x3a ∉ dataset) (key : Bytes) :
  splitPrefix (dataset ++ 0x3a :: key) = .ok (dataset, key)
  := by
  induction dataset with
  | nil => rfl
  | cons b dataset ih =>
    rw [List.mem_cons, not_or] at h
    rw [List.cons_append, splitPrefix, if_neg (Ne.symm h.1), ih h.2]

/-- A key is split at its first colon. -/
theorem splitPrefix_eq_ok {key dataset actualKey : Bytes}
    (h : splitPrefix key = .ok (dataset, actualKey)) :
  key = dataset ++ 0x3a :: actualKey ∧ 0x3a ∉ dataset
  := by
  induction key generalizing dataset with
  | nil => simp [splitPrefix] at h
  | cons b key ih =>
    rw [splitPrefix] at h
    split at h
    · next hb =>
      obtain ⟨rfl, rfl⟩ := Prod.mk.inj (Except.ok.inj h)
      simp [hb]
    · next hb =>
      split at h
      · simp at h
      · next dataset' actualKey' hrest =>
        obtain ⟨rfl, rfl⟩ := Prod.mk.inj (Except.ok.inj h)
        obtain ⟨rfl, hnot⟩ := ih hrest
        refine ⟨rfl, ?_⟩
        rw [List.mem_cons, not_or]
        exact ⟨Ne.symm hb, hnot⟩

theorem fromUTF8_prefixBytes (p : String) :
  String.fromUTF8? ⟨(prefixBytes p).toArray⟩ = some p
  := by
  have hbytes : (⟨(prefixBytes p).toArray⟩ : ByteArray) = p.toByteArray := rfl
  rw [hbytes, String.fromUTF8?, dif_pos p.isValidUTF8]
  rfl

theorem prefixBytes_of_fromUTF8 {b : Bytes} {p : String}
    (h : String.fromUTF8? ⟨b.toArray⟩ = some p) :
  prefixBytes p = b
  := by
  rw [String.fromUTF8?] at h
  split at h
  · obtain rfl := Option.some.inj h
    rfl
  · simp at h

/-! ### Accepted catalogs -/

variable {env : Env Snapshot}

theorem lookup_append_of_some {datasets rest : List (String × DatasetHandle Snapshot)} {p : String}
    {handle : DatasetHandle Snapshot} (h : datasets.lookup p = some handle) :
  (datasets ++ rest).lookup p = some handle
  := by
  rw [List.lookup_append, h, Option.some_or]

/-- Every entry of an accepted catalog is opened, and found under its prefix; what was
there before stays. -/
theorem openDatasets_spec {entries : List CatalogEntry}
    {datasets opened : List (String × DatasetHandle Snapshot)}
    (h : openDatasets env entries datasets = .ok opened) :
  (∀ p handle, datasets.lookup p = some handle → opened.lookup p = some handle)
    ∧ ∀ entry ∈ entries, ∃ handle, DatasetHandle.open env entry = .ok handle
      ∧ opened.lookup entry.keyPrefix = some handle
  := by
  induction entries generalizing datasets with
  | nil =>
    obtain rfl := Except.ok.inj h
    exact ⟨fun p handle hp => hp, by simp⟩
  | cons entry entries ih =>
    rw [openDatasets] at h
    split at h
    · simp at h
    · next hnew =>
      split at h
      · simp at h
      · next handle hopen =>
        obtain ⟨hkept, hall⟩ := ih h
        constructor
        · intro p handle' hp
          apply hkept p handle' (lookup_append_of_some hp)
        · intro entry' hentry'
          rcases List.mem_cons.mp hentry' with rfl | hentry'
          · refine ⟨handle, hopen, hkept _ _ ?_⟩
            have hnone : datasets.lookup entry'.keyPrefix = none := by
              rw [List.lookup_eq_none_iff]
              intro d hd
              simp only [Bool.not_eq_true, List.any_eq_false, beq_iff_eq] at hnew
              simpa using Ne.symm (hnew d hd)
            rw [List.lookup_append, hnone, Option.none_or, List.lookup_cons_self]
          · apply hall entry' hentry'

/-- A catalog that is built has all datasets of the file opened. -/
theorem buildCatalogSync_eq_ok {data : Option Bytes} {generation : Nat} {file : CatalogFile}
    {catalog : ActiveCatalog Snapshot} (hload : CatalogFile.load env data = .ok file)
    (h : buildCatalogSync env data generation = .ok catalog) :
  openDatasets env file.entries [] = .ok catalog.datasets
  := by
  rw [buildCatalogSync, buildDatasets, hload] at h
  dsimp only at h
  split at h
  · simp at h
  · next datasets hopen =>
    obtain rfl := Except.ok.inj h
    exact hopen

theorem routeOf_requestKey {catalog : ActiveCatalog Snapshot} {p : String}
    {handle : DatasetHandle Snapshot} (hp : 0x3a ∉ prefixBytes p)
    (hlookup : catalog.datasets.lookup p = some handle) (k : Bytes) :
  routeOf catalog (requestKey p k) = some ⟨p, handle, k⟩
  := by
  rw [routeOf, requestKey, splitPrefix_append hp]
  simp only [fromUTF8_prefixBytes, hlookup, Option.map_some]

/-- A key that is routed has the prefix of the dataset, which has no colon. -/
theorem routeOf_eq_some {catalog : ActiveCatalog Snapshot} {key : Bytes} {route : Route Snapshot}
    (h : routeOf catalog key = some route) :
  key = requestKey route.keyPrefix route.key ∧ 0x3a ∉ prefixBytes route.keyPrefix
    ∧ catalog.datasets.lookup route.keyPrefix = some route.handle
  := by
  rw [routeOf] at h
  split at h
  · simp at h
  · next datasetBytes actualKey hsplit =>
    split at h
    · simp at h
    · next dataset hutf8 =>
      obtain ⟨handle, hlookup, rfl⟩ := Option.map_eq_some_iff.mp h
      obtain ⟨rfl, hnot⟩ := splitPrefix_eq_ok hsplit
      obtain rfl := prefixBytes_of_fromUTF8 hutf8
      exact ⟨rfl, hnot, hlookup⟩

/-- In a catalog that was accepted, a get of a key under an entry's prefix is routed to the
entry's snapshot and that key exactly if the prefix has no colon, and is then answered with
what the snapshot has there.  A get is only ever routed to a dataset whose prefix it
names. -/
theorem accepted_prefix_reachable_iff {data : Option Bytes} {generation : Nat} {file : CatalogFile}
    {catalog : ActiveCatalog Snapshot} (hload : CatalogFile.load env data = .ok file)
    (hbuild : buildCatalogSync env data generation = .ok catalog)
    (read : Snapshot → Bytes → Except String LookupOutcome) :
  (∀ entry ∈ file.entries, ∃ handle, DatasetHandle.open env entry = .ok handle ∧ ∀ k,
      (routeOf catalog (requestKey entry.keyPrefix k) = some ⟨entry.keyPrefix, handle, k⟩
        ↔ 0x3a ∉ prefixBytes entry.keyPrefix)
      ∧ (0x3a ∉ prefixBytes entry.keyPrefix → ∀ value, read handle.reader k = .ok (.hit value) →
        answerFrom read catalog (requestKey entry.keyPrefix k) = .ok (.hit value)))
    ∧ ∀ key,
      (∀ route, routeOf catalog key = some route →
        key = requestKey route.keyPrefix route.key
          ∧ catalog.datasets.lookup route.keyPrefix = some route.handle
          ∧ answerFrom read catalog key = (read route.handle.reader route.key).mapError .format)
      ∧ (routeOf catalog key = none → ∀ value, answerFrom read catalog key ≠ .ok (.hit value))
  := by
  constructor
  · intro entry hentry
    obtain ⟨handle, hopen, hlookup⟩ :=
      (openDatasets_spec (buildCatalogSync_eq_ok hload hbuild)).2 entry hentry
    refine ⟨handle, hopen, fun k => ⟨⟨?_, ?_⟩, ?_⟩⟩
    · intro hroute
      exact (routeOf_eq_some hroute).2.1
    · intro hp
      apply routeOf_requestKey hp hlookup
    · intro hp value hread
      rw [(answerFrom_of_routeOf read catalog _).1 _ (routeOf_requestKey hp hlookup k), hread]
      rfl
  · intro key
    obtain ⟨hrouted, hnone⟩ := answerFrom_of_routeOf read catalog key
    refine ⟨?_, hnone⟩
    intro route hroute
    obtain ⟨hkey, -, hlookup⟩ := routeOf_eq_some hroute
    exact ⟨hkey, hlookup, hrouted route hroute⟩

end

/-! ### Two catalogs -/

/-- A node whose catalog has one dataset with the given prefix; its snapshot is its path. -/
def oneEntry (p : String) : Env String :=
  ⟨fun _ => .ok ⟨[⟨"ds", p, "v1", "/mnt"⟩]⟩, .ok⟩

/-- The snapshot holds one key. -/
def oneKey (_ : String) (key : Bytes) : Except String LookupOutcome :=
  if key = [0x6b] then .ok (.hit [1]) else .ok (.miss true)

theorem plain_prefix_reachable :
  ∃ catalog, buildCatalogSync (oneEntry "my-ds") (some []) 0 = .ok catalog
    ∧ answerFrom oneKey catalog (requestKey "my-ds" [0x6b]) = .ok (.hit [1])
  := by
  have hbuild : buildCatalogSync (oneEntry "my-ds") (some []) 0
      = .ok ⟨[("my-ds", ⟨"ds", "v1", "/mnt"⟩)], 0⟩ := rfl
  refine ⟨_, hbuild, ?_⟩
  obtain ⟨handle, hopen, hall⟩ := (accepted_prefix_reachable_iff rfl hbuild oneKey).1
    ⟨"ds", "my-ds", "v1", "/mnt"⟩ (by decide)
  apply (hall [0x6b]).2 (by decide) [1] rfl

/-- A catalog with the prefix `a:b` is accepted, and a get of the key that its snapshot holds
finds nothing. -/
theorem colon_prefix_unreachable :
  ∃ catalog, buildCatalogSync (oneEntry "a:b") (some []) 0 = .ok catalog
    ∧ catalog.datasets.lookup "a:b" = some ⟨"ds", "v1", "/mnt"⟩
    ∧ oneKey "/mnt" [0x6b] = .ok (.hit [1])
    ∧ answerFrom oneKey catalog (requestKey "a:b" [0x6b]) = .ok (.miss false)
  := by
  refine ⟨⟨[("a:b", ⟨"ds", "v1", "/mnt"⟩)], 0⟩, rfl, rfl, rfl, ?_⟩
  decide

end Server.HotSwap
