import Mcfreeze.Lib.Bytes
import Mathlib

/-!
# Keys from Arrow columns

How the keys of a batch come out of an Arrow column (`source.rs`, and `adapter.rs` of
`mcfreeze-encode`).  An array has a slot for each of its rows, and perhaps a null bitmap; the
slot of a null row holds bytes or a number as every other slot does.

There are two adapters: the raw one takes the values from a second column, and the protobuf
one has them transcoded from the other columns.  Both read the keys by `for_each_key`, which
does not look at the bitmap, and each makes its own checks before.
-/

namespace Loader

/-! ### Arrays -/

/-- The slots of an array, and which of its rows are valid if it has a null bitmap. -/
structure Slots (α : Type) where
  values : List α
  nulls : Option (List Bool)
  length_eq : ∀ valid ∈ nulls, valid.length = values.length

variable {α : Type}

/-- What the array says: a value for each row, or null. -/
def Slots.rows (a : Slots α) : List (Option α) :=
  match a.nulls with
  | none => a.values.map some
  | some valid => List.zipWith (fun v ok => if ok then some v else none) a.values valid

def Slots.nullCount (a : Slots α) : Nat :=
  match a.nulls with
  | none => 0
  | some valid => valid.count false

/-- The types of a column; those that no code reads are told apart by how they are printed. -/
inductive DataType where
  | binary
  | largeBinary
  | utf8
  | largeUtf8
  | int32
  | int64
  | uint32
  | uint64
  | other (display : String)
  deriving DecidableEq, Repr

/-- What a slot of a column holds. -/
def DataType.Native : DataType → Type
  | binary => Bytes
  | largeBinary => Bytes
  | utf8 => String
  | largeUtf8 => String
  | int32 => Int32
  | int64 => Int64
  | uint32 => UInt32
  | uint64 => UInt64
  | other _ => Unit

structure Column where
  dataType : DataType
  slots : Slots dataType.Native

/-- A batch has named columns of equal length. -/
structure RecordBatch where
  numRows : Nat
  columns : List (String × Column)
  length_eq : ∀ column ∈ columns, column.2.slots.values.length = numRows

def RecordBatch.column (batch : RecordBatch) (idx : Fin batch.columns.length) : Column :=
  (batch.columns.get idx).2

/-- The name of a column in the schema. -/
def RecordBatch.field (batch : RecordBatch) (idx : Fin batch.columns.length) : String :=
  (batch.columns.get idx).1

/-! ### Reading keys and values -/

def utf8Bytes (s : String) : Bytes :=
  s.toUTF8.data.toList

/-- The decimal text of a number. -/
def itoa (n : Int) : Bytes :=
  utf8Bytes n.repr

/-- How the key of a row is made of its slot, in a column of a type that is read. -/
def DataType.keyBytes : (dataType : DataType) → Option (dataType.Native → Bytes)
  | binary => some id
  | largeBinary => some id
  | utf8 => some utf8Bytes
  | largeUtf8 => some utf8Bytes
  | int32 => some fun v => itoa (Int32.toInt v)
  | int64 => some fun v => itoa (Int64.toInt v)
  | uint32 => some fun v => itoa (UInt32.toNat v)
  | uint64 => some fun v => itoa (UInt64.toNat v)
  | other _ => none

/-- The bytes of a slot of a column of bytes. -/
def DataType.valueBytes : (dataType : DataType) → Option (dataType.Native → Bytes)
  | binary => some id
  | largeBinary => some id
  | utf8 => some utf8Bytes
  | largeUtf8 => some utf8Bytes
  | _ => none

/-- The rows that are visited with their keys; `none` is the panic at a type that is not read. -/
def forEachKey (col : Column) : Option (List (Nat × Bytes)) :=
  col.dataType.keyBytes.map fun key => col.slots.values.mapIdx fun i v => (i, key v)

/-- The bytes in row `i`; `none` is a panic. -/
def byteValue (col : Column) (i : Nat) : Option Bytes := do
  let value ← col.dataType.valueBytes
  let v ← col.slots.values[i]?
  return value v

/-! ### The raw adapter -/

/-- Why a batch is refused: a key or value column of a type that is not read, with the name of
the column, null keys, or a failure of the transcoder. -/
inductive BatchError where
  | keyType (name : String) (dataType : DataType)
  | valueType (name : String) (dataType : DataType)
  | unsupportedKeyType (dataType : DataType)
  | nullKeys
  | transcode (e : String)
  deriving DecidableEq, Repr

def validateKeyColumn (col : Column) (name : String) : Except BatchError Unit :=
  match col.dataType with
  | .other display => .error (.keyType name (.other display))
  | _ => .ok ()

def validateByteColumn (col : Column) (name : String) : Except BatchError Unit :=
  match col.dataType with
  | .binary => .ok ()
  | .largeBinary => .ok ()
  | .utf8 => .ok ()
  | .largeUtf8 => .ok ()
  | dataType => .error (.valueType name dataType)

/-- A batch of pairs, backed by two columns. -/
structure ArrowKvBatch where
  keys : Column
  values : Column

def ArrowKvBatch.fromRecordBatch (batch : RecordBatch)
    (keyColIdx valColIdx : Fin batch.columns.length) : Except BatchError ArrowKvBatch := do
  let keys := batch.column keyColIdx
  let values := batch.column valColIdx
  validateKeyColumn keys (batch.field keyColIdx)
  validateByteColumn values (batch.field valColIdx)
  return ⟨keys, values⟩

/-- The pairs that are visited; `none` is a panic. -/
def ArrowKvBatch.forEachKv (kv : ArrowKvBatch) : Option (List (Bytes × Bytes)) := do
  let keys ← forEachKey kv.keys
  keys.mapM fun x => (byteValue kv.values x.1).map fun value => (x.2, value)

/-! ### The protobuf adapter -/

/-- Keys from a column, and the values that the transcoder made. -/
structure EncodedBatch where
  keys : Column
  values : List Bytes

def EncodedBatch.forEachKv (kv : EncodedBatch) : Option (List (Bytes × Bytes)) := do
  let keys ← forEachKey kv.keys
  keys.mapM fun x => kv.values[x.1]?.map fun value => (x.2, value)

/-- The columns with an index that is wanted. -/
def RecordBatch.project (batch : RecordBatch) (wanted : Nat → Bool) : RecordBatch where
  numRows := batch.numRows
  columns := (batch.columns.zipIdx.filter fun x => wanted x.2).map (·.1)
  length_eq := by
    intro column h
    obtain ⟨x, hx, rfl⟩ := List.mem_map.mp h
    exact batch.length_eq _ (List.fst_mem_of_mem_zipIdx (List.mem_of_mem_filter hx))

/-- A transcoder of apb: a message for each row of a batch. -/
abbrev Transcoder := RecordBatch → Except String (List Bytes)

/-- The check of `adapter.rs` that has the name of the one of `source.rs`. -/
def validateEncodedKeyColumn (col : Column) : Except BatchError Unit :=
  match col.dataType with
  | .other display => .error (.unsupportedKeyType (.other display))
  | _ => .ok ()

def encodeBatch (batch : RecordBatch) (keyColIdx : Fin batch.columns.length)
    (includeKeyInValue : Bool) (transcodeArrow : Transcoder) : Except BatchError EncodedBatch := do
  let keyCol := batch.column keyColIdx
  validateEncodedKeyColumn keyCol
  if 0 < keyCol.slots.nullCount then throw .nullKeys
  let valueBatch := batch.project fun i => includeKeyInValue || i != keyColIdx
  let values ← (transcodeArrow valueBatch).mapError .transcode
  return ⟨keyCol, values⟩

/-! ### What is visited -/

theorem utf8Bytes_injective :
  Function.Injective utf8Bytes
  := by
  intro s t h
  have hbytes : s.toUTF8 = t.toUTF8 := by
    apply ByteArray.ext
    apply Array.ext'
    exact h
  exact String.toByteArray_inj.mp hbytes

theorem itoa_injective :
  Function.Injective itoa
  := by
  intro m n h
  exact Int.repr_injective (utf8Bytes_injective h)

/-- Different slots have different keys. -/
theorem DataType.keyBytes_injective {dataType : DataType} {key : dataType.Native → Bytes}
    (h : dataType.keyBytes = some key) :
  Function.Injective key
  := by
  cases dataType with
  | binary =>
    cases h
    exact Function.injective_id
  | largeBinary =>
    cases h
    exact Function.injective_id
  | utf8 =>
    cases h
    exact utf8Bytes_injective
  | largeUtf8 =>
    cases h
    exact utf8Bytes_injective
  | int32 =>
    cases h
    intro v w heq
    exact Int32.toInt_inj.mp (itoa_injective heq)
  | int64 =>
    cases h
    intro v w heq
    exact Int64.toInt_inj.mp (itoa_injective heq)
  | uint32 =>
    cases h
    intro v w heq
    exact UInt32.toNat_inj.mp (Int.ofNat_inj.mp (itoa_injective heq))
  | uint64 =>
    cases h
    intro v w heq
    exact UInt64.toNat_inj.mp (Int.ofNat_inj.mp (itoa_injective heq))
  | other display => simp [keyBytes] at h

/-- A row is null where the bitmap says so. -/
theorem none_mem_zipWith {values : List α} {valid : List Bool}
    (hlength : valid.length = values.length) :
  none ∈ List.zipWith (fun v ok => if ok then some v else none) values valid ↔ false ∈ valid
  := by
  induction values generalizing valid with
  | nil =>
    rw [List.length_eq_zero_iff.mp hlength]
    simp
  | cons v values ih =>
    rcases valid with _ | ⟨ok, valid⟩
    · simp at hlength
    have hrest : valid.length = values.length := by simpa using hlength
    have hih := ih hrest
    cases ok with
    | false => simp
    | true => simp [hih]

/-- Without nulls every row has its value. -/
theorem zipWith_valid {values : List α} {valid : List Bool}
    (hlength : valid.length = values.length) (h : false ∉ valid) :
  List.zipWith (fun v ok => if ok then some v else none) values valid = values.map some
  := by
  induction values generalizing valid with
  | nil => simp
  | cons v values ih =>
    rcases valid with _ | ⟨ok, valid⟩
    · simp at hlength
    obtain ⟨hok, hvalid⟩ := not_or.mp (List.mem_cons.not.mp h)
    have hih := ih (by simpa using hlength) hvalid
    cases ok with
    | false => exact absurd rfl hok
    | true => simp [hih]

/-- The null count of an array is zero if no row is null. -/
theorem Slots.nullCount_eq (a : Slots α) :
  a.nullCount = 0 ↔ none ∉ a.rows
  := by
  have hlength := a.length_eq
  unfold nullCount rows
  cases hnulls : a.nulls with
  | none => simp
  | some valid =>
    simp only
    rw [none_mem_zipWith (hlength valid hnulls), List.count_eq_zero]

/-- A column without nulls has a value in every row. -/
theorem Slots.rows_eq {a : Slots α} (h : none ∉ a.rows) :
  a.rows = a.values.map some
  := by
  have hlength := a.length_eq
  unfold rows at h ⊢
  cases hnulls : a.nulls with
  | none => rfl
  | some valid =>
    rw [hnulls] at h
    simp only at h ⊢
    rw [none_mem_zipWith (hlength valid hnulls)] at h
    exact zipWith_valid (hlength valid hnulls) h

/-- The pairs have one key for each row, in the order of the rows: what the row says, and
nothing for null. -/
def Faithful (col : Column) (pairs : List (Bytes × Bytes)) : Prop :=
  ∃ key : col.dataType.Native → Bytes, col.dataType.keyBytes = some key ∧ Function.Injective key ∧
    pairs.map (fun kv => some kv.1) = col.slots.rows.map (Option.map key)

/-- Rows that all have a value give pairs with their keys, in order. -/
theorem mapM_pairs {value : Nat → Option Bytes} {rows : List (Nat × Bytes)}
    (hvalue : ∀ x ∈ rows, ∃ v, value x.1 = some v) :
  ∃ pairs : List (Bytes × Bytes),
    rows.mapM (fun x => (value x.1).map fun v => (x.2, v)) = some pairs ∧
    pairs.map (·.1) = rows.map (·.2)
  := by
  induction rows with
  | nil => exact ⟨[], rfl, rfl⟩
  | cons x rows ih =>
    obtain ⟨v, hv⟩ := hvalue x List.mem_cons_self
    obtain ⟨pairs, hpairs, hkeys⟩ := ih fun y hy => hvalue y (List.mem_cons_of_mem _ hy)
    refine ⟨(x.2, v) :: pairs, ?_, ?_⟩
    · rw [List.mapM_cons, hv, hpairs]
      rfl
    · rw [List.map_cons, List.map_cons, hkeys]

/-- Both adapters visit all rows when a value is found for each, and the key of a row is what
its slot says, null or not. -/
theorem forEachKey_pairs {col : Column} {key : col.dataType.Native → Bytes}
    {value : Nat → Option Bytes} (hkey : col.dataType.keyBytes = some key)
    (hvalue : ∀ i < col.slots.values.length, ∃ v, value i = some v) :
  ∃ rows pairs, forEachKey col = some rows ∧
    rows.mapM (fun x => (value x.1).map fun v => (x.2, v)) = some pairs ∧
    pairs.map (·.1) = col.slots.values.map key
  := by
  have hrows : ∀ x ∈ col.slots.values.mapIdx fun i v => (i, key v), ∃ v, value x.1 = some v := by
    intro x hx
    obtain ⟨i, hi, rfl⟩ := List.mem_mapIdx.mp hx
    exact hvalue i hi
  obtain ⟨pairs, hpairs, hkeys⟩ := mapM_pairs hrows
  refine ⟨_, pairs, ?_, hpairs, ?_⟩
  · rw [forEachKey, hkey, Option.map_some]
  · rw [hkeys]
    apply List.ext_getElem
    · simp
    · intro i _ _
      simp

/-- Keys that are read off all slots are those of the rows if and only if no row is null. -/
theorem faithful_slots_iff {col : Column} {key : col.dataType.Native → Bytes}
    {pairs : List (Bytes × Bytes)} (hkey : col.dataType.keyBytes = some key)
    (hpairs : pairs.map (·.1) = col.slots.values.map key) :
  Faithful col pairs ↔ none ∉ col.slots.rows
  := by
  have hsome : pairs.map (fun kv => some kv.1) = (col.slots.values.map some).map (Option.map key) := by
    have h := congrArg (List.map some) hpairs
    rw [List.map_map, List.map_map] at h
    rw [List.map_map]
    exact h
  constructor
  · rintro ⟨key', _, _, hkeys⟩ hnull
    have hmem := List.mem_map_of_mem (f := Option.map key') hnull
    rw [← hkeys] at hmem
    simp at hmem
  · intro hnull
    refine ⟨key, hkey, DataType.keyBytes_injective hkey, ?_⟩
    rw [hsome, Slots.rows_eq hnull]

/-! ### The two adapters -/

/-- The raw adapter, with the column of the values, or the protobuf adapter. -/
inductive Adapter (batch : RecordBatch) where
  | raw (valColIdx : Fin batch.columns.length)
  | protobuf (includeKeyInValue : Bool) (transcodeArrow : Transcoder)

/-- Make a batch and visit its pairs. -/
def Adapter.forEachKv {batch : RecordBatch} (keyColIdx : Fin batch.columns.length) :
    Adapter batch → Except BatchError (Option (List (Bytes × Bytes)))
  | .raw valColIdx =>
    (ArrowKvBatch.fromRecordBatch batch keyColIdx valColIdx).map ArrowKvBatch.forEachKv
  | .protobuf includeKeyInValue transcodeArrow =>
    (encodeBatch batch keyColIdx includeKeyInValue transcodeArrow).map EncodedBatch.forEachKv

/-- The transcoder makes a message of each row. -/
def Adapter.Lawful {batch : RecordBatch} : Adapter batch → Prop
  | .raw _ => True
  | .protobuf _ transcodeArrow => ∀ batch values,
    transcodeArrow batch = .ok values → values.length = batch.numRows

/-- The batch is refused, or the keys that are visited are those of the column. -/
def Adapter.Faithful {batch : RecordBatch} (keyColIdx : Fin batch.columns.length)
    (adapter : Adapter batch) : Prop :=
  ∀ result, adapter.forEachKv keyColIdx = .ok result →
    ∃ pairs, result = some pairs ∧ Loader.Faithful (batch.column keyColIdx) pairs

theorem RecordBatch.length_column (batch : RecordBatch) (idx : Fin batch.columns.length) :
  (batch.column idx).slots.values.length = batch.numRows
  :=
  batch.length_eq _ (List.get_mem _ _)

theorem validateKeyColumn_ok {col : Column} (name : String) :
  validateKeyColumn col name = .ok () ↔ ∃ key, col.dataType.keyBytes = some key
  := by
  unfold validateKeyColumn
  cases col.dataType with
  | other display => simp [DataType.keyBytes]
  | _ => exact ⟨fun _ => ⟨_, rfl⟩, fun _ => rfl⟩

theorem validateEncodedKeyColumn_ok {col : Column} :
  validateEncodedKeyColumn col = .ok () ↔ ∃ key, col.dataType.keyBytes = some key
  := by
  unfold validateEncodedKeyColumn
  cases col.dataType with
  | other display => simp [DataType.keyBytes]
  | _ => exact ⟨fun _ => ⟨_, rfl⟩, fun _ => rfl⟩

theorem validateByteColumn_ok {col : Column} (name : String) :
  validateByteColumn col name = .ok () ↔ ∃ value, col.dataType.valueBytes = some value
  := by
  unfold validateByteColumn
  cases col.dataType with
  | binary => exact ⟨fun _ => ⟨_, rfl⟩, fun _ => rfl⟩
  | largeBinary => exact ⟨fun _ => ⟨_, rfl⟩, fun _ => rfl⟩
  | utf8 => exact ⟨fun _ => ⟨_, rfl⟩, fun _ => rfl⟩
  | largeUtf8 => exact ⟨fun _ => ⟨_, rfl⟩, fun _ => rfl⟩
  | _ => simp [DataType.valueBytes]

/-- The raw adapter refuses a batch because of the types of its columns only. -/
theorem fromRecordBatch_ok {batch : RecordBatch} {keyColIdx valColIdx : Fin batch.columns.length}
    {kv : ArrowKvBatch} :
  ArrowKvBatch.fromRecordBatch batch keyColIdx valColIdx = .ok kv ↔
    kv = ⟨batch.column keyColIdx, batch.column valColIdx⟩ ∧
    (∃ key, (batch.column keyColIdx).dataType.keyBytes = some key) ∧
    ∃ value, (batch.column valColIdx).dataType.valueBytes = some value
  := by
  rw [← validateKeyColumn_ok (batch.field keyColIdx), ← validateByteColumn_ok (batch.field valColIdx),
    ArrowKvBatch.fromRecordBatch]
  cases validateKeyColumn (batch.column keyColIdx) (batch.field keyColIdx) with
  | error e => simp [bind, Except.bind]
  | ok u =>
    cases validateByteColumn (batch.column valColIdx) (batch.field valColIdx) with
    | error e => simp [bind, Except.bind]
    | ok u => simp [bind, Except.bind, pure, Except.pure, eq_comm]

/-- A batch is encoded only with keys of a supported type that are all there. -/
theorem encodeBatch_ok {batch : RecordBatch} {keyColIdx : Fin batch.columns.length}
    {includeKeyInValue : Bool} {transcodeArrow : Transcoder} {kv : EncodedBatch}
    (h : encodeBatch batch keyColIdx includeKeyInValue transcodeArrow = .ok kv) :
  kv.keys = batch.column keyColIdx ∧
    (∃ key, (batch.column keyColIdx).dataType.keyBytes = some key) ∧
    (batch.column keyColIdx).slots.nullCount = 0 ∧
    transcodeArrow (batch.project fun i => includeKeyInValue || i != keyColIdx) = .ok kv.values
  := by
  rw [← validateEncodedKeyColumn_ok]
  simp only [encodeBatch] at h
  cases hkey : validateEncodedKeyColumn (batch.column keyColIdx) with
  | error e => simp [hkey, bind, Except.bind] at h
  | ok u =>
    by_cases hnull : 0 < (batch.column keyColIdx).slots.nullCount
    · simp [hkey, hnull, bind, Except.bind, throw, throwThe, MonadExceptOf.throw] at h
    · cases hvalues : transcodeArrow
          (batch.project fun i => includeKeyInValue || i != keyColIdx) with
      | error e => simp [hkey, hnull, hvalues, bind, Except.bind, Except.mapError] at h
      | ok values =>
        simp [hkey, hnull, hvalues, bind, Except.bind, pure, Except.pure, Except.mapError] at h
        subst h
        exact ⟨rfl, rfl, by omega, rfl⟩

/-- Every row of the columns gives a pair with its key. -/
theorem ArrowKvBatch.forEachKv_pairs {keys values : Column} {key : keys.dataType.Native → Bytes}
    {value : values.dataType.Native → Bytes} (hkey : keys.dataType.keyBytes = some key)
    (hvalue : values.dataType.valueBytes = some value)
    (hlength : values.slots.values.length = keys.slots.values.length) :
  ∃ pairs, ArrowKvBatch.forEachKv ⟨keys, values⟩ = some pairs ∧
    pairs.map (·.1) = keys.slots.values.map key
  := by
  have hfound : ∀ i < keys.slots.values.length, ∃ v, byteValue values i = some v := by
    intro i hi
    refine ⟨value (values.slots.values[i]), ?_⟩
    simp [byteValue, hvalue, List.getElem?_eq_getElem (hlength ▸ hi)]
  obtain ⟨rows, pairs, hrows, hpairs, hkeys⟩ := forEachKey_pairs hkey hfound
  refine ⟨pairs, ?_, hkeys⟩
  simp only [ArrowKvBatch.forEachKv, hrows]
  exact hpairs

/-- Every row of an encoded batch gives a pair with its key. -/
theorem EncodedBatch.forEachKv_pairs {kv : EncodedBatch} {key : kv.keys.dataType.Native → Bytes}
    (hkey : kv.keys.dataType.keyBytes = some key)
    (hlength : kv.values.length = kv.keys.slots.values.length) :
  ∃ pairs, kv.forEachKv = some pairs ∧ pairs.map (·.1) = kv.keys.slots.values.map key
  := by
  have hfound : ∀ i < kv.keys.slots.values.length, ∃ v, kv.values[i]? = some v := by
    intro i hi
    exact ⟨kv.values[i], List.getElem?_eq_getElem (hlength ▸ hi)⟩
  obtain ⟨rows, pairs, hrows, hpairs, hkeys⟩ := forEachKey_pairs hkey hfound
  refine ⟨pairs, ?_, hkeys⟩
  simp only [EncodedBatch.forEachKv, hrows]
  exact hpairs

/-- The records of the protobuf adapter are those of the batch: it refuses a null key. -/
theorem protobuf_faithful {batch : RecordBatch} (keyColIdx : Fin batch.columns.length)
    {includeKeyInValue : Bool} {transcodeArrow : Transcoder}
    (hlawful : (Adapter.protobuf includeKeyInValue transcodeArrow : Adapter batch).Lawful) :
  (Adapter.protobuf includeKeyInValue transcodeArrow).Faithful keyColIdx
  := by
  intro result hresult
  rw [Adapter.forEachKv] at hresult
  cases hok : encodeBatch batch keyColIdx includeKeyInValue transcodeArrow with
  | error e => simp [hok, Except.map] at hresult
  | ok kv =>
    obtain ⟨hkeys, hkey, hnull, htranscode⟩ := encodeBatch_ok hok
    rw [← hkeys] at hkey hnull
    obtain ⟨key, hkey⟩ := hkey
    have hvalues := hlawful _ _ htranscode
    obtain ⟨pairs, hpairs, hfst⟩ := EncodedBatch.forEachKv_pairs hkey (by
      rw [hvalues, hkeys, batch.length_column, RecordBatch.project])
    rw [hok, Except.map, hpairs] at hresult
    rw [← hkeys]
    refine ⟨pairs, (Except.ok.inj hresult).symm, (faithful_slots_iff hkey hfst).mpr ?_⟩
    exact (Slots.nullCount_eq _).mp hnull

/-- The raw adapter makes keys of null rows; the protobuf adapter refuses them. -/
theorem adapter_faithful_iff {batch : RecordBatch} (keyColIdx : Fin batch.columns.length)
    {adapter : Adapter batch} (hlawful : adapter.Lawful) :
  adapter.Faithful keyColIdx ↔
    ∀ valColIdx, adapter = .raw valColIdx →
      (batch.column keyColIdx).dataType.keyBytes.isSome →
      (batch.column valColIdx).dataType.valueBytes.isSome →
      none ∉ (batch.column keyColIdx).slots.rows
  := by
  have hlength := batch.length_column
  cases adapter with
  | raw valColIdx =>
    constructor
    · rintro h _ ⟨⟩ hkey hvalue
      obtain ⟨key, hkey⟩ := Option.isSome_iff_exists.mp hkey
      obtain ⟨value, hvalue⟩ := Option.isSome_iff_exists.mp hvalue
      obtain ⟨pairs, hpairs, hkeys⟩ := ArrowKvBatch.forEachKv_pairs hkey hvalue (by rw [hlength, hlength])
      have hok := fromRecordBatch_ok.mpr ⟨rfl, ⟨key, hkey⟩, ⟨value, hvalue⟩⟩
      obtain ⟨pairs', heq, hfaithful⟩ := h (some pairs) (by
        rw [Adapter.forEachKv, hok, Except.map, hpairs])
      cases heq
      exact (faithful_slots_iff hkey hkeys).mp hfaithful
    · intro h result hresult
      rw [Adapter.forEachKv] at hresult
      cases hok : ArrowKvBatch.fromRecordBatch batch keyColIdx valColIdx with
      | error e => simp [hok, Except.map] at hresult
      | ok kv =>
        obtain ⟨rfl, ⟨key, hkey⟩, ⟨value, hvalue⟩⟩ := fromRecordBatch_ok.mp hok
        obtain ⟨pairs, hpairs, hkeys⟩ :=
          ArrowKvBatch.forEachKv_pairs hkey hvalue (by rw [hlength, hlength])
        refine ⟨pairs, ?_, (faithful_slots_iff hkey hkeys).mpr ?_⟩
        · rw [hok, Except.map, hpairs] at hresult
          exact (Except.ok.inj hresult).symm
        · exact h valColIdx rfl (by rw [hkey]; rfl) (by rw [hvalue]; rfl)
  | protobuf includeKeyInValue transcodeArrow =>
    constructor
    · rintro _ _ ⟨⟩
    · intro _
      exact protobuf_faithful keyColIdx hlawful

/-- Two users of which the second has no name, and their ages. -/
def nullKeys : RecordBatch where
  numRows := 2
  columns := [("name", ⟨.utf8, ⟨["ann", ""], some [true, false], by rintro _ ⟨⟩; rfl⟩⟩),
    ("age", ⟨.binary, ⟨[[42], [7]], none, by rintro _ ⟨⟩⟩⟩)]
  length_eq := by
    intro column h
    rcases List.mem_cons.mp h with rfl | h
    · rfl
    · rw [List.mem_singleton.mp h]
      rfl

/-- The null row has the empty key. -/
theorem raw_not_faithful :
  ¬ (.raw ⟨1, by decide⟩ : Adapter nullKeys).Faithful ⟨0, by decide⟩
  := by
  intro h
  obtain ⟨pairs, heq, key, _, _, hkeys⟩ := h (some [(utf8Bytes "ann", [42]), ([], [7])]) rfl
  cases heq
  have hsecond := congrArg (fun l => l[1]?) hkeys
  cases hsecond

/-- With the ages as keys the raw adapter has no null row to read, and the protobuf adapter,
here with empty messages, refuses the names. -/
theorem adapter_faithful_ages :
  (.raw ⟨0, by decide⟩ : Adapter nullKeys).Faithful ⟨1, by decide⟩ ∧
    (.protobuf false fun batch => .ok (.replicate batch.numRows []) :
      Adapter nullKeys).Faithful ⟨0, by decide⟩
  := by
  constructor
  · apply (adapter_faithful_iff ⟨1, by decide⟩ ?_).mpr
    · rintro _ _ _ _ hnull
      obtain ⟨_, _, h⟩ := List.mem_map.mp hnull
      cases h
    · trivial
  · apply (adapter_faithful_iff ⟨0, by decide⟩ ?_).mpr
    · rintro _ ⟨⟩
    · intro batch values h
      cases h
      exact List.length_replicate

end Loader
