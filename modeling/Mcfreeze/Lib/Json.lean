import Mathlib.Algebra.Order.Ring.Int
import Mathlib.Data.List.Basic

/-!
# JSON values

The values of JSON documents, changes to the members of an object, and the way a decoder
takes the members of an object into the fields of a record: a member is matched to a field
by its name up to case, an unknown member is skipped, `null` leaves a field as it is, and a
value of another type is an error.
-/

/-- A JSON value.  A number is an integer or the bits of a double. -/
inductive Json where
  | null
  | bool (b : Bool)
  | num (n : Int)
  | double (bits : UInt64)
  | str (s : String)
  | arr (elems : List Json)
  | obj (members : List (String × Json))

namespace Json

/-- Remove a member; only objects have members. -/
def remove (j : Json) (name : String) : Json :=
  match j with
  | obj members => obj (members.filter fun m => m.1 ≠ name)
  | j => j

/-- Replace a member, or add it.  `null` becomes an object, and other values cannot get
members. -/
def set? (j : Json) (name : String) (v : Json) : Option Json :=
  match j with
  | null => some (obj [(name, v)])
  | obj members => some (obj (members.filter (fun m => m.1 ≠ name) ++ [(name, v)]))
  | _ => none

/-! ### Names up to case -/

/-- Fold a character: beside the small ASCII letters, two characters fold to an ASCII
letter, the long s and the Kelvin sign. -/
def foldRune (c : Char) : Char :=
  if c = '\u017f' then 'S' else if c = '\u212a' then 'K' else c.toUpper

def foldName (name : String) : List Char :=
  name.toList.map foldRune

/-! ### Decoding into records -/

variable {α : Type}

def decodeString (old : String) : Json → Option String
  | null => some old
  | str s => some s
  | _ => none

/-- Decode a signed number of 64 bits. -/
def decodeInt64 (old : Int) : Json → Option Int
  | null => some old
  | num n => if -2 ^ 63 ≤ n ∧ n < 2 ^ 63 then some n else none
  | _ => none

/-- The fields of a record, by name: how a value is taken into a field. -/
abbrev Fields (α : Type) := List (String × (α → Json → Option α))

/-- The field that a member is taken into. -/
def fieldOf (fields : Fields α) (name : String) : Option (α → Json → Option α) :=
  (fields.find? fun f => foldName f.1 = foldName name).map Prod.snd

/-- Take a member into its field, if there is one. -/
def takeMember (fields : Fields α) (a : α) (m : String × Json) : Option α :=
  match fieldOf fields m.1 with
  | some take => take a m.2
  | none => some a

def decodeStruct (fields : Fields α) (a : α) : Json → Option α
  | null => some a
  | obj members => members.foldlM (takeMember fields) a
  | _ => none

/-- Decode into a pointer to a record: `null` clears it. -/
def decodePointer (fields : Fields α) (zero : α) (old : Option α) : Json → Option (Option α)
  | null => some none
  | j => (decodeStruct fields (old.getD zero) j).map some

theorem takeMember_cons_self (fields : Fields α) (take : α → Json → Option α) (a : α) (name : String)
    (v : Json) :
  takeMember ((name, take) :: fields) a (name, v) = take a v
  := by
  simp [takeMember, fieldOf]

theorem takeMember_cons_ne (fields : Fields α) (take : α → Json → Option α) (a : α)
    {name name' : String} (h : foldName name ≠ foldName name') (v : Json) :
  takeMember ((name, take) :: fields) a (name', v) = takeMember fields a (name', v)
  := by
  simp [takeMember, fieldOf, h]

theorem decodeStruct_obj_cons (fields : Fields α) (a : α) (m : String × Json)
    (members : List (String × Json)) :
  decodeStruct fields a (obj (m :: members))
    = (takeMember fields a m).bind fun a => decodeStruct fields a (obj members)
  :=
  rfl

theorem decodePointer_obj (fields : Fields α) (zero : α) (old : Option α)
    (members : List (String × Json)) :
  decodePointer fields zero old (obj members)
    = (decodeStruct fields (old.getD zero) (obj members)).map some
  :=
  rfl

/-- The names are not those of fields. -/
def Unknown (fields : Fields α) (members : List (String × Json)) : Prop :=
  ∀ name ∈ members.map Prod.fst, (fieldOf fields name).isNone = true

/-- Members with unknown names change nothing. -/
theorem takeMembers_unknown {fields : Fields α} {members : List (String × Json)}
    (h : Unknown fields members) (a : α) :
  members.foldlM (takeMember fields) a = some a
  := by
  induction members with
  | nil => rfl
  | cons m members ih =>
    have hm : fieldOf fields m.1 = none :=
      Option.isNone_iff_eq_none.mp (h m.1 (by simp))
    have htake : takeMember fields a m = some a := by
      rw [takeMember, hm]
    rw [List.foldlM_cons, htake]
    apply ih
    intro name hname
    apply h name
    rw [List.map_cons]
    apply List.mem_cons_of_mem _ hname

/-- Members of other names are skipped. -/
theorem decodeStruct_unknown {fields : Fields α} {members : List (String × Json)}
    (h : Unknown fields members) (a : α) :
  decodeStruct fields a (obj members) = some a
  := by
  rw [decodeStruct, takeMembers_unknown h]

/-- A member that is set is the one that is decoded, when the others have other names. -/
theorem decodeStruct_set {fields : Fields α} {members : List (String × Json)}
    (h : Unknown fields members) (name : String) (v : Json) (a : α) :
  ((obj members).set? name v).bind (decodeStruct fields a) = takeMember fields a (name, v)
  := by
  have hother : Unknown fields (members.filter fun m => m.1 ≠ name) := by
    intro n hn
    obtain ⟨m, hm, rfl⟩ := List.mem_map.mp hn
    apply h m.1 (List.mem_map_of_mem (List.mem_of_mem_filter hm))
  rw [set?, Option.bind_some, decodeStruct, List.foldlM_append, takeMembers_unknown hother]
  simp

end Json
